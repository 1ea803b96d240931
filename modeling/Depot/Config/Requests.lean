import Depot.Config.Records
import Depot.Accounts.Handlers

/-!
# Create requests

The requests that create stores and repositories and their conversion into records
(`server/src/server/api/conversions.rs`), and the `[initialization]` section of the
configuration with its check (`server/src/server/config/init.rs` and `config/mod.rs`).

Results:
* `users_nodup`: a section that is accepted declares no user twice.
-/

namespace Depot.Config

open List

open Accounts (CreateUserRequest)

/-! ## Stores -/

/-- `CreateStoreRequest` (`api/stores.rs`, lines 24–57) with its defaults. -/
structure CreateStoreRequest where
  name : String
  storeType : String
  root : Option String := none
  sync : Bool := true
  ioSize : UInt64 := 1024
  directIo : Bool := false
  bucket : Option String := none
  endpoint : Option String := none
  region : String := "us-east-1"
  keyPrefix : Option String := none
  accessKey : Option String := none
  secretKey : Option String := none
  maxRetries : UInt32 := 3
  connectTimeoutSecs : UInt64 := 3
  readTimeoutSecs : UInt64 := 0
  retryMode : String := "standard"
  deriving DecidableEq

/-- `normalize_s3_prefix` (lines 20–28). -/
def normalizeS3Prefix (raw : Option String) : Option String :=
  let trimmed := (((raw.getD "").dropWhile '/').dropEndWhile '/').toString
  if trimmed.isEmpty then none else some (trimmed ++ "/")

/-- The message for a number outside of its range. -/
def outOfRange (field : String) (value : ℕ) (range : String) : String :=
  field ++ ": " ++ toString value ++ " must be in " ++ range

/-- `build_store_kind` (lines 32–101). -/
def buildStoreKind (x : SettingsExt) (req : CreateStoreRequest) : Except String StoreKind :=
  if req.storeType = "file" then
    match req.root with
    | none => .error "root is required for file stores"
    | some root =>
        if req.ioSize < 4 || req.ioSize > 65536 then
          .error "io_size must be between 4 and 65536 KiB"
        else .ok (.file root req.sync req.ioSize req.directIo)
  else if req.storeType = "s3" then
    match req.bucket.filter fun bucket => !bucket.isEmpty with
    | none => .error "bucket is required for s3 stores"
    | some bucket =>
        if req.maxRetries > 20 then
          .error (outOfRange "max_retries" req.maxRetries.toNat "[0, 20]")
        else if req.connectTimeoutSecs = 0 || req.connectTimeoutSecs > 7200 then
          .error (outOfRange "connect_timeout_secs" req.connectTimeoutSecs.toNat "[1, 7200]")
        else if req.readTimeoutSecs > 7200 then
          .error (outOfRange "read_timeout_secs" req.readTimeoutSecs.toNat
            "[0, 7200] (0 = disabled)")
        else if req.retryMode ≠ "standard" && req.retryMode ≠ "adaptive" then
          .error ("retry_mode: " ++ x.debug req.retryMode ++
            " must be \"standard\" or \"adaptive\"")
        else
          .ok (.s3 bucket req.endpoint req.region (normalizeS3Prefix req.keyPrefix) req.accessKey
            req.secretKey req.maxRetries req.connectTimeoutSecs req.readTimeoutSecs req.retryMode)
  else .error ("unknown store_type: " ++ req.storeType)

/-! ## Repositories -/

/-- `CreateRepoRequest` (`api/repositories.rs`, lines 30–50). -/
structure CreateRepoRequest where
  name : String
  repoType : RepoType
  format : ArtifactFormat
  store : String
  upstreamUrl : Option String := none
  cacheTtlSecs : Option UInt64 := none
  members : Option (List String) := none
  writeMember : Option String := none
  listen : Option String := none
  cleanupMaxUnaccessedDays : Option UInt64 := none
  cleanupMaxAgeDays : Option UInt64 := none
  cleanupUntaggedManifests : Option Bool := none
  upstreamAuth : Option UpstreamAuth := none
  contentDisposition : Option ContentDisposition := none
  repodataDepth : Option UInt32 := none
  signingKey : Option String := none
  deriving DecidableEq

/-- `CreateRepoRequest::format_config` (lines 54–75). -/
def CreateRepoRequest.formatConfig (req : CreateRepoRequest) : FormatConfig :=
  match req.format with
  | .raw => .raw req.contentDisposition
  | .docker => .docker req.listen req.cleanupUntaggedManifests
  | .pypi => .pypi
  | .apt => .apt
  | .golang => .golang
  | .helm => .helm
  | .cargo => .cargo
  | .yum => .yum req.repodataDepth
  | .npm => .npm

/-- What `build_repo_kind_and_format` says about `repodata_depth` (lines 122–135). -/
def repodataDepthError (req : CreateRepoRequest) : Option String :=
  match req.repodataDepth with
  | none => none
  | some depth =>
      if depth > 5 then some "repodata_depth must be 0-5"
      else if req.format ≠ .yum then some "repodata_depth is only valid for Yum repositories"
      else if req.repoType = .cache then
        some "repodata_depth is not supported for cache repositories"
      else none

/-- The kind of a repository (lines 139–172). -/
def repoKindOf (req : CreateRepoRequest) : Except String RepoKind :=
  match req.repoType with
  | .hosted => .ok .hosted
  | .cache =>
      match req.upstreamUrl with
      | none => .error "upstream_url required for cache repos"
      | some url => .ok (.cache url (req.cacheTtlSecs.getD 0) req.upstreamAuth)
  | .proxy =>
      match req.members with
      | none => .error "members required for proxy repos"
      | some members =>
          if members.isEmpty then .error "members required for proxy repos"
          else if req.writeMember.any fun wm => !members.contains wm then
            .error "write_member must be one of the listed members"
          else .ok (.proxy members req.writeMember)

/-- `build_repo_kind_and_format` (lines 109–175). -/
def buildRepoKindAndFormat (req : CreateRepoRequest) : Except String (RepoKind × FormatConfig) :=
  if req.cleanupMaxAgeDays = some 0 then .error "cleanup_max_age_days must be >= 1"
  else if req.cleanupMaxUnaccessedDays = some 0 then
    .error "cleanup_max_unaccessed_days must be >= 1"
  else
    match repodataDepthError req with
    | some message => .error message
    | none => (repoKindOf req).map fun kind => (kind, req.formatConfig)

/-- The end of `validate_yum_proxy_member_depth` (lines 192–203): the depths of the Yum members
    must agree. -/
def memberDepthError : List (String × UInt32) → Option String
  | [] => none
  | first :: rest =>
      (rest.find? fun member => member.2 ≠ first.2).map fun member =>
        "all Yum proxy members must have the same repodata_depth (member '" ++ first.1 ++
          "' has depth " ++ toString first.2.toNat ++ ", member '" ++ member.1 ++
          "' has depth " ++ toString member.2.toNat ++ ")"

/-! ## The section -/

/-- `CreateRoleRequest` (`api/roles.rs`, lines 45–51). -/
structure CreateRoleRequest where
  name : String
  description : String := ""
  capabilities : List CapabilityGrant := []
  deriving DecidableEq

/-- `InitializationConfig` (`config/init.rs`, lines 55–66). -/
structure InitializationConfig where
  roles : List CreateRoleRequest := []
  stores : List CreateStoreRequest := []
  repositories : List CreateRepoRequest := []
  users : List CreateUserRequest := []
  settings : Option Settings := none
  deriving DecidableEq

/-- `is_empty` (lines 70–76). -/
def InitializationConfig.isEmpty (init : InitializationConfig) : Bool :=
  init.roles.isEmpty && init.stores.isEmpty && init.repositories.isEmpty && init.users.isEmpty &&
    init.settings.isNone

/-- The errors about names that are empty or repeated; `check` finds the others, and a name that
    is empty has none. -/
def namedErrors {α : Type} (nameOf : α → String) (empty : String) (duplicate : String → String)
    (check : α → List String) : List String → List α → List String
  | _, [] => []
  | seen, a :: as =>
      if (nameOf a).isEmpty then empty :: namedErrors nameOf empty duplicate check seen as
      else
        (if seen.contains (nameOf a) then [duplicate (nameOf a)] else []) ++ check a ++
          namedErrors nameOf empty duplicate check (nameOf a :: seen) as

/-- An error, if a condition holds. -/
def errorIf (c : Bool) (message : String) : List String := if c then [message] else []

/-- The errors about a store (`config/mod.rs`, lines 353–403). -/
def storeErrors (x : SettingsExt) (s : CreateStoreRequest) : List String :=
  let place := "initialization.stores." ++ s.name ++ ": "
  if s.storeType = "file" then
    errorIf s.root.isNone (place ++ "file stores require `root`") ++
      errorIf (s.ioSize < 4 || s.ioSize > 65536)
        (place ++ "io_size must be between 4 and 65536 KiB")
  else if s.storeType = "s3" then
    errorIf (s.bucket.all String.isEmpty) (place ++ "s3 stores require `bucket`") ++
      errorIf (s.maxRetries > 20) (place ++ "max_retries must be in [0, 20]") ++
      errorIf (s.connectTimeoutSecs = 0 || s.connectTimeoutSecs > 7200)
        (place ++ "connect_timeout_secs must be in [1, 7200]") ++
      errorIf (s.readTimeoutSecs > 7200) (place ++ "read_timeout_secs must be in [0, 7200]") ++
      errorIf (s.retryMode ≠ "standard" && s.retryMode ≠ "adaptive")
        (place ++ "retry_mode must be \"standard\" or \"adaptive\"")
  else [place ++ "unknown store_type " ++ x.debug s.storeType]

/-- The errors about a repository (lines 419–475). -/
def repoErrors (x : SettingsExt) (stores : List String) (r : CreateRepoRequest) : List String :=
  let place := "initialization.repositories." ++ r.name ++ ": "
  errorIf (!stores.contains r.store) (place ++ "references unknown store " ++ x.debug r.store) ++
    errorIf (r.repoType = .cache && r.upstreamUrl.isNone)
      (place ++ "cache requires upstream_url") ++
    (if r.repoType = .proxy then
      match r.members.filter fun members => !members.isEmpty with
      | some members =>
          match r.writeMember with
          | some wm => errorIf (!members.contains wm)
              (place ++ "write_member " ++ x.debug wm ++ " not in members")
          | none => []
      | none => [place ++ "proxy requires non-empty members"]
    else []) ++
    errorIf (r.cleanupMaxAgeDays = some 0) (place ++ "cleanup_max_age_days must be >= 1") ++
    errorIf (r.cleanupMaxUnaccessedDays = some 0)
      (place ++ "cleanup_max_unaccessed_days must be >= 1") ++
    match r.repodataDepth with
    | some depth =>
        errorIf (depth > 5) (place ++ "repodata_depth must be 0-5") ++
          errorIf (r.format ≠ .yum) (place ++ "repodata_depth is only valid for Yum")
    | none => []

/-- The errors about the members of a proxy (lines 480–491). -/
def memberErrors (x : SettingsExt) (repos : List String) (r : CreateRepoRequest) : List String :=
  ((r.members.getD []).filter fun m => !repos.contains m).map fun m =>
    "initialization.repositories." ++ r.name ++ ": proxy member " ++ x.debug m ++ " not declared"

/-- The errors about a user (lines 506–515). -/
def userErrors (x : SettingsExt) (roles : List String) (u : CreateUserRequest) : List String :=
  (u.roles.filter fun role => !roles.contains role && !(["admin", "read-only"].contains role)).map
    fun role => "initialization.users." ++ u.username ++ ": references unknown role " ++ x.debug role

/-- The names of a list, without the empty one. -/
def declared (names : List String) : List String := names.filter fun n => !n.isEmpty

/-- `validate_initialization` (lines 328–525): all errors. -/
def validateInitialization (x : SettingsExt) (init : InitializationConfig) : List String :=
  let duplicate (table noun n : String) :=
    "initialization." ++ table ++ ": duplicate " ++ noun ++ " " ++ x.debug n
  let roles := declared (init.roles.map (·.name))
  let stores := declared (init.stores.map (·.name))
  let repos := declared (init.repositories.map (·.name))
  namedErrors (·.name) "initialization.roles: empty name" (duplicate "roles" "name")
      (fun _ => []) [] init.roles ++
    namedErrors (·.name) "initialization.stores: empty name" (duplicate "stores" "name")
      (storeErrors x) [] init.stores ++
    namedErrors (·.name) "initialization.repositories: empty name"
      (duplicate "repositories" "name") (repoErrors x stores) [] init.repositories ++
    init.repositories.flatMap (memberErrors x repos) ++
    namedErrors (·.username) "initialization.users: empty username"
      (duplicate "users" "username") (userErrors x roles) [] init.users ++
    match init.settings with
    | some settings =>
        match settings.validate x with
        | .ok () => []
        | .error errors => errors.map ("initialization.settings: " ++ ·)
    | none => []

/-- Names without errors are different from those seen and from each other. -/
theorem namedErrors_nodup {α : Type} {nameOf : α → String} {empty : String}
    {duplicate : String → String} {check : α → List String} {seen : List String} {as : List α}
    (h : namedErrors nameOf empty duplicate check seen as = []) :
    (as.map nameOf).Nodup ∧ ∀ a ∈ as, nameOf a ∉ seen := by
  induction as generalizing seen with
  | nil => simp
  | cons a as ih =>
    unfold namedErrors at h
    split_ifs at h with hempty hseen
    · simp at h
    · simp only [nil_append, append_eq_nil_iff] at h
      obtain ⟨hnodup, hnew⟩ := ih h.2
      refine ⟨nodup_cons.mpr ⟨fun hmem => ?_, hnodup⟩, fun b hb => ?_⟩
      · obtain ⟨b, hb, hname⟩ := mem_map.mp hmem
        exact hnew b hb (hname ▸ mem_cons_self)
      · rcases mem_cons.mp hb with rfl | hb
        · simpa using hseen
        · exact fun hmem => hnew b hb (mem_cons_of_mem _ hmem)

/-- A section that is accepted declares no user twice. -/
theorem users_nodup {x : SettingsExt} {init : InitializationConfig}
    (h : validateInitialization x init = []) : (init.users.map (·.username)).Nodup := by
  simp only [validateInitialization, append_eq_nil_iff] at h
  exact (namedErrors_nodup h.1.2).1

end Depot.Config
