import Depot.Config.Requests
import Depot.Lib.Trial

/-!
# The first start

What the server does at its start before it serves requests: whether the store is fresh, the
default roles and users, and the `[initialization]` section (`server/src/main.rs`,
`server/config/bootstrap.rs`, `server/config/init.rs`).

Argon2, the random generators and OpenPGP are parameters.
-/

namespace Depot.Config

open Lib Accounts

/-! ## The state -/

/-- The store, the metadata of apt repositories in it, and what the instance keeps in memory. -/
structure StartState where
  roles : SortedMap String RoleRecord := .empty
  stores : SortedMap String StoreRecord := .empty
  storeStats : String → Option StoreStatsRecord := fun _ => none
  repos : SortedMap String RepoConfig := .empty
  users : UserTable
  settings : Option Settings := none
  signingKey : String → Option String := fun _ => none
  publicKey : String → Option String := fun _ => none
  distributions : String → List String := fun _ => []
  stale : List (String × String) := []
  registry : List String := []
  loaded : Settings := {}
  rateLimit : Option RateLimitConfig := none

/-- The atomic operations. -/
inductive StartOp where
  | listUsers
  | listRoles
  | putRole (record : RoleRecord)
  | instantiateStore (kind : StoreKind)
  | healthCheck (kind : StoreKind)
  | putStore (record : StoreRecord)
  | putStoreStats (name : String) (record : StoreStatsRecord)
  | addStore (name : String)
  | getStore (name : String)
  | getRepo (name : String)
  | putRepo (config : RepoConfig)
  | blobStore (name : String)
  | getSigningKey (repo : String)
  | putSigningKey (repo armor : String)
  | putPublicKey (repo armor : String)
  | listDistributions (repo : String)
  | setStale (repo distribution : String)
  | hashPassword (password : String)
  | putUser (record : UserRecord)
  | putSettings (settings : Settings)
  | storeSettings (settings : Settings)

/-- Replies; they are empty when the operation fails. -/
def StartOp.Reply : StartOp → Type
  | .listUsers => Option (List UserRecord)
  | .listRoles => Option (List RoleRecord)
  | .getStore _ => Option (Option StoreRecord)
  | .getRepo _ => Option (Option RepoConfig)
  | .blobStore _ => Bool
  | .getSigningKey _ => Option (Option String)
  | .listDistributions _ => Option (List String)
  | .addStore _ => Unit
  | .storeSettings _ => Unit
  | _ => Option Unit

/-- The state after a write of the start. -/
def StartOp.write (s : StartState) : StartOp → StartState
  | .putRole r => { s with roles := s.roles.insert r.name r }
  | .putStore r => { s with stores := s.stores.insert r.name r }
  | .putStoreStats n r => { s with storeStats := Function.update s.storeStats n (some r) }
  | .addStore n => { s with registry := n :: s.registry }
  | .putRepo c => { s with repos := s.repos.insert c.name c }
  | .putSigningKey repo armor =>
      { s with signingKey := Function.update s.signingKey repo (some armor) }
  | .putPublicKey repo armor =>
      { s with publicKey := Function.update s.publicKey repo (some armor) }
  | .setStale repo dist => { s with stale := (repo, dist) :: s.stale }
  | .putUser r => { s with users := s.users.put r }
  | .putSettings st => { s with settings := some st }
  | .storeSettings st => { s with loaded := st, rateLimit := st.rateLimit }
  | _ => s

/-- The reply of an operation that succeeds. -/
def StartOp.reply (s : StartState) : (o : StartOp) → o.Reply
  | .listUsers => some s.users.list
  | .listRoles => some ((s.roles.entries.map Prod.snd).take UserTable.adminEntityCap)
  | .getStore n => some (s.stores.get n)
  | .getRepo n => some ((s.repos.get n).filter fun c => !c.deleting)
  | .blobStore n => s.registry.contains n
  | .getSigningKey repo => some (s.signingKey repo)
  | .listDistributions repo => some (s.distributions repo)
  | .addStore _ => ()
  | .storeSettings _ => ()
  | .putRole _ => some ()
  | .instantiateStore _ => some ()
  | .healthCheck _ => some ()
  | .putStore _ => some ()
  | .putStoreStats .. => some ()
  | .putRepo _ => some ()
  | .putSigningKey .. => some ()
  | .putPublicKey .. => some ()
  | .setStale .. => some ()
  | .hashPassword _ => some ()
  | .putUser _ => some ()
  | .putSettings _ => some ()

/-- The reply of an operation that fails; what only concerns the memory does not fail. -/
def StartOp.failure (s : StartState) : (o : StartOp) → o.Reply
  | .listUsers => none
  | .listRoles => none
  | .getStore _ => none
  | .getRepo _ => none
  | .blobStore n => s.registry.contains n
  | .getSigningKey _ => none
  | .listDistributions _ => none
  | .addStore _ => ()
  | .storeSettings _ => ()
  | .putRole _ => none
  | .instantiateStore _ => none
  | .healthCheck _ => none
  | .putStore _ => none
  | .putStoreStats .. => none
  | .putRepo _ => none
  | .putSigningKey .. => none
  | .putPublicKey .. => none
  | .setStale .. => none
  | .hashPassword _ => none
  | .putUser _ => none
  | .putSettings _ => none

/-- Whether an operation only concerns the memory of the instance. -/
def StartOp.inMemory : StartOp → Bool
  | .blobStore _ => true
  | .addStore _ => true
  | .storeSettings _ => true
  | _ => false

/-- What an operation does; one that fails has no effect. -/
def StartOp.exec (o : StartOp) (b : Bool) (s : StartState) : Option (StartState × o.Reply) :=
  if b || o.inMemory then some (o.write s, o.reply s) else some (s, o.failure s)

/-- Why a start fails: an operation, with what the message says before its error, or a check. -/
inductive StartError where
  | failed (context : String)
  | invalid (message : String)
  deriving DecidableEq

/-- Code of the start. -/
abbrev Start (α : Type) := Fallible StartError StartOp StartOp.Reply α

/-- One operation. -/
def step (o : StartOp) : Start o.Reply := Fallible.issue o

/-- The reply of an operation that must succeed. -/
def ok {α : Type} (context : String) : Option α → Start α
  | some a => pure a
  | none => throw (.failed context)

/-- The start fails with the message of a failed check. -/
def checked {α : Type} (context : String) : Except String α → Start α
  | .ok a => pure a
  | .error message => throw (.invalid (context ++ message))

/-- Argon2, OpenPGP, the random generators and the clock. -/
structure StartExt where
  hash : String → String
  randomPassword : String
  tokenSecret : String → List UInt8
  generateKeypair : String → Except String (String × String)
  publicKeyOf : String → Except String String
  now : DateTime

/-! ## Bootstrap -/

/-- `kv_is_fresh` (`config/init.rs`, lines 92–94). -/
def kvIsFresh : Start Bool := do
  let users ← ok "" (← step .listUsers)
  pure users.isEmpty

/-- The default role `admin`. -/
def adminRole : RoleRecord where
  name := "admin"
  description := "Full access to all repositories and admin operations"
  capabilities := [⟨.read, "*"⟩, ⟨.write, "*"⟩, ⟨.delete, "*"⟩]

/-- The default role `read-only`. -/
def readOnlyRole : RoleRecord where
  name := "read-only"
  description := "Read-only access to all repositories"
  capabilities := [⟨.read, "*"⟩]

/-- `bootstrap_roles` (`config/bootstrap.rs`, lines 14–61). -/
def bootstrapRoles : Start Bool := do
  let roles ← ok "" (← step .listRoles)
  if !roles.isEmpty then pure false
  else do
    ok "" (← step (.putRole adminRole))
    ok "" (← step (.putRole readOnlyRole))
    pure true

/-- The user of requests without credentials. -/
def anonymousUser : UserRecord where
  username := "anonymous"
  passwordHash := ""

section

variable (ext : StartExt)

/-- The admin that a first start creates. -/
def adminUser (password : String) : UserRecord where
  username := "admin"
  passwordHash := ext.hash password
  roles := ["admin"]
  tokenSecret := ext.tokenSecret "admin"
  mustChangePassword := true

/-- `bootstrap_users` (lines 75–122). -/
def bootstrapUsers (defaultPassword : Option String) (skipAdmin : Bool) :
    Start (Option String) := do
  let users ← ok "" (← step .listUsers)
  if !users.isEmpty then pure none
  else do
    ok "" (← step (.putUser anonymousUser))
    if skipAdmin then pure none
    else do
      let password := defaultPassword.getD ext.randomPassword
      ok "" (← step (.hashPassword password))
      ok "" (← step (.putUser (adminUser ext password)))
      pure (some password)

/-! ## The section -/

/-- One role (`config/init.rs`, lines 110–122). -/
def initRole (req : CreateRoleRequest) : Start Unit := do
  let record : RoleRecord :=
    { name := req.name, description := req.description, capabilities := req.capabilities }
  ok "" (← step (.putRole record))

/-- One store (lines 128–162). -/
def initStore (x : SettingsExt) (req : CreateStoreRequest) : Start Unit := do
  let place := "initialization.stores." ++ req.name ++ ": "
  let kind ← checked place (buildStoreKind x req)
  ok (place ++ "failed to instantiate: ") (← step (.instantiateStore kind))
  ok (place ++ "health check failed: ") (← step (.healthCheck kind))
  ok "" (← step (.putStore { name := req.name, kind := kind, createdAt := ext.now }))
  ok "" (← step (.putStoreStats req.name { blobCount := 0, totalBytes := 0, updatedAt := ext.now }))
  step (.addStore req.name)

/-- `validate_yum_proxy_member_depth` (`api/conversions.rs`, lines 180–205). -/
def validateYumProxyMemberDepth (place : String) (members : List String) : Start Unit := do
  let depths ← Fallible.fold (fun depths name => do
    let config ← ok place (← step (.getRepo name))
    pure (match config with
      | some config =>
          if config.formatConfig.artifactFormat = .yum then
            depths ++ [(name, config.formatConfig.repodataDepth)]
          else depths
      | none => depths)) members []
  match memberDepthError depths with
  | some message => throw (.invalid (place ++ message))
  | none => pure ()

/-- The members whose depths are checked (lines 181–189). -/
def yumMembers (config : RepoConfig) : List String :=
  match config.formatConfig.artifactFormat, config.kind with
  | .yum, .proxy members _ => members
  | _, _ => []

/-- `blob_store` (`core/src/format_state.rs`, lines 119–123). -/
def blobStore (place store : String) : Start Unit := do
  let found : Bool ← step (.blobStore store)
  if found then pure ()
  else throw (.invalid (place ++ "blob store '" ++ store ++ "' not found"))

/-- `store_signing_key` (`format/apt/src/store/store.rs`). -/
def storeSigningKey (place repo : String) (keys : String × String) : Start Unit := do
  ok place (← step (.putSigningKey repo keys.1))
  ok place (← step (.putPublicKey repo keys.2))

/-- `import_repo_signing_key` (`format/apt/src/api.rs`, lines 62–72). -/
def importRepoSigningKey (place : String) (config : RepoConfig) (key : String) : Start Unit := do
  blobStore place config.store
  let armor ← checked place (ext.publicKeyOf key)
  storeSigningKey place config.name (key, armor)
  let distributions ← ok place (← step (.listDistributions config.name))
  Fallible.each (fun dist => do ok place (← step (.setStale config.name dist))) distributions

/-- `ensure_repo_signing_key` (lines 35–45). -/
def ensureRepoSigningKey (place : String) (config : RepoConfig) : Start Unit :=
  if config.kind = .hosted then do
    blobStore place config.store
    match ← ok place (← step (.getSigningKey config.name)) with
    | some _ => pure ()
    | none => do
        let keys ← checked place (ext.generateKeypair config.name)
        storeSigningKey place config.name keys
  else pure ()

/-- The signing key of an apt repository (lines 211–239). -/
def initSigningKey (config : RepoConfig) (key : Option String) : Start Unit :=
  let place := "initialization.repositories." ++ config.name ++ ": failed to "
  if config.formatConfig.artifactFormat = .apt then
    match key with
    | some key => importRepoSigningKey ext (place ++ "import signing key: ") config key
    | none => ensureRepoSigningKey ext (place ++ "generate signing key: ") config
  else pure ()

/-- One repository (lines 166–241). -/
def initRepo (req : CreateRepoRequest) : Start Unit := do
  let place := "initialization.repositories." ++ req.name ++ ": "
  let (kind, formatConfig) ← checked place (buildRepoKindAndFormat req)
  if (← ok "" (← step (.getStore req.store))).isNone then
    throw (.invalid (place ++ "references unknown store '" ++ req.store ++ "'"))
  else do
    let config : RepoConfig :=
      { name := req.name, kind := kind, formatConfig := formatConfig, store := req.store
        createdAt := ext.now, cleanupMaxUnaccessedDays := req.cleanupMaxUnaccessedDays
        cleanupMaxAgeDays := req.cleanupMaxAgeDays }
    validateYumProxyMemberDepth place (yumMembers config)
    ok "" (← step (.putRepo config))
    initSigningKey ext config req.signingKey

/-- The record of a declared user. -/
def initialUser (req : CreateUserRequest) : UserRecord where
  username := req.username
  passwordHash := ext.hash req.password
  roles := req.roles
  tokenSecret := ext.tokenSecret req.username
  mustChangePassword := req.mustChangePassword

/-- One user (lines 245–266). -/
def initUser (req : CreateUserRequest) : Start Unit := do
  if req.username.isEmpty then throw (.invalid "initialization.users: empty username")
  else do
    ok ("initialization.users." ++ req.username ++ ": ") (← step (.hashPassword req.password))
    ok "" (← step (.putUser (initialUser ext req)))

/-- The settings (lines 270–278). -/
def initSettings (x : SettingsExt) : Option Settings → Start Unit
  | none => pure ()
  | some settings =>
      match settings.validate x with
      | .error errors => throw (.invalid ("initialization.settings: " ++ ", ".intercalate errors))
      | .ok () => do
          ok "" (← step (.putSettings settings))
          step (.storeSettings settings)

/-- `apply_initialization` (lines 100–281). -/
def applyInitialization (x : SettingsExt) (init : InitializationConfig) : Start Unit := do
  Fallible.each initRole init.roles
  Fallible.each (initStore ext x) init.stores
  Fallible.each (initRepo ext) init.repositories
  Fallible.each (initUser ext) init.users
  initSettings x init.settings

/-! ## The start -/

/-- The configuration of the server, as far as the first start is concerned. -/
structure StartConfig where
  defaultAdminPassword : Option String := none
  initialization : Option InitializationConfig := none
  deriving DecidableEq

/-- Whether the section declares `admin` (`main.rs`, lines 234–237). -/
def StartConfig.skipDefaultAdmin (cfg : StartConfig) : Bool :=
  cfg.initialization.any fun init => init.users.any fun u => u.username = "admin"

/-- The section, if the store was fresh (lines 263–281). -/
def initializeStore (x : SettingsExt) (cfg : StartConfig) (wasFresh : Bool) : Start Unit :=
  match cfg.initialization with
  | some init =>
      if wasFresh && !init.isEmpty then applyInitialization ext x init else pure ()
  | none => pure ()

/-- The first-start sequence (`main.rs`, lines 226–281). -/
def start (x : SettingsExt) (cfg : StartConfig) : Start Unit := do
  let wasFresh ← kvIsFresh
  let _ ← bootstrapRoles
  let _ ← bootstrapUsers ext cfg.defaultAdminPassword cfg.skipDefaultAdmin
  initializeStore ext x cfg wasFresh

end

end Depot.Config
