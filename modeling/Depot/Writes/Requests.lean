import Depot.Auth.Backend
import Depot.Lib.Guarded
import Depot.Writes.Snapshots

/-!
# Write requests and their permission checks

How a write request reaches its handler: `any_format_request` and its siblings pass what
`is_format_write_path` recognises to the dispatcher of the format without a check of their own
(`server/src/server/api/artifacts.rs`, lines 96–187), and each dispatcher asks for the permission,
most of them in `upload_preamble` (`core/src/api_helpers.rs`, lines 270–291).

The main definition is `FormatRequest.serve`.
-/

namespace Depot

open Lib

/-! ## Operations -/

/-- What a request handler asks of the server: the permission checker (`FormatState::auth`) and
    the stores. -/
inductive ReqOp where
  | check (user repo : String) (required : Capability)
  | authenticate (username password : String)
  | userToken (user : UserRecord)
  | run (o : Op)

/-- The replies. -/
def ReqOp.Reply : ReqOp → Type
  | .check .. => Except DepotError Unit
  | .authenticate .. => Except DepotError (Option UserRecord)
  | .userToken _ => Except DepotError String
  | .run o => R o

/-- A function of a request handler. -/
abbrev Request (α : Type) : Type 1 := Fallible DepotError ReqOp ReqOp.Reply α

/-- Code on the stores, as part of a request. -/
def onStores {α : Type} (q : Async α) : Request α := Fallible.embed ReqOp.run (fun _ r => r) q

/-- `check_permission`. -/
def checkPermissionFor (user repo : String) (required : Capability) : Request Unit :=
  Fallible.ask (.check user repo required) id

/-! ## Targets -/

/-- `validate_format_repo` (`api_helpers.rs`, lines 237–255). -/
def validateFormatRepo (repoName : String) (expected : ArtifactFormat) : Async RepoConfig := do
  match ← getRepo repoName with
  | none => throw (.notFound ("repository '" ++ repoName ++ "' not found"))
  | some config =>
      if config.format ≠ expected then
        throw (.badRequest ("repository is not a " ++ expected.text ++ " repository"))
      else pure config

/-- The first hosted member of the format. -/
def firstHosted (expected : ArtifactFormat) : List String → Async (String × RepoConfig)
  | [] => throw (.badRequest ("no hosted " ++ expected.text ++ " member in proxy repo"))
  | member :: members => do
      match ← getRepo member with
      | some config =>
          if config.kind = .hosted ∧ config.format = expected then pure (member, config)
          else firstHosted expected members
      | none => firstHosted expected members

/-- `resolve_format_write_target` (`repo/mod.rs`, lines 202–236), reading the members. -/
def writeTarget (config : RepoConfig) (expected : ArtifactFormat) : Async (String × RepoConfig) :=
  match config.kind with
  | .hosted => pure (config.name, config)
  | .proxy members writeMember =>
      match writeMember with
      | some wm => do
          match ← getRepo wm with
          | some wmConfig => pure (wm, wmConfig)
          | none => throw (.notAllowed "write member repo config missing")
      | none => firstHosted expected members
  | .cache _ => throw (.badRequest "only hosted and proxy repos accept uploads")

/-! ## Requests -/

/-- A request, with the repository that it is addressed to; `fields` is the body as a multipart
    form and `body` is it in one piece. -/
structure FormatRequest where
  user : String
  config : RepoConfig
  method : String
  path : String
  fields : Except DepotError (List FormField)
  body : Except DepotError Bytes

/-- `is_format_write_path` (`artifacts.rs`, lines 156–187). -/
def isFormatWritePath (format : ArtifactFormat) (method path : String) : Bool :=
  match format with
  | .golang => method = "POST" && path = "upload"
  | .helm => method = "POST" && path = "upload"
  | .pypi => method = "POST" && (path = "" || path = "/")
  | .apt => method = "POST" && (path = "upload" || path = "snapshots")
  | .yum => method = "POST" && (path = "upload" || path = "snapshots")
  | .npm =>
      let slashes := path.toList.count '/'
      (method = "GET" && path = "-/whoami") ||
        (method = "PUT" && (dropStart "-/user/" path).isSome) ||
        (method = "PUT" && ((path ≠ "" && slashes = 0) ||
          ((dropStart "@" path).isSome && slashes = 1)))
  | .cargo =>
      (method = "PUT" && path = "api/v1/crates/new") ||
        ((dropStart "api/v1/crates/" path).isSome &&
          ((method = "DELETE" && (dropEnd "/yank" path).isSome) ||
            (method = "PUT" && (dropEnd "/unyank" path).isSome)))
  | _ => false

/-- The package that a path publishes (`npm/src/api.rs`, lines 182–211). -/
def npmPublishedPackage (path : String) : Option String :=
  match dropStart "@" path with
  | some rest =>
      match rest.toList.splitOn '/' with
      | [scope, pkg] =>
          if scope = [] ∨ pkg = [] then none
          else some ("@" ++ String.ofList scope ++ "/" ++ String.ofList pkg)
      | _ => none
  | none => if path = "" ∨ '/' ∈ path.toList then none else some path

section

variable (x : Ext) (p : PackageExt) (e : SnapshotExt) (fuel : ℕ)

/-- `upload_preamble` (`api_helpers.rs`, lines 270–291). -/
def uploadPreamble (user repoName : String) (format : ArtifactFormat) : Request Route := do
  let config ← onStores (validateFormatRepo repoName format)
  checkPermissionFor user repoName .write
  let (targetRepo, target) ← onStores (writeTarget config format)
  onStores (blobStore target.store)
  pure ⟨config, targetRepo, target⟩

/-- The response when a dispatcher does not know the path. -/
def noHandler {α : Type} : Request α := throw (.notFound "no handler for this repository")

namespace FormatRequest

variable (req : FormatRequest)

/-- `handle_upload` of Apt, Yum, Helm and Go. -/
def upload (format : ArtifactFormat) : Request Unit := do
  let route ← uploadPreamble req.user req.config.name format
  let fields ← Fallible.ofExcept req.fields
  onStores (uploadHandler x p route fields)

/-- `handle_upload` of PyPI (`pypi/src/api.rs`, lines 164–182). -/
def pypiUpload : Request Unit := do
  let fields ← Fallible.ofExcept req.fields
  let route ← uploadPreamble req.user req.config.name .pypi
  onStores (uploadHandler x p route fields)

/-- `handle_create_snapshot` of Apt (`apt/src/api.rs`, lines 261–291). -/
def aptSnapshot : Request Unit := do
  let config ← onStores (validateFormatRepo req.config.name .apt)
  let body ← Fallible.ofExcept req.body
  onStores (aptHandleSnapshot x p e config body)

/-- `handle_create_snapshot` of Yum (`yum/src/api.rs`, lines 145–185). -/
def yumSnapshot : Request Unit := do
  let body ← Fallible.ofExcept req.body
  onStores (yumHandleSnapshot x p e fuel req.config body)

/-- A text of the body of a login. -/
def loginField (payload : Json) (field : String) : Request String :=
  match (payload.get field).bind Json.asStr with
  | some text => pure text
  | none => throw (.badRequest ("missing '" ++ field ++ "' field"))

/-- The login of npm (`npm/src/api.rs`, lines 134–180). -/
def npmLogin : Request Unit := do
  let body ← Fallible.ofExcept req.body
  match p.readJson body with
  | none => throw (.badRequest "invalid JSON")
  | some payload => do
      let name ← loginField payload "name"
      let password ← loginField payload "password"
      let found ← Fallible.ask (.authenticate name password) id
      match found with
      | some user => do
          let _ ← Fallible.ask (.userToken user) id
          pure ()
      | none => throw (.forbidden "unauthorized")

/-- `publish_inner` (lines 864–1018). -/
def npmPublish (package : String) : Request Unit := do
  let body ← Fallible.ofExcept req.body
  let route ← uploadPreamble req.user req.config.name .npm
  onStores (npmPublishInner x p route package body)

/-- `try_handle_repository_write` of npm (lines 112–213). -/
def npmWrite : Request Unit :=
  if req.method = "GET" ∧ req.path = "-/whoami" then pure ()
  else if req.method = "PUT" ∧ (dropStart "-/user/" req.path).isSome then npmLogin p req
  else if req.method = "PUT" then
    match npmPublishedPackage req.path with
    | some package => npmPublish x p req package
    | none => noHandler
  else noHandler

/-- What the handlers of Cargo do first (`cargo/src/api.rs`, lines 338–360 and 579–600). -/
def cargoRoute : Request Route := do
  checkPermissionFor req.user req.config.name .write
  let (targetRepo, target) ← onStores (writeTarget req.config .cargo)
  pure ⟨req.config, targetRepo, target⟩

/-- `handle_publish`. -/
def cargoPublish : Request Unit := do
  let body ← Fallible.ofExcept req.body
  let route ← cargoRoute req
  onStores (cargoHandlePublish x p route body)

/-- `handle_set_yanked`. -/
def cargoYank (name version : String) : Request Unit := do
  let route ← cargoRoute req
  onStores (cargoHandleSetYanked x p route name version)

/-- `try_handle_repository_write` of Cargo (lines 174–230). -/
def cargoWriteRequest : Request Unit :=
  if req.method = "PUT" ∧ req.path = "api/v1/crates/new" then cargoPublish x p req
  else
    match (if req.method = "DELETE" then crateRoute req.path "/yank"
      else if req.method = "PUT" then crateRoute req.path "/unyank"
      else none) with
    | some (name, version) => cargoYank x p req name version
    | none => noHandler

/-- `try_handle_repository_write` of Apt and Yum (`apt/src/api.rs`, lines 155–171;
    `yum/src/api.rs`, lines 54–70). -/
def withSnapshots (format : ArtifactFormat) (snapshot : Request Unit) : Request Unit :=
  if req.method = "POST" ∧ req.path = "upload" then upload x p req format
  else if req.method = "POST" ∧ req.path = "snapshots" then snapshot
  else noHandler

/-- `try_handle_repository_write` of Helm and Go. -/
def onlyUploads (format : ArtifactFormat) : Request Unit :=
  if req.method = "POST" ∧ req.path = "upload" then upload x p req format else noHandler

/-- `dispatch_format_write` (`artifacts.rs`, lines 193–257). -/
def dispatch : Request Unit :=
  match req.config.format with
  | .apt => withSnapshots x p req .apt (aptSnapshot x p e req)
  | .cargo => cargoWriteRequest x p req
  | .golang => onlyUploads x p req .golang
  | .helm => onlyUploads x p req .helm
  | .npm => npmWrite x p req
  | .pypi =>
      if req.method = "POST" ∧ (req.path = "" ∨ req.path = "/") then pypiUpload x p req
      else noHandler
  | .yum => withSnapshots x p req .yum (yumSnapshot x p e fuel req)
  | _ => noHandler

/-- A request that is no Docker request (`any_format_request`, lines 96–149). -/
def serve : Request Unit :=
  if isFormatWritePath req.config.format req.method req.path then dispatch x p e fuel req
  else throw (.notAllowed "method not allowed")

end FormatRequest

end

end Depot
