import Depot.Core.Json
import Depot.Index.Store
import Depot.Kv.Redb

/-!
# Crates

What a hosted Cargo repository does with its crates (`format/cargo/src/store.rs` and
`format/cargo/src/api.rs`): a publish stores the file of a crate, a yank changes the flag in
its record, and the sparse index of a name is made of the records below the normalised name.
-/

namespace Depot

open Lib
open String (ofList)

/-! ## Metadata -/

/-- `CrateDep`. -/
structure CrateDep where
  name : String
  req : String
  features : List String
  optional : Bool
  defaultFeatures : Bool
  target : Option String
  kind : String
  registry : Option String
  package : Option String

/-- `CrateVersionMeta`. The features are texts of JSON values. -/
structure CrateVersionMeta where
  name : String
  vers : String
  deps : List CrateDep
  cksum : String
  features : String
  features2 : Option String
  yanked : Bool
  links : Option String
  rustVersion : Option String

/-- `PublishDep`. -/
structure PublishDep where
  name : String
  versionReq : String
  features : List String := []
  optional : Bool := false
  defaultFeatures : Bool := true
  target : Option String := none
  kind : String := "normal"
  registry : Option String := none
  explicitNameInToml : Option String := none

/-- `PublishMeta`. -/
structure PublishMeta where
  name : String
  vers : String
  deps : List PublishDep := []
  features : Json := .null
  features2 : Option Json := none
  links : Option String := none
  rustVersion : Option String := none

/-- A record with the metadata in its `kind` and the content of its blob, if it has one. -/
structure CrateRecord where
  record : ArtifactRecord
  cargo : Option CrateVersionMeta := none
  content : Option Bytes := none

/-- The functions of other packages: lower case, the digests, the shard of a key, and JSON. A
    text in lower case is empty or has a slash only if the text has. -/
structure CargoExt where
  toLowercase : String → String
  toLowercase_ne : ∀ s, s ≠ "" → toLowercase s ≠ ""
  toLowercase_slash : ∀ s, '/' ∈ (toLowercase s).toList → '/' ∈ s.toList
  sha256 : Bytes → String
  blake3 : Bytes → String
  shardOf : String → ℕ
  shardOf_lt : ∀ sk, shardOf sk < numShards
  decode : Bytes → Option PublishMeta
  toText : Json → String
  parse : String → Option Json

variable (x : CargoExt)

/-! ## Names and paths -/

/-- `normalize_crate_name` (`store.rs`, lines 25–27). -/
def normalizeCrateName (name : String) : String :=
  ofList ((x.toLowercase name).toList.map fun c => if c = '-' then '_' else c)

/-- `crate_path` (lines 46–49). -/
def cratePath (name version : String) : String :=
  "_crates/" ++ normalizeCrateName x name ++ "/" ++ version ++ "/" ++ name ++ "-" ++ version ++
    ".crate"

/-- The key of a crate file. -/
def crateSk (name version : String) : String := normalizePath (cratePath x name version)

/-! ## Requests -/

/-- A write request, the time, and whether the store takes what is written. -/
structure CargoRequest where
  now : DateTime
  method : String
  path : String
  body : Bytes
  stored : Bool

/-- What a write request asks for. -/
inductive CargoWrite where
  | publish (body : Bytes)
  | setYanked (name version : String) (yanked : Bool)

/-- The name and the version in `api/v1/crates/{name}/{version}` and a last segment. -/
def crateRoute (path last : String) : Option (String × String) :=
  match "api/v1/crates/".toList.isPrefixOf? path.toList with
  | none => none
  | some rest =>
      match last.toList.isSuffixOf? rest with
      | none => none
      | some rest =>
          match rest.splitOn '/' with
          | [name, version] =>
              if name = [] ∨ version = [] then none
              else some (ofList name, ofList version)
          | _ => none

/-- `try_handle_repository_write` (`api.rs`, lines 177–243). -/
def cargoWrite (r : CargoRequest) : Option CargoWrite :=
  if r.method = "PUT" ∧ r.path = "api/v1/crates/new" then some (.publish r.body)
  else if r.method = "DELETE" then
    (crateRoute r.path "/yank").map fun e => .setYanked e.1 e.2 true
  else if r.method = "PUT" then
    (crateRoute r.path "/unyank").map fun e => .setYanked e.1 e.2 false
  else none

/-- The metadata and the file in the body of a publish: each is preceded by its length in four
    bytes (lines 365–430). -/
def parsePublish (body : Bytes) : Except DepotError (PublishMeta × Bytes) :=
  if body.length < 4 then .error (.badRequest "request body too short")
  else
    let jsonLen := Redb.leNat (body.take 4)
    let rest := body.drop 4
    if rest.length < jsonLen then .error (.badRequest "request body too short for metadata")
    else
      match x.decode (rest.take jsonLen) with
      | none => .error (.badRequest "invalid metadata JSON")
      | some m =>
          let rest := rest.drop jsonLen
          if rest.length < 4 then
            .error (.badRequest "request body too short for crate length")
          else
            let crateLen := Redb.leNat (rest.take 4)
            let rest := rest.drop 4
            if rest.length < crateLen then
              .error (.badRequest "request body too short for crate data")
            else .ok (m, rest.take crateLen)

/-- A dependency as it is stored (lines 461–477). -/
def PublishDep.toCrateDep (d : PublishDep) : CrateDep where
  name := d.explicitNameInToml.getD d.name
  req := d.versionReq
  features := d.features
  optional := d.optional
  defaultFeatures := d.defaultFeatures
  target := d.target
  kind := d.kind
  registry := d.registry
  package := d.explicitNameInToml.map fun _ => d.name

/-- The features as JSON text. -/
def featuresText : Json → String
  | .null => "{}"
  | j => x.toText j

/-- The metadata of a version (lines 459–498). -/
def PublishMeta.versionMeta (m : PublishMeta) (data : Bytes) : CrateVersionMeta where
  name := m.name
  vers := m.vers
  deps := m.deps.map PublishDep.toCrateDep
  cksum := x.sha256 data
  features := featuresText x m.features
  features2 := m.features2.map x.toText
  yanked := false
  links := m.links
  rustVersion := m.rustVersion

/-! ## The repository -/

/-- The records of a repository by their keys. -/
structure CargoRepo where
  artifacts : SortedMap String CrateRecord := SortedMap.empty

/-- The record of a crate (lines 164–183). -/
def crateRecord (now : DateTime) (m : CrateVersionMeta) (data : Bytes) : CrateRecord where
  record := recordAt now data.length "application/x-tar" .cargoCrate false (some (x.blake3 data))
  cargo := some m
  content := some data

/-- `commit_crate` (`store.rs`, lines 132–189). -/
def commitCrate (s : CargoRepo) (now : DateTime) (m : CrateVersionMeta) (data : Bytes) :
    CargoRepo :=
  { artifacts := s.artifacts.insert (crateSk x m.name m.vers) (crateRecord x now m data) }

/-- What has happened: a file was published, or the flag of a version set. -/
inductive CrateEvent where
  | published (name version : String) (data : Bytes)
  | flagged (name version : String) (yanked : Bool)

/-- `handle_publish` (`api.rs`, lines 338–511). -/
def handlePublish (s : CargoRepo) (now : DateTime) (body : Bytes) (stored : Bool) :
    CargoRepo × Except DepotError CrateEvent :=
  match parsePublish x body with
  | .error e => (s, .error e)
  | .ok (m, data) =>
      if stored then
        (commitCrate x s now (m.versionMeta x data) data, .ok (.published m.name m.vers data))
      else (s, .error (.storage false))

/-- The record of a version with another flag and another time. -/
def CrateRecord.flagged (r : CrateRecord) (now : DateTime) (m : CrateVersionMeta)
    (yanked : Bool) : CrateRecord :=
  { r with
    record := { r.record with updatedAt := now }
    cargo := some { m with yanked := yanked } }

/-- `set_yanked` (`store.rs`, lines 213–241). -/
def setYanked (s : CargoRepo) (now : DateTime) (name version : String) (yanked : Bool) :
    Option CargoRepo :=
  let sk := crateSk x name version
  match s.artifacts.get sk with
  | none => none
  | some r =>
      match r.cargo with
      | none => none
      | some m =>
          let record := { r.record with updatedAt := now }
          let flagged := { r with record := record, cargo := some { m with yanked := yanked } }
          some { artifacts := s.artifacts.insert sk flagged }

/-- `handle_set_yanked` (`api.rs`, lines 579–620). -/
def handleSetYanked (s : CargoRepo) (now : DateTime) (name version : String)
    (yanked stored : Bool) : CargoRepo × Except DepotError CrateEvent :=
  if stored then
    match setYanked x s now name version yanked with
    | none => (s, .error (.notFound "crate version not found"))
    | some s' => (s', .ok (.flagged name version yanked))
  else (s, .error (.storage false))

/-- A write request of a user who may write. -/
def cargoStep (s : CargoRepo) (r : CargoRequest) : CargoRepo × Except DepotError CrateEvent :=
  match cargoWrite r with
  | none => (s, .error (.notFound "not found"))
  | some (.publish body) => handlePublish x s r.now body r.stored
  | some (.setYanked name version yanked) =>
      handleSetYanked x s r.now name version yanked r.stored

/-! ## The index and the files -/

/-- `service::fold_all_artifacts`: the records whose keys have a prefix, shard by shard. -/
def CargoRepo.foldAll (s : CargoRepo) (skPrefix : String) : List (String × CrateRecord) :=
  (List.range numShards).flatMap fun shard =>
    s.artifacts.entries.filter fun e => hasPrefix skPrefix e.1 && x.shardOf e.1 == shard

/-- The lines of the index of a name: the metadata of the records below it
    (`build_index_entry`, `store.rs`, lines 244–290). -/
def indexLines (s : CargoRepo) (name : String) : List CrateVersionMeta :=
  (s.foldAll x ("_crates/" ++ normalizeCrateName x name ++ "/")).filterMap fun e => e.2.cargo

/-- A text that may be absent. -/
def Json.ofText : Option String → Json
  | none => .null
  | some s => .string s

/-- A dependency in a line. -/
def CrateDep.json (d : CrateDep) : Json := .object
  [("default_features", .bool d.defaultFeatures),
    ("features", .array (d.features.map .string)),
    ("kind", .string d.kind),
    ("name", .string d.name),
    ("optional", .bool d.optional),
    ("package", .ofText d.package),
    ("registry", .ofText d.registry),
    ("req", .string d.req),
    ("target", .ofText d.target)]

/-- A line of the index. -/
def CrateVersionMeta.json (m : CrateVersionMeta) : Json := .object
  [("cksum", .string m.cksum),
    ("deps", .array (m.deps.map CrateDep.json)),
    ("features", (x.parse m.features).getD (.object [])),
    ("features2", (m.features2.bind x.parse).getD .null),
    ("links", .ofText m.links),
    ("name", .string m.name),
    ("rust_version", .ofText m.rustVersion),
    ("v", .number "2"),
    ("vers", .string m.vers),
    ("yanked", .bool m.yanked)]

/-- The index file of a crate: a line for each version. -/
def indexText (lines : List CrateVersionMeta) : String :=
  String.join (lines.map fun m => x.toText (m.json x) ++ "\n")

/-- The responses to the read requests of a hosted repository. -/
inductive CargoResponse where
  | index (text : String)
  | crateFile (data : Bytes)
  | notFound

/-- `hosted_index_entry` (`api.rs`, lines 245–274). -/
def hostedIndexEntry (s : CargoRepo) (name : String) : CargoResponse :=
  match indexLines x s name with
  | [] => .notFound
  | lines => .index (indexText x lines)

/-- `get_crate` and `hosted_download` (`store.rs`, lines 192–210; `api.rs`, lines 513–548). -/
def hostedCrate (s : CargoRepo) (name version : String) : CargoResponse :=
  match (s.artifacts.get (crateSk x name version)).bind CrateRecord.content with
  | some data => .crateFile data
  | none => .notFound

/-- The name at the end of the path of an index. -/
def indexRoute (path : String) : Option String :=
  match "index/".toList.isPrefixOf? path.toList with
  | none => none
  | some rest => if (splitLast rest).2 = [] then none else some (ofList (splitLast rest).2)

/-- The name and the version in the path of a download. -/
def crateFileRoute (path : String) : Option (String × String) :=
  match "api/v1/crates/".toList.isPrefixOf? path.toList with
  | none => none
  | some rest =>
      match "/download".toList.isSuffixOf? rest with
      | none => none
      | some tail =>
          match splitLast tail with
          | (some name, version) =>
              if name = [] ∨ version = [] then none
              else some (ofList name, ofList version)
          | (none, _) => none

/-- `try_handle_repository_path` (`api.rs`, lines 62–110): the index of a name and the files of
    its versions. -/
def cargoRead (s : CargoRepo) (path : String) : Option CargoResponse :=
  if path = "index/config.json" then none
  else
    match indexRoute path with
    | some name => some (hostedIndexEntry x s name)
    | none => (crateFileRoute path).map fun e => hostedCrate x s e.1 e.2

end Depot
