import Depot.Cargo.Crates
import Depot.Go.Paths
import Depot.Npm.Publish
import Depot.Writes.Targets

/-!
# The handlers of package writes

What the write handlers of the package formats do once a request is admitted and its target
is resolved (`format/*/src/api.rs`, `format/*/src/store.rs` and `put_artifact` in
`server/src/server/api/artifacts.rs`): they stream the uploaded file to a blob, claim its
hash, write the artifact records and raise the stale flags.
-/

namespace Depot

open Lib

/-! ## Requests -/

/-- The functions that look into uploaded files, and the texts of requests. -/
structure PackageExt where
  npm : NpmExt
  cargo : CargoExt
  /-- A field that is UTF-8 text. -/
  text : Bytes → Option String
  sha256 : Bytes → String
  /-- The package in the control file of a `.deb` (`parse_deb`). -/
  parseDeb : Bytes → Except DepotError String
  /-- The name and version of a chart (`parse_chart`). -/
  parseChart : Bytes → Except DepotError (String × String)
  /-- Whether the headers of an `.rpm` can be read (`parse_rpm`). -/
  parseRpm : Bytes → Except DepotError Unit
  /-- The bytes of a JSON text, and what they mean. -/
  toBytes : Json → Bytes
  readJson : Bytes → Option Json

/-- The repository that a request is addressed to, and the target of its write. -/
structure Route where
  addressed : RepoConfig
  targetRepo : String
  target : RepoConfig
  deriving DecidableEq

/-- A field of a multipart request, with the chunks of its content. -/
structure FormField where
  name : String
  filename : Option String := none
  body : List Bytes
  deriving DecidableEq

/-- A streamed file: its name, its blob and its content. -/
structure StreamedFile where
  name : String
  blobId : BlobId
  data : Bytes

/-- The fields of a form that were read so far. -/
structure UploadForm where
  fields : List (String × Bytes) := []
  file : Option StreamedFile := none

/-- The last field of a name. -/
def UploadForm.bytes (form : UploadForm) (name : String) : Option Bytes :=
  (form.fields.reverse.find? fun f => f.1 = name).map Prod.snd

section

variable (x : Ext) (p : PackageExt)

/-- The last field of a name as text. -/
def UploadForm.text (form : UploadForm) (name : String) : Option String :=
  (form.bytes name).bind p.text

/-! ## Parts of the handlers -/

/-- `FormatState::blob_store` (`format_state.rs`, lines 119–123). -/
def blobStore (store : String) : Async Unit := do
  if ← storesGet store then pure ()
  else throw (.notFound ("blob store '" ++ store ++ "' not found"))

/-- `stream_multipart_field_to_blob` (`api_helpers.rs`, lines 304–362). -/
def streamField (store : String) (body : List Bytes) : Async (BlobId × Bytes) := do
  let blobId ← newUuid
  let inode ← createWriter store blobId
  let data ← writeBody (.storage true) (abortWriter store blobId) store blobId inode body []
  finishWriter
  pure (blobId, data)

/-- One field of a form: the file is streamed, the others are kept. -/
def readField (store fileField defaultName : String) (form : UploadForm) (field : FormField) :
    Async UploadForm := do
  if field.name = fileField then
    let (blobId, data) ← streamField store field.body
    pure { form with file := some ⟨field.filename.getD defaultName, blobId, data⟩ }
  else pure { form with fields := form.fields ++ [(field.name, field.body.flatten)] }

/-- The loop over the fields of a form. -/
def readForm (store fileField defaultName : String) (fields : List FormField) :
    Async UploadForm :=
  Fallible.fold (readField store fileField defaultName) fields {}

/-- The file of a form. -/
def formFile (fileField : String) (form : UploadForm) : Async StreamedFile :=
  match form.file with
  | some file => pure file
  | none => throw (.badRequest ("missing '" ++ fileField ++ "' field"))

/-- A blob is read back after it was written. -/
def readBack (store : String) (blobId : BlobId) : Async Bytes := do
  match ← blobRead store blobId with
  | some data => pure data
  | none => throw (.dataIntegrity ("blob " ++ blobId ++ " missing after write"))

/-- The record of a file. -/
def fileRecord (now : DateTime) (blobId : BlobId) (hash : String) (size : ℕ)
    (contentType : String) (kind : ArtifactKind) (internal : Bool) : ArtifactRecord where
  size := size
  contentType := contentType
  createdAt := now
  updatedAt := now
  lastAccessedAt := now
  kind := kind
  internal := internal
  blobId := some blobId
  contentHash := some hash
  etag := some hash

/-- A record is written and the statistics of its directory are sent. -/
def commitRecord (repo path : String) (record : ArtifactRecord) : Async Unit := do
  let old ← putArtifact x repo path record
  recordPut repo path record old

/-- The hash of a blob that was written is claimed. -/
def claimData (store : String) (now : DateTime) (blobId : BlobId) (data : Bytes) : Async BlobId :=
  claimOrReuseBlobCounted x store ⟨blobId, x.blake3 data, data.length, now, store⟩

/-- What the `commit_*` functions do with a file that is in a blob: its hash is claimed and its
    record written. -/
def commitFile (repo store path contentType : String) (kind : ArtifactKind) (blobId : BlobId)
    (data : Bytes) : Async Unit := do
  let now ← utcNow
  let blobId ← claimData x store now blobId data
  commitRecord x repo path
    (fileRecord now blobId (x.blake3 data) data.length contentType kind false)

/-- Raising a stale flag that is not raised. -/
def raiseFlag (repo path : String) (kind : ArtifactKind) : Async Unit := do
  let now ← utcNow
  let _ ← putArtifactIfAbsent x repo path (staleFlag now kind)
  pure ()

/-- `propagate_staleness_to_parents` (`api_helpers.rs`, lines 227–234). -/
def propagateToParents (repo : String) (format : ArtifactFormat) (stalePath : String) :
    Async Unit :=
  Fallible.ignore (propagateStaleness x repo format stalePath)

/-! ## Apt -/

/-- `commit_package` (`apt/src/store/store.rs`, lines 144–231). -/
def aptCommitPackage (repo store distribution component : String) (file : StreamedFile) :
    Async Unit := do
  let content ← readBack store file.blobId
  let package ← Fallible.ofExcept (p.parseDeb content)
  commitFile x repo store (poolPath component package file.name)
    "application/vnd.debian.binary-package" .aptPackage file.blobId file.data
  raiseFlag x repo (aptStalePath distribution) .aptMetadata

/-- `handle_upload` (`apt/src/api.rs`, lines 173–259). -/
def aptHandleUpload (r : Route) (fields : List FormField) : Async Unit := do
  let form ← readForm r.target.store "file" "package.deb" fields
  let file ← formFile "file" form
  let distribution := (form.text p "distribution").getD "stable"
  let component := (form.text p "component").getD "main"
  aptCommitPackage x p r.target.name r.target.store distribution component file
  propagateToParents x r.addressed.name .apt (aptStalePath distribution)

/-! ## Yum -/

/-- `commit_package` (`yum/src/store/store.rs`, lines 103–175). -/
def yumCommitPackage (repo store directory filename : String) (blobId : BlobId) (data : Bytes) :
    Async Unit := do
  let content ← readBack store blobId
  Fallible.ofExcept (p.parseRpm content)
  commitFile x repo store (packagesKvPath directory filename) "application/x-rpm" .yumPackage
    blobId data
  raiseFlag x repo yumStalePath .yumMetadata

/-- `handle_upload` (`yum/src/api.rs`, lines 72–143). -/
def yumHandleUpload (r : Route) (fields : List FormField) : Async Unit := do
  let form ← readForm r.target.store "file" "package.rpm" fields
  let file ← formFile "file" form
  yumCommitPackage x p r.target.name r.target.store ((form.text p "directory").getD "") file.name
    file.blobId file.data
  propagateToParents x r.addressed.name .yum yumStalePath

/-! ## Helm -/

/-- `put_blob` (`service/blob.rs`, lines 15–20). -/
def putBlobRecord (store : String) (record : BlobRecord) : Async Unit :=
  let record := { record with store := store }
  kvPut (blobKey x.shardOf store record.hash) (.blob record)

/-- `commit_chart` (`helm/src/store.rs`, lines 405–472). The blob record is put, whether or not
    there is one, and not counted. -/
def helmCommitChart (repo store : String) (blobId : BlobId) (data : Bytes) : Async Unit := do
  let content ← readBack store blobId
  let (name, version) ← Fallible.ofExcept (p.parseChart content)
  let now ← utcNow
  putBlobRecord x store ⟨blobId, x.blake3 data, data.length, now, store⟩
  commitRecord x repo (chartPath name version)
    (fileRecord now blobId (x.blake3 data) data.length "application/gzip" .helmChart false)
  raiseFlag x repo helmFlagPath .helmMetadata

/-- `handle_upload` (`helm/src/api.rs`, lines 93–162). -/
def helmHandleUpload (r : Route) (fields : List FormField) : Async Unit := do
  let form ← readForm r.target.store "chart" "" fields
  let file ← formFile "chart" form
  helmCommitChart x p r.target.name r.target.store file.blobId file.data
  propagateToParents x r.addressed.name .helm helmFlagPath

/-! ## PyPI -/

/-- The separators of a name become single hyphens. -/
def pypiSeparators : Bool → List Char → List Char
  | _, [] => []
  | afterSeparator, c :: cs =>
      if c = '-' ∨ c = '_' ∨ c = '.' then
        if afterSeparator then pypiSeparators true cs else '-' :: pypiSeparators true cs
      else c :: pypiSeparators false cs

/-- `normalize_name` (`pypi/src/store.rs`, lines 81–97). -/
def pypiName (name : String) : String :=
  String.ofList (pypiSeparators false (p.cargo.toLowercase name).toList)

/-- `package_path` (lines 100–103). -/
def pypiPath (name version filename : String) : String :=
  "_packages/" ++ pypiName p name ++ "/" ++ version ++ "/" ++ filename

/-- The path of the flag of a PyPI repository. -/
def pypiStalePath : String := "_pypi/metadata_stale"

/-- `commit_package` (lines 206–283). -/
def pypiCommitPackage (repo store name version : String) (expectedSha256 : Option String)
    (file : StreamedFile) : Async Unit := do
  match expectedSha256 with
  | some expected =>
      if expected ≠ p.sha256 file.data then
        throw (.badRequest ("SHA-256 mismatch: expected " ++ expected ++ ", computed " ++
          p.sha256 file.data))
  | none => pure ()
  commitFile x repo store (pypiPath p name version file.name) "application/octet-stream"
    .pypiPackage file.blobId file.data

/-- `process_upload` (`pypi/src/api.rs`, lines 37–140). -/
def pypiProcessUpload (r : Route) (fields : List FormField) : Async Unit := do
  let form ← readForm r.target.store "content" "unknown" fields
  match form.text p "name" with
  | none => throw (.badRequest "missing 'name' field")
  | some name =>
      match form.text p "version" with
      | none => throw (.badRequest "missing 'version' field")
      | some version => do
          let file ← formFile "content" form
          pypiCommitPackage x p r.targetRepo r.target.store name version
            (form.text p "sha256_digest") file
          Fallible.ignore (raiseFlag x r.targetRepo pypiStalePath .raw)
          propagateToParents x r.addressed.name .pypi pypiStalePath

/-! ## Golang -/

/-- A module file is stored in a blob that was drawn for it. -/
def golangStoreFile (repo store module version fileType contentType : String) (data : Bytes)
    (blobId : BlobId) : Async Unit := do
  let now ← utcNow
  blobPut store blobId data
  let blobId ← claimData x store now blobId data
  commitRecord x repo (moduleFilePath module version fileType)
    (fileRecord now blobId (x.blake3 data) data.length contentType .goModule false)

/-- `put_module_file` (lines 73–150). -/
def golangPutModuleFile (repo store module version fileType contentType : String) (data : Bytes) :
    Async Unit := do
  let blobId ← newUuid
  golangStoreFile x repo store module version fileType contentType data blobId

/-- A module file that the request may leave out. -/
def golangPutGiven (repo store module version fileType contentType : String) :
    Option Bytes → Async Unit
  | some data => golangPutModuleFile x repo store module version fileType contentType data
  | none => pure ()

/-- `commit_module_file` (lines 153–222). -/
def golangCommitZip (repo store module version : String) : Option StreamedFile → Async Unit
  | some file =>
      commitFile x repo store (moduleFilePath module version "zip") "application/zip" .goModule
        file.blobId file.data
  | none => pure ()

/-- `handle_upload` (`golang/src/api.rs`, lines 69–190). -/
def golangHandleUpload (r : Route) (fields : List FormField) : Async Unit := do
  let form ← readForm r.target.store "zip" "" fields
  match form.text p "module" with
  | none => throw (.badRequest "missing 'module' field")
  | some module =>
      match form.text p "version" with
      | none => throw (.badRequest "missing 'version' field")
      | some version => do
          golangPutGiven x r.targetRepo r.target.store module version "info" "application/json"
            (form.bytes "info")
          golangPutGiven x r.targetRepo r.target.store module version "mod" "text/plain"
            (form.bytes "mod")
          golangCommitZip x r.targetRepo r.target.store module version form.file

/-! ## npm -/

/-- `get_dist_tags` (`npm/src/store.rs`, lines 383–401). -/
def npmGetDistTags (repo store name : String) : Async Tags := do
  match ← getArtifact x repo (distTagsPath p.npm name) with
  | none => pure .empty
  | some record =>
      match record.blobId with
      | none => pure .empty
      | some blobId => do
          match ← blobRead store blobId with
          | none => pure .empty
          | some data => pure (((p.readJson data).map Json.tags).getD .empty)

/-- A blob of `put_package`: it is written and its hash claimed. -/
def npmStoreBytes (store : String) (now : DateTime) (data : Bytes) : Async BlobId := do
  let blobId ← newUuid
  blobPut store blobId data
  claimData x store now blobId data

/-- The record of one of the blobs of `put_package`. -/
def npmBlobRecord (now : DateTime) (blobId : BlobId) (data : Bytes) : ArtifactRecord :=
  fileRecord now blobId (x.blake3 data) data.length "application/json" .npmMetadata true

/-- `put_package` (lines 62–232). -/
def npmPutPackage (repo store name version filename : String) (data metadata : Bytes)
    (distTags : Tags) : Async Unit := do
  let blobId ← newUuid
  let now ← utcNow
  blobPut store blobId data
  let blobId ← claimData x store now blobId data
  let verBlobId ← npmStoreBytes x store now metadata
  let existing ← Fallible.capture (npmGetDistTags x p repo store name)
  let tags := p.toBytes (tagsJson ((existing.toOption.getD .empty).overlay distTags.entries))
  let tagsBlobId ← npmStoreBytes x store now tags
  commitRecord x repo (tarballPath p.npm name version filename)
    (fileRecord now blobId (x.blake3 data) data.length "application/octet-stream" .npmPackage
      false)
  commitRecord x repo (versionPath p.npm name version) (npmBlobRecord x now verBlobId metadata)
  commitRecord x repo (distTagsPath p.npm name) (npmBlobRecord x now tagsBlobId tags)

/-- One version of a body (`npm/src/api.rs`, lines 924–995). -/
def npmPublishVersion (r : Route) (package : String) (attachments : List (String × Json))
    (distTags : Tags) (e : String × Json) : Async Unit := do
  let data ← Fallible.ofExcept (attachmentData p.npm package e.1 attachments)
  npmPutPackage x p r.targetRepo r.target.store package e.1 (storedFilename p.npm package e.1)
    data (p.toBytes e.2) distTags

/-- A field of the body that has to be an object. -/
def bodyObject (payload : Json) (field : String) : Async (List (String × Json)) :=
  match (payload.get field).bind Json.asObject with
  | some entries => pure entries
  | none => throw (.badRequest ("missing '" ++ field ++ "' field"))

/-- `publish_inner` (lines 864–1018). -/
def npmPublishInner (r : Route) (package : String) (body : Bytes) : Async Unit := do
  match p.readJson body with
  | none => throw (.badRequest "invalid JSON")
  | some payload => do
      let versions ← bodyObject payload "versions"
      let attachments ← bodyObject payload "_attachments"
      Fallible.each (npmPublishVersion x p r package attachments payload.distTags) versions
      Fallible.ignore (raiseFlag x r.targetRepo npmStalePath .npmMetadata)
      propagateToParents x r.addressed.name .npm npmStalePath

/-! ## Cargo -/

/-- `commit_crate` (`cargo/src/store.rs`, lines 132–189). -/
def cargoCommitCrate (repo store name version : String) (blobId : BlobId) (data : Bytes) :
    Async Unit :=
  commitFile x repo store (cratePath p.cargo name version) "application/x-tar" .cargoCrate blobId
    data

/-- `handle_publish` (`cargo/src/api.rs`, lines 338–511). The blob and its record go to the
    store of the addressed repository, the artifact record to the target. -/
def cargoHandlePublish (r : Route) (body : Bytes) : Async Unit := do
  blobStore r.addressed.store
  let (m, data) ← Fallible.ofExcept (parsePublish p.cargo body)
  let blobId ← newUuid
  let inode ← createWriter r.addressed.store blobId
  let written ← Fallible.capture (writeChunk r.addressed.store blobId inode 0 data)
  match written with
  | .error e => do
      abortWriter r.addressed.store blobId
      throw e
  | .ok _ => do
      finishWriter
      cargoCommitCrate x p r.targetRepo r.addressed.store m.name m.vers blobId data

/-- `set_yanked` (`cargo/src/store.rs`, lines 213–248). -/
def cargoSetYanked (repo name version : String) : Async Bool := do
  let path := cratePath p.cargo name version
  match ← getArtifact x repo path with
  | none => pure false
  | some record =>
      if record.kind ≠ .cargoCrate then pure false
      else do
        let now ← utcNow
        commitRecord x repo path { record with updatedAt := now }
        pure true

/-- `handle_set_yanked` (`cargo/src/api.rs`, lines 579–620). -/
def cargoHandleSetYanked (r : Route) (name version : String) : Async Unit := do
  blobStore r.addressed.store
  if ← cargoSetYanked x p r.targetRepo name version then pure ()
  else throw (.notFound "crate version not found")

/-! ## PUT uploads -/

/-- The directory and the name of a path (`rsplit_once('/')`). -/
def splitDirectory (path : String) : String × String :=
  match splitLast path.toList with
  | (some dir, name) => (String.ofList dir, String.ofList name)
  | (none, _) => ("", path)

/-- `stream_body_to_blob` (`artifacts.rs`, lines 42–90) and what follows its failure. -/
def streamBody (store : String) (body : List Bytes) : Async (BlobId × Bytes) := do
  let blobId ← newUuid
  let streamed ← Fallible.capture (do
    let inode ← createWriter store blobId
    let data ← writeBody (.dataIntegrity "body") (abortWriter store blobId) store blobId inode body []
    finishWriter
    pure data)
  match streamed with
  | .error e => do
      Fallible.ignore (blobDelete store blobId)
      throw e
  | .ok data => pure (blobId, data)

/-- Why a repository of a format refuses a PUT upload to a path (lines 1128–1166). -/
def putRejection (format : ArtifactFormat) (path : String) : Option String :=
  match format with
  | .yum =>
      if path.endsWith ".rpm" = true then none
      else some ("Yum repositories only accept PUT for .rpm package paths; " ++
        "use `dnf`/`createrepo` or POST /repository/\x7brepo\x7d/upload for manual uploads.")
  | .helm =>
      if path.endsWith ".tgz" = true then none
      else some ("Helm repositories only accept PUT for .tgz chart paths; " ++
        "use `helm push` or POST /repository/\x7brepo\x7d/upload for manual uploads.")
  | .apt => some ("APT repositories do not accept PUT uploads; use POST " ++
      "/repository/\x7brepo\x7d/upload (or the Nexus-compatible /service/rest/v1/components).")
  | .pypi => some ("PyPI repositories do not accept PUT uploads; " ++
      "use `twine upload` which POSTs to /repository/\x7brepo\x7d/.")
  | .npm => some ("npm repositories only accept PUT via `npm publish` " ++
      "(PUT /repository/\x7brepo\x7d/\x7bpackage\x7d).")
  | .cargo => some ("Cargo repositories only accept PUT via `cargo publish` " ++
      "(PUT /repository/\x7brepo\x7d/api/v1/crates/new).")
  | .golang => some ("Go module repositories do not accept PUT uploads; " ++
      "use POST /repository/\x7brepo\x7d/upload.")
  | .docker => some ("Docker repositories only accept writes through the OCI Distribution API " ++
      "(docker push).")
  | .raw => none

/-- What follows the upload of a body (lines 1215–1391): charts and `.rpm` packages are committed
    by their formats. -/
def putCommit (r : Route) (path contentType : String) (body : List Bytes) : Async Unit := do
  match r.addressed.format with
  | .helm => do
      let (blobId, data) ← streamBody r.target.store body
      helmCommitChart x p r.target.name r.target.store blobId data
      propagateToParents x r.addressed.name .helm helmFlagPath
  | .yum => do
      let (blobId, data) ← streamBody r.target.store body
      let (directory, filename) := splitDirectory path
      yumCommitPackage x p r.target.name r.target.store directory filename blobId data
      propagateToParents x r.addressed.name .yum yumStalePath
  | _ => do
      let _ ← putArtifactHandler x r.targetRepo r.target.store path contentType body
      pure ()

/-- `put_artifact` (`artifacts.rs`, lines 1098–1392), once the target is resolved. -/
def putHandler (r : Route) (path contentType : String) (body : List Bytes) : Async Unit := do
  blobStore r.target.store
  match putRejection r.addressed.format path with
  | some msg => throw (.notAllowed msg)
  | none => putCommit x p r path contentType body

/-! ## The writes -/

/-- What a write request asks for. -/
inductive FormatWrite where
  | upload (fields : List FormField)
  | npmPublish (package : String) (body : Bytes)
  | cargoPublish (body : Bytes)
  | cargoSetYanked (name version : String)
  | put (path contentType : String) (body : List Bytes)
  deriving DecidableEq

/-- The component upload of a format. -/
def uploadHandler (r : Route) (fields : List FormField) : Async Unit :=
  match r.addressed.format with
  | .apt => aptHandleUpload x p r fields
  | .golang => golangHandleUpload x p r fields
  | .helm => helmHandleUpload x p r fields
  | .pypi => pypiProcessUpload x p r fields
  | .yum => yumHandleUpload x p r fields
  | _ => throw (.notFound "no handler for this repository")

/-- What a write does once it is admitted; the blob store of the target is the last thing that
    `upload_preamble` looks up. -/
def FormatWrite.handler (r : Route) : FormatWrite → Async Unit
  | upload fields => do
      blobStore r.target.store
      uploadHandler x p r fields
  | npmPublish package body => do
      blobStore r.target.store
      npmPublishInner x p r package body
  | cargoPublish body => cargoHandlePublish x p r body
  | cargoSetYanked name version => cargoHandleSetYanked x p r name version
  | put path contentType body => putHandler x p r path contentType body

end

end Depot
