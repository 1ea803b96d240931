import Depot.Writes.Handlers

/-!
# Creating snapshots

The requests that copy the metadata of an Apt distribution or of a Yum repository under the name
of a snapshot (`create_snapshot` in `apt/src/store/store.rs` and `yum/src/store/store.rs`, and
`handle_create_snapshot` in `apt/src/api.rs` and `yum/src/api.rs`).
-/

namespace Depot

open Lib
open String (ofList)

/-! ## Texts -/

/-- `str::lines`: the line that ends the text has no newline and is left out when it is empty. -/
def textLines (text : String) : List String :=
  let parts := (text.toList.splitOn '\n')
  let full := parts.dropLast.map fun l =>
    ofList (if l.getLast? = some '\r' then l.dropLast else l)
  match parts.getLast? with
  | none => full
  | some last => if last = [] then full else full ++ [ofList last]

/-- `str::strip_prefix`. -/
def dropStart (start text : String) : Option String :=
  if start.toList <+: text.toList then some (ofList (text.toList.drop start.length)) else none

/-- `str::strip_suffix`. -/
def dropEnd (stop text : String) : Option String :=
  if stop.toList <:+ text.toList then
    some (ofList (text.toList.take (text.length - stop.length)))
  else none

/-- Functions of other crates. -/
structure SnapshotExt where
  /-- The body of a request: the source and the name of an Apt snapshot, the name of a Yum one. -/
  aptRequest : Bytes → Except String (String × String)
  yumRequest : Bytes → Except String String
  /-- `String::from_utf8_lossy`. -/
  lossy : Bytes → String
  /-- `char::is_whitespace`. -/
  whitespace : Char → Bool
  /-- `parse::<u64>`. -/
  parseSize : String → Option ℕ
  /-- `sign_inrelease`; `none` when the key does not sign. -/
  signInrelease : String → String → Option String
  /-- The repodata depth of a repository. -/
  repodataDepth : RepoConfig → ℕ
  /-- The metadata of a group of packages: the files that are stored under their hashes, and the
      `repomd.xml` that refers to them. -/
  repodata : DateTime → String → List (String × ArtifactRecord) → List (String × Bytes) × Bytes

section

variable (e : SnapshotExt)

/-- The body of a signed text (`extract_release_from_inrelease`, `metadata.rs`, lines 24–47). -/
def signedBody : List String → String
  | [] => ""
  | line :: lines =>
      if (dropStart "-----BEGIN PGP SIGNATURE-----" line).isSome then ""
      else (dropStart "- " line).getD line ++ "\n" ++ signedBody lines

/-- `extract_release_from_inrelease` (lines 24–47). -/
def extractRelease (inrelease : String) : String :=
  if (dropStart "-----BEGIN PGP SIGNED MESSAGE-----" inrelease).isNone then inrelease
  else signedBody ((textLines inrelease).dropWhile (· ≠ "")).tail

/-- A line of the checksums: the path, the hash and the size. -/
def releaseEntry (line : String) : Option (String × String × ℕ) :=
  match (line.toList.splitOnP e.whitespace).filter (· ≠ []) with
  | sha :: size :: path :: _ =>
      some (ofList path, ofList sha, (e.parseSize (ofList size)).getD 0)
  | _ => none

/-- `parse_release_sha256` (lines 50–72). -/
def parseReleaseSha256 (release : String) : List (String × String × ℕ) :=
  let checksums := (textLines release).dropWhile fun l => (dropStart "SHA256:" l).isNone
  -- a second header only goes on with the section
  (checksums.takeWhile fun l => (dropStart "SHA256:" l).isSome || (dropStart " " l).isSome).filterMap
    fun l => if (dropStart "SHA256:" l).isSome then none else releaseEntry e l

/-- `adjust_release_suite` (lines 75–88). -/
def adjustReleaseSuite (release newName : String) : String :=
  String.join ((textLines release).map fun line =>
    (if (dropStart "Suite:" line).isSome then "Suite: " ++ newName
    else if (dropStart "Codename:" line).isSome then "Codename: " ++ newName
    else line) ++ "\n")

/-- `parse_repomd_locations` (`yum/src/store/metadata.rs`, lines 245–256). -/
def parseRepomdLocations (repomd : String) : List String :=
  (textLines repomd).filterMap fun line =>
    let trimmed := ofList ((line.toList.dropWhile e.whitespace).rdropWhile e.whitespace)
    (dropStart "<location href=\"" trimmed).bind (dropEnd "\"/>")

end

/-! ## Storing metadata -/

section

variable (x : Ext) (p : PackageExt) (e : SnapshotExt)

/-- `read_artifact`. -/
def readArtifact (repo store path : String) : Async (Option Bytes) := do
  match ← getArtifact x repo path with
  | none => pure none
  | some record =>
      if record.blobId.getD "" = "" then pure none else blobRead store (record.blobId.getD "")

/-- `get_signing_key`. -/
def getSigningKey (repo store path : String) : Async (Option String) := do
  let data ← readArtifact x repo store path
  pure (data.map e.lossy)

/-- The record of a metadata file. -/
def metadataRecord (now : DateTime) (blobId : BlobId) (data : Bytes) (contentType : String)
    (kind : ArtifactKind) : ArtifactRecord :=
  { fileRecord now blobId (p.sha256 data) data.length contentType kind true with
    etag := some (x.blake3 data) }

/-- A record that is written once. -/
def commitAbsent (repo path : String) (record : ArtifactRecord) : Async Unit := do
  if ← putArtifactIfAbsent x repo path record then dirChanged repo path 1 record.size

/-- The blob of a metadata file: `store_metadata_file`, `store_inrelease` and `store_repomd_at`
    up to the record. -/
def metadataBlob (store : String) (now : DateTime) (data : Bytes) : Async BlobId := do
  let blobId ← newUuid
  blobPut store blobId data
  claimData x store now blobId data

/-- `store_metadata_file` of Yum (lines 424–487): a file that is stored once. -/
def storeHashedFile (repo store path : String) (data : Bytes) (now : DateTime) : Async Unit := do
  let blobId ← metadataBlob x store now data
  commitAbsent x repo path
    (metadataRecord x p now blobId data "application/octet-stream" .yumMetadata)

/-- `store_inrelease` (`apt/src/store/store.rs`, lines 727–786) and `store_repomd_at`
    (`yum/src/store/store.rs`, lines 500–565). -/
def storeMutableFile (repo store path contentType : String) (kind : ArtifactKind) (data : Bytes)
    (now : DateTime) : Async Unit := do
  let blobId ← metadataBlob x store now data
  commitRecord x repo path (metadataRecord x p now blobId data contentType kind)

/-! ## Apt -/

/-- `store_by_hash_ref` (`apt/src/store/store.rs`, lines 790–825). -/
def storeByHashRef (repo distribution relPath sha256 : String) (blobId : BlobId) (size : ℕ)
    (now : DateTime) : Async Unit :=
  commitAbsent x repo (byHashPath distribution relPath sha256)
    { fileRecord now blobId sha256 size "application/octet-stream" .aptMetadata true with
      etag := none }

/-- The copy of one file of a distribution. -/
def copyByHash (repo source name : String) (now : DateTime) (entry : String × String × ℕ) :
    Async Unit := do
  match ← getArtifact x repo (byHashPath source entry.1 entry.2.1) with
  | none => pure ()
  | some record =>
      match record.blobId with
      | none => pure ()
      | some blobId => storeByHashRef x repo name entry.1 entry.2.1 blobId entry.2.2 now

/-- The `InRelease` of a snapshot. -/
def snapshotInrelease (release name : String) (signingKey : Option String) : String :=
  let adjusted := adjustReleaseSuite release name
  match signingKey with
  | some key => (e.signInrelease key adjusted).getD adjusted
  | none => adjusted

/-- `create_snapshot` (lines 1088–1141). -/
def aptCreateSnapshot (repo store source name : String) (signingKey : Option String) :
    Async Unit := do
  match ← readArtifact x repo store (inReleasePath source) with
  | none => throw (.notFound ("no metadata found for distribution '" ++ source ++ "'"))
  | some data => do
      let release := extractRelease (e.lossy data)
      let now ← utcNow
      Fallible.each (copyByHash x repo source name now) (parseReleaseSha256 e release)
      storeMutableFile x p repo store (inReleasePath name) "text/plain" .aptMetadata
        (utf8 (snapshotInrelease e release name signingKey)) now

/-- `handle_create_snapshot` (`apt/src/api.rs`, lines 261–291), with the configuration that
    `validate_format_repo` has found. -/
def aptHandleSnapshot (config : RepoConfig) (body : Bytes) : Async Unit := do
  let (source, name) ← Fallible.ofExcept ((e.aptRequest body).mapError fun msg =>
    DepotError.badRequest ("invalid JSON body: " ++ msg))
  blobStore config.store
  let key ← Fallible.capture (getSigningKey x e config.name config.store "_apt/signing_key")
  aptCreateSnapshot x p e config.name config.store source name (key.toOption.getD none)

/-! ## Yum -/

/-- One shard of `fold_all_artifacts` with a callback that collects; a value that is no record ends
    the scan with an error. -/
def foldShard (part : Part) (skPrefix : String) :
    ℕ → String → List (String × ArtifactRecord) → Async (List (String × ArtifactRecord))
  | 0, _, _ => orPanic none
  | fuel + 1, start, acc => do
      let result ← kvScanRange part start (prefixEnd skPrefix) scanBatchSize
      let own := result.items.takeWhile fun r => hasPrefix skPrefix r.1
      let acc ← Fallible.fold (fun acc r => do
        let record ← decode Value.artifact? r.2
        pure (acc ++ [(r.1, record)])) own acc
      if own.length ≠ result.items.length ∨ result.done = true then pure acc
      else
        match result.items.getLast? with
        | some last => foldShard part skPrefix fuel (cursorAfter last.1) acc
        | none => pure acc

/-- `fold_all_artifacts` (`service/artifact.rs`, lines 388–432) with a callback that collects. -/
def artifactsUnder (fuel : ℕ) (repo skPrefix : String) :
    Async (List (String × ArtifactRecord)) := do
  let shards ← Fallible.join ((List.range numShards).map fun shard =>
    foldShard ⟨.artifacts, .sharded repo shard⟩ skPrefix fuel skPrefix [])
  pure shards.flatten

/-- All records of a repository. -/
def allArtifacts (fuel : ℕ) (repo : String) : Async (List (String × ArtifactRecord)) :=
  artifactsUnder fuel repo ""

/-- The prefixes of the groups, in their order. -/
def yumGroups (depth : ℕ) (packages : List (String × ArtifactRecord)) : List String :=
  if packages = [] ∧ depth = 0 then [""]
  else sortedDistinct (packages.map fun r => repodataPrefix r.1 depth)

/-- The files of a group in a snapshot. -/
def yumRebuildGroup (repo store : String) (depth : ℕ) (now : DateTime)
    (packages : List (String × ArtifactRecord)) (pfx : String) : Async Unit := do
  let rd := repodataDir pfx
  let (files, repomd) := e.repodata now pfx
    (packages.filter fun r => repodataPrefix r.1 depth = pfx)
  Fallible.each (fun file => storeHashedFile x p repo store (rd ++ "/" ++ file.1) file.2 now) files
  storeMutableFile x p repo store (rd ++ "/repomd.xml") "application/xml" .yumMetadata repomd now

/-- `rebuild_metadata` once the flag is cleared (`yum/src/store/store.rs`, lines 338–421). -/
def yumRebuildRest (fuel : ℕ) (repo store : String) (depth : ℕ) : Async Unit := do
  let records ← allArtifacts fuel repo
  let packages := records.filter fun r => r.2.kind = .yumPackage
  let now ← utcNow
  Fallible.each (yumRebuildGroup x p e repo store depth now packages) (yumGroups depth packages)

/-- `rebuild_metadata` (lines 336–421). -/
def yumRebuildMetadata (fuel : ℕ) (repo store : String) (depth : ℕ) : Async Unit := do
  let _ ← deleteArtifact x repo yumStalePath
  yumRebuildRest x p e fuel repo store depth

/-- A path of a `repomd.xml` that is not one of a snapshot (lines 801–812). -/
def isRepomdPath (sk : String) : Bool :=
  (dropEnd "/repomd.xml" sk).isSome &&
    ((dropStart "repodata/" sk).isSome || decide ("/repodata/".toList <:+: sk.toList)) &&
    (dropStart "snapshots/" sk).isNone

/-- The copy of one file of a `repomd.xml`. -/
def copyLocation (repo name rd : String) (now : DateTime) (loc : String) : Async Unit := do
  let path := match dropStart "repodata/" loc with
    | some file => rd ++ "/" ++ file
    | none => loc
  match ← getArtifact x repo path with
  | none => pure ()
  | some record =>
      match record.blobId with
      | none => pure ()
      | some blobId =>
          commitAbsent x repo ("snapshots/" ++ name ++ "/" ++ path)
            { fileRecord now blobId "" record.size "application/octet-stream" .yumMetadata true with
              etag := record.etag
              contentHash := record.contentHash }

/-- The copy of one `repomd.xml` and of its files (lines 828–940). -/
def copyRepomd (repo store name : String) (now : DateTime) (path : String) : Async Unit := do
  match ← readArtifact x repo store path with
  | none => pure ()
  | some data => do
      let text := e.lossy data
      let rd := (dropEnd "/repomd.xml" path).getD "repodata"
      Fallible.each (copyLocation x repo name rd now) (parseRepomdLocations e text)
      storeMutableFile x p repo store ("snapshots/" ++ name ++ "/" ++ path) "application/xml"
        .yumMetadata (utf8 text) now

/-- `create_snapshot` (lines 789–945). -/
def yumCreateSnapshot (fuel : ℕ) (repo store name : String) : Async Unit := do
  let now ← utcNow
  let records ← allArtifacts fuel repo
  let paths := (records.map Prod.fst).filter isRepomdPath
  if paths = [] then throw (.notFound "no repodata found to snapshot")
  Fallible.each (copyRepomd x p e repo store name now) paths

/-- `handle_create_snapshot` (`yum/src/api.rs`, lines 145–185). -/
def yumHandleSnapshot (fuel : ℕ) (config : RepoConfig) (body : Bytes) : Async Unit := do
  let name ← Fallible.ofExcept ((e.yumRequest body).mapError fun msg =>
    DepotError.badRequest ("invalid JSON body: " ++ msg))
  if config.format ≠ .yum then throw (.badRequest "repo is not a Yum repo")
  blobStore config.store
  let flag ← Fallible.capture (getArtifact x config.name yumStalePath)
  if (flag.toOption.bind id).isSome then do
    let _ ← Fallible.capture (getSigningKey x e config.name config.store "_yum/signing_key")
    yumRebuildMetadata x p e fuel config.name config.store (e.repodataDepth config)
  let _ ← Fallible.capture (getSigningKey x e config.name config.store "_yum/signing_key")
  yumCreateSnapshot x p e fuel config.name config.store name

end

end Depot
