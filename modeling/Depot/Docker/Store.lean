import Depot.Service.Blob
import Depot.Service.Repo
import Mathlib.Data.List.Dedup

/-!
# Docker repositories

Docker images as artifact records (`docker/src/store.rs`): blobs at
`_blobs/{digest}`, manifests at `_manifests/{digest}` and tags at `_tags/{tag}`,
the last two below the name of the image, and copying a tag with everything it
refers to into another repository (`docker/src/promote.rs`).
-/

namespace Depot

open Lib

/-! ## Paths -/

/-- `manifest_path_for` (lines 68–73). -/
def manifestPathFor (image : Option String) (digest : String) : String :=
  match image with
  | some img => img ++ "/_manifests/" ++ digest
  | none => "_manifests/" ++ digest

/-- `tag_path_for` (lines 75–80). -/
def tagPathFor (image : Option String) (tag : String) : String :=
  match image with
  | some img => img ++ "/_tags/" ++ tag
  | none => "_tags/" ++ tag

/-- `blob_ref_path_for` (lines 89–91). -/
def blobRefPathFor (digest : String) : String := "_blobs/" ++ digest

section

variable (x : Ext)

/-- `sha256_digest` (lines 111–114). -/
def sha256Digest (data : Bytes) : String := "sha256:" ++ x.sha256 data

/-! ## Blobs and manifests -/

/-- `DockerStore`. -/
structure DockerStore where
  repo : String
  image : Option String
  store : String
  deriving DecidableEq

namespace DockerStore

variable (d : DockerStore)

/-- The record of a layer or a config. -/
def blobRefRecord (now : DateTime) (dockerDigest : String) (blobId : BlobId) (hash : String)
    (size : ℕ) : ArtifactRecord where
  size := size
  kind := .dockerBlob dockerDigest
  createdAt := now
  updatedAt := now
  lastAccessedAt := now
  blobId := some blobId
  contentHash := some hash
  etag := some hash

/-- `blob_exists` (lines 161–171): size, blob and hash. -/
def blobExists (digest : String) : Async (Option (ℕ × String × String)) := do
  let record ← getArtifact x d.repo (blobRefPathFor digest)
  pure (record.map fun r => (r.size, r.blobId.getD "", r.contentHash.getD ""))

/-- `put_blob` (lines 216–275). -/
def putBlob (data : Bytes) : Async String := do
  let dockerDigest := sha256Digest x data
  let hash := x.blake3 data
  let blobId ← newUuid
  let now ← utcNow
  blobPut d.store blobId data
  let path := blobRefPathFor dockerDigest
  let existing ← putDedupRecordCounted x d.store ⟨blobId, hash, data.length, now, d.store⟩
  let record := blobRefRecord now dockerDigest (existing.getD blobId) hash data.length
  let old ← putArtifact x d.repo path record
  recordPut d.repo path record old
  if existing.isSome then Fallible.ignore (blobDelete d.store blobId)
  pure dockerDigest

/-- `mount_blob` (lines 279–330). -/
def mountBlob (dockerDigest : String) (blobId : BlobId) (contentHash : String) (size : ℕ) :
    Async String := do
  let now ← utcNow
  let path := blobRefPathFor dockerDigest
  let record := blobRefRecord now dockerDigest blobId contentHash size
  let _ ← putDedupRecordCounted x d.store ⟨blobId, contentHash, size, now, d.store⟩
  let old ← putArtifact x d.repo path record
  recordPut d.repo path record old
  pure dockerDigest

/-- `put_cached_blob` (lines 333–388). -/
def putCachedBlob (blobId : BlobId) (dockerDigest blake3Hash : String) (size : ℕ) :
    Async Unit := do
  let now ← utcNow
  let path := blobRefPathFor dockerDigest
  let existing ← putDedupRecordCounted x d.store ⟨blobId, blake3Hash, size, now, d.store⟩
  let record := blobRefRecord now dockerDigest (existing.getD blobId) blake3Hash size
  let old ← putArtifact x d.repo path record
  recordPut d.repo path record old
  if existing.isSome then Fallible.ignore (blobDelete d.store blobId)

/-- The record of a manifest. -/
def manifestRecord (now : DateTime) (contentType digest : String) (blobId : BlobId)
    (hash : String) (size : ℕ) : ArtifactRecord where
  size := size
  contentType := contentType
  kind := .dockerManifest digest
  createdAt := now
  updatedAt := now
  lastAccessedAt := now
  blobId := some blobId
  contentHash := some hash
  etag := some hash

/-- The record of a tag. -/
def tagRecord (now : DateTime) (contentType digest tag : String) : ArtifactRecord where
  size := 0
  contentType := contentType
  kind := .dockerTag digest tag
  createdAt := now
  updatedAt := now
  lastAccessedAt := now
  blobId := none
  contentHash := none

/-- `put_manifest` (lines 486–587): the tag is written before the manifest. -/
def putManifest (reference contentType : String) (data : Bytes) : Async String := do
  let digest := sha256Digest x data
  let now ← utcNow
  let path := manifestPathFor d.image digest
  let newId ← newUuid
  let hash := x.blake3 data
  blobPut d.store newId data
  let blobId ← claimOrReuseBlobCounted x d.store ⟨newId, hash, data.length, now, d.store⟩
  if reference.startsWith "sha256:" = false then do
    let record := tagRecord now contentType digest reference
    let tagPath := tagPathFor d.image reference
    let old ← putArtifact x d.repo tagPath record
    recordPut d.repo tagPath record old
  let record := manifestRecord now contentType digest blobId hash data.length
  let old ← putArtifact x d.repo path record
  recordPut d.repo path record old
  pure digest

/-- `delete_manifest` (lines 591–596). -/
def deleteManifest (digest : String) : Async Bool := do
  let old ← deleteArtifact x d.repo (manifestPathFor d.image digest)
  pure old.isSome

end DockerStore

/-! ## Promotion -/

/-- `CopyTarget`. -/
structure CopyTarget where
  sourceRepo : String
  sourceStore : String
  destRepo : String
  destStore : String
  deriving DecidableEq

/-- `CopyTarget::rehome_blob` (`promote.rs`, lines 114–159). -/
def CopyTarget.rehomeBlob (t : CopyTarget) (record : ArtifactRecord) :
    Async (ArtifactRecord × ℕ) :=
  match record.blobId.filter (· ≠ "") with
  | none => pure (record, 0)
  | some blobId => do
      match ← blobRead t.sourceStore blobId with
      | none => throw (.dataIntegrity ("blob " ++ blobId ++ " missing in source store '" ++
          t.sourceStore ++ "'"))
      | some data => do
          let hash := record.contentHash.getD (x.blake3 data)
          let newBlobId ← newUuid
          blobPut t.destStore newBlobId data
          let now ← utcNow
          match ← putDedupRecord x t.destStore ⟨newBlobId, hash, data.length, now, t.destStore⟩ with
          | some existing => do
              Fallible.ignore (blobDelete t.destStore newBlobId)
              pure ({ record with blobId := some existing }, 0)
          | none => pure ({ record with blobId := some newBlobId }, data.length)

/-- `CopyTarget::copy_record` (`promote.rs`, lines 75–104). -/
def CopyTarget.copyRecord (t : CopyTarget) (path : String) : Async ℕ := do
  match ← getArtifact x t.sourceRepo path with
  | none => pure 0
  | some record => do
      let dest ← if t.sourceStore = t.destStore then pure (record, 0)
        else CopyTarget.rehomeBlob x t record
      let old ← putArtifact x t.destRepo path dest.1
      recordPut t.destRepo path dest.1 old
      if 0 < dest.2 then storeChanged t.destStore 1 dest.2
      pure 1

/-- `read_manifest_json` (`promote.rs`, lines 306–321). -/
def readManifestJson (store repo manifestPath : String) : Async (Option Bytes) := do
  match ← getArtifact x repo manifestPath with
  | none => pure none
  | some record =>
      match record.blobId.filter (· ≠ "") with
      | none => pure none
      | some blobId => blobRead store blobId

/-- The loop over the manifests that a tag reaches (`promote.rs`, lines
    217–243): the stack, the manifests in the order they are seen and the blobs
    they refer to. The digests in a manifest are read off by `classifyManifest`;
    `fuel` bounds the number of rounds. -/
def manifestClosure (classifyManifest : Bytes → List String × List String) (t : CopyTarget)
    (image : Option String) (tag : String) :
    ℕ → List String → List String → List String → Async (List String × List String)
  | 0, _, _, _ => orPanic none
  | _ + 1, [], manifests, blobs => pure (manifests, blobs)
  | fuel + 1, digest :: stack, manifests, blobs =>
      if digest ∈ manifests then
        manifestClosure classifyManifest t image tag fuel stack manifests blobs
      else do
        match ← readManifestJson x t.sourceStore t.sourceRepo (manifestPathFor image digest) with
        | none => throw (.dataIntegrity ("manifest '" ++ digest ++ "' referenced by tag '" ++
            tag ++ "' is missing in '" ++ t.sourceRepo ++ "'"))
        | some json =>
            let (children, referenced) := classifyManifest json
            manifestClosure classifyManifest t image tag fuel (children.reverse ++ stack)
              (manifests ++ [digest]) (blobs ++ referenced)

/-- `delete_tag` (`promote.rs`, lines 274–294). -/
def deleteTag (repo : String) (image : Option String) (tag : String) : Async Bool := do
  let tagPath := tagPathFor image tag
  match ← deleteArtifact x repo tagPath with
  | some old => do
      recordRemoved repo tagPath old
      pure true
  | none => pure false

/-- `copy_tag` (`promote.rs`, lines 183–267): the number of copied records. -/
def copyTag (classifyManifest : Bytes → List String × List String) (fuel : ℕ) (t : CopyTarget)
    (image : Option String) (tag : String) (deleteSource overwrite : Bool) : Async ℕ := do
  let tagPath := tagPathFor image tag
  match ← getArtifact x t.sourceRepo tagPath with
  | none => throw (.notFound ("tag '" ++ tag ++ "' not found in repository '" ++
      t.sourceRepo ++ "'"))
  | some tagRec =>
    match tagRec.kind with
    | .dockerTag rootDigest _ => do
        if overwrite = false then
          let existing ← getArtifact x t.destRepo tagPath
          if existing.isSome then
            throw (.conflict ("tag '" ++ tag ++ "' already exists in repository '" ++
              t.destRepo ++ "' (set overwrite to replace)"))
        let (manifests, blobs) ← manifestClosure x classifyManifest t image tag fuel [rootDigest] [] []
        let copyAll := Fallible.fold (fun (copied : ℕ) path => do
          let n ← CopyTarget.copyRecord x t path
          pure (copied + n))
        let blobDigests := blobs.dedup.insertionSort (· ≤ ·)
        let copied ← copyAll (blobDigests.map blobRefPathFor) 0
        let copied ← copyAll (manifests.map (manifestPathFor image)) copied
        let copied ← copyAll [tagPath] copied
        if deleteSource then
          let _ ← deleteTag x t.sourceRepo image tag
        pure copied
    | _ => throw (.dataIntegrity ("record at '" ++ tagPath ++ "' in '" ++ t.sourceRepo ++
        "' is not a Docker tag"))

/-! ## What the functions may change -/

variable {x} {es : List Effect}

theorem effects_blobExists (d : DockerStore) (digest : String) :
    Effects es (DockerStore.blobExists x d digest) :=
  (effects_getArtifact _ _).bind fun _ => effects_pure _

theorem effects_readManifestJson (store repo manifestPath : String) :
    Effects es (readManifestJson x store repo manifestPath) := by
  refine (effects_getArtifact _ _).bind fun r => ?_
  cases r with
  | none => exact effects_pure _
  | some record =>
    show Effects es (match record.blobId.filter (· ≠ "") with
      | none => pure none
      | some blobId => blobRead store blobId)
    cases record.blobId.filter (· ≠ "") with
    | none => exact effects_pure _
    | some blobId => exact effects_blobRead _ _

theorem effects_manifestClosure (classifyManifest : Bytes → List String × List String)
    (t : CopyTarget) (image : Option String) (tag : String) (fuel : ℕ)
    (stack manifests blobs : List String) :
    Effects es (manifestClosure x classifyManifest t image tag fuel stack manifests blobs) := by
  induction fuel generalizing stack manifests blobs with
  | zero => exact effects_orPanic _
  | succ fuel ih =>
    cases stack with
    | nil => exact effects_pure _
    | cons digest stack =>
      rw [manifestClosure]
      split_ifs
      · exact ih _ _ _
      · refine (effects_readManifestJson _ _ _).bind fun json => ?_
        cases json with
        | none => exact effects_throw _
        | some json => exact ih _ _ _

theorem effects_rehomeBlob (h : Effect.table .blobs ∈ es) (hf : Effect.files ∈ es)
    (t : CopyTarget) (record : ArtifactRecord) : Effects es (CopyTarget.rehomeBlob x t record) := by
  unfold CopyTarget.rehomeBlob
  cases record.blobId.filter (· ≠ "") with
  | none => exact effects_pure _
  | some blobId =>
    refine (effects_blobRead _ _).bind fun data => ?_
    cases data with
    | none => exact effects_throw _
    | some data =>
      refine effects_newUuid.bind fun newBlobId => ?_
      refine (effects_blobPut hf _ _ _).bind fun _ => effects_utcNow.bind fun now => ?_
      refine (effects_putDedupRecord h _ _).bind fun existing => ?_
      cases existing with
      | none => exact effects_pure _
      | some existing => exact (effects_blobDelete hf _ _).ignore.bind fun _ => effects_pure _

end

end Depot
