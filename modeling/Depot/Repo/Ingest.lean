import Depot.Service.Blob
import Depot.Service.Repo

/-!
# Ingesting and deleting artifacts

The paths of hosted and cached repositories that write and delete artifacts:
`core/src/repo/mod.rs`, `core/src/repo/hosted.rs`, the background fetch of
`core/src/repo/cache.rs` and the PUT and DELETE handlers of
`server/src/server/api/artifacts.rs`.
-/

namespace Depot

open Lib

section

variable (x : Ext)

/-! ## Committing an ingestion -/

/-- `IngestionCtx`. -/
structure IngestionCtx where
  store : String
  repo : String

/-- `IngestionResult`. -/
structure IngestionResult where
  record : ArtifactRecord
  oldRecord : Option ArtifactRecord
  newBlob : Bool

def rawRecord (now : DateTime) (blobId : BlobId) (hash etag : String) (size : ℕ)
    (contentType : String) : ArtifactRecord where
  size := size
  contentType := contentType
  createdAt := now
  updatedAt := now
  lastAccessedAt := now
  blobId := some blobId
  contentHash := some hash
  etag := some etag

/-- `commit_ingestion` (`repo/mod.rs`, lines 346–421). On a dedup hit the
    duplicate is deleted while the record is written. -/
def commitIngestion (ctx : IngestionCtx) (path : String) (blobId : BlobId) (blake3Hash : String)
    (size : ℕ) (contentType : String) : Async IngestionResult := do
  let now ← utcNow
  let existing ← putDedupRecord x ctx.store ⟨blobId, blake3Hash, size, now, ctx.store⟩
  let record := rawRecord now (existing.getD blobId) blake3Hash blake3Hash size contentType
  match existing with
  | some _ => do
      let r ← Fallible.both (blobDelete ctx.store blobId) (putArtifact x ctx.repo path record)
      let oldRecord ← Fallible.ofExcept r.2
      pure ⟨record, oldRecord, false⟩
  | none => do
      let oldRecord ← putArtifact x ctx.repo path record
      pure ⟨record, oldRecord, true⟩

/-- `ingest_artifact` (`repo/mod.rs`, lines 425–438). -/
def ingestArtifact (ctx : IngestionCtx) (path contentType : String) (data : Bytes) :
    Async IngestionResult := do
  let hash := x.blake3 data
  let blobId ← newUuid
  blobPut ctx.store blobId data
  commitIngestion x ctx path blobId hash data.length contentType

/-! ## Hosted repositories -/

/-- `HostedRepo`. -/
structure HostedRepo where
  name : String
  store : String
  format : ArtifactFormat
  deriving DecidableEq

/-- The path of the flag that makes a Helm index stale. -/
def helmStalePath : String := "_helm/metadata_stale"

/-- `set_helm_stale_flag` (`hosted.rs`, lines 22–40). -/
def setHelmStaleFlag (repo : String) : Async Unit := do
  let now ← utcNow
  let _ ← putArtifactIfAbsent x repo helmStalePath (staleFlag now .helmMetadata)
  pure ()

/-- What `put` and `delete` do for a chart. -/
def markHelmStale (h : HostedRepo) (path : String) : Async Unit :=
  if h.format = .helm ∧ path.endsWith ".tgz" = true then do
    Fallible.ignore (setHelmStaleFlag x h.name)
    Fallible.ignore (propagateStaleness x h.name .helm helmStalePath)
  else pure ()

/-- `HostedRepo::put` (`hosted.rs`, lines 54–101). -/
def HostedRepo.put (h : HostedRepo) (path contentType : String) (data : Bytes) :
    Async ArtifactRecord := do
  let result ← ingestArtifact x ⟨h.store, h.name⟩ path contentType data
  recordPut h.name path result.record result.oldRecord
  if result.newBlob then storeChanged h.store 1 result.record.size
  markHelmStale x h path
  pure result.record

/-- `HostedRepo::delete` (`hosted.rs`, lines 103–126). -/
def HostedRepo.delete (h : HostedRepo) (path : String) : Async Bool := do
  match ← deleteArtifact x h.name path with
  | some old => do
      recordRemoved h.name path old
      markHelmStale x h path
      pure true
  | none => pure false

/-! ## The PUT handler -/

/-- `put_artifact` (`api/artifacts.rs`), for a repository whose uploads it
    commits itself, once the target repository is resolved: the body is streamed
    to a blob (`stream_body_to_blob`) and committed. -/
def putArtifactHandler (repo store path contentType : String) (body : List Bytes) :
    Async ArtifactRecord := do
  let blobId ← newUuid
  let streamed ← Fallible.capture (do
    let inode ← createWriter store blobId
    let data ← writeBody (.dataIntegrity "body") (abortWriter store blobId) store blobId inode body []
    finishWriter
    pure data)
  match streamed with
  | .error e => do
      Fallible.ignore (blobDelete store blobId)
      throw e
  | .ok data => do
      let result ← commitIngestion x ⟨store, repo⟩ path blobId (x.blake3 data) data.length
        contentType
      recordPut repo path result.record result.oldRecord
      if result.newBlob then storeChanged store 1 result.record.size
      pure result.record

/-! ## The background fetch of a cache -/

/-- The task `CacheRepo::get` spawns to store what it fetches (`cache.rs`,
    lines 385–484); `upstreamHash` is the hash the upstream has announced. -/
def cacheCommit (repo store path contentType etag : String) (upstreamHash : Option String)
    (now : DateTime) (body : List Bytes) : Async Unit := do
  let blobId ← newUuid
  let inode ← createWriter store blobId
  let data ← writeBody (.upstream "upstream stream error") (pure ()) store blobId inode body []
  finishWriter
  let contentHash := x.blake3 data
  match upstreamHash with
  | some claimed =>
      if claimed ≠ contentHash then
        throw (.upstream ("upstream BLAKE3 mismatch for " ++ path ++ ": claimed " ++ claimed ++
          ", computed " ++ contentHash))
  | none => pure ()
  let blobId' ← claimOrReuseBlobCounted x store ⟨blobId, contentHash, data.length, now, store⟩
  let artifact := rawRecord now blobId' contentHash etag data.length contentType
  let oldRecord ← putArtifact x repo path artifact
  recordPut repo path artifact oldRecord

end

end Depot
