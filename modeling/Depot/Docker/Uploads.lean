import Depot.Docker.Store

/-!
# Docker blob uploads

Pushing a blob (`docker/src/api/uploads.rs`): in one request, by mounting the
blob of another repository, or in chunks. A chunked upload is a session; every
PATCH adds a chunk blob to it, and the completing PUT assembles the chunks into
the blob of the session, records it and deletes the session.

The handlers are modelled from the point where the permission is checked and the
names are resolved.
-/

namespace Depot

open Lib

/-- A successful response: the digest of a blob that is now there, or the
    session to continue with. -/
inductive UploadResponse where
  | created (digest : String)
  | accepted (uuid : String) (size : ℕ)

/-- `docker_error("UNKNOWN", ..)` for a broken request body. -/
def bodyError : DepotError := .docker "UNKNOWN" "error reading a body from connection" 500

/-- The response for a session that does not exist or belongs elsewhere. -/
def uploadNotFound : DepotError := .docker "BLOB_UPLOAD_UNKNOWN" "upload not found" 404

/-- `state.blob_store(name)`. -/
def resolveBlobStore (store : String) : Async Unit := do
  if ← storesGet store then pure ()
  else throw (.notFound ("blob store '" ++ store ++ "' not found"))

section

variable (x : Ext)

/-! ## Starting an upload -/

/-- `UploadInitParams`. -/
structure UploadInitParams where
  mount : Option String := none
  fromRepo : Option String := none
  digest : Option String := none
  deriving DecidableEq

/-- The outcome of a call whose errors count as absence
    (`if let Ok(Some(..)) = ..`). -/
def okSome {α : Type} (p : Async (Option α)) : Async (Option α) := do
  match ← Fallible.capture p with
  | .ok r => pure r
  | .error _ => pure none

/-- Mounting a blob of another repository (lines 115–203): the response, or
    `none` to go on with an upload. The permission check on the source
    repository is the environment's choice. -/
def tryMount (d : DockerStore) (params : UploadInitParams) : Async (Option UploadResponse) := do
  match params.mount, params.fromRepo with
  | some mountDigest, some fromRepo => do
      match ← okSome (DockerStore.blobExists x d mountDigest) with
      | some _ => pure (some (.created mountDigest))
      | none => do
          Fallible.check (.docker "DENIED" "requested access to the resource is denied" 403)
          match ← okSome (getRepo fromRepo) with
          | none => pure none
          | some config =>
              if ← storesGet config.store then
                let source : DockerStore := ⟨fromRepo, none, config.store⟩
                match ← okSome (DockerStore.blobExists x source mountDigest) with
                | none => pure none
                | some (size, blobId, contentHash) => do
                    let digest ← DockerStore.mountBlob x d mountDigest blobId contentHash size
                    pure (some (.created digest))
              else pure none
  | _, _ => pure none

/-- A blob in one request (lines 206–339). -/
def monolithicUpload (d : DockerStore) (digest : String) (body : List Bytes) :
    Async UploadResponse := do
  let blobId ← newUuid
  let inode ← createWriter d.store blobId
  let data ← writeBody bodyError (abortWriter d.store blobId) d.store blobId inode body []
  let computed := sha256Digest x data
  if computed ≠ digest then
    abortWriter d.store blobId
    throw (.docker "DIGEST_INVALID" ("expected " ++ digest ++ ", got " ++ computed) 400)
  finishWriter
  let hash := x.blake3 data
  let now ← utcNow
  let path := blobRefPathFor computed
  let existing ← putDedupRecordCounted x d.store ⟨blobId, hash, data.length, now, d.store⟩
  let record := DockerStore.blobRefRecord now computed (existing.getD blobId) hash data.length
  let _ ← putArtifact x d.repo path record
  if existing.isSome then Fallible.ignore (blobDelete d.store blobId)
  dirChanged d.repo path 1 data.length
  pure (.created computed)

/-- A new session for a chunked upload (lines 341–424). -/
def startSession (d : DockerStore) (body : List Bytes) : Async UploadResponse := do
  let uuid ← newUuid
  let blobId ← newUuid
  let chunkId ← newUuid
  let inode ← createWriter d.store chunkId
  let data ← writeBody bodyError (abortWriter d.store chunkId) d.store chunkId inode body []
  if data = [] then abortWriter d.store chunkId else finishWriter
  let now ← utcNow
  let session : UploadSessionRecord :=
    { uuid := uuid
      repo := d.repo
      image := d.image
      blobId := blobId
      store := d.store
      size := data.length
      chunkBlobIds := if data = [] then [] else [chunkId]
      createdAt := now
      updatedAt := now }
  putUploadSession session
  pure (.accepted uuid data.length)

/-- `do_start_upload` (lines 28–424), for the target repository `d`. -/
def doStartUpload (d : DockerStore) (params : UploadInitParams) (body : List Bytes) :
    Async UploadResponse := do
  match ← tryMount x d params with
  | some response => pure response
  | none =>
      match params.digest with
      | some digest => monolithicUpload x d digest body
      | none => startSession d body

/-! ## Sessions -/

/-- Whether a session belongs to the repository and image of the request (lines
    471–477 and 693–699). -/
def sessionMatches (repoName effectiveRepo : String) (image : Option String)
    (s : UploadSessionRecord) : Bool :=
  s.repo = repoName || s.repo = effectiveRepo || (image.isNone && s.image = some repoName)

/-- The attempts to add a chunk to a session (lines 548–605). -/
def patchAttempts (maxChunks : ℕ) (uuid chunkId : String) (chunkBytes : ℕ) :
    ℕ → UploadSessionRecord × ℕ → Async ℕ
  | 0, _ => throw (.docker "UNKNOWN" "concurrent upload session update conflict" 409)
  | attempts + 1, (session, version) =>
      if maxChunks ≤ session.chunkBlobIds.length then
        throw (.docker "BLOB_UPLOAD_INVALID" "too many chunks" 400)
      else do
        let now ← utcNow
        let updated := { session with
          size := session.size + chunkBytes
          chunkBlobIds := session.chunkBlobIds ++ [chunkId]
          updatedAt := now }
        if ← putUploadSessionIfVersion updated version then pure updated.size
        else if attempts = 0 then
          throw (.docker "UNKNOWN" "concurrent upload session update conflict" 409)
        else do
          match ← getUploadSessionVersioned uuid with
          | some next => patchAttempts maxChunks uuid chunkId chunkBytes attempts next
          | none => throw uploadNotFound

/-- `do_patch_upload` (lines 427–637). -/
def doPatchUpload (maxChunks : ℕ) (repoName effectiveRepo : String) (image : Option String)
    (uuid : String) (body : List Bytes) : Async UploadResponse := do
  match ← getUploadSessionVersioned uuid with
  | none => throw uploadNotFound
  | some (session, version) =>
      if sessionMatches repoName effectiveRepo image session = false then throw uploadNotFound
      else do
        resolveBlobStore session.store
        let chunkId ← newUuid
        let inode ← createWriter session.store chunkId
        let data ← writeBody bodyError (abortWriter session.store chunkId) session.store chunkId
          inode body []
        finishWriter
        let size ← patchAttempts maxChunks uuid chunkId data.length 3 (session, version)
        pure (.accepted uuid size)

/-! ## Completing an upload -/

/-- Copy the chunks of a session into its blob (lines 788–833): the chunks that
    are left and the data written so far. -/
def assembleChunks (store : String) (blobId : BlobId) (inode : ℕ) :
    List BlobId → Bytes → Async Bytes
  | [], data => pure data
  | chunkId :: chunks, data => do
      let copied ← Fallible.capture (do
        match ← blobRead store chunkId with
        | none => throw (.docker "UNKNOWN" "chunk blob missing during assembly" 500)
        | some chunk => do
            writeChunk store blobId inode data.length chunk
            pure chunk)
      match copied with
      | .ok chunk => assembleChunks store blobId inode chunks (data ++ chunk)
      | .error e => do
          abortWriter store blobId
          throw e

/-- The body of the completing request, stored as one more chunk (lines
    738–776). -/
def finalChunk (store : String) (body : List Bytes) : Async (List BlobId × ℕ) := do
  let chunkId ← newUuid
  let inode ← createWriter store chunkId
  let data ← writeBody bodyError (abortWriter store chunkId) store chunkId inode body []
  if data = [] then
    abortWriter store chunkId
    pure ([], 0)
  else
    finishWriter
    pure ([chunkId], data.length)

/-- The records of a completed upload (lines 895–910): the blob that was there
    before, if any. -/
def commitUpload (uuid : String) (session : UploadSessionRecord) (digest hash : String)
    (size : ℕ) (now : DateTime) : Async (Option BlobId) := do
  let existing ← putDedupRecordCounted x session.store
    ⟨session.blobId, hash, size, now, session.store⟩
  let record := DockerStore.blobRefRecord now digest (existing.getD session.blobId) hash size
  let _ ← putArtifact x session.repo (blobRefPathFor digest) record
  deleteUploadSession uuid
  pure existing

/-- `do_complete_upload` from the session on (lines 721–943). -/
def completeSession (uuid : String) (session : UploadSessionRecord) (expectedDigest : String)
    (body : List Bytes) : Async UploadResponse := do
  resolveBlobStore session.store
  let (final, finalBytes) ← finalChunk session.store body
  let chunks := session.chunkBlobIds ++ final
  let size := session.size + finalBytes
  let inode ← createWriter session.store session.blobId
  let data ← assembleChunks session.store session.blobId inode chunks []
  finishWriter
  let digest := sha256Digest x data
  if digest ≠ expectedDigest then
    Fallible.ignore (blobDelete session.store session.blobId)
    throw (.docker "DIGEST_INVALID" ("expected " ++ expectedDigest ++ ", got " ++ digest) 400)
  let now ← utcNow
  let dedup ← commitUpload x uuid session digest (x.blake3 data) size now
  if dedup.isSome then Fallible.ignore (blobDelete session.store session.blobId)
  Fallible.each (fun chunkId => Fallible.ignore (blobDelete session.store chunkId)) chunks
  dirChanged session.repo (blobRefPathFor digest) 1 size
  pure (.created digest)

/-- `do_complete_upload` (lines 641–943). -/
def doCompleteUpload (repoName effectiveRepo : String) (image : Option String) (uuid : String)
    (expectedDigest : String) (body : List Bytes) : Async UploadResponse := do
  match ← getUploadSession uuid with
  | none => throw uploadNotFound
  | some session =>
      if sessionMatches repoName effectiveRepo image session = false then throw uploadNotFound
      else completeSession x uuid session expectedDigest body

/-! ## What the functions may change -/

variable {x} {es : List Effect}

theorem Effects.okSome {α : Type} {p : Async (Option α)} (hp : Effects es p) :
    Effects es (okSome p) := by
  refine hp.capture.bind fun r => ?_
  cases r with
  | ok r => exact effects_pure _
  | error e => exact effects_pure _

theorem effects_resolveBlobStore (store : String) : Effects es (resolveBlobStore store) := by
  refine (effects_storesGet store).bind fun found => ?_
  cases found with
  | true => exact effects_pure _
  | false => exact effects_throw _

theorem effects_patchAttempts (hs : Effect.table .uploadSessions ∈ es) (maxChunks : ℕ) (uuid chunkId : String) (chunkBytes attempts : ℕ)
    (s : UploadSessionRecord × ℕ) :
    Effects es (patchAttempts maxChunks uuid chunkId chunkBytes attempts s) := by
  induction attempts generalizing s with
  | zero => exact effects_throw _
  | succ attempts ih =>
    obtain ⟨session, version⟩ := s
    rw [patchAttempts]
    by_cases hmax : maxChunks ≤ session.chunkBlobIds.length
    · rw [if_pos hmax]
      exact effects_throw _
    · rw [if_neg hmax]
      refine effects_utcNow.bind fun now => ?_
      refine (effects_putUploadSessionIfVersion hs _ _).bind fun written => ?_
      split_ifs
      · exact effects_pure _
      · exact effects_throw _
      · refine (effects_getUploadSessionVersioned uuid).bind fun next => ?_
        cases next with
        | some next => exact ih next
        | none => exact effects_throw _

section

variable (hf : Effect.files ∈ es)
include hf

theorem effects_assembleChunks (store : String) (blobId : BlobId) (inode : ℕ)
    (chunks : List BlobId) (data : Bytes) :
    Effects es (assembleChunks store blobId inode chunks data) := by
  induction chunks generalizing data with
  | nil => exact effects_pure _
  | cons chunkId chunks ih =>
    refine Effects.bind (Effects.capture ((effects_blobRead _ _).bind fun chunk => ?_)) fun r => ?_
    · cases chunk with
      | none => exact effects_throw _
      | some chunk => exact (effects_writeChunk hf _ _ _ _ _).bind fun _ => effects_pure _
    · cases r with
      | ok chunk => exact ih _
      | error e => exact (effects_abortWriter hf _ _).bind fun _ => effects_throw _

variable (hs : Effect.table .uploadSessions ∈ es)
include hs

theorem effects_startSession (d : DockerStore) (body : List Bytes) :
    Effects es (startSession d body) := by
  refine effects_newUuid.bind fun uuid => effects_newUuid.bind fun blobId =>
    effects_newUuid.bind fun chunkId => ?_
  refine (effects_createWriter hf _ _).bind fun inode => ?_
  refine (effects_writeBody hf _ (effects_abortWriter hf _ _) _ _ _ _ _).bind fun data => ?_
  have hend : ∀ session response, Effects es (do
      putUploadSession session
      pure (response : UploadResponse)) := fun session _ =>
    (effects_putUploadSession hs session).bind fun _ => effects_pure _
  dsimp only
  split_ifs
  · exact (effects_abortWriter hf _ _).bind fun _ => effects_utcNow.bind fun _ => hend _ _
  · exact effects_finishWriter.bind fun _ => effects_utcNow.bind fun _ => hend _ _

theorem effects_doPatchUpload (maxChunks : ℕ) (repoName effectiveRepo : String)
    (image : Option String) (uuid : String) (body : List Bytes) :
    Effects es (doPatchUpload maxChunks repoName effectiveRepo image uuid body) := by
  refine (effects_getUploadSessionVersioned uuid).bind fun s => ?_
  cases s with
  | none => exact effects_throw _
  | some s =>
    obtain ⟨session, version⟩ := s
    show Effects es (if sessionMatches repoName effectiveRepo image session = false then
      throw uploadNotFound else _)
    split_ifs
    · exact effects_throw _
    · refine (effects_resolveBlobStore _).bind fun _ => effects_newUuid.bind fun chunkId => ?_
      refine (effects_createWriter hf _ _).bind fun inode => ?_
      refine (effects_writeBody hf _ (effects_abortWriter hf _ _) _ _ _ _ _).bind fun data => ?_
      refine effects_finishWriter.bind fun _ => ?_
      exact (effects_patchAttempts hs _ _ _ _ _ _).bind fun _ => effects_pure _

end

end

end Depot
