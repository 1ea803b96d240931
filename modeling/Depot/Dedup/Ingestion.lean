import Depot.Docker.Uploads
import Depot.Repo.Ingest

/-!
# Concurrent ingestion

A store keeps one blob for each content: a call that has written a blob claims
the hash of its content in the table of blob records, and a call that finds the
hash taken drops its blob and uses the one that is recorded. Here any number of
calls ingest, mount and delete concurrently, and the shared state remembers
which blobs were recorded, who draws and who leaves a blob to others, and what
the store's counter was credited with.
-/

namespace Depot

open Lib

/-! ## The calls -/

/-- A call that ingests, mounts or copies a content, or deletes a record. -/
inductive IngestJob where
  | hostedPut (h : HostedRepo) (path contentType : String) (data : Bytes)
  | putArtifact (repo store path contentType : String) (body : List Bytes)
  | cacheFetch (repo store path contentType etag : String) (upstreamHash : Option String)
      (body : List Bytes)
  | putBlob (d : DockerStore) (data : Bytes)
  | putManifest (d : DockerStore) (reference contentType : String) (data : Bytes)
  | startUpload (d : DockerStore) (params : UploadInitParams) (body : List Bytes)
  | patchUpload (maxChunks : ℕ) (repoName effectiveRepo : String) (image : Option String)
      (uuid : String) (body : List Bytes)
  | completeUpload (uuid : String) (session : UploadSessionRecord) (digest : String)
      (body : List Bytes)
  | copyRecord (t : CopyTarget) (path : String)
  | hostedDelete (h : HostedRepo) (path : String)
  | deleteManifest (d : DockerStore) (digest : String)
  | deleteBlob (store hash : String)
  | deleteBlobCounted (store hash : String)
  deriving DecidableEq

namespace IngestJob

/-- The repository for which a call writes artifact records that name a blob, and
    the store of the blob. -/
def target : IngestJob → Option (String × String)
  | hostedPut h .. => some (h.name, h.store)
  | putArtifact repo store .. => some (repo, store)
  | cacheFetch repo store .. => some (repo, store)
  | putBlob d .. => some (d.repo, d.store)
  | putManifest d .. => some (d.repo, d.store)
  | startUpload d .. => some (d.repo, d.store)
  | completeUpload _ session .. => some (session.repo, session.store)
  | copyRecord t .. => some (t.destRepo, t.destStore)
  | _ => none

/-- The repository that a call copies from, and its store. -/
def source : IngestJob → Option (String × String)
  | copyRecord t .. => some (t.sourceRepo, t.sourceStore)
  | _ => none

/-- The blobs that earlier calls have left to a call. -/
def given : IngestJob → List BlobId
  | completeUpload _ session .. => session.blobId :: session.chunkBlobIds
  | _ => []

/-- The store of a call. -/
def store (j : IngestJob) : String := (j.target.map Prod.snd).getD ""

end IngestJob

/-! ## The code of the calls -/

section

variable (x : Ext)

/-- `get_blob` (lines 23–30). -/
def getBlob (store hash : String) : Async (Option BlobRecord) :=
  typedGet Value.blob? (blobKey x.shardOf store hash)

/-- `delete_blob` (lines 105–108). -/
def deleteBlob (store hash : String) : Async Bool := kvDelete (blobKey x.shardOf store hash)

/-- `delete_blob_counted` (lines 115–129). -/
def deleteBlobCounted (store hash : String) : Async Bool := do
  let record ← getBlob x store hash
  let deleted ← deleteBlob x store hash
  if deleted then
    match record with
    | some r => do
        storeChanged store (-1) (-r.size)
        pure deleted
    | none => pure deleted
  else pure deleted

/-- A call; one that ends with an error does not return. -/
def succeeding {α : Type} (p : Async α) : Task Op R Unit :=
  p.run.bind fun r =>
    match r with
    | .ok _ => .pure ()
    | .error _ => .op .stop fun e => nomatch e

/-- The function that a job calls. -/
def IngestJob.code : IngestJob → Task Op R Unit
  | hostedPut h path contentType data => succeeding (HostedRepo.put x h path contentType data)
  | putArtifact repo store path contentType body =>
      succeeding (putArtifactHandler x repo store path contentType body)
  | cacheFetch repo store path contentType etag upstreamHash body =>
      succeeding do
        let now ← utcNow
        cacheCommit x repo store path contentType etag upstreamHash now body
  | putBlob d data => succeeding (DockerStore.putBlob x d data)
  | putManifest d reference contentType data =>
      succeeding (DockerStore.putManifest x d reference contentType data)
  | startUpload d params body => succeeding (doStartUpload x d params body)
  | patchUpload maxChunks repoName effectiveRepo image uuid body =>
      succeeding (doPatchUpload maxChunks repoName effectiveRepo image uuid body)
  | completeUpload uuid session digest body => succeeding (completeSession x uuid session digest body)
  | copyRecord t path => succeeding (CopyTarget.copyRecord x t path)
  | hostedDelete h path => succeeding (HostedRepo.delete x h path)
  | deleteManifest d digest => succeeding (DockerStore.deleteManifest x d digest)
  | deleteBlob store hash => succeeding (Depot.deleteBlob x store hash)
  | deleteBlobCounted store hash => succeeding (Depot.deleteBlobCounted x store hash)

end

/-! ## The shared state -/

/-- A blob that was recorded for a hash. -/
structure RecordedBlob where
  store : String
  hash : String
  blobId : BlobId
  deriving DecidableEq

/-- A blob record that a call has created, or that was created before. -/
structure CreatedBlob extends RecordedBlob where
  call : Option ℕ
  size : ℕ
  deriving DecidableEq

/-- The shared state, with the blobs that calls have left to later calls, the
    identifiers each call has drawn and not left, the artifact records that were
    written (with the store of the call), the blob records that were created, the
    keys of those that were overwritten or deleted, and the credits that each call
    has sent. -/
structure IngestState where
  world : World
  left : List BlobId := []
  drawn : ℕ → List BlobId := fun _ => []
  wrote : List (String × ArtifactRecord) := []
  created : List CreatedBlob := []
  overwritten : List Key := []
  deleted : List Key := []
  credited : ℕ → List (String × ℤ) := fun _ => []

namespace IngestState

/-- The blobs that were recorded so far. -/
def recorded (s : IngestState) : List RecordedBlob := s.created.map CreatedBlob.toRecordedBlob

/-- A blob record is created. -/
def noteRecord (s : IngestState) (i : ℕ) (k : Key) (b : BlobRecord) : IngestState :=
  { s with
    created := s.created ++ [⟨⟨k.scope, k.sk, b.blobId⟩, some i, b.size⟩]
    overwritten := if (s.world.cell k).isSome then s.overwritten ++ [k] else s.overwritten }

/-- A session takes over the blobs of the call that writes it. -/
def noteSession (s : IngestState) (i : ℕ) (u : UploadSessionRecord) : IngestState :=
  let ids := (u.blobId :: u.chunkBlobIds).filter (· ∈ s.drawn i)
  { s with
    left := s.left ++ ids
    drawn := Function.update s.drawn i ((s.drawn i).filter (· ∉ ids)) }

/-- What is remembered of a write that goes through. -/
def noteWrite (s : IngestState) (i : ℕ) (j : IngestJob) (k : Key) : CellOp Value → IngestState
  | .put (.blob b) => s.noteRecord i k b
  | .putIf (.blob b) _ => s.noteRecord i k b
  | .put (.session u) => s.noteSession i u
  | .putIf (.session u) _ => s.noteSession i u
  | .putIf (.artifact r) _ => { s with wrote := s.wrote ++ [(j.store, r)] }
  | .remove => { s with deleted := s.deleted ++ [k] }
  | _ => s

/-- What is remembered of an operation that leads to `w`. -/
def note (x : Ext) (s : IngestState) (i : ℕ) (j : IngestJob) (o : Op) (ok : Bool) (w : World) :
    IngestState :=
  match o with
  | .uuid =>
      { s with
        world := w
        drawn := Function.update s.drawn i (s.drawn i ++ [x.uuid s.world.drawn]) }
  | .send (.store store c bytes) =>
      if c = 1 then
        { s with
          world := w
          credited := Function.update s.credited i (s.credited i ++ [(store, bytes)]) }
      else { s with world := w }
  | .write k c =>
      if ok = true ∧ c.enabled (s.world.cell k) = true then
        { s.noteWrite i j k c with world := w }
      else { s with world := w }
  | _ => { s with world := w }

/-- An operation, and what is remembered of it. -/
def exec (x : Ext) (i : ℕ) (j : IngestJob) (o : Op) (ok : Bool) (s : IngestState) :
    Option (IngestState × R o) :=
  (World.exec x o ok s.world).map fun r => (s.note x i j o ok r.1, r.2)

/-- What the blob records that call `i` has created are worth. -/
def owed (s : IngestState) (i : ℕ) : List (String × ℤ) :=
  (s.created.filter (·.call = some i)).map fun c => (c.store, (c.size : ℤ))

/-- The blobs that were recorded for a hash, one for each record. -/
def blobsOf (s : IngestState) (store hash : String) : List BlobId :=
  (s.created.filter fun c => c.store = store ∧ c.hash = hash).map (·.blobId)

end IngestState

/-- Any number of calls run concurrently while time passes. -/
def ingestSystem (x : Ext) : System Op R IngestState IngestJob ℕ where
  exec := IngestState.exec x
  code := IngestJob.code x
  env d s := some { s with world := { s.world with now := s.world.now + d } }
  leave _ s := s

/-! ## The condition on a run -/

/-- The configuration of a repository. -/
def World.repoConfig (w : World) (repo : String) : Option RepoConfig :=
  (w.value (repoKey repo)).bind Value.repo?

/-- A call gets the store from the configuration of the repository. -/
def IngestJob.resolved (w : World) (j : IngestJob) : Bool :=
  j.target.all (fun t => (w.repoConfig t.1).all fun c => decide (c.store = t.2)) &&
    j.source.all fun t => (w.repoConfig t.1).any fun c => decide (c.store = t.2)

/-- The blobs that are left to a call were not recorded and are not left to another
    call that is running. -/
def IngestJob.unused (s : IngestState) (jobs : List (Option IngestJob)) (j : IngestJob) : Bool :=
  decide j.given.Nodup && j.given.all fun b =>
    decide (b ∈ s.left) && s.recorded.all (fun n => decide (n.blobId ≠ b)) &&
      jobs.all fun j' => j'.all fun j' => decide (b ∉ j'.given)

/-- The record of a blob that is mounted names a blob, and its repository uses the
    same store. -/
def mountRule (x : Ext) (j : IngestJob) (s : IngestState) (k : Key) : Bool :=
  match j with
  | .startUpload d params _ =>
      match params.mount, params.fromRepo with
      | some digest, some repo =>
          if k = artifactKey x.shardOf repo (blobRefPathFor digest) then
            ((s.world.value k).bind Value.artifact?).all fun r => (r.blobId.getD "" ≠ "") &&
              (s.world.repoConfig repo).all fun c => decide (c.store = d.store)
          else true
      | _, _ => true
  | _ => true

/-- The condition on a run. -/
def ingestRules (x : Ext) : Rules Op IngestState IngestJob ℕ where
  op _ j s o _ :=
    match o with
    | .read k => mountRule x j s k
    | _ => true
  spawn s jobs j := j.resolved s.world && j.unused s jobs
  env _ _ _ := true

/-! ## What must hold -/

/-- The blob of a recorded hash is there and has that hash. -/
def World.HasContent (x : Ext) (w : World) (n : RecordedBlob) : Prop :=
  ∃ f, w.file n.store n.blobId = some f ∧ x.blake3 f.content = n.hash

/-- Every blob record names a blob with the hash of the record. -/
def World.RecordsClosed (x : Ext) (w : World) : Prop :=
  ∀ store hash b, w.value (blobKey x.shardOf store hash) = some (.blob b) →
    w.HasContent x ⟨store, hash, b.blobId⟩

/-- Every artifact record that names a blob (the empty string is none) names one of
    the store of its repository, with the content hash of the record. -/
def World.ArtifactsClosed (x : Ext) (w : World) : Prop :=
  ∀ k c r b, k.part.table = .artifacts → w.repoConfig k.scope = some c →
    w.value k = some (.artifact r) → r.blobId = some b → b ≠ "" →
    ∃ h, r.contentHash = some h ∧ w.HasContent x ⟨c.store, h, b⟩

/-- Each blob record that was created is there, or was overwritten or deleted. -/
def Balanced (x : Ext) (s : IngestState) : Prop :=
  ∀ store hash, (s.blobsOf store hash).length =
    s.deleted.count (blobKey x.shardOf store hash) +
      s.overwritten.count (blobKey x.shardOf store hash) +
      (s.world.value (blobKey x.shardOf store hash)).toList.length

end Depot
