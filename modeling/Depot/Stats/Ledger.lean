import Depot.Docker.Uploads
import Depot.Repo.Ingest
import Depot.Worker.BulkDelete
import Mathlib.Algebra.BigOperators.Group.List.Basic
import Mathlib.Algebra.Group.Prod
import Mathlib.Algebra.Group.Int.Defs

/-!
# The ledger of directory statistics

The counters of a directory are maintained from the updates that the write paths
send, so an update that is missing or wrong is never made up for. Here the write
paths run concurrently, and the shared state carries a ledger: what each call
has changed in the artifact records, and which updates it has sent.
-/

namespace Depot

open Lib
open Function (update)

/-! ## The write paths -/

/-- A call that writes or deletes artifact records. -/
inductive WriteJob where
  | hostedPut (h : HostedRepo) (path contentType : String) (data : Bytes)
  | hostedDelete (h : HostedRepo) (path : String)
  | putArtifact (repo store path contentType : String) (body : List Bytes)
  | cacheFetch (repo store path contentType etag : String) (upstreamHash : Option String)
      (body : List Bytes)
  | putBlob (d : DockerStore) (data : Bytes)
  | putCachedBlob (d : DockerStore) (blobId : BlobId) (digest hash : String) (size : ℕ)
  | putManifest (d : DockerStore) (reference contentType : String) (data : Bytes)
  | deleteManifest (d : DockerStore) (digest : String)
  | startUpload (d : DockerStore) (params : UploadInitParams) (body : List Bytes)
  | patchUpload (maxChunks : ℕ) (repoName effectiveRepo : String) (image : Option String)
      (uuid : String) (body : List Bytes)
  | completeUpload (repoName effectiveRepo : String) (image : Option String)
      (uuid digest : String) (body : List Bytes)
  | copyTag (t : CopyTarget) (image : Option String) (tag : String)
      (deleteSource overwrite : Bool)
  | bulkDelete (repo pfx : String)
  deriving DecidableEq

/-! ## The ledger -/

/-- By how much a call has changed the number of records and of bytes at a key. -/
structure Change where
  key : Key
  amount : ℤ × ℤ
  deriving DecidableEq

/-- What a cell counts for: one record and its size. -/
def tally (c : Option (Versioned Value)) : ℤ × ℤ :=
  match c.bind fun v => v.value.artifact? with
  | some r => (1, r.size)
  | none => 0

/-- The shared state and the ledger: the changes each call has made, the updates
    it has sent, the cells it has read, whether it has written a blob of its
    own, and whether one of its scans has failed or it was found cancelled. -/
structure LedgerState where
  world : World
  made : ℕ → List Change := fun _ => []
  sent : ℕ → List Delta := fun _ => []
  seen : ℕ → Key → Option (Versioned Value) := fun _ _ => none
  streamed : ℕ → Bool := fun _ => false
  failed : ℕ → Bool := fun _ => false

namespace LedgerState

/-- The change of a key between two states. -/
def changes (w w' : World) (k : Key) : List Change :=
  if k.part.table = .artifacts ∧ tally (w'.cell k) ≠ tally (w.cell k) then
    [⟨k, tally (w'.cell k) - tally (w.cell k)⟩]
  else []

/-- The entries of the ledger for an operation that leads to `w`. -/
def note (s : LedgerState) (i : ℕ) (o : Op) (ok : Bool) (w : World) : LedgerState :=
  match o with
  | .read k =>
      if ok then
        { s with
          world := w
          seen := update s.seen i (update (s.seen i) k (s.world.cell k)) }
      else { s with world := w }
  | .scan part start stop limit =>
      if ok then
        let page := ((s.world.kv part).page start stop limit).1.map Prod.fst
        { s with
          world := w
          seen := update s.seen i fun k =>
            if k.part = part ∧ k.sk ∈ page then s.world.cell k else s.seen i k }
      else { s with world := w, failed := update s.failed i true }
  | .poll =>
      if ok then { s with world := w }
      else { s with world := w, failed := update s.failed i true }
  | .write k _ =>
      { s with
        world := w
        made := update s.made i (s.made i ++ changes s.world w k) }
  | .send d => { s with world := w, sent := update s.sent i (s.sent i ++ [d]) }
  | o =>
      if o.effect = .files then
        { s with world := w, streamed := update s.streamed i true }
      else { s with world := w }

/-- An operation and its entries in the ledger. -/
def exec (x : Ext) (i : ℕ) (_ : WriteJob) (o : Op) (ok : Bool) (s : LedgerState) :
    Option (LedgerState × R o) :=
  (World.exec x o ok s.world).map fun r => (s.note i o ok r.1, r.2)

end LedgerState

/-- The code of a call; `fuel` bounds the rounds of unbounded loops, and
    `classifyManifest` reads the digests off a manifest. -/
def WriteJob.code (x : Ext) (classifyManifest : Bytes → List String × List String) (fuel : ℕ)
    (j : WriteJob) : Task Op R Unit :=
  match j with
  | .hostedPut h path contentType data =>
      (HostedRepo.put x h path contentType data).run.bind fun _ => .pure ()
  | .hostedDelete h path => (HostedRepo.delete x h path).run.bind fun _ => .pure ()
  | .putArtifact repo store path contentType body =>
      (putArtifactHandler x repo store path contentType body).run.bind fun _ => .pure ()
  | .cacheFetch repo store path contentType etag upstreamHash body =>
      (do
        let now ← utcNow
        cacheCommit x repo store path contentType etag upstreamHash now body : Async Unit).run.bind
          fun _ => .pure ()
  | .putBlob d data => (DockerStore.putBlob x d data).run.bind fun _ => .pure ()
  | .putCachedBlob d blobId digest hash size =>
      (DockerStore.putCachedBlob x d blobId digest hash size).run.bind fun _ => .pure ()
  | .putManifest d reference contentType data =>
      (DockerStore.putManifest x d reference contentType data).run.bind fun _ => .pure ()
  | .deleteManifest d digest => (DockerStore.deleteManifest x d digest).run.bind fun _ => .pure ()
  | .startUpload d params body => (doStartUpload x d params body).run.bind fun _ => .pure ()
  | .patchUpload maxChunks repoName effectiveRepo image uuid body =>
      (doPatchUpload maxChunks repoName effectiveRepo image uuid body).run.bind fun _ => .pure ()
  | .completeUpload repoName effectiveRepo image uuid digest body =>
      (doCompleteUpload x repoName effectiveRepo image uuid digest body).run.bind
        fun _ => .pure ()
  | .copyTag t image tag deleteSource overwrite =>
      (Depot.copyTag x classifyManifest fuel t image tag deleteSource overwrite).run.bind
        fun _ => .pure ()
  | .bulkDelete repo pfx => (Depot.bulkDelete x fuel repo pfx).run.bind fun _ => .pure ()

/-- Any number of calls run concurrently while time passes. -/
def ledgerSystem (x : Ext) (classifyManifest : Bytes → List String × List String) (fuel : ℕ) :
    System Op R LedgerState WriteJob ℕ where
  exec := LedgerState.exec x
  code := WriteJob.code x classifyManifest fuel
  env d s := some { s with world := { s.world with now := s.world.now + d } }
  leave _ s := s

/-! ## What must hold -/

/-- The changes booked at a directory of a repository: a record counts for the
    parent of its path. -/
def booked (made : List Change) (repo dir : String) : ℤ × ℤ :=
  (made.map fun c =>
    if c.key.scope = repo ∧ parentDir c.key.sk = dir then c.amount else 0).sum

/-- The updates sent for a directory of a repository. -/
def reported (sent : List Delta) (repo dir : String) : ℤ × ℤ :=
  (sent.map fun d =>
    match d with
    | .dir r p c b => if r = repo ∧ p = dir then (c, b) else 0
    | .store .. => 0).sum

/-- For every directory, the updates that call `i` has sent are the changes that
    it has made. -/
def LedgerState.Settled (s : LedgerState) (i : ℕ) : Prop :=
  ∀ repo dir, reported (s.sent i) repo dir = booked (s.made i) repo dir

/-! ## When it does -/

/-- Hosted repositories raise the stale flag of a Helm index. -/
def WriteJob.raisesFlags : WriteJob → Bool
  | .hostedPut .. => true
  | .hostedDelete .. => true
  | _ => false

/-- The upload handlers credit every blob they record as a new one. -/
def WriteJob.creditsAlways : WriteJob → Bool
  | .startUpload .. => true
  | .completeUpload .. => true
  | _ => false

/-- The condition on the removal of an artifact record: a deleted manifest does
    not exist, and a bulk delete that was not cancelled and whose scans have not
    failed finds the record as it has scanned it, directly in the directory that
    it deletes. -/
def removeRule (i : ℕ) (j : WriteJob) (s : LedgerState) (k : Key) (ok : Bool) : Bool :=
  match j with
  | .deleteManifest .. => !ok || decide (tally (s.world.cell k) = 0)
  | .bulkDelete _ pfx =>
      ok && !s.failed i && decide (tally (s.world.cell k) = tally (s.seen i k)) &&
        decide (parentDir k.sk = parentDir (normalizePath (bulkDeleteSentinel pfx)))
  | _ => true

/-- An amount that the counters of an update hold. -/
def fitsUpdate (amount : ℤ × ℤ) : Bool :=
  decide (toI64 amount.1 = amount.1 ∧ toI64 amount.2 = amount.2)

/-- What a call has changed in total. -/
def LedgerState.total (s : LedgerState) (i : ℕ) : ℤ × ℤ := ((s.made i).map Change.amount).sum

/-- The condition on the amounts: an update holds what a write changes, and
    everything that a bulk delete removes. -/
def amountRule (i : ℕ) (j : WriteJob) (s : LedgerState) (k : Key) (c : CellOp Value) : Bool :=
  let change := tally (c.apply (s.world.cell k)) - tally (s.world.cell k)
  fitsUpdate change &&
    match j with
    | .bulkDelete .. => fitsUpdate (s.total i + change)
    | _ => true

/-- The condition on a write: no stale flag is created, a conditional write that
    replaces a version finds a record of the size its call has read and is not
    the write of an uploaded blob, and the removal of a completed session goes
    through. -/
def writeRule (i : ℕ) (j : WriteJob) (s : LedgerState) (k : Key) (c : CellOp Value) (ok : Bool) :
    Bool :=
  match c with
  | .putIf (.artifact r) none =>
      !(j.raisesFlags && r.internal) || !ok || (s.world.cell k).isSome
  | .putIf (.artifact r) (some n) =>
      !ok || !CellOp.enabled (.putIf (.artifact r) (some n)) (s.world.cell k) ||
        (decide (tally (s.world.cell k) = tally (s.seen i k)) &&
          !(j.creditsAlways && s.streamed i))
  | .remove =>
      match k.part.table, j with
      | .artifacts, j => removeRule i j s k ok
      | .uploadSessions, .completeUpload .. => ok
      | _, _ => true
  | _ => true

/-- The condition on an operation: a write meets the rules above, and a bulk
    delete that has removed a record is not cancelled and its scans go through. -/
def ledgerOpRule (i : ℕ) (j : WriteJob) (s : LedgerState) (o : Op) (ok : Bool) : Bool :=
  match o with
  | .write k c =>
      writeRule i j s k c ok &&
        (!ok || decide (k.part.table ≠ .artifacts) || amountRule i j s k c)
  | .scan .. =>
      match j with
      | .bulkDelete .. => ok || (s.made i).isEmpty
      | _ => true
  | .poll =>
      match j with
      | .bulkDelete .. => ok || (s.made i).isEmpty
      | _ => true
  | _ => true

/-- The condition on a run. -/
def ledgerRules : Rules Op LedgerState WriteJob ℕ where
  op := ledgerOpRule
  spawn _ _ _ := true
  env _ _ _ := true

end Depot
