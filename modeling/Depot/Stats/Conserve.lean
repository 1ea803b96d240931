import Depot.Stats.Bulk
import Depot.Stats.Paths

/-!
# Directory statistics are conserved

Results:
* `deltas_conserved`: under the conditions of `ledgerRules`, every call that has
  returned has reported exactly what it has changed, for every directory.
* `repeated_upload_counted_twice`: pushing a blob that is already there is
  reported as a new blob.
-/

namespace Depot

open Lib

variable {x : Ext} {cm : Bytes → List String × List String} {fuel : ℕ} {i : ℕ} {j : WriteJob}

/-! ## Every call -/

/-- A call that owes nothing when it returns or fails is settled. -/
theorem settled_of_triple {α : Type} {p : Async α}
    (h : LedgerTriple x cm fuel i j (Idle i) p (fun _ => Owes i 0 false) (Owes i 0 false)) :
    Triple (ledgerSystem x cm fuel) ledgerRules i j (ledgerLogic.contract i j) (Idle i)
      (p.run.bind fun _ => .pure ()) fun _ w => w.shared.Settled i := by
  refine Triple.bind h fun r => ?_
  intro w hi hw u hu hi'
  have howes : Owes i 0 false w := by
    cases r with
    | ok a => exact hw
    | error e => exact hw
  exact (Owes.stable w u hi hi' hu howes).settled

theorem settled_of_owes {α : Type} {p : Async α}
    (h : LedgerTriple x cm fuel i j (Owes i 0 false) p (fun _ => Owes i 0 false)
      (Owes i 0 false)) :
    Triple (ledgerSystem x cm fuel) ledgerRules i j (ledgerLogic.contract i j) (Idle i)
      (p.run.bind fun _ => .pure ()) fun _ w => w.shared.Settled i :=
  settled_of_triple (Triple.weaken_pre h fun _ _ hw => hw.owes)

/-- Every call settles its debts. -/
theorem code_triple (j : WriteJob) :
    Triple (ledgerSystem x cm fuel) ledgerRules i j (ledgerLogic.contract i j) (Idle i)
      (j.code x cm fuel) fun _ w => w.shared.Settled i := by
  cases j with
  | hostedPut h path contentType data =>
    exact settled_of_owes (hostedPut_triple rfl h path contentType data)
  | hostedDelete h path => exact settled_of_owes (hostedDelete_triple rfl h path)
  | putArtifact repo store path contentType body =>
    exact settled_of_owes (putArtifactHandler_triple repo store path contentType body)
  | cacheFetch repo store path contentType etag upstreamHash body =>
    exact settled_of_owes (FTriple.bind Owes.stable (effects_triple effects_utcNow) fun now =>
      cacheCommit_triple repo store path contentType etag upstreamHash now body)
  | putBlob d data => exact settled_of_owes (putBlob_triple d data)
  | putCachedBlob d blobId digest hash size =>
    exact settled_of_owes (putCachedBlob_triple d blobId digest hash size)
  | putManifest d reference contentType data =>
    exact settled_of_owes (putManifest_triple d reference contentType data)
  | deleteManifest d digest =>
    exact settled_of_owes (deleteManifest_triple d digest rfl)
  | startUpload d params body =>
    exact settled_of_owes (doStartUpload_triple d rfl params body)
  | patchUpload maxChunks repoName effectiveRepo image uuid body =>
    exact settled_of_owes (effects_triple
      (effects_doPatchUpload (by decide) (by decide) maxChunks repoName effectiveRepo image uuid
        body))
  | completeUpload repoName effectiveRepo image uuid digest body =>
    exact settled_of_owes (doCompleteUpload_triple rfl)
  | copyTag t image tag deleteSource overwrite =>
    exact settled_of_owes (copyTag_triple t image tag deleteSource overwrite)
  | bulkDelete repo pfx => exact settled_of_triple (bulkDelete_triple fuel)

/-- The proof outline is sound. -/
theorem ledgerLogic_sound : ledgerLogic.Sound (ledgerSystem x cm fuel) ledgerRules where
  guar_rely h _ _ hg := hg _ h
  spawn w j hi _ := by
    have hlater : ∀ k, (w.jobs ++ [some j]).length ≤ k → w.jobs.length ≤ k := fun k hk => by
      rw [List.length_append] at hk
      omega
    have hinv : ledgerLogic.inv ⟨w.shared, w.jobs ++ [some j], ()⟩ := fun k hk =>
      hi k (hlater k hk)
    refine ⟨(), hinv, fun k => LedgerState.Kept.refl k w.shared, ?_⟩
    obtain ⟨hm, hs, _⟩ := hi w.jobs.length le_rfl
    exact code_triple j _ ⟨hinv, List.getElem?_concat_length⟩ ⟨hm, hs⟩
  leave w i j hi _ := ⟨(), fun k hk => hi k (by simpa using hk), fun k _ => .refl k w.shared⟩
  env w d s hi _ hs := by
    cases hs
    exact ⟨(), hi, fun k => ⟨rfl, rfl, rfl, rfl, id⟩⟩

/-! ## Results -/

/-- **Main theorem.** In every run that meets the condition, each call that has
    returned has sent the updates for what it has changed in the artifact
    records, no more and no less. -/
theorem deltas_conserved (x : Ext) (classifyManifest : Bytes → List String × List String)
    (fuel : ℕ) {w : World} {es : List (Event WriteJob ℕ)} {p : Pool Op R LedgerState WriteJob}
    (h : (Pool.init { world := w }).run (ledgerSystem x classifyManifest fuel) ledgerRules es =
      some p) {i : ℕ} {j : WriteJob} (hi : p.returned i = some j) : p.shared.Settled i := by
  have h0 : ledgerLogic.inv ⟨{ world := w }, [], ()⟩ := fun k _ => ⟨rfl, rfl, rfl⟩
  obtain ⟨_, hpost⟩ := ledgerLogic_sound.run_post h0 h hi
  exact hpost

/-! ## Runs -/

/-- A world with one blob store. -/
def ledgerStart : LedgerState := { world := { now := 0, stores := ["s"] } }

/-- No manifest refers to anything. -/
def noManifests : Bytes → List String × List String := fun _ => ([], [])

def sampleHosted : HostedRepo := ⟨"r", "s", .raw⟩

/-- A call that runs by itself for `n` steps. -/
def aloneFor (i : ℕ) (j : WriteJob) (n : ℕ) : List (Event WriteJob ℕ) :=
  .spawn j :: List.replicate n (.step i true)

/-- An artifact is put, overwritten and deleted. -/
def overwriteAndDelete : List (Event WriteJob ℕ) :=
  aloneFor 0 (.hostedPut sampleHosted "a/b" "text/plain" [1, 2]) 9 ++
    aloneFor 1 (.hostedPut sampleHosted "a/b" "text/plain" [1, 2, 3]) 9 ++
    aloneFor 2 (.hostedDelete sampleHosted "a/b") 3

/-- The usual course of events meets the condition. -/
theorem deltas_conserved_overwrite :
    ∃ p, (Pool.init ledgerStart).run (ledgerSystem Ext.sample noManifests 0) ledgerRules
        overwriteAndDelete = some p ∧
      reported (p.shared.sent 1) "r" "a" = (0, 1) ∧
      p.shared.Settled 1 := by
  refine ends_in (fun p => reported (p.shared.sent 1) "r" "a" = (0, 1) ∧
    p.returned 1 = some (.hostedPut sampleHosted "a/b" "text/plain" [1, 2, 3])) (by decide +kernel)
    fun p hp hall => ?_
  exact ⟨hall.1, deltas_conserved Ext.sample noManifests 0 hp hall.2⟩

/-- The blobs of a Docker repository. -/
def sampleDocker : DockerStore := ⟨"r", none, "s"⟩

/-- A push of two bytes in one request. -/
def samplePush : WriteJob :=
  .startUpload sampleDocker { digest := some (sha256Digest Ext.sample [1, 2]) } [[1, 2]]

def pushTwice : List (Event WriteJob ℕ) := aloneFor 0 samplePush 12 ++ aloneFor 1 samplePush 13

/-- The delete of the manifest that was put. -/
def sampleManifestDelete : WriteJob :=
  .deleteManifest sampleDocker (sha256Digest Ext.sample [1, 2])

def putAndDeleteManifest : List (Event WriteJob ℕ) :=
  aloneFor 0 (.putManifest sampleDocker "latest" "application/json" [1, 2]) 13 ++
    aloneFor 1 sampleManifestDelete 2

/-- **A repeated push is reported as a new blob**, although it changes nothing,
    and the delete of a manifest is never reported. -/
theorem repeated_upload_counted_twice :
    (∃ p, (Pool.init ledgerStart).run (ledgerSystem Ext.sample noManifests 0) .free pushTwice =
        some p ∧
      p.returned 1 = some samplePush ∧ p.shared.made 1 = [] ∧
      reported (p.shared.sent 1) "r" "_blobs" = (1, 2) ∧ ¬p.shared.Settled 1) ∧
    ∃ p, (Pool.init ledgerStart).run (ledgerSystem Ext.sample noManifests 0) .free
        putAndDeleteManifest = some p ∧
      p.returned 1 = some sampleManifestDelete ∧ p.shared.sent 1 = [] ∧
      booked (p.shared.made 1) "r" "_manifests" = (-1, -2) ∧
      ¬p.shared.Settled 1 := by
  constructor
  · refine ends_in (fun p => p.returned 1 = some samplePush ∧ p.shared.made 1 = [] ∧
      reported (p.shared.sent 1) "r" "_blobs" = (1, 2)) (by decide +kernel) fun p _ hall => ?_
    obtain ⟨hret, hmade, hsent⟩ := hall
    refine ⟨hret, hmade, hsent, fun h => ?_⟩
    have hbad := h "r" "_blobs"
    rw [hsent, hmade] at hbad
    exact absurd hbad (by decide)
  · refine ends_in (fun p => p.returned 1 = some sampleManifestDelete ∧
      p.shared.sent 1 = [] ∧
      booked (p.shared.made 1) "r" "_manifests" = (-1, -2))
      (by decide +kernel) fun p _ hall => ?_
    obtain ⟨hret, hsent, hbook⟩ := hall
    refine ⟨hret, hsent, hbook, fun h => ?_⟩
    have hbad := h "r" "_manifests"
    rw [hsent, hbook] at hbad
    exact absurd hbad (by decide)

end Depot
