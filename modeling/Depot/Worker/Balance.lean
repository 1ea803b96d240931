import Depot.Core.Paths
import Depot.Worker.Update
import Mathlib.Algebra.Group.Prod
import Mathlib.Data.List.Nodup
import Mathlib.Tactic.Abel

/-!
# What the update worker keeps

A delta counts for its directory and for every directory above it. An update
worker takes it up the tree one entry at a time; at any moment some of the
entries have it, and the others are still owed it.

Results:
* `balance_step`: what an event adds to an entry, it takes off what is pending.
* `updates_conserved`: entries and pending deltas account for the deltas that
  were received, as long as no write is clamped or made from an entry that has
  been deleted and made again, no sum leaves the range of `i64`, and the final
  flush meets no failure.
-/

namespace Depot

open Lib List
open Option (bind_eq_some_iff map_none map_some some_inj toList_none toList_some)

/-! ## Amounts -/

/-- A number of artifacts and a number of bytes. -/
abbrev Amounts := ℤ × ℤ

/-- The amounts in a directory entry; a missing entry stands for none. -/
def dirAmounts (c : Option (Versioned Value)) : Amounts :=
  match c.bind fun v => v.value.tree? with
  | some ⟨.dir artifactCount totalBytes, _, _⟩ => (artifactCount, totalBytes)
  | _ => 0

/-- The amounts of a delta. -/
def DirDelta.amounts (delta : DirDelta) : Amounts := (delta.countDelta, delta.bytesDelta)

/-- What a delta is worth to the entry at a key: its amounts, for each of its
    directories that has the key. -/
def DirDelta.share (x : Ext) (key : Key) (delta : DirDelta) : Amounts :=
  (ancestors delta.dirPath).countP (fun d => decide (dirKey x delta.repo d = key)) • delta.amounts

/-- What several deltas are worth to it. -/
def totalShare (x : Ext) (key : Key) (deltas : List DirDelta) : Amounts :=
  (deltas.map (DirDelta.share x key)).sum

/-- The deltas that a worker holds outside its channel and its buffers. -/
def Phase.deltas : Phase → List DirDelta
  | .batch flights result => flights.map Flight.delta ++ result.parents ++ result.retries
  | .flushing todo current next => todo ++ (current.map Flight.delta).toList ++ next
  | _ => []

/-- The deltas that a worker has not applied yet. -/
def Worker.pending (wk : Worker) : List DirDelta :=
  wk.queue ++ wk.stashed.toList ++ wk.propagationBuf ++ wk.phase.deltas

namespace UpdateState

/-- The deltas that are pending in memory. -/
def pending (s : UpdateState) : List DirDelta := s.workers.flatMap Worker.pending

/-- Workers that have just been started. -/
def fresh (w : World) (n : ℕ) : UpdateState := { world := w, workers := replicate n {} }

end UpdateState

/-! ## The steps that keep the amounts -/

/-- The amounts with the delta are not below zero, and there are no bytes without
    an artifact: nothing is clamped. And they fit into an `i64`. -/
def DirDelta.fits (delta : DirDelta) (c : Option (Versioned Value)) : Bool :=
  let sum := dirAmounts c + delta.amounts
  decide ((0 ≤ sum.1 ∧ 0 ≤ sum.2 ∧ (sum.1 = 0 → sum.2 = 0)) ∧ sum.1 < 2 ^ 63 ∧ sum.2 < 2 ^ 63)

/-- The artifacts and bytes of a delta, without signs. -/
def DirDelta.magnitude (delta : DirDelta) : ℕ := delta.countDelta.natAbs + delta.bytesDelta.natAbs

/-- The magnitude of several deltas. -/
def totalMagnitude (deltas : List DirDelta) : ℕ := (deltas.map DirDelta.magnitude).sum

/-- The deltas of a worker can be merged in any way without leaving the range of `i64`. -/
def Worker.sumsFit (wk : Worker) : Bool := decide (totalMagnitude wk.pending < 2 ^ 63)

/-- The worker is in its final flush. -/
def Worker.isFlushing (wk : Worker) : Bool :=
  match wk.phase with
  | .flushing .. => true
  | _ => false

namespace UpdateState

/-- A call has gone through, and it has written what it would write for the entry
    as it is now, without clamping it. -/
def writesNow (delta : DirDelta) (write : CellOp Value) (c : Option (Versioned Value)) : Bool :=
  (match planDirDelta delta c with
    | .ok plan => decide (plan = some write)
    | .error _ => false) && delta.fits c

/-- The steps that lose no amounts at an entry. In the final flush every call gets to
    its write and makes it; a write that goes through is `writesNow`; other parties leave
    the amounts of the directory entries as they are. -/
def keepsEntry (x : Ext) (s : UpdateState) : UpdateEvent → Bool
  | .read i k ok =>
      match s.workers[i]? with
      | some wk =>
          match wk.flight k with
          | some f =>
              !wk.isFlushing ||
                (ok && takes f.delta (s.world.cell (dirKey x f.delta.repo f.delta.dirPath)))
          | none => true
      | none => true
  | .write i k ok =>
      match s.workers[i]? with
      | some wk =>
          match wk.flight k with
          | some ⟨delta, some write⟩ =>
              let c := s.world.cell (dirKey x delta.repo delta.dirPath)
              if ok && write.enabled c then writesNow delta write c else !wk.isFlushing
          | _ => true
      | none => true
  | .other key c => decide (dirAmounts (c.apply (s.world.cell key)) = dirAmounts (s.world.cell key))
  | _ => true

/-- The steps that lose no amounts: neither at an entry nor in a sum of deltas. -/
def keepsAmounts (x : Ext) (s : UpdateState) (e : UpdateEvent) : Bool :=
  s.workers.all Worker.sumsFit && s.keepsEntry x e

end UpdateState

variable {deltas : List DirDelta} {d repo : String}

/-! ## Shares -/

section Shares

variable {x : Ext} {key : Key}

@[simp] theorem totalShare_nil : totalShare x key [] = 0 := rfl

@[simp] theorem totalShare_cons (delta : DirDelta) (deltas : List DirDelta) :
    totalShare x key (delta :: deltas) = delta.share x key + totalShare x key deltas := by
  rw [totalShare, map_cons, sum_cons, totalShare]

@[simp] theorem totalShare_append (deltas deltas' : List DirDelta) :
    totalShare x key (deltas ++ deltas') = totalShare x key deltas + totalShare x key deltas' := by
  rw [totalShare, map_append, sum_append, totalShare, totalShare]

theorem share_root {delta : DirDelta} (h : delta.dirPath = "") :
    delta.share x key = if dirKey x delta.repo delta.dirPath = key then delta.amounts else 0 := by
  rw [DirDelta.share, h, ancestors_root, countP_singleton]
  by_cases hkey : dirKey x delta.repo "" = key
  · rw [if_pos (decide_eq_true hkey), if_pos hkey, one_nsmul]
  · rw [if_neg (by simpa using hkey), if_neg hkey, zero_nsmul]

/-- A delta counts for its own directory, and then its parent delta for the
    directories above. -/
theorem share_parent {delta : DirDelta} (h : delta.dirPath ≠ "") :
    delta.share x key =
      (if dirKey x delta.repo delta.dirPath = key then delta.amounts else 0) +
        delta.parent.share x key := by
  rw [DirDelta.share, ancestors_of_ne h, countP_cons, add_comm, add_nsmul]
  refine congrArg₂ (· + ·) ?_ rfl
  by_cases hkey : dirKey x delta.repo delta.dirPath = key
  · rw [if_pos (decide_eq_true hkey), if_pos hkey, one_nsmul]
  · rw [if_neg (by simpa using hkey), if_neg hkey, zero_nsmul]

@[simp] theorem totalMagnitude_nil : totalMagnitude [] = 0 := rfl

@[simp] theorem totalMagnitude_cons (delta : DirDelta) (deltas : List DirDelta) :
    totalMagnitude (delta :: deltas) = delta.magnitude + totalMagnitude deltas := by
  rw [totalMagnitude, map_cons, sum_cons, totalMagnitude]

@[simp] theorem totalMagnitude_append (deltas deltas' : List DirDelta) :
    totalMagnitude (deltas ++ deltas') = totalMagnitude deltas + totalMagnitude deltas' := by
  rw [totalMagnitude, map_append, sum_append, totalMagnitude, totalMagnitude]

/-- Two small deltas are added as numbers are. -/
theorem amounts_add {e delta : DirDelta} (hfit : e.magnitude + delta.magnitude < 2 ^ 63) :
    (e.add delta).amounts = e.amounts + delta.amounts := by
  unfold DirDelta.magnitude at hfit
  exact Prod.ext (toI64_eq (by omega) (by omega)) (toI64_eq (by omega) (by omega))

theorem share_add {e delta : DirDelta} (hrepo : e.repo = delta.repo)
    (hdir : e.dirPath = delta.dirPath) (hfit : e.magnitude + delta.magnitude < 2 ^ 63) :
    (e.add delta).share x key = e.share x key + delta.share x key := by
  rw [DirDelta.share, DirDelta.share, DirDelta.share, amounts_add hfit, hrepo.symm, hdir.symm,
    ← nsmul_add]
  rfl

theorem magnitude_add {e delta : DirDelta} (hfit : e.magnitude + delta.magnitude < 2 ^ 63) :
    (e.add delta).magnitude ≤ e.magnitude + delta.magnitude := by
  obtain ⟨hcount, hbytes⟩ := Prod.mk.inj (amounts_add hfit)
  unfold DirDelta.magnitude
  rw [hcount, hbytes]
  have := Int.natAbs_add_le e.countDelta delta.countDelta
  have := Int.natAbs_add_le e.bytesDelta delta.bytesDelta
  dsimp only [DirDelta.amounts]
  omega

/-- A merge makes no delta larger than those that are merged. -/
theorem totalMagnitude_mergeDirDelta {map : DirDeltaMap} {delta : DirDelta}
    (hfit : totalMagnitude map + delta.magnitude < 2 ^ 63) :
    totalMagnitude (mergeDirDelta map delta) ≤ totalMagnitude map + delta.magnitude := by
  induction map with
  | nil => simp [mergeDirDelta]
  | cons e es ih =>
    rw [totalMagnitude_cons] at hfit ⊢
    rw [mergeDirDelta]
    split_ifs
    · have hsmall := @magnitude_add e delta (by omega)
      rw [totalMagnitude_cons]
      omega
    · have hsmall := ih (by omega)
      rw [totalMagnitude_cons]
      omega

theorem totalShare_mergeDirDelta {map : DirDeltaMap} {delta : DirDelta}
    (hfit : totalMagnitude map + delta.magnitude < 2 ^ 63) :
    totalShare x key (mergeDirDelta map delta) = totalShare x key map + delta.share x key := by
  induction map with
  | nil => simp [mergeDirDelta]
  | cons e es ih =>
    rw [totalMagnitude_cons] at hfit
    rw [mergeDirDelta]
    split_ifs with h
    · rw [totalShare_cons, totalShare_cons, share_add h.1 h.2 (by omega)]
      abel
    · rw [totalShare_cons, totalShare_cons, ih (by omega)]
      abel

theorem totalMagnitude_mergeAll {map : DirDeltaMap} {deltas : List DirDelta}
    (hfit : totalMagnitude map + totalMagnitude deltas < 2 ^ 63) :
    totalMagnitude (mergeAll map deltas) ≤ totalMagnitude map + totalMagnitude deltas := by
  unfold mergeAll
  induction deltas generalizing map with
  | nil => simp
  | cons delta deltas ih =>
    rw [totalMagnitude_cons] at hfit ⊢
    have hone := @totalMagnitude_mergeDirDelta map delta (by omega)
    have hrest := @ih (mergeDirDelta map delta) (by omega)
    rw [foldl_cons]
    omega

theorem totalShare_mergeAll {map : DirDeltaMap} {deltas : List DirDelta}
    (hfit : totalMagnitude map + totalMagnitude deltas < 2 ^ 63) :
    totalShare x key (mergeAll map deltas) = totalShare x key map + totalShare x key deltas := by
  unfold mergeAll
  induction deltas generalizing map with
  | nil => rw [foldl_nil, totalShare_nil, add_zero]
  | cons delta deltas ih =>
    rw [totalMagnitude_cons] at hfit
    have hone := @totalMagnitude_mergeDirDelta map delta (by omega)
    rw [foldl_cons, ih (by omega), totalShare_mergeDirDelta (by omega), totalShare_cons]
    abel

theorem totalMagnitude_worker (wk : Worker) : totalMagnitude wk.pending =
      totalMagnitude wk.queue + totalMagnitude wk.stashed.toList +
        totalMagnitude wk.propagationBuf + totalMagnitude wk.phase.deltas := by
  rw [Worker.pending, totalMagnitude_append, totalMagnitude_append, totalMagnitude_append]

theorem totalShare_coalesced {wk : Worker} (hfit : wk.sumsFit = true) :
    totalShare x key wk.coalesced =
      totalShare x key wk.queue + totalShare x key wk.stashed.toList +
        totalShare x key wk.propagationBuf := by
  have hsum := of_decide_eq_true hfit
  rw [totalMagnitude_worker] at hsum
  have hqueue := @totalMagnitude_mergeAll [] wk.queue (by simp; omega)
  rw [totalMagnitude_nil, zero_add] at hqueue
  have hstashed := @totalMagnitude_mergeAll (mergeAll [] wk.queue) wk.stashed.toList (by omega)
  rw [Worker.coalesced, totalShare_mergeAll (by omega), totalShare_mergeAll (by omega),
    totalShare_mergeAll (by simp; omega), totalShare_nil, zero_add]

variable {k : ℕ}

variable {delta : DirDelta}

theorem totalShare_eraseIdx (h : deltas[k]? = some delta) :
    totalShare x key deltas = delta.share x key + totalShare x key (deltas.eraseIdx k) :=
  sum_eraseIdx h _

/-- What a worker is worth to the entry at the key. -/
theorem totalShare_worker (wk : Worker) : totalShare x key wk.pending =
      totalShare x key wk.queue + totalShare x key wk.stashed.toList +
        totalShare x key wk.propagationBuf + totalShare x key wk.phase.deltas := by
  rw [Worker.pending, totalShare_append, totalShare_append, totalShare_append]

/-- A delta that is put into the channel. -/
theorem totalShare_enqueue (wk : Worker) (delta : DirDelta) :
    totalShare x key ({ wk with queue := wk.queue ++ [delta] } : Worker).pending =
      totalShare x key wk.pending + delta.share x key := by
  rw [totalShare_worker, totalShare_worker, totalShare_append, totalShare_cons, totalShare_nil]
  abel

theorem totalShare_pending (s : UpdateState) : totalShare x key s.pending =
      (s.workers.map fun wk => totalShare x key wk.pending).sum := by
  unfold UpdateState.pending
  induction s.workers with
  | nil => rfl
  | cons wk workers ih =>
    rw [flatMap_cons, totalShare_append, ih, map_cons, sum_cons]

/-- Another worker in its place. -/
theorem totalShare_setWorker {s : UpdateState} {i : ℕ} {wk : Worker}
    (h : s.workers[i]? = some wk) (wk' : Worker) :
    totalShare x key (s.setWorker i wk').pending + totalShare x key wk.pending =
      totalShare x key s.pending + totalShare x key wk'.pending := by
  rw [totalShare_pending, totalShare_pending, UpdateState.setWorker]
  dsimp only
  rw [sum_set h, sum_eraseIdx h (fun wk => totalShare x key wk.pending)]
  abel

/-! ## What an event does -/

/-- The entry at the key and what is still owed to it. -/
def UpdateState.balance (x : Ext) (key : Key) (s : UpdateState) : Amounts :=
  dirAmounts (s.world.cell key) + totalShare x key s.pending

variable {i : ℕ}

theorem balance_setWorker {s : UpdateState} {wk wk' : Worker} (h : s.workers[i]? = some wk)
    (hsame : totalShare x key wk'.pending = totalShare x key wk.pending) :
    (s.setWorker i wk').balance x key = s.balance x key := by
  have hset := @totalShare_setWorker x key _ _ _ h wk'
  rw [hsame] at hset
  rw [UpdateState.balance, UpdateState.balance, add_right_cancel hset]
  rfl

variable {wk : Worker} {f : Flight}

/-- The calls in progress. -/
theorem flight_cases (h : wk.flight k = some f) :
    (∃ flights result, wk.phase = .batch flights result ∧ flights[k]? = some f) ∨
      ∃ todo next, wk.phase = .flushing todo (some f) next := by
  unfold Worker.flight at h
  split at h
  · next flights result hphase => exact .inl ⟨flights, result, hphase, h⟩
  · next todo current next hphase =>
    rw [h] at hphase
    exact .inr ⟨todo, next, hphase⟩
  · cases h

/-- A call that reads its entry goes on with the same delta. -/
theorem totalShare_plan {f' : Flight} (h : wk.flight k = some f) (hdelta : f'.delta = f.delta) :
    totalShare x key (wk.plan k f').pending = totalShare x key wk.pending := by
  rcases flight_cases h with ⟨flights, result, hphase, hk⟩ | ⟨todo, next, hphase⟩
  · have hmap : (flights.set k f').map Flight.delta = flights.map Flight.delta := by
      obtain ⟨hlt, rfl⟩ := List.getElem?_eq_some_iff.mp hk
      rw [map_set, hdelta, ← map_set, set_getElem_self hlt]
    rw [Worker.plan, hphase, totalShare_worker, totalShare_worker, hphase]
    simp only [Phase.deltas, hmap]
  · rw [Worker.plan, hphase, totalShare_worker, totalShare_worker, hphase]
    simp only [Phase.deltas, map_some, hdelta]

/-- The delta of a call that returns moves on to the parent directory. -/
theorem totalShare_applied {wk : Worker} {k : ℕ} {f : Flight} (h : wk.flight k = some f)
    (hfit : wk.sumsFit = true) :
    totalShare x key (wk.finishCall k f.delta true).pending +
        (if dirKey x f.delta.repo f.delta.dirPath = key then f.delta.amounts else 0) =
      totalShare x key wk.pending := by
  by_cases hroot : f.delta.dirPath = ""
  · have hshare := @share_root x key _ hroot
    rcases flight_cases h with ⟨flights, result, hphase, hk⟩ | ⟨todo, next, hphase⟩
    · have hsum := sum_eraseIdx hk fun f => f.delta.share x key
      rw [Worker.finishCall, hphase, totalShare_worker, totalShare_worker, hphase]
      simp only [Phase.deltas, DirBatchResult.add, hroot, if_true, totalShare_append] at hsum ⊢
      simp only [totalShare, map_map, Function.comp_def]
      rw [hsum, hshare, hroot]
      abel
    · rw [Worker.finishCall, hphase, totalShare_worker, totalShare_worker, hphase]
      simp only [Phase.deltas, hroot, totalShare_append, map_some, toList_some,
        totalShare_cons, hshare]
      simp
      abel
  · have hshare := @share_parent x key _ hroot
    rcases flight_cases h with ⟨flights, result, hphase, hk⟩ | ⟨todo, next, hphase⟩
    · have hsum := sum_eraseIdx hk fun f => f.delta.share x key
      rw [Worker.finishCall, hphase, totalShare_worker, totalShare_worker, hphase]
      simp only [Phase.deltas, DirBatchResult.add, hroot, if_true, if_false, totalShare_append]
      simp only [totalShare, map_map, Function.comp_def]
      rw [hsum, hshare]
      simp
      abel
    · rw [Worker.finishCall, hphase, totalShare_worker, totalShare_worker, hphase]
      have hsum := of_decide_eq_true hfit
      rw [totalMagnitude_worker, hphase] at hsum
      simp only [Phase.deltas, map_some, toList_some, totalMagnitude_append,
        totalMagnitude_cons] at hsum
      have hnext : totalMagnitude next + f.delta.parent.magnitude < 2 ^ 63 := by
        have hsame : f.delta.parent.magnitude = f.delta.magnitude := rfl
        omega
      simp only [Phase.deltas, totalShare_append, map_some, toList_some, totalShare_cons, hshare]
      simp [hroot, totalShare_mergeDirDelta hnext]
      abel

/-- A call of a batch that does not apply its delta keeps it. -/
theorem totalShare_retry (h : wk.flight k = some f) (hflush : wk.isFlushing = false) :
    totalShare x key (wk.finishCall k f.delta false).pending = totalShare x key wk.pending := by
  rcases flight_cases h with ⟨flights, result, hphase, hk⟩ | ⟨todo, next, hphase⟩
  · have hsum := sum_eraseIdx hk fun f => f.delta.share x key
    rw [Worker.finishCall, hphase, totalShare_worker, totalShare_worker, hphase]
    simp only [Phase.deltas, DirBatchResult.add, totalShare_append]
    simp only [totalShare, map_map, Function.comp_def]
    rw [hsum]
    simp
    abel
  · rw [Worker.isFlushing, hphase] at hflush
    cases hflush

theorem dirAmounts_put (te : TreeEntry) (n count bytes : ℕ) (h : te.kind = .dir count bytes) :
    dirAmounts (some ⟨n, .tree te⟩) = ((count : ℤ), (bytes : ℤ)) := by
  obtain ⟨kind, modified, accessed⟩ := te
  obtain rfl : kind = .dir count bytes := h
  rfl

/-- A sum with a number that is cast to `i64` is the sum if that is in the range. -/
theorem toI64_add_cast {n z : ℤ} (hle : 0 ≤ n + z) (hlt : n + z < 2 ^ 63) :
    toI64 (toI64 n + z) = n + z :=
  Int.bmod_add_bmod.trans (toI64_eq (by omega) hlt)

/-- A write that is `writesNow` adds the delta to the entry. -/
theorem dirAmounts_write {write : CellOp Value} {c : Option (Versioned Value)}
    (hen : write.enabled c = true) (h : UpdateState.writesNow delta write c = true) :
    dirAmounts (write.apply c) = dirAmounts c + delta.amounts := by
  rw [UpdateState.writesNow, Bool.and_eq_true] at h
  obtain ⟨hplan, hfits⟩ := h
  split at hplan
  · next plan hok =>
    obtain rfl := of_decide_eq_true hplan
    obtain ⟨⟨hcount, hbytes, hempty⟩, hcount', hbytes'⟩ := of_decide_eq_true hfits
    rw [CellOp.apply, if_pos hen]
    unfold planDirDelta at hok
    split at hok
    · next cell =>
      split at hok
      · cases hok
      · next te hte =>
        split at hok
        · next count bytes hkind =>
          have hold : dirAmounts (some cell) = ((count : ℤ), (bytes : ℤ)) := by
            rw [dirAmounts, Option.bind_some, hte]
            obtain ⟨kind, modified, accessed⟩ := te
            obtain rfl : kind = .dir count bytes := hkind
            rfl
          rw [hold] at hcount hbytes hempty hcount' hbytes' ⊢
          change 0 ≤ (count : ℤ) + delta.countDelta at hcount
          change 0 ≤ (bytes : ℤ) + delta.bytesDelta at hbytes
          change (count : ℤ) + delta.countDelta = 0 → (bytes : ℤ) + delta.bytesDelta = 0 at hempty
          change (count : ℤ) + delta.countDelta < 2 ^ 63 at hcount'
          change (bytes : ℤ) + delta.bytesDelta < 2 ^ 63 at hbytes'
          rw [toI64_add_cast hcount hcount', toI64_add_cast hbytes hbytes'] at hok
          dsimp only at hok
          split_ifs at hok with hzero
          · cases hok
            have hc : (count : ℤ) + delta.countDelta = 0 := by omega
            exact Prod.ext hc.symm (hempty hc).symm
          · cases hok
            rw [CellOp.written, dirAmounts_put _ _ _ _ rfl]
            exact Prod.ext (Int.toNat_of_nonneg hcount) (Int.toNat_of_nonneg hbytes)
        · cases hok
    · split_ifs at hok with hneg
      · cases hok
      · cases hok
        have hzero : dirAmounts none = 0 := rfl
        rw [hzero, zero_add] at hcount hbytes ⊢
        rw [CellOp.written, dirAmounts_put _ _ _ _ rfl]
        exact Prod.ext (Int.toNat_of_nonneg hcount) (Int.toNat_of_nonneg hbytes)
  · cases hplan

/-! ### Events that change only where the deltas are -/

/-- There is room for the delta that `select!` takes out of the channel. -/
def Worker.Tidy (wk : Worker) : Prop := wk.phase = .parked → wk.stashed = none

/-- A worker becomes another one with the same deltas. -/
def Keeps (x : Ext) (key : Key) (s s' : UpdateState) (i : ℕ) (wk : Worker) : Prop :=
  ∃ wk', s' = s.setWorker i wk' ∧ totalShare x key wk'.pending = totalShare x key wk.pending ∧
    wk'.Tidy

theorem tidy_plan (h : wk.flight k = some f) (f' : Flight) : (wk.plan k f').Tidy := by
  rcases flight_cases h with ⟨flights, result, hphase, -⟩ | ⟨todo, next, hphase⟩
  · rw [Worker.plan, hphase]
    exact nofun
  · rw [Worker.plan, hphase]
    exact nofun

theorem tidy_finishCall (h : wk.flight k = some f)
    (delta : DirDelta) (applied : Bool) : (wk.finishCall k delta applied).Tidy := by
  rcases flight_cases h with ⟨flights, result, hphase, -⟩ | ⟨todo, next, hphase⟩
  · rw [Worker.finishCall, hphase]
    exact nofun
  · rw [Worker.finishCall, hphase]
    exact nofun

variable {s s' : UpdateState}

theorem begin_keeps (hfit : wk.sumsFit = true) (h : s.beginBatch i wk = some s') : Keeps x key s s' i wk := by
  unfold UpdateState.beginBatch at h
  split at h
  · next hphase =>
    have hcoal := @totalShare_coalesced x key wk hfit
    have hmap : (wk.coalesced.map fun d => (⟨d, none⟩ : Flight)).map Flight.delta =
        wk.coalesced := by
      rw [map_map]
      exact map_id _
    dsimp only at h
    split at h
    · next hnil =>
      obtain rfl := some_inj.mp h
      refine ⟨_, rfl, ?_, fun _ => rfl⟩
      rw [totalShare_worker, totalShare_worker, hphase, ← hcoal, hnil]
      rfl
    · obtain rfl := some_inj.mp h
      refine ⟨_, rfl, ?_, nofun⟩
      rw [totalShare_worker, totalShare_worker, hphase, ← hcoal]
      simp only [Phase.deltas, hmap, totalShare_append, totalShare_nil, toList_none,
        zero_add, add_zero]
  · cases h

theorem finish_keeps (hfit : wk.sumsFit = true) (h : s.finishBatch i wk = some s') :
    Keeps x key s s' i wk := by
  unfold UpdateState.finishBatch at h
  split at h
  · next result hphase =>
    obtain rfl := some_inj.mp h
    refine ⟨_, rfl, ?_, nofun⟩
    have hsum := of_decide_eq_true hfit
    rw [totalMagnitude_worker, hphase] at hsum
    simp only [Phase.deltas, map_nil, nil_append, totalMagnitude_append] at hsum
    have hparents := @totalMagnitude_mergeAll wk.propagationBuf result.parents (by omega)
    rw [totalShare_worker, totalShare_worker, hphase, totalShare_mergeAll (by omega),
      totalShare_mergeAll (by omega)]
    simp only [Phase.deltas, totalShare_append, totalShare_nil, map_nil]
    abel
  · cases h

theorem leave_keeps {take : Bool} (htidy : wk.Tidy) (h : s.leaveSelect i wk take = some s') :
    Keeps x key s s' i wk := by
  unfold UpdateState.leaveSelect at h
  split at h
  · next hphase =>
    split_ifs at h
    · split at h
      · cases h
      · next delta queue hqueue =>
        obtain rfl := some_inj.mp h
        refine ⟨_, rfl, ?_, nofun⟩
        rw [totalShare_worker, totalShare_worker, hphase, hqueue, htidy hphase]
        simp only [Phase.deltas, totalShare_nil, totalShare_cons, toList_none, toList_some]
        abel
    · obtain rfl := some_inj.mp h
      refine ⟨_, rfl, ?_, nofun⟩
      rw [totalShare_worker, totalShare_worker, hphase]
      rfl
  · cases h

theorem cancel_keeps (hfit : wk.sumsFit = true) (h : s.beginFlush i wk = some s') :
    Keeps x key s s' i wk := by
  unfold UpdateState.beginFlush at h
  split at h
  · next hphase =>
    obtain rfl := some_inj.mp h
    refine ⟨_, rfl, ?_, nofun⟩
    rw [totalShare_worker, totalShare_worker, hphase]
    simp only [Phase.deltas, totalShare_append, totalShare_nil, toList_none,
      map_none, zero_add, add_zero, totalShare_coalesced hfit]
  · cases h

theorem pick_keeps (h : s.pickDelta i k wk = some s') : Keeps x key s s' i wk := by
  unfold UpdateState.pickDelta at h
  split at h
  · next todo next hphase =>
    obtain ⟨delta, hk, rfl⟩ := Option.map_eq_some_iff.mp h
    refine ⟨_, rfl, ?_, nofun⟩
    rw [totalShare_worker, totalShare_worker, hphase]
    simp only [Phase.deltas, totalShare_append, map_some, map_none,
      toList_some, toList_none, totalShare_cons, totalShare_nil,
      totalShare_eraseIdx hk]
    abel
  · cases h

theorem round_keeps (h : s.nextRound i wk = some s') : Keeps x key s s' i wk := by
  unfold UpdateState.nextRound at h
  split at h
  · next hphase =>
    obtain rfl := some_inj.mp h
    refine ⟨_, rfl, ?_, nofun⟩
    rw [totalShare_worker, totalShare_worker, hphase]
    rfl
  · next next _ hphase =>
    obtain rfl := some_inj.mp h
    refine ⟨_, rfl, ?_, nofun⟩
    rw [totalShare_worker, totalShare_worker, hphase]
    simp only [Phase.deltas, totalShare_append, map_none, toList_none,
      totalShare_nil, add_zero, zero_add]
  · cases h

/-- A call that does not lead to a write. -/
theorem retry_keeps (hf : wk.flight k = some f) (hflush : wk.isFlushing = false) :
    Keeps x key s (s.setWorker i (wk.finishCall k f.delta false)) i wk :=
  ⟨_, rfl, totalShare_retry hf hflush, tidy_finishCall hf _ _⟩

theorem read_keeps {ok : Bool}
    (hwk : s.workers[i]? = some wk) (hkeep : s.keepsEntry x (.read i k ok) = true)
    (h : s.readEntry x i k wk ok = some s') : Keeps x key s s' i wk := by
  unfold UpdateState.readEntry at h
  split at h
  · next delta hf =>
    simp only [UpdateState.keepsEntry, hwk, hf, Bool.or_eq_true, Bool.not_eq_true',
      Bool.and_eq_true] at hkeep
    split_ifs at h with hok
    · split at h
      · next write hplan =>
        obtain rfl := some_inj.mp h
        exact ⟨_, rfl, totalShare_plan hf rfl, tidy_plan hf _⟩
      · next hplan =>
        obtain rfl := some_inj.mp h
        have hnot := not_takes fun write hw => hplan write hw
        rcases hkeep with hflush | ⟨-, htakes⟩
        · exact retry_keeps hf hflush
        · rw [hnot] at htakes
          cases htakes
    · obtain rfl := some_inj.mp h
      rcases hkeep with hflush | ⟨hok', -⟩
      · exact retry_keeps hf hflush
      · exact absurd hok' hok
  · cases h

/-- Every worker is tidy, and the deltas received are for clean directories. -/
structure UpdateState.Tidy (s : UpdateState) : Prop where
  workers : ∀ wk ∈ s.workers, wk.Tidy
  received : ∀ delta ∈ s.received, CleanPath delta.dirPath

/-- What an event may do: it adds to an entry what it takes off the deltas that are
    pending, and it receives no delta. -/
structure Moves (x : Ext) (key : Key) (s s' : UpdateState) : Prop where
  balance : s'.balance x key = s.balance x key
  received : s'.received = s.received
  tidy : s'.Tidy

theorem tidy_set {s : UpdateState} {i : ℕ} {wk : Worker} (htidy : s.Tidy) (hwk : wk.Tidy) :
    ∀ wk' ∈ s.workers.set i wk, wk'.Tidy := by
  intro wk' hmem
  rcases mem_or_eq_of_mem_set hmem with hold | rfl
  · exact htidy.workers wk' hold
  · exact hwk

theorem clean_changed (repo path : String) (countDelta bytesDelta : ℤ) (timestamp : DateTime) :
    CleanPath (DirDelta.changed repo path countDelta bytesDelta timestamp).dirPath := by
  show CleanPath (parentDir (normalizePath path))
  rw [parentDir, normalizePath, CleanPath, String.toList_ofList, String.toList_ofList]
  exact clean_parent (clean_normalizeChars _)

theorem moves_of_keeps (hwk : s.workers[i]? = some wk)
    (htidy : s.Tidy) (h : Keeps x key s s' i wk) : Moves x key s s' := by
  obtain ⟨wk', rfl, hsame, hwk'⟩ := h
  exact ⟨balance_setWorker hwk hsame, rfl, tidy_set htidy hwk', htidy.received⟩

/-! ### Writes -/

theorem moves_write {ok : Bool} (hwk : s.workers[i]? = some wk) (htidy : s.Tidy)
    (hfit : wk.sumsFit = true) (hkeep : s.keepsEntry x (.write i k ok) = true)
    (h : s.writeEntry x i k wk ok = some s') : Moves x key s s' := by
  unfold UpdateState.writeEntry at h
  split at h
  · next delta write hf =>
    simp only [UpdateState.keepsEntry, hwk, hf] at hkeep
    dsimp only at h
    split_ifs at h with hgo
    · rw [if_pos hgo] at hkeep
      obtain ⟨-, hen⟩ := Bool.and_eq_true_iff.mp hgo
      obtain rfl := some_inj.mp h
      have hentry := dirAmounts_write hen hkeep
      have hcall := @totalShare_applied x key _ _ _ hf hfit
      have hset := @totalShare_setWorker x key _ _ _ hwk (wk.finishCall k delta true)
      refine ⟨?_, rfl, @tidy_set s _ _ htidy (tidy_finishCall hf delta true), htidy.received⟩
      show dirAmounts ((s.world.setCell _ _).cell key) +
        totalShare x key (s.setWorker i (wk.finishCall k delta true)).pending = _
      rw [World.cell_setCell, UpdateState.balance]
      split_ifs with hkey
      · subst hkey
        rw [if_pos rfl] at hcall
        rw [hentry, add_assoc]
        refine congrArg _ (add_right_cancel (b := totalShare x
          (dirKey x delta.repo delta.dirPath) wk.pending) ?_)
        rw [add_assoc, hset, ← hcall]
        abel
      · rw [if_neg (Ne.symm hkey), add_zero] at hcall
        rw [hcall] at hset
        rw [add_right_cancel hset]
    · rw [if_neg hgo] at hkeep
      obtain rfl := some_inj.mp h
      exact moves_of_keeps hwk htidy (retry_keeps hf (by simpa using hkeep))
  · cases h

/-- What an event adds to an entry, it takes off what is pending; only a delta that
    is sent adds to both sides. -/
theorem balance_step {e : UpdateEvent} (htidy : s.Tidy)
    (hkeep : s.keepsAmounts x e = true) (h : s.step x e = some s') :
    s'.balance x key + totalShare x key s.received =
        s.balance x key + totalShare x key s'.received ∧ s'.Tidy := by
  have hmoves : Moves x key s s' → s'.balance x key + totalShare x key s.received =
      s.balance x key + totalShare x key s'.received ∧ s'.Tidy :=
    fun hm => ⟨by rw [hm.balance, hm.received], hm.tidy⟩
  obtain ⟨hall, hkeep⟩ := Bool.and_eq_true_iff.mp hkeep
  have hfit : ∀ {i : ℕ} {wk : Worker}, s.workers[i]? = some wk → wk.sumsFit = true := fun hwk =>
    all_eq_true.mp hall _ (mem_of_getElem? hwk)
  cases e with
  | send i repo path countDelta bytesDelta timestamp =>
    obtain ⟨wk, hwk, rfl⟩ := Option.map_eq_some_iff.mp h
    have hset := @totalShare_setWorker x key _ _ _ hwk
      { wk with queue := wk.queue ++ [.changed repo path countDelta bytesDelta timestamp] }
    refine ⟨?_, tidy_set htidy (htidy.workers wk (mem_of_getElem? hwk)), ?_⟩
    swap
    · intro delta hmem
      rcases mem_append.mp hmem with hold | hnew
      · exact htidy.received delta hold
      · rw [mem_singleton.mp hnew]
        exact clean_changed ..
    rw [totalShare_enqueue, add_comm (totalShare x key wk.pending), ← add_assoc] at hset
    show dirAmounts (s.world.cell key) + totalShare x key (s.setWorker i _).pending + _ =
      _ + totalShare x key (s.received ++ [_])
    rw [add_right_cancel hset, totalShare_append, totalShare_cons, totalShare_nil,
      UpdateState.balance]
    abel
  | begin i =>
    obtain ⟨wk, hwk, hstep⟩ := bind_eq_some_iff.mp h
    exact hmoves (moves_of_keeps hwk htidy (begin_keeps (hfit hwk) hstep))
  | read i k ok =>
    obtain ⟨wk, hwk, hstep⟩ := bind_eq_some_iff.mp h
    exact hmoves (moves_of_keeps hwk htidy (read_keeps hwk hkeep hstep))
  | write i k ok =>
    obtain ⟨wk, hwk, hstep⟩ := bind_eq_some_iff.mp h
    exact hmoves (moves_write hwk htidy (hfit hwk) hkeep hstep)
  | finish i =>
    obtain ⟨wk, hwk, hstep⟩ := bind_eq_some_iff.mp h
    exact hmoves (moves_of_keeps hwk htidy (finish_keeps (hfit hwk) hstep))
  | wake i =>
    obtain ⟨wk, hwk, hstep⟩ := bind_eq_some_iff.mp h
    exact hmoves (moves_of_keeps hwk htidy
      (leave_keeps (htidy.workers wk (mem_of_getElem? hwk)) hstep))
  | recv i =>
    obtain ⟨wk, hwk, hstep⟩ := bind_eq_some_iff.mp h
    exact hmoves (moves_of_keeps hwk htidy
      (leave_keeps (htidy.workers wk (mem_of_getElem? hwk)) hstep))
  | cancel i =>
    obtain ⟨wk, hwk, hstep⟩ := bind_eq_some_iff.mp h
    exact hmoves (moves_of_keeps hwk htidy (cancel_keeps (hfit hwk) hstep))
  | pick i k =>
    obtain ⟨wk, hwk, hstep⟩ := bind_eq_some_iff.mp h
    exact hmoves (moves_of_keeps hwk htidy (pick_keeps hstep))
  | round i =>
    obtain ⟨wk, hwk, hstep⟩ := bind_eq_some_iff.mp h
    exact hmoves (moves_of_keeps hwk htidy (round_keeps hstep))
  | other k c =>
    obtain rfl := some_inj.mp h
    have hsame := of_decide_eq_true hkeep
    refine hmoves ⟨?_, rfl, htidy.workers, htidy.received⟩
    show dirAmounts ((s.world.setCell _ _).cell key) + totalShare x key s.pending = _
    rw [World.cell_setCell, UpdateState.balance]
    split_ifs with hkey
    · rw [hkey, hsame]
    · rfl

theorem balance_run {s s' : UpdateState} {es : List UpdateEvent} (htidy : s.Tidy)
    (h : s.run x (UpdateState.keepsAmounts x) es = some s') :
    s'.balance x key + totalShare x key s.received =
        s.balance x key + totalShare x key s'.received ∧ s'.Tidy := by
  induction es generalizing s with
  | nil =>
    obtain rfl := some_inj.mp h
    exact ⟨rfl, htidy⟩
  | cons e es ih =>
    obtain ⟨hkeep, s₁, hstep, hrun⟩ := UpdateState.run_cons h
    obtain ⟨hone, htidy₁⟩ := balance_step htidy hkeep hstep
    obtain ⟨hrest, htidy'⟩ := ih htidy₁ hrun
    refine ⟨add_right_cancel (b := totalShare x key s₁.received) ?_, htidy'⟩
    calc s'.balance x key + totalShare x key s.received + totalShare x key s₁.received
        = s'.balance x key + totalShare x key s₁.received + totalShare x key s.received := by abel
      _ = s₁.balance x key + totalShare x key s.received + totalShare x key s'.received := by
          rw [hrest]
          abel
      _ = _ := by
          rw [hone]
          abel

/-! ## Directories -/

theorem length_of_mem_ancestors {dirPath : String} (h : d ∈ ancestors dirPath) :
    d.toList.length ≤ dirPath.toList.length := by
  induction hn : dirPath.toList.length using Nat.strongRecOn generalizing dirPath with
  | ind n ih =>
    by_cases hroot : dirPath = ""
    · rw [hroot, ancestors_root, mem_singleton] at h
      rw [h, ← hn, hroot]
    · rw [ancestors_of_ne hroot] at h
      have hlt := length_parentDir hroot
      rcases mem_cons.mp h with rfl | hup
      · exact hn.le
      · have := ih _ (hn ▸ hlt) hup rfl
        omega

/-- The directories above a clean one are clean. -/
theorem clean_ancestors {d dirPath : String} (hclean : CleanPath dirPath) (hnul : NulFree dirPath)
    (h : d ∈ ancestors dirPath) : CleanPath d ∧ NulFree d := by
  induction hn : dirPath.toList.length using Nat.strongRecOn generalizing dirPath with
  | ind n ih =>
    by_cases hroot : dirPath = ""
    · rw [hroot, ancestors_root, mem_singleton] at h
      rw [h, ← hroot]
      exact ⟨hclean, hnul⟩
    · rw [ancestors_of_ne hroot] at h
      have hlt := length_parentDir hroot
      rcases mem_cons.mp h with rfl | hup
      · exact ⟨hclean, hnul⟩
      · refine ih _ (hn ▸ hlt) ?_ ?_ hup rfl
        · rw [parentDir, CleanPath, String.toList_ofList]
          exact clean_parent hclean
        · have := nulFree_treeParent hnul
          rwa [treeParent, if_neg hroot] at this

theorem dirKey_inj {repo' d' : String} (hd : CleanPath d) (hd' : CleanPath d')
    (hnul : NulFree d) (h : dirKey x repo d = dirKey x repo' d') : repo = repo' ∧ d = d' := by
  rw [dirKey, dirKey, Key.mk.injEq, treeShardPk, treeShardPk, Part.mk.injEq, Pk.sharded.injEq] at h
  exact ⟨h.1.2.1, treeSortKey_inj hd hd' hnul h.2⟩

/-- A delta is worth its amounts, once, to its directory and to each one above. -/
theorem share_dirKey (hclean : CleanPath delta.dirPath)
    (hnul : NulFree delta.dirPath) (hd : CleanPath d) :
    delta.share x (dirKey x repo d) =
      if delta.repo = repo ∧ d ∈ ancestors delta.dirPath then delta.amounts else 0 := by
  induction hn : delta.dirPath.toList.length using Nat.strongRecOn generalizing delta with
  | ind n ih =>
    have hown : dirKey x delta.repo delta.dirPath = dirKey x repo d ↔
        delta.repo = repo ∧ delta.dirPath = d :=
      ⟨dirKey_inj hclean hd hnul, fun ⟨hrepo, hdir⟩ => by rw [hrepo, hdir]⟩
    have hself := self_mem_ancestors delta.dirPath
    by_cases hroot : delta.dirPath = ""
    · have hmem : d ∈ ancestors delta.dirPath ↔ delta.dirPath = d := by
        rw [hroot, ancestors_root, mem_singleton, eq_comm]
      rw [share_root hroot]
      simp only [hown, hmem]
    · have hlt := length_parentDir hroot
      have hup : delta.dirPath ∉ ancestors (parentDir delta.dirPath) := fun hmem => by
        have := length_of_mem_ancestors hmem
        omega
      have hparent := @clean_ancestors (parentDir delta.dirPath) _ hclean hnul (by
        rw [ancestors_of_ne hroot]
        exact mem_cons_of_mem _ (self_mem_ancestors _))
      have hmem : d ∈ ancestors delta.dirPath ↔
          delta.dirPath = d ∨ d ∈ ancestors (parentDir delta.dirPath) := by
        rw [ancestors_of_ne hroot, mem_cons, eq_comm]
      rw [share_parent hroot,
        @ih (parentDir delta.dirPath).toList.length (hn ▸ hlt) delta.parent hparent.1 hparent.2 rfl]
      simp only [hown, hmem]
      show _ + (if delta.repo = repo ∧ d ∈ ancestors (parentDir delta.dirPath) then _ else _) = _
      by_cases hrepo : delta.repo = repo
      · by_cases hdir : delta.dirPath = d
        · subst hdir
          rw [if_pos ⟨hrepo, rfl⟩, if_neg (fun h => hup h.2), if_pos ⟨hrepo, .inl rfl⟩, add_zero]
        · rw [if_neg (fun h => hdir h.2), zero_add]
          simp only [hdir, false_or]
          rfl
      · rw [if_neg (fun h => hrepo h.1), if_neg (fun h => hrepo h.1), if_neg (fun h => hrepo h.1),
          add_zero]

end Shares

/-- The deltas for a directory and the directories below it. -/
def deltasBelow (repo d : String) (deltas : List DirDelta) : List DirDelta :=
  deltas.filter fun delta => decide (delta.repo = repo ∧ d ∈ ancestors delta.dirPath)

/-- The amounts of several deltas. -/
def totalAmounts (deltas : List DirDelta) : Amounts := (deltas.map DirDelta.amounts).sum

theorem totalShare_dirKey {x : Ext} (hclean : ∀ delta ∈ deltas, CleanPath delta.dirPath)
    (hnul : ∀ delta ∈ deltas, NulFree delta.dirPath) (hd : CleanPath d) :
    totalShare x (dirKey x repo d) deltas = totalAmounts (deltasBelow repo d deltas) := by
  induction deltas with
  | nil => rfl
  | cons delta deltas ih =>
    have hrest := ih (fun e he => hclean e (mem_cons_of_mem _ he))
      (fun e he => hnul e (mem_cons_of_mem _ he))
    rw [totalShare_cons, hrest, share_dirKey (hclean _ mem_cons_self) (hnul _ mem_cons_self) hd]
    have hcons := @filter_cons _ delta deltas
      fun e => decide (e.repo = repo ∧ d ∈ ancestors e.dirPath)
    by_cases hbelow : delta.repo = repo ∧ d ∈ ancestors delta.dirPath
    · rw [if_pos (decide_eq_true hbelow)] at hcons
      rw [if_pos hbelow, deltasBelow, deltasBelow, hcons, totalAmounts, totalAmounts,
        map_cons, sum_cons]
    · rw [if_neg (by simpa using hbelow)] at hcons
      rw [if_neg hbelow, deltasBelow, deltasBelow, hcons, zero_add]

theorem tidy_fresh (w : World) (n : ℕ) : (UpdateState.fresh w n).Tidy := by
  refine ⟨fun wk hwk _ => ?_, nofun⟩
  rw [eq_of_mem_replicate hwk]

theorem pending_fresh (w : World) (n : ℕ) : (UpdateState.fresh w n).pending = [] := by
  rw [UpdateState.pending, flatMap_eq_nil_iff]
  intro wk hwk
  rw [eq_of_mem_replicate hwk]
  rfl

/-- **Main theorem.** As long as every step `keepsAmounts`, each entry with the deltas
    that are pending for it accounts for the deltas received for it. When nothing is
    pending, the entry of a directory has grown by the total of the deltas below it,
    if no path holds a zero byte. -/
theorem updates_conserved (x : Ext) (w : World) (n : ℕ) (es : List UpdateEvent) (s : UpdateState)
    (h : (UpdateState.fresh w n).run x (UpdateState.keepsAmounts x) es = some s) :
    (∀ key, dirAmounts (s.world.cell key) + totalShare x key s.pending =
      dirAmounts (w.cell key) + totalShare x key s.received) ∧
    (s.pending = [] → (∀ delta ∈ s.received, NulFree delta.dirPath) →
      ∀ repo d, CleanPath d → dirAmounts (s.world.cell (dirKey x repo d)) =
        dirAmounts (w.cell (dirKey x repo d)) + totalAmounts (deltasBelow repo d s.received)) := by
  have hkeys : ∀ key, dirAmounts (s.world.cell key) + totalShare x key s.pending =
      dirAmounts (w.cell key) + totalShare x key s.received := by
    intro key
    have hrun := (@balance_run x key _ _ _ (tidy_fresh w n) h).1
    rw [UpdateState.balance, UpdateState.balance, pending_fresh, totalShare_nil] at hrun
    have hnone : (UpdateState.fresh w n).received = [] := rfl
    rw [hnone, totalShare_nil, add_zero, add_zero] at hrun
    exact hrun
  refine ⟨hkeys, fun hpending hnul repo d hd => ?_⟩
  have htidy := (@balance_run x (dirKey x repo d) _ _ _ (tidy_fresh w n) h).2
  have hkey := hkeys (dirKey x repo d)
  rw [hpending, totalShare_nil, add_zero] at hkey
  rw [hkey, totalShare_dirKey htidy.received hnul hd]

/-! ## Runs -/

/-- Worker `i` takes the one delta it holds up to a directory of depth one. -/
def roundTrip (i : ℕ) : List UpdateEvent :=
  [.wake i, .begin i, .read i 0 true, .write i 0 true, .finish i, .begin i]

/-- One artifact of ten bytes is in the tree; one of twenty is uploaded and deleted
    again. Worker 0 gets the upload and worker 1 the deletion. -/
def uploadAndDelete : List UpdateEvent :=
  [.begin 0, .begin 1, .send 0 "r" "x" 1 10 0] ++ roundTrip 0 ++
    [.send 0 "r" "y" 1 20 1, .send 1 "r" "y" (-1) (-20) 2]

/-- The upload is applied before the deletion. -/
theorem updates_conserved_ordered :
    ∃ s, (UpdateState.fresh { now := 0 } 2).run Ext.sample (UpdateState.keepsAmounts Ext.sample)
        (uploadAndDelete ++ roundTrip 0 ++ roundTrip 1) = some s ∧
      dirAmounts (s.world.cell (dirKey Ext.sample "r" "")) = (1, 10) := by
  refine ends_in (fun s => s.pending = [] ∧ (∀ delta ∈ s.received, delta.dirPath = "") ∧
    totalAmounts (deltasBelow "r" "" s.received) = (1, 10)) (by decide +kernel) fun s hs hall => ?_
  obtain ⟨hpending, hroot, htotal⟩ := hall
  have hnul : ∀ delta ∈ s.received, NulFree delta.dirPath := by
    intro delta hmem
    rw [hroot delta hmem]
    exact not_mem_nil
  have hclean : CleanPath "" := ⟨by decide, by decide, by decide⟩
  rw [(updates_conserved Ext.sample _ 2 _ s hs).2 hpending hnul "r" "" hclean, htotal]
  rfl

/-- The deletion is applied first: it takes the entry away, and the entry that the
    upload makes does not have the first artifact. -/
theorem updates_not_conserved :
    ((UpdateState.fresh { now := 0 } 2).run Ext.sample (fun _ _ => true)
      (uploadAndDelete ++ roundTrip 1 ++ roundTrip 0)).any (fun s =>
        decide (s.pending = [] ∧ totalAmounts (deltasBelow "r" "" s.received) = (1, 10) ∧
          dirAmounts (s.world.cell (dirKey Ext.sample "r" "")) = (1, 20))) = true := by
  decide +kernel

end Depot
