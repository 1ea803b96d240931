import Depot.Core.Async
import Mathlib.Algebra.BigOperators.Group.List.Basic

/-!
# The update worker

The worker that applies the updates of the directory counters
(`server/src/server/worker/update.rs`) as a state machine. One event lets a
worker do one atomic thing: read an entry, write one, or go on to the next
part of its loop. Any number of workers share one tree, and other parties may
write to it between two events.
-/

namespace Depot

open Lib List

/-! ## Deltas -/

/-- `DirDelta`. Its `pk` is computed from the other fields wherever one is made
    (`dirKey`). -/
structure DirDelta where
  repo : String
  dirPath : String
  countDelta : ℤ
  bytesDelta : ℤ
  timestamp : DateTime
  deriving DecidableEq

/-- The key of a directory's entry: `sharded_pk` of the tree parent, and the
    `tree_sort_key`. -/
def dirKey (x : Ext) (repo dirPath : String) : Key :=
  ⟨treeShardPk repo (x.shardOf (treeParent dirPath)), treeSortKey dirPath⟩

/-- The update that `dir_changed` sends for the artifact at a path. -/
def DirDelta.changed (repo path : String) (countDelta bytesDelta : ℤ) (timestamp : DateTime) :
    DirDelta :=
  ⟨repo, parentDir (normalizePath path), countDelta, bytesDelta, timestamp⟩

/-- `make_parent_delta` (lines 243–254). -/
def DirDelta.parent (delta : DirDelta) : DirDelta :=
  { delta with dirPath := parentDir delta.dirPath }

/-- `DirDeltaMap`: at most one delta for each directory. -/
abbrev DirDeltaMap := List DirDelta

/-- A delta that is merged into one for the same directory (lines 272–276). -/
def DirDelta.add (e delta : DirDelta) : DirDelta :=
  { e with
    countDelta := toI64 (e.countDelta + delta.countDelta)
    bytesDelta := toI64 (e.bytesDelta + delta.bytesDelta)
    timestamp := if e.timestamp < delta.timestamp then delta.timestamp else e.timestamp }

/-- `merge_dir_delta` (lines 268–279). -/
def mergeDirDelta : DirDeltaMap → DirDelta → DirDeltaMap
  | [], delta => [delta]
  | e :: es, delta =>
      if e.repo = delta.repo ∧ e.dirPath = delta.dirPath then e.add delta :: es
      else e :: mergeDirDelta es delta

/-- Merge the deltas of a list, one after the other. -/
def mergeAll (map : DirDeltaMap) (deltas : List DirDelta) : DirDeltaMap :=
  deltas.foldl mergeDirDelta map

/-! ## Directories -/

/-- A directory and the directories above it, as far as `n` steps reach. -/
def ancestorsFrom : ℕ → String → List String
  | 0, dirPath => [dirPath]
  | n + 1, dirPath =>
      if dirPath = "" then [dirPath] else dirPath :: ancestorsFrom n (parentDir dirPath)

/-- A directory and the directories above it, up to the root. -/
def ancestors (dirPath : String) : List String := ancestorsFrom dirPath.toList.length dirPath

variable {dirPath : String}

theorem length_parentDir (h : dirPath ≠ "") :
    (parentDir dirPath).toList.length < dirPath.toList.length := by
  have hpos : 0 < dirPath.toList.length := by
    refine length_pos_iff.mpr fun hnil => h ?_
    rw [← String.ofList_toList (s := dirPath), hnil]
  rw [parentDir, String.toList_ofList, splitLast]
  dsimp only
  split_ifs
  · exact hpos
  · rw [Option.getD_some, length_take]
    omega

/-- More steps than there are directories reach no further. -/
theorem ancestorsFrom_eq {n m : ℕ} (hn : dirPath.toList.length ≤ n)
    (hm : dirPath.toList.length ≤ m) : ancestorsFrom n dirPath = ancestorsFrom m dirPath := by
  induction n generalizing m dirPath with
  | zero =>
    obtain rfl : dirPath = "" := by
      rw [← String.ofList_toList (s := dirPath), length_eq_zero_iff.mp (Nat.le_zero.mp hn)]
    cases m with
    | zero => rfl
    | succ m => rw [ancestorsFrom, ancestorsFrom, if_pos rfl]
  | succ n ih =>
    by_cases h : dirPath = ""
    · subst h
      cases m with
      | zero => rw [ancestorsFrom, ancestorsFrom, if_pos rfl]
      | succ m => rw [ancestorsFrom, ancestorsFrom, if_pos rfl, if_pos rfl]
    · have hlt := length_parentDir h
      cases m with
      | zero => omega
      | succ m =>
        rw [ancestorsFrom, ancestorsFrom, if_neg h, if_neg h, ih (m := m) (by omega) (by omega)]

theorem ancestors_root : ancestors "" = [""] := rfl

theorem ancestors_of_ne (h : dirPath ≠ "") :
    ancestors dirPath = dirPath :: ancestors (parentDir dirPath) := by
  have hlt := length_parentDir h
  have hsucc : dirPath.toList.length = dirPath.toList.length - 1 + 1 := by omega
  rw [ancestors, hsucc, ancestorsFrom, if_neg h, ancestors]
  exact congrArg _ (ancestorsFrom_eq (by omega) le_rfl)

theorem self_mem_ancestors (dirPath : String) : dirPath ∈ ancestors dirPath := by
  by_cases h : dirPath = ""
  · rw [h]
    exact mem_singleton_self _
  · rw [ancestors_of_ne h]
    exact mem_cons_self

/-! ## Applying a delta -/

/-- What `apply_dir_delta` does once it has read the entry (lines 417–515): an
    error, `Ok(false)` without a write (`none`), or a conditional write. -/
def planDirDelta (delta : DirDelta) (versioned : Option (Versioned Value)) :
    Except DepotError (Option (CellOp Value)) :=
  match versioned with
  | some c =>
      match c.value.tree? with
      | none => .error (.storage false)
      | some te =>
          match te.kind with
          | .dir existingCount existingBytes =>
              let newCount := (toI64 (toI64 existingCount + delta.countDelta)).toNat
              let newBytes := (toI64 (toI64 existingBytes + delta.bytesDelta)).toNat
              if newCount = 0 then .ok (some (.removeIf c.version))
              else
                .ok (some (.putIf (.tree ⟨.dir newCount newBytes,
                  max te.lastModifiedAt delta.timestamp,
                  max te.lastAccessedAt delta.timestamp⟩) (some c.version)))
          | .file .. => .ok none
  | none =>
      if delta.countDelta ≤ 0 then .ok none
      else
        .ok (some (.putIf (.tree ⟨.dir delta.countDelta.toNat delta.bytesDelta.toNat,
          delta.timestamp, delta.timestamp⟩) none))

/-- The entry can take the delta: `apply_dir_delta` goes on to its write. -/
def takes (delta : DirDelta) (versioned : Option (Versioned Value)) : Bool :=
  match planDirDelta delta versioned with
  | .ok (some _) => true
  | _ => false

theorem not_takes {delta : DirDelta} {c : Option (Versioned Value)}
    (h : ∀ write, planDirDelta delta c ≠ .ok (some write)) : takes delta c = false := by
  unfold takes
  split
  · next write hw => exact absurd hw (h write)
  · rfl

/-! ## Workers -/

/-- A call of `apply_dir_delta` in progress: the write it has decided on, once it
    has read the entry. -/
structure Flight where
  delta : DirDelta
  write : Option (CellOp Value) := none

/-- `DirBatchResult`. -/
structure DirBatchResult where
  parents : List DirDelta := []
  retries : List DirDelta := []

/-- Where a worker is. -/
inductive Phase where
  /-- At the head of the inner loop. -/
  | working
  /-- In `apply_dir_batch`: the calls in progress, and the outcomes so far. -/
  | batch (flights : List Flight) (result : DirBatchResult)
  /-- In `select!`. -/
  | parked
  /-- In the final flush: the deltas of this round, the call in progress, and the
      deltas of the next round. -/
  | flushing (todo : List DirDelta) (current : Option Flight) (next : DirDeltaMap)
  /-- The worker has returned. -/
  | stopped

/-- An update worker: its channel, the delta that `select!` has taken out of it,
    and `propagation_buf`. -/
structure Worker where
  queue : List DirDelta := []
  stashed : Option DirDelta := none
  propagationBuf : DirDeltaMap := []
  phase : Phase := .working

/-- What a worker drains at the head of its loop (lines 81–88). -/
def Worker.coalesced (wk : Worker) : DirDeltaMap :=
  mergeAll (mergeAll (mergeAll [] wk.queue) wk.stashed.toList) wk.propagationBuf

/-- The call in progress number `k`; the final flush makes one call at a time. -/
def Worker.flight (wk : Worker) (k : ℕ) : Option Flight :=
  match wk.phase with
  | .batch flights _ => flights[k]?
  | .flushing _ current _ => current
  | _ => none

/-- The call number `k` has read the entry and goes on to a write. -/
def Worker.plan (wk : Worker) (k : ℕ) (f : Flight) : Worker :=
  match wk.phase with
  | .batch flights result => { wk with phase := .batch (flights.set k f) result }
  | .flushing todo _ next => { wk with phase := .flushing todo (some f) next }
  | _ => wk

/-- The outcome of a call in `apply_dir_batch` (lines 206–223). -/
def DirBatchResult.add (result : DirBatchResult) (delta : DirDelta) (applied : Bool) :
    DirBatchResult :=
  if applied then
    if delta.dirPath = "" then result
    else { result with parents := result.parents ++ [delta.parent] }
  else { result with retries := result.retries ++ [delta] }

/-- The call number `k` returns. A delta that is not applied is tried again after
    a batch (lines 213–221), but not in the final flush (lines 154–162). -/
def Worker.finishCall (wk : Worker) (k : ℕ) (delta : DirDelta) (applied : Bool) : Worker :=
  match wk.phase with
  | .batch flights result =>
      { wk with phase := .batch (flights.eraseIdx k) (result.add delta applied) }
  | .flushing todo _ next =>
      { wk with
        phase := .flushing todo none
          (if applied ∧ delta.dirPath ≠ "" then mergeDirDelta next delta.parent else next) }
  | _ => wk

/-! ## Events -/

/-- The tree, the workers, and the deltas that were put into their channels. -/
structure UpdateState where
  world : World
  workers : List Worker
  received : List DirDelta := []

/-- One atomic step. The flags say whether the key-value store lets the operation
    succeed. -/
inductive UpdateEvent where
  /-- `dir_changed` puts a delta into the channel of worker `i`. -/
  | send (i : ℕ) (repo path : String) (countDelta bytesDelta : ℤ) (timestamp : DateTime)
  /-- Worker `i` drains its channel; with nothing to do it goes to `select!`. -/
  | begin (i : ℕ)
  /-- Call number `k` of worker `i` reads its entry. -/
  | read (i k : ℕ) (ok : Bool)
  /-- Call number `k` of worker `i` makes its write. -/
  | write (i k : ℕ) (ok : Bool)
  /-- The batch is done. -/
  | finish (i : ℕ)
  /-- `select!` is left for an atime event or the timer. -/
  | wake (i : ℕ)
  /-- `select!` takes a delta out of the channel. -/
  | recv (i : ℕ)
  /-- `select!` sees the cancellation: the final flush starts. -/
  | cancel (i : ℕ)
  /-- The final flush takes the next delta of its round. -/
  | pick (i k : ℕ)
  /-- The final flush starts its next round, or ends. -/
  | round (i : ℕ)
  /-- Another party writes to the store. -/
  | other (k : Key) (c : CellOp Value)

namespace UpdateState

/-- Replace worker `i`. -/
def setWorker (s : UpdateState) (i : ℕ) (wk : Worker) : UpdateState :=
  { s with workers := s.workers.set i wk }

/-- Worker `i` starts an iteration of its inner loop (lines 79–94). -/
def beginBatch (s : UpdateState) (i : ℕ) (wk : Worker) : Option UpdateState :=
  match wk.phase with
  | .working =>
      let drained : Worker := { wk with queue := [], stashed := none, propagationBuf := [] }
      match wk.coalesced with
      | [] => some (s.setWorker i { drained with phase := .parked })
      | deltas =>
          some (s.setWorker i { drained with phase := .batch (deltas.map fun d => ⟨d, none⟩) {} })
  | _ => none

/-- A call reads its entry (lines 404–446). -/
def readEntry (x : Ext) (s : UpdateState) (i k : ℕ) (wk : Worker) (ok : Bool) :
    Option UpdateState :=
  match wk.flight k with
  | some ⟨delta, none⟩ =>
      if ok then
        match planDirDelta delta (s.world.cell (dirKey x delta.repo delta.dirPath)) with
        | .ok (some write) => some (s.setWorker i (wk.plan k ⟨delta, some write⟩))
        | _ => some (s.setWorker i (wk.finishCall k delta false))
      else some (s.setWorker i (wk.finishCall k delta false))
  | _ => none

/-- A call makes its conditional write (lines 477–516). -/
def writeEntry (x : Ext) (s : UpdateState) (i k : ℕ) (wk : Worker) (ok : Bool) :
    Option UpdateState :=
  match wk.flight k with
  | some ⟨delta, some write⟩ =>
      let key := dirKey x delta.repo delta.dirPath
      if ok && write.enabled (s.world.cell key) then
        some ({ s with world := s.world.setCell key (write.apply (s.world.cell key)) }.setWorker i
          (wk.finishCall k delta true))
      else some (s.setWorker i (wk.finishCall k delta false))
  | _ => none

/-- The outcomes of a batch go into `propagation_buf` (lines 97–104). -/
def finishBatch (s : UpdateState) (i : ℕ) (wk : Worker) : Option UpdateState :=
  match wk.phase with
  | .batch [] result =>
      some (s.setWorker i { wk with
        propagationBuf := mergeAll (mergeAll wk.propagationBuf result.parents) result.retries
        phase := .working })
  | _ => none

/-- `select!` takes a delta, or wakes up for something else. -/
def leaveSelect (s : UpdateState) (i : ℕ) (wk : Worker) (take : Bool) : Option UpdateState :=
  match wk.phase with
  | .parked =>
      if take then
        match wk.queue with
        | [] => none
        | delta :: queue =>
            some (s.setWorker i { wk with queue := queue, stashed := some delta, phase := .working })
      else some (s.setWorker i { wk with phase := .working })
  | _ => none

/-- The final drain (lines 138–145). -/
def beginFlush (s : UpdateState) (i : ℕ) (wk : Worker) : Option UpdateState :=
  match wk.phase with
  | .parked =>
      some (s.setWorker i { wk with
        queue := [], stashed := none, propagationBuf := []
        phase := .flushing wk.coalesced none [] })
  | _ => none

/-- The final flush takes a delta (lines 152–153). -/
def pickDelta (s : UpdateState) (i k : ℕ) (wk : Worker) : Option UpdateState :=
  match wk.phase with
  | .flushing todo none next =>
      todo[k]?.map fun delta =>
        s.setWorker i { wk with phase := .flushing (todo.eraseIdx k) (some ⟨delta, none⟩) next }
  | _ => none

/-- The next round of the final flush (lines 147–151 and 164). -/
def nextRound (s : UpdateState) (i : ℕ) (wk : Worker) : Option UpdateState :=
  match wk.phase with
  | .flushing [] none [] => some (s.setWorker i { wk with phase := .stopped })
  | .flushing [] none next => some (s.setWorker i { wk with phase := .flushing next none [] })
  | _ => none

/-- One event; `none` if it is not possible. -/
def step (x : Ext) (s : UpdateState) : UpdateEvent → Option UpdateState
  | .send i repo path countDelta bytesDelta timestamp =>
      let delta := DirDelta.changed repo path countDelta bytesDelta timestamp
      s.workers[i]?.map fun wk =>
        { s.setWorker i { wk with queue := wk.queue ++ [delta] } with
          received := s.received ++ [delta] }
  | .begin i => s.workers[i]?.bind (s.beginBatch i)
  | .read i k ok => s.workers[i]?.bind fun wk => s.readEntry x i k wk ok
  | .write i k ok => s.workers[i]?.bind fun wk => s.writeEntry x i k wk ok
  | .finish i => s.workers[i]?.bind (s.finishBatch i)
  | .wake i => s.workers[i]?.bind fun wk => s.leaveSelect i wk false
  | .recv i => s.workers[i]?.bind fun wk => s.leaveSelect i wk true
  | .cancel i => s.workers[i]?.bind (s.beginFlush i)
  | .pick i k => s.workers[i]?.bind (s.pickDelta i k)
  | .round i => s.workers[i]?.bind (s.nextRound i)
  | .other k c => some { s with world := s.world.setCell k (c.apply (s.world.cell k)) }

/-- The state after a list of events, each of which `admits`. -/
def run (x : Ext) (admits : UpdateState → UpdateEvent → Bool) (s : UpdateState) :
    List UpdateEvent → Option UpdateState
  | [] => some s
  | e :: es => if admits s e then (s.step x e).bind fun s' => run x admits s' es else none

theorem run_cons {x : Ext} {admits : UpdateState → UpdateEvent → Bool} {s s' : UpdateState}
    {e : UpdateEvent} {es : List UpdateEvent} (h : s.run x admits (e :: es) = some s') :
    admits s e = true ∧ ∃ s₁, s.step x e = some s₁ ∧ s₁.run x admits es = some s' := by
  rw [UpdateState.run] at h
  split_ifs at h with ha
  exact ⟨ha, Option.bind_eq_some_iff.mp h⟩

theorem run_append {x : Ext} {admits : UpdateState → UpdateEvent → Bool} {s s' : UpdateState}
    {es es' : List UpdateEvent} (h : s.run x admits es = some s') :
    s.run x admits (es ++ es') = s'.run x admits es' := by
  induction es generalizing s with
  | nil =>
    obtain rfl := Option.some_inj.mp h
    rfl
  | cons e es ih =>
    obtain ⟨he, s₁, hstep, hrun⟩ := run_cons h
    rw [cons_append, UpdateState.run, if_pos he, hstep, Option.bind_some]
    exact ih hrun

end UpdateState

/-! ## Sums over the calls of a batch -/

section Sums

variable {α M : Type} [AddCommMonoid M]

/-- One element of a list and the others. -/
theorem sum_eraseIdx {l : List α} {k : ℕ} {a : α} (h : l[k]? = some a) (g : α → M) :
    (l.map g).sum = g a + ((l.eraseIdx k).map g).sum := by
  induction l generalizing k with
  | nil => cases h
  | cons b l ih =>
    cases k with
    | zero =>
      obtain rfl : b = a := by simpa using h
      rfl
    | succ k =>
      rw [eraseIdx_cons_succ, map_cons, map_cons, sum_cons, sum_cons,
        ih (by simpa using h), add_left_comm]

/-- Another element in its place. -/
theorem sum_set {l : List α} {k : ℕ} {a : α} (h : l[k]? = some a) (g : α → M) (b : α) :
    ((l.set k b).map g).sum = g b + ((l.eraseIdx k).map g).sum := by
  have hlt := (List.getElem?_eq_some_iff.mp h).1
  rw [sum_eraseIdx (getElem?_set_self hlt) g, eraseIdx_set_eq]

end Sums

end Depot
