import Depot.Worker.Update
import Mathlib.Algebra.Order.BigOperators.Group.List

/-!
# When the update worker comes to rest

A worker looks at the cancellation token in `select!` only, after an iteration
that found nothing to do. A delta that its entry does not take goes back into
`propagation_buf`, and then there is something to do again. A conditional write
that loses a race may be retried in vain only as often as other writes succeed;
a delta below zero for a directory that has no entry is retried for ever.

Results:
* `nearer_step`: every event of the inner loop uses up some of a measure, as long
  as the entries that are read are directories or can be made.
* `quiesces_careful`: then the loop ends after a bounded number of steps, with
  nothing pending.
* `refused_forever`: one delta below zero for a missing entry keeps the loop
  going.
-/

namespace Depot

open Lib List
open Option (bind_some some_inj)

/-! ## The inner loop -/

/-- An event of the inner loop of worker `i` in which no operation fails. -/
def UpdateEvent.inLoop (i : ℕ) : UpdateEvent → Bool
  | .begin j => decide (j = i)
  | .read j _ ok => decide (j = i) && ok
  | .write j _ ok => decide (j = i) && ok
  | .finish j => decide (j = i)
  | _ => false

/-- The entry has a place for the delta: it is a directory, or there is none and the
    delta adds artifacts. -/
def DirDelta.hasPlace (delta : DirDelta) : Option (Versioned Value) → Bool
  | some c =>
      match c.value.tree? with
      | some ⟨.dir .., _, _⟩ => true
      | _ => false
  | none => decide (0 < delta.countDelta)

/-- An event of the inner loop of worker `i`; when a call reads its entry, the delta
    has a place there. -/
def UpdateEvent.careful (x : Ext) (i : ℕ) (s : UpdateState) (e : UpdateEvent) : Bool :=
  e.inLoop i &&
    match e with
    | .read j k _ => (s.workers[j]?.bind fun wk => wk.flight k).all fun f =>
        f.delta.hasPlace (s.world.cell (dirKey x f.delta.repo f.delta.dirPath))
    | _ => true

/-- Nothing is pending, and the worker is where it sees a cancellation. -/
structure Worker.Idle (wk : Worker) : Prop where
  phase : wk.phase = .parked
  queue : wk.queue = []
  stashed : wk.stashed = none
  propagationBuf : wk.propagationBuf = []

/-- The worker is in its inner loop. -/
def Worker.InLoop (wk : Worker) : Prop :=
  wk.phase = .working ∨ ∃ flights result, wk.phase = .batch flights result

/-- However the calls of worker `i` are interleaved, in the runs that are admitted: its
    inner loop makes a bounded number of steps, and it goes on until nothing is pending. -/
def Quiesces (x : Ext) (s : UpdateState) (i : ℕ)
    (admits : UpdateState → UpdateEvent → Bool) : Prop :=
  ∃ n, ∀ es s', s.run x admits es = some s' → es.length ≤ n ∧
    ((∀ e, e.inLoop i = true → s'.step x e = none) →
      ∃ wk, s'.workers[i]? = some wk ∧ wk.Idle)

/-! ## The measure -/

/-- How many deltas a worker holds. -/
def Worker.held (wk : Worker) : ℕ :=
  wk.queue.length + wk.stashed.toList.length + wk.propagationBuf.length +
    match wk.phase with
    | .batch flights result =>
        flights.length + result.parents.length + result.retries.length
    | _ => 0

section Measure

variable (x : Ext) (m : ℕ)

/-- The measure of a delta: the directories it has to go through, each worth more
    than all the retries that one write can cause. -/
def DirDelta.fuel (delta : DirDelta) : ℕ := (8 * m + 8) * (ancestors delta.dirPath).length

/-- The measure of a call: a write that will fail leads to a retry. -/
def Flight.fuel (w : World) (f : Flight) : ℕ :=
  match f.write with
  | none => f.delta.fuel m - 2
  | some write =>
      if write.enabled (w.cell (dirKey x f.delta.repo f.delta.dirPath)) then f.delta.fuel m - 4
      else f.delta.fuel m + 1

/-- The measure of several deltas. -/
def fuelOf (deltas : List DirDelta) : ℕ := (deltas.map (DirDelta.fuel m)).sum

/-- The measure of a worker in its inner loop. -/
def Worker.fuel (w : World) (wk : Worker) : ℕ :=
  fuelOf m wk.queue + fuelOf m wk.stashed.toList + fuelOf m wk.propagationBuf +
    match wk.phase with
    | .working => 1
    | .batch flights result =>
        2 + (flights.map (Flight.fuel x m w)).sum + fuelOf m result.parents +
          fuelOf m result.retries
    | _ => 0

end Measure

variable {x : Ext} {m : ℕ}

@[simp] theorem fuelOf_nil : fuelOf m [] = 0 := rfl

@[simp] theorem fuelOf_cons (delta : DirDelta) (deltas : List DirDelta) :
    fuelOf m (delta :: deltas) = delta.fuel m + fuelOf m deltas := by
  rw [fuelOf, map_cons, sum_cons, fuelOf]

@[simp] theorem fuelOf_append (deltas deltas' : List DirDelta) :
    fuelOf m (deltas ++ deltas') = fuelOf m deltas + fuelOf m deltas' := by
  rw [fuelOf, map_append, sum_append, fuelOf, fuelOf]

theorem le_fuel (delta : DirDelta) : 8 * m + 8 ≤ delta.fuel m := by
  have hpos : 1 ≤ (ancestors delta.dirPath).length := by
    by_cases h : delta.dirPath = ""
    · rw [h, ancestors_root]
      exact le_rfl
    · rw [ancestors_of_ne h, length_cons]
      omega
  exact Nat.le_mul_of_pos_right _ hpos

/-- A delta that is applied moves up one directory. -/
theorem fuel_parent {delta : DirDelta} (h : delta.dirPath ≠ "") :
    delta.parent.fuel m + (8 * m + 8) = delta.fuel m := by
  rw [DirDelta.fuel, DirDelta.fuel, ancestors_of_ne h, length_cons, Nat.mul_succ]
  rfl

variable {wk : Worker}

theorem fuel_working {w : World} (h : wk.phase = .working) : wk.fuel x m w =
      fuelOf m wk.queue + fuelOf m wk.stashed.toList + fuelOf m wk.propagationBuf + 1 := by
  rw [Worker.fuel, h]

variable {result : DirBatchResult}

theorem fuel_batch {w : World} {flights : List Flight}
    (h : wk.phase = .batch flights result) : wk.fuel x m w =
      fuelOf m wk.queue + fuelOf m wk.stashed.toList + fuelOf m wk.propagationBuf +
        (2 + (flights.map (Flight.fuel x m w)).sum + fuelOf m result.parents +
          fuelOf m result.retries) := by
  rw [Worker.fuel, h]

theorem held_batch {flights : List Flight} (h : wk.phase = .batch flights result) :
    wk.held = wk.queue.length + wk.stashed.toList.length + wk.propagationBuf.length +
      (flights.length + result.parents.length + result.retries.length) := by
  rw [Worker.held, h]

/-! ### Merging -/

/-- The weight of several deltas, each weighed by its directory. -/
def weigh (g : String → ℕ) (deltas : List DirDelta) : ℕ := (deltas.map fun d => g d.dirPath).sum

/-- A merge adds no weight. -/
theorem weigh_mergeDirDelta (g : String → ℕ) (map : DirDeltaMap) (delta : DirDelta) :
    weigh g (mergeDirDelta map delta) ≤ weigh g map + g delta.dirPath := by
  unfold weigh
  induction map with
  | nil => simp [mergeDirDelta]
  | cons e es ih =>
    rw [mergeDirDelta]
    split_ifs
    · rw [map_cons, map_cons, sum_cons, sum_cons]
      have hsame : (e.add delta).dirPath = e.dirPath := rfl
      rw [hsame]
      omega
    · rw [map_cons, map_cons, sum_cons, sum_cons]
      omega

theorem weigh_mergeAll (g : String → ℕ) (map : DirDeltaMap) (deltas : List DirDelta) :
    weigh g (mergeAll map deltas) ≤ weigh g map + weigh g deltas := by
  unfold mergeAll
  induction deltas generalizing map with
  | nil => exact le_rfl
  | cons delta deltas ih =>
    have hone := weigh_mergeDirDelta g map delta
    have hcons : weigh g (delta :: deltas) = g delta.dirPath + weigh g deltas := rfl
    rw [foldl_cons, hcons]
    exact (ih _).trans (by omega)

theorem length_mergeAll (map : DirDeltaMap) (deltas : List DirDelta) :
    (mergeAll map deltas).length ≤ map.length + deltas.length := by
  simpa [weigh] using weigh_mergeAll (fun _ => 1) map deltas

theorem fuelOf_mergeAll (map : DirDeltaMap) (deltas : List DirDelta) :
    fuelOf m (mergeAll map deltas) ≤ fuelOf m map + fuelOf m deltas :=
  weigh_mergeAll (fun dirPath => (8 * m + 8) * (ancestors dirPath).length) map deltas

/-! ### What an event does to the measure -/

theorem weigh_coalesced (g : String → ℕ) (wk : Worker) : weigh g wk.coalesced ≤
    weigh g wk.queue + weigh g wk.stashed.toList + weigh g wk.propagationBuf := by
  have h1 := weigh_mergeAll g [] wk.queue
  have h2 := weigh_mergeAll g (mergeAll [] wk.queue) wk.stashed.toList
  have h3 := weigh_mergeAll g (mergeAll (mergeAll [] wk.queue) wk.stashed.toList)
    wk.propagationBuf
  have hnil : weigh g [] = 0 := rfl
  unfold Worker.coalesced
  omega

/-- The calls that a batch starts with are worth less than their deltas. -/
theorem sum_waiting (w : World) (deltas : List DirDelta) :
    ((deltas.map fun d => (⟨d, none⟩ : Flight)).map (Flight.fuel x m w)).sum + 2 * deltas.length =
      fuelOf m deltas := by
  induction deltas with
  | nil => rfl
  | cons d deltas ih =>
    have hle := le_fuel (m := m) d
    rw [map_cons, map_cons, sum_cons, length_cons, fuelOf_cons]
    show d.fuel m - 2 + _ + _ = _
    omega

/-- A write changes what the other calls will find: each may have to be retried. -/
theorem sum_fuel_le (w w' : World) (flights : List Flight) :
    (flights.map (Flight.fuel x m w')).sum ≤
      (flights.map (Flight.fuel x m w)).sum + 5 * flights.length := by
  induction flights with
  | nil => exact le_rfl
  | cons f flights ih =>
    have hone : f.fuel x m w' ≤ f.fuel x m w + 5 := by
      have hle := le_fuel (m := m) f.delta
      unfold Flight.fuel
      split
      · omega
      · split_ifs <;> omega
    rw [map_cons, map_cons, sum_cons, sum_cons, length_cons]
    omega

/-- The write a call decides on goes through if nothing comes between. -/
theorem plan_enabled {delta : DirDelta} {c : Option (Versioned Value)} {write : CellOp Value}
    (h : planDirDelta delta c = .ok (some write)) : write.enabled c = true := by
  unfold planDirDelta at h
  split at h
  · next cell =>
    split at h
    · cases h
    · split at h
      · dsimp only at h
        split_ifs at h
        · cases h
          simp [CellOp.enabled]
        · cases h
          simp [CellOp.enabled]
      · cases h
  · split_ifs at h
    · cases h
    · cases h
      rfl

/-- A delta that has a place gets as far as its write. -/
theorem plan_of_hasPlace {delta : DirDelta} {c : Option (Versioned Value)}
    (h : delta.hasPlace c = true) : ∃ write, planDirDelta delta c = .ok (some write) := by
  cases c with
  | none =>
    rw [planDirDelta, if_neg (not_le.mpr (of_decide_eq_true h))]
    exact ⟨_, rfl⟩
  | some c =>
    unfold DirDelta.hasPlace at h
    unfold planDirDelta
    dsimp only at h ⊢
    split at h
    · next htree =>
      rw [htree]
      dsimp only
      split_ifs
      · exact ⟨_, rfl⟩
      · exact ⟨_, rfl⟩
    · cases h

/-- A worker that is in its inner loop or has left it with nothing pending. -/
def Worker.Settling (wk : Worker) : Prop := wk.InLoop ∨ wk.Idle

/-- From one state of a worker to the next: it holds no more deltas, and its measure
    gets smaller. -/
structure Worker.Nearer (x : Ext) (m : ℕ) (w w' : World) (wk wk' : Worker) : Prop where
  settling : wk'.Settling
  held : wk'.held ≤ wk.held
  fuel : wk'.fuel x m w' < wk.fuel x m w

theorem begin_nearer {s s' : UpdateState} {i : ℕ} {wk : Worker} (h : s.beginBatch i wk = some s') :
    ∃ wk', s' = s.setWorker i wk' ∧ wk.Nearer x m s.world s'.world wk' := by
  unfold UpdateState.beginBatch at h
  split at h
  · next hphase =>
    have hlen : wk.coalesced.length ≤
        wk.queue.length + wk.stashed.toList.length + wk.propagationBuf.length := by
      simpa [weigh] using weigh_coalesced (fun _ => 1) wk
    have hfuel : fuelOf m wk.coalesced ≤
        fuelOf m wk.queue + fuelOf m wk.stashed.toList + fuelOf m wk.propagationBuf :=
      weigh_coalesced (fun dirPath => (8 * m + 8) * (ancestors dirPath).length) wk
    dsimp only at h
    split at h
    · next hnil =>
      obtain rfl := some_inj.mp h
      refine ⟨_, rfl, .inr ⟨rfl, rfl, rfl, rfl⟩, Nat.zero_le _, ?_⟩
      rw [fuel_working hphase]
      show 0 + 1 ≤ _
      omega
    · next hne =>
      obtain rfl := some_inj.mp h
      have hpos : 1 ≤ wk.coalesced.length := length_pos_iff.mpr fun hnil => hne hnil
      have hsum := @sum_waiting x m s.world wk.coalesced
      refine ⟨_, rfl, .inl (.inr ⟨_, _, rfl⟩), ?_, ?_⟩
      · rw [held_batch rfl, Worker.held, hphase, length_map]
        show 0 + 0 + 0 + (_ + 0 + 0) ≤ _
        omega
      · rw [fuel_batch rfl, fuel_working hphase]
        show 0 + 0 + 0 + (2 + _ + 0 + 0) + 1 ≤ _
        show 0 + 0 + 0 + (2 + ((wk.coalesced.map fun d => (⟨d, none⟩ : Flight)).map
          (Flight.fuel x m s.world)).sum + 0 + 0) + 1 ≤ _
        omega
  · cases h

variable {k i : ℕ}

/-- The calls in progress are the ones of a batch. -/
theorem flight_batch {f : Flight} (hset : wk.Settling) (h : wk.flight k = some f) :
    ∃ flights result, wk.phase = .batch flights result ∧ flights[k]? = some f := by
  rcases hset with (hphase | ⟨flights, result, hphase⟩) | hidle
  · rw [Worker.flight, hphase] at h
    cases h
  · rw [Worker.flight, hphase] at h
    exact ⟨flights, result, hphase, h⟩
  · rw [Worker.flight, hidle.phase] at h
    cases h

/-- A call whose write comes too late hands its delta to the retries. -/
theorem retry_nearer {w : World} {f : Flight} (hset : wk.Settling)
    (h : wk.flight k = some f) (hf : f.delta.fuel m < f.fuel x m w) :
    wk.Nearer x m w w (wk.finishCall k f.delta false) := by
  obtain ⟨flights, result, hphase, hk⟩ := flight_batch hset h
  have hfin : wk.finishCall k f.delta false =
      { wk with phase := .batch (flights.eraseIdx k)
                  { result with retries := result.retries ++ [f.delta] } } := by
    rw [Worker.finishCall, hphase]
    rfl
  have hlen := length_eraseIdx_add_one (List.getElem?_eq_some_iff.mp hk).1
  have hsum := sum_eraseIdx hk (Flight.fuel x m w)
  rw [hfin]
  refine ⟨.inl (.inr ⟨_, _, rfl⟩), ?_, ?_⟩
  · rw [held_batch rfl, held_batch hphase, length_append, length_singleton]
    dsimp only
    omega
  · rw [fuel_batch rfl, fuel_batch hphase, fuelOf_append, fuelOf_cons, fuelOf_nil]
    dsimp only
    omega

theorem read_nearer {s s' : UpdateState} (hset : wk.Settling)
    (hplace : ∀ f, wk.flight k = some f →
      f.delta.hasPlace (s.world.cell (dirKey x f.delta.repo f.delta.dirPath)) = true)
    (h : s.readEntry x i k wk true = some s') :
    ∃ wk', s' = s.setWorker i wk' ∧ wk.Nearer x m s.world s'.world wk' := by
  unfold UpdateState.readEntry at h
  split at h
  · next delta hf =>
    have hfuel := le_fuel (m := m) delta
    obtain ⟨write, hplan⟩ := plan_of_hasPlace (hplace _ hf)
    dsimp only at hplan
    rw [if_pos rfl, hplan] at h
    obtain rfl := some_inj.mp h
    obtain ⟨flights, result, hphase, hk⟩ := flight_batch hset hf
    have hen := plan_enabled hplan
    have hp : wk.plan k ⟨delta, some write⟩ =
        { wk with phase := .batch (flights.set k ⟨delta, some write⟩) result } := by
      rw [Worker.plan, hphase]
    have hsum := sum_eraseIdx hk (Flight.fuel x m s.world)
    have hsum' := sum_set hk (Flight.fuel x m s.world) ⟨delta, some write⟩
    have hold : (⟨delta, none⟩ : Flight).fuel x m s.world = delta.fuel m - 2 := rfl
    have hnew : (⟨delta, some write⟩ : Flight).fuel x m s.world = delta.fuel m - 4 := if_pos hen
    refine ⟨_, rfl, ?_⟩
    rw [hp]
    show wk.Nearer x m s.world s.world _
    refine ⟨.inl (.inr ⟨_, _, rfl⟩), ?_, ?_⟩
    · rw [held_batch rfl, held_batch hphase, length_set]
    · rw [fuel_batch rfl, fuel_batch hphase]
      dsimp only
      omega
  · cases h

variable {s s' : UpdateState}

theorem write_nearer (hset : wk.Settling)
    (hheld : wk.held ≤ m) (h : s.writeEntry x i k wk true = some s') :
    ∃ wk', s'.workers = s.workers.set i wk' ∧ wk.Nearer x m s.world s'.world wk' := by
  unfold UpdateState.writeEntry at h
  split at h
  · next delta write hf =>
    have hfuel := le_fuel (m := m) delta
    dsimp only at h
    split_ifs at h with hen
    · obtain rfl := some_inj.mp h
      rw [Bool.true_and] at hen
      obtain ⟨flights, result, hphase, hk⟩ := flight_batch hset hf
      rw [held_batch hphase] at hheld
      have hlen := length_eraseIdx_add_one (List.getElem?_eq_some_iff.mp hk).1
      set w' := s.world.setCell (dirKey x delta.repo delta.dirPath)
        (write.apply (s.world.cell (dirKey x delta.repo delta.dirPath))) with hw'
      have hsum := sum_eraseIdx hk (Flight.fuel x m s.world)
      have hothers := @sum_fuel_le x m s.world w' (flights.eraseIdx k)
      have hold : (⟨delta, some write⟩ : Flight).fuel x m s.world = delta.fuel m - 4 := if_pos hen
      refine ⟨_, rfl, ?_⟩
      show wk.Nearer x m s.world w' _
      by_cases hroot : delta.dirPath = ""
      · have hfin : wk.finishCall k delta true =
            { wk with phase := .batch (flights.eraseIdx k) result } := by
          rw [Worker.finishCall, hphase]
          simp only [DirBatchResult.add, hroot, if_true]
        rw [hfin]
        refine ⟨.inl (.inr ⟨_, _, rfl⟩), ?_, ?_⟩
        · rw [held_batch rfl, held_batch hphase]
          dsimp only
          omega
        · rw [fuel_batch rfl, fuel_batch hphase]
          dsimp only
          omega
      · have hup := fuel_parent (m := m) hroot
        have hfin : wk.finishCall k delta true =
            { wk with phase := .batch (flights.eraseIdx k)
                        { result with parents := result.parents ++ [delta.parent] } } := by
          rw [Worker.finishCall, hphase]
          simp only [DirBatchResult.add, hroot, if_true, if_false]
        rw [hfin]
        refine ⟨.inl (.inr ⟨_, _, rfl⟩), ?_, ?_⟩
        · rw [held_batch rfl, held_batch hphase, length_append, length_singleton]
          dsimp only
          omega
        · rw [fuel_batch rfl, fuel_batch hphase, fuelOf_append, fuelOf_cons, fuelOf_nil]
          dsimp only
          omega
    · obtain rfl := some_inj.mp h
      rw [Bool.true_and] at hen
      refine ⟨_, rfl, retry_nearer hset hf ?_⟩
      have hold : (⟨delta, some write⟩ : Flight).fuel x m s.world = delta.fuel m + 1 := if_neg hen
      rw [hold]
      exact Nat.lt_succ_self _
  · cases h

theorem finish_nearer {s s' : UpdateState} {i : ℕ} {wk : Worker}
    (h : s.finishBatch i wk = some s') :
    ∃ wk', s' = s.setWorker i wk' ∧ wk.Nearer x m s.world s'.world wk' := by
  unfold UpdateState.finishBatch at h
  split at h
  · next result hphase =>
    obtain rfl := some_inj.mp h
    have hlen := length_mergeAll wk.propagationBuf result.parents
    have hlen' := length_mergeAll (mergeAll wk.propagationBuf result.parents) result.retries
    have hfuel := @fuelOf_mergeAll m wk.propagationBuf result.parents
    have hfuel' := @fuelOf_mergeAll m (mergeAll wk.propagationBuf result.parents) result.retries
    refine ⟨_, rfl, .inl (.inl rfl), ?_, ?_⟩
    · rw [held_batch hphase, Worker.held, length_nil]
      dsimp only
      omega
    · rw [fuel_batch hphase, fuel_working rfl, map_nil, sum_nil]
      dsimp only
      omega
  · cases h

/-- Every event of the inner loop uses up some of the measure, as long as the deltas
    have their places. -/
theorem nearer_step {e : UpdateEvent} (hwk : s.workers[i]? = some wk) (hset : wk.Settling)
    (hheld : wk.held ≤ m) (he : e.careful x i s = true) (h : s.step x e = some s') :
    ∃ wk', s'.workers[i]? = some wk' ∧ wk.Nearer x m s.world s'.world wk' := by
  have hlt := (List.getElem?_eq_some_iff.mp hwk).1
  have hself : ∀ wk', (s.workers.set i wk')[i]? = some wk' := fun _ => getElem?_set_self hlt
  obtain ⟨hloop, hplace⟩ := Bool.and_eq_true_iff.mp he
  cases e with
  | begin j =>
    obtain rfl : j = i := of_decide_eq_true hloop
    rw [UpdateState.step, hwk, bind_some] at h
    obtain ⟨wk', rfl, hnear⟩ := @begin_nearer x m _ _ _ _ h
    exact ⟨wk', hself wk', hnear⟩
  | read j k ok =>
    obtain ⟨hj, rfl⟩ : j = i ∧ ok = true := by simpa [UpdateEvent.inLoop] using hloop
    subst hj
    rw [UpdateState.step, hwk, bind_some] at h
    dsimp only at hplace
    rw [hwk, bind_some] at hplace
    obtain ⟨wk', rfl, hnear⟩ := read_nearer hset (fun f hf => by simpa [hf] using hplace) h
    exact ⟨wk', hself wk', hnear⟩
  | write j k ok =>
    obtain ⟨hj, rfl⟩ : j = i ∧ ok = true := by simpa [UpdateEvent.inLoop] using hloop
    subst hj
    rw [UpdateState.step, hwk, bind_some] at h
    obtain ⟨wk', hs', hnear⟩ := write_nearer hset hheld h
    refine ⟨wk', ?_, hnear⟩
    rw [hs', hself wk']
  | finish j =>
    obtain rfl : j = i := of_decide_eq_true hloop
    rw [UpdateState.step, hwk, bind_some] at h
    obtain ⟨wk', rfl, hnear⟩ := @finish_nearer x m _ _ _ _ h
    exact ⟨wk', hself wk', hnear⟩
  | _ => cases hloop

/-! ## Runs -/

/-- The measure bounds the length of a run. -/
theorem nearer_run {es : List UpdateEvent} (hwk : s.workers[i]? = some wk) (hset : wk.Settling)
    (hheld : wk.held ≤ m) (h : s.run x (fun s e => e.careful x i s) es = some s') :
    ∃ wk', s'.workers[i]? = some wk' ∧ wk'.Settling ∧
      es.length + wk'.fuel x m s'.world ≤ wk.fuel x m s.world := by
  induction es generalizing s wk with
  | nil =>
    obtain rfl := some_inj.mp h
    refine ⟨wk, hwk, hset, ?_⟩
    rw [length_nil, Nat.zero_add]
  | cons e es ih =>
    obtain ⟨he, s₁, hstep, hrun⟩ := UpdateState.run_cons h
    obtain ⟨wk₁, hwk₁, hnear⟩ := nearer_step hwk hset hheld he hstep
    obtain ⟨wk', hwk', hset', hlen⟩ :=
      ih hwk₁ hnear.settling (hnear.held.trans hheld) hrun
    refine ⟨wk', hwk', hset', ?_⟩
    have hfuel := hnear.fuel
    rw [length_cons]
    omega

/-- A worker that can go no further in its inner loop has left it. -/
theorem idle_of_stuck (hwk : s.workers[i]? = some wk)
    (hset : wk.Settling) (hstuck : ∀ e, e.inLoop i = true → s.step x e = none) : wk.Idle := by
  rcases hset with (hphase | ⟨flights, result, hphase⟩) | hidle
  · have hnone := hstuck (.begin i) (decide_eq_true rfl)
    rw [UpdateState.step, hwk, bind_some, UpdateState.beginBatch, hphase] at hnone
    dsimp only at hnone
    split at hnone <;> cases hnone
  · cases flights with
    | nil =>
      have hnone := hstuck (.finish i) (decide_eq_true rfl)
      rw [UpdateState.step, hwk, bind_some, UpdateState.finishBatch, hphase] at hnone
      cases hnone
    | cons f flights =>
      have hf : wk.flight 0 = some f := by
        rw [Worker.flight, hphase]
        rfl
      obtain ⟨delta, write⟩ := f
      cases write with
      | none =>
        have hnone := hstuck (.read i 0 true) (by simp [UpdateEvent.inLoop])
        rw [UpdateState.step, hwk, bind_some, UpdateState.readEntry, hf] at hnone
        dsimp only at hnone
        rw [if_pos rfl] at hnone
        split at hnone <;> cases hnone
      | some write =>
        have hnone := hstuck (.write i 0 true) (by simp [UpdateEvent.inLoop])
        rw [UpdateState.step, hwk, bind_some, UpdateState.writeEntry, hf] at hnone
        dsimp only at hnone
        split_ifs at hnone
  · exact hidle

/-- **Main theorem.** When the entries that its calls read are directories, or are missing
    and the delta adds artifacts, the inner loop of a worker makes a bounded number of
    steps and ends with nothing pending. -/
theorem quiesces_careful (x : Ext) (s : UpdateState) (i : ℕ) (wk : Worker)
    (hwk : s.workers[i]? = some wk) (h : wk.InLoop) :
    Quiesces x s i fun s e => e.careful x i s := by
  refine ⟨wk.fuel x wk.held s.world, fun es s' hrun => ?_⟩
  obtain ⟨wk', hwk', hset, hlen⟩ := nearer_run hwk (.inl h) le_rfl hrun
  exact ⟨by omega, fun hstuck => ⟨wk', hwk', idle_of_stuck hwk' hset hstuck⟩⟩

/-- A worker that takes the last artifact out of the directory `b` and adds one to a
    directory that has no entry yet. -/
def movedStart : UpdateState :=
  { world := (World.setCell { now := 0 } (dirKey Ext.sample "r" "b")
        (some ⟨1, .tree ⟨.dir 1 5, 0, 0⟩⟩)).setCell (dirKey Ext.sample "r" "")
        (some ⟨1, .tree ⟨.dir 1 5, 0, 0⟩⟩)
    workers := [{ queue := [⟨"r", "b", -1, -5, 1⟩, ⟨"r", "a", 1, 5, 2⟩] }] }

/-- The calls of its batch overtake each other; both deltas then meet at the root. -/
def movedEvents : List UpdateEvent :=
  [.begin 0, .read 0 0 true, .read 0 1 true, .write 0 1 true, .write 0 0 true, .finish 0,
    .begin 0, .read 0 0 true, .write 0 0 true, .finish 0, .begin 0]

/-- The loop takes them there and ends. -/
theorem quiesces_moved :
    (Quiesces Ext.sample movedStart 0 fun s e => e.careful Ext.sample 0 s) ∧
      ∃ s' wk, movedStart.run Ext.sample (fun s e => e.careful Ext.sample 0 s) movedEvents =
        some s' ∧ s'.workers[0]? = some wk ∧ wk.Idle :=
  ⟨quiesces_careful Ext.sample movedStart 0 _ rfl (.inl rfl), _, _, rfl, rfl, rfl, rfl, rfl, rfl⟩

/-! ## A delta that is never taken -/

/-- A worker that has to take one artifact off the root of a repository that has no
    entry for it. -/
def refusedStart : UpdateState :=
  { world := { now := 0 }, workers := [{ queue := [⟨"r", "", -1, -1, 0⟩] }] }

/-- The same worker after an iteration: the delta is in `propagation_buf`. -/
def refusedAgain : UpdateState :=
  { world := { now := 0 }, workers := [{ propagationBuf := [⟨"r", "", -1, -1, 0⟩] }] }

/-- One iteration of the inner loop. -/
def refusedEvents : List UpdateEvent := [.begin 0, .read 0 0 true, .finish 0]

theorem refused_iteration :
    refusedAgain.run Ext.sample (fun _ e => e.inLoop 0) refusedEvents = some refusedAgain := rfl

theorem refused_run (n : ℕ) : refusedStart.run Ext.sample (fun _ e => e.inLoop 0)
      (refusedEvents ++ (replicate n refusedEvents).flatten) = some refusedAgain := by
  rw [@UpdateState.run_append _ _ _ refusedAgain _ _ rfl]
  induction n with
  | zero => rfl
  | succ n ih =>
    rw [replicate_succ, flatten_cons, UpdateState.run_append refused_iteration]
    exact ih

theorem refused_longer (n : ℕ) : ∃ es, n < es.length ∧
    refusedStart.run Ext.sample (fun _ e => e.inLoop 0) es = some refusedAgain := by
  refine ⟨_, ?_, refused_run n⟩
  have hthree : refusedEvents.length = 3 := rfl
  rw [length_append, length_flatten, map_replicate, sum_replicate,
    nsmul_eq_mul, Nat.cast_id, hthree]
  omega

/-- One delta below zero for a missing entry keeps the loop going for ever. -/
theorem refused_forever : ¬Quiesces Ext.sample refusedStart 0 fun _ e => e.inLoop 0 := by
  rintro ⟨n, hn⟩
  obtain ⟨es, hlen, hrun⟩ := refused_longer n
  exact absurd (hn es _ hrun).1 (by omega)

end Depot
