import Depot.Core.Async
import Depot.Gc.Durations

/-!
# Leases

A background job runs on one instance at a time: the one that holds the job's
lease (`server/src/server/worker/cluster.rs`). A lease is a record with its
holder, the time of the last renewal and a lifetime; whoever finds it absent,
expired or its own writes it on the condition that it has not changed.

Results:
* `leases_exclusive`: over any run in which a conditional write replaces the
  record its call has read and a release deletes a record of the owner it has
  read, at most one holder has a live lease, and no release removes the lease
  of another holder.
* `release_removes_successor`: a release that is overtaken by a take-over
  deletes the new holder's record; a third instance then acquires the lease.
-/

namespace Depot

open Lib

/-! ## The functions -/

/-- `try_acquire_lease` (lines 141–184). -/
def tryAcquireLease (c : Chrono) (name instanceId : String) (ttlSecs : UInt64) : Async Bool := do
  let now ← utcNow
  match ← kvGetVersioned (leaseKey name) with
  | some cell => do
      let record ← decode Value.lease? cell.value
      let until_ ← orPanic (leaseEnd c record.renewedAt record.ttlSecs)
      let expired := decide (until_ < now)
      if record.holder = instanceId || expired then
        kvPutIfVersion (leaseKey name) (.lease ⟨instanceId, now, ttlSecs⟩) (some cell.version)
      else pure false
  | none => kvPutIfAbsent (leaseKey name) (.lease ⟨instanceId, now, ttlSecs⟩)

/-- `release_lease` (lines 187–206). -/
def releaseLease (name instanceId : String) : Async Bool := do
  match ← kvGetVersioned (leaseKey name) with
  | some cell => do
      let record ← decode Value.lease? cell.value
      if record.holder = instanceId then do
        let _ ← kvDelete (leaseKey name)
        pure true
      else pure false
  | none => pure false

/-! ## Runs of calls -/

/-- A call of one of the two functions. -/
inductive LeaseCall where
  | acquire (name holder : String) (ttlSecs : UInt64)
  | release (name holder : String)
  deriving DecidableEq

/-- The shared state with its history: the lease each holder was last granted
    and has not released, the value each call has read, and for each lease that
    a release has removed its caller and the owner of the record. -/
structure LeaseState where
  world : World
  held : String → String → Option LeaseRecord
  seen : ℕ → Option (Versioned Value) := fun _ => none
  removed : List (String × Option String) := []

/-- The owner of the lease in a cell. -/
def ownerOf (cell : Option (Versioned Value)) : Option String :=
  (cell.bind fun v => v.value.lease?).map LeaseRecord.holder

namespace LeaseState

/-- The state before the first call: whoever a stored lease names holds it. -/
def start (w : World) : LeaseState where
  world := w
  held name holder := ((w.value (leaseKey name)).bind Value.lease?).filter (·.holder = holder)

/-- Grant the lease `name` to `holder`, or take it from it. -/
def setHeld (s : LeaseState) (name holder : String) (r : Option LeaseRecord) : LeaseState :=
  { s with held := fun n h => if n = name ∧ h = holder then r else s.held n h }

/-- The history of an operation that succeeds and leads to `w`. -/
def note (s : LeaseState) (i : ℕ) (j : LeaseCall) (o : Op) (w : World) : LeaseState :=
  match j, o with
  | _, .read k => { s with world := w, seen := Function.update s.seen i (s.world.cell k) }
  | .acquire name holder _, .write k (.putIf (.lease l) e) =>
      if CellOp.enabled (.putIf (.lease l) e) (s.world.cell k) then
        { s.setHeld name holder (some l) with world := w }
      else { s with world := w }
  | .release name holder, .write k .remove =>
      if (s.world.cell k).isSome then
        { s.setHeld name holder none with
            world := w
            removed := s.removed ++ [(holder, ownerOf (s.world.cell k))] }
      else { s with world := w }
  | _, _ => { s with world := w }

/-- An operation and its history. -/
def exec (x : Ext) (i : ℕ) (j : LeaseCall) (o : Op) (ok : Bool) (s : LeaseState) :
    Option (LeaseState × R o) :=
  (World.exec x o ok s.world).map fun r =>
    (if ok then s.note i j o r.1 else { s with world := r.1 }, r.2)

end LeaseState

/-- The function that a call runs. -/
def LeaseCall.code (c : Chrono) : LeaseCall → Task Op R Unit
  | .acquire name holder ttlSecs => (tryAcquireLease c name holder ttlSecs).run.bind fun _ => .pure ()
  | .release name holder => (releaseLease name holder).run.bind fun _ => .pure ()

/-- Any number of instances call the two functions while time passes. -/
def leaseSystem (x : Ext) (c : Chrono) : System Op R LeaseState LeaseCall ℕ where
  exec := LeaseState.exec x
  code := LeaseCall.code c
  env d s := some { s with world := { s.world with now := s.world.now + d } }
  leave _ s := s

/-! ## What must hold, and when it does -/

/-- The lease has not run out. -/
def LeaseRecord.Live (r : LeaseRecord) (now : DateTime) : Prop :=
  now ≤ r.renewedAt + r.ttlSecs.toNat * secondNs

/-- At most one holder has a live lease of each name. -/
def LeaseState.Exclusive (s : LeaseState) : Prop :=
  ∀ name h h' r r', s.held name h = some r → s.held name h' = some r' →
    r.Live s.world.now → r'.Live s.world.now → h = h'

/-- Every release removed a lease of its caller. -/
def LeaseState.OwnOnly (s : LeaseState) : Prop :=
  ∀ e ∈ s.removed, e.2 = some e.1

/-- The condition on an operation: a conditional write that replaces a version
    finds the value its call has read, and a release that deletes a record
    finds the owner it has read. -/
def leaseOpRule (i : ℕ) (j : LeaseCall) (s : LeaseState) (o : Op) (ok : Bool) : Bool :=
  match j, o with
  | .acquire .., .write k (.putIf v (some n)) =>
      !ok || !CellOp.enabled (.putIf v (some n)) (s.world.cell k) ||
        decide (s.world.cell k = s.seen i)
  | .release .., .write k .remove =>
      !ok || (s.world.cell k).isNone || decide (ownerOf (s.world.cell k) = ownerOf (s.seen i))
  | _, _ => true

/-- The condition on a run; lifetimes fit the cast to `i64`. -/
def leaseRules : Rules Op LeaseState LeaseCall ℕ where
  op := leaseOpRule
  spawn _ _ j :=
    match j with
    | .acquire _ _ ttlSecs => decide (ttlSecs.toNat < 2 ^ 63)
    | .release .. => true
  env _ _ _ := true

/-! ## The invariant -/

/-- The stored lease, if it is one, has a lifetime that is not wrapped. -/
def LeaseState.TtlOk (s : LeaseState) : Prop :=
  ∀ name v r, s.world.cell (leaseKey name) = some ⟨v, .lease r⟩ → r.ttlSecs.toNat < 2 ^ 63

/-- Whoever was granted a lease owns the record, or the lease has expired. -/
def LeaseState.Owned (s : LeaseState) : Prop :=
  ∀ name h r, s.held name h = some r →
    (r.holder = h ∧ ∃ v, s.world.cell (leaseKey name) = some ⟨v, .lease r⟩) ∨
      r.renewedAt + r.ttlSecs.toNat * secondNs < s.world.now

/-- The invariant of every run. -/
structure LeaseInv (s : LeaseState) : Prop where
  owned : s.Owned
  ttl : s.TtlOk
  own : s.OwnOnly

variable {s : LeaseState}

theorem LeaseInv.exclusive (h : LeaseInv s) : s.Exclusive := by
  intro name a b r r' ha hb hr hr'
  rcases h.owned name a r ha with ⟨rfl, v, hv⟩ | hexp
  · rcases h.owned name b r' hb with ⟨rfl, v', hv'⟩ | hexp
    · rw [hv, Option.some.injEq, Versioned.mk.injEq, Value.lease.injEq] at hv'
      rw [hv'.2]
    · exact absurd hr' (not_le.mpr hexp)
  · exact absurd hr (not_le.mpr hexp)

theorem leaseInv_start {w : World}
    (hw : ∀ name v r, w.cell (leaseKey name) = some ⟨v, .lease r⟩ → r.ttlSecs.toNat < 2 ^ 63) :
    LeaseInv (LeaseState.start w) where
  owned name h r hr := by
    left
    simp only [LeaseState.start, Option.filter_eq_some_iff, decide_eq_true_eq,
      Option.bind_eq_some_iff, World.value, Option.map_eq_some_iff] at hr
    obtain ⟨⟨v, ⟨⟨n, v'⟩, hc, rfl⟩, hl⟩, hh⟩ := hr
    rw [Value.lease?_eq_some] at hl
    exact ⟨hh, n, by rw [LeaseState.start, hc, ← hl]⟩
  ttl name v r := hw name v r
  own e he := by simp [LeaseState.start] at he

/-- Time passes and other state changes; the leases stay. -/
theorem LeaseInv.later {s s' : LeaseState} (h : LeaseInv s) (hheld : s'.held = s.held)
    (hcell : ∀ name, s'.world.cell (leaseKey name) = s.world.cell (leaseKey name))
    (hnow : s.world.now ≤ s'.world.now) (hrem : s'.removed = s.removed) : LeaseInv s' where
  owned name a r ha := by
    rw [hheld] at ha
    rw [hcell]
    exact (h.owned name a r ha).imp_right fun hlt => lt_of_lt_of_le hlt hnow
  ttl name v r hr := h.ttl name v r (hcell name ▸ hr)
  own e he := h.own e (hrem ▸ he)

theorem leaseKey_inj {a b : String} : leaseKey a = leaseKey b ↔ a = b := by simp [leaseKey]

variable {name holder : String}

/-- A grant: everyone else's lease has expired. -/
theorem LeaseInv.grant (h : LeaseInv s) {v : ℕ}
    {l : LeaseRecord} (hl : l.holder = holder) (httl : l.ttlSecs.toNat < 2 ^ 63)
    (hother : ∀ a r, a ≠ holder → s.held name a = some r →
      r.renewedAt + r.ttlSecs.toNat * secondNs < s.world.now) :
    LeaseInv { s.setHeld name holder (some l) with
      world := s.world.setCell (leaseKey name) (some ⟨v, .lease l⟩) } where
  owned n a r ha := by
    simp only [LeaseState.setHeld] at ha
    simp only [World.cell_setCell, leaseKey_inj, World.setCell_now]
    split_ifs at ha with hna
    · obtain ⟨rfl, rfl⟩ := hna
      cases ha
      exact .inl ⟨hl, v, by rw [if_pos rfl]⟩
    · by_cases hn : n = name
      · subst hn
        exact .inr (hother a r (fun ha' => hna ⟨rfl, ha'⟩) ha)
      · rw [if_neg hn]
        exact h.owned n a r ha
  ttl n v' r hr := by
    simp only [World.cell_setCell, leaseKey_inj] at hr
    split_ifs at hr with hn
    · cases hr
      exact httl
    · exact h.ttl n v' r hr
  own := h.own

/-- A release of a record that the caller owns. -/
theorem LeaseInv.release (h : LeaseInv s)
    (hown : ownerOf (s.world.cell (leaseKey name)) = some holder) :
    LeaseInv { s.setHeld name holder none with
      world := s.world.setCell (leaseKey name) none
      removed := s.removed ++ [(holder, ownerOf (s.world.cell (leaseKey name)))] } where
  owned n a r ha := by
    simp only [LeaseState.setHeld] at ha
    simp only [World.cell_setCell, leaseKey_inj, World.setCell_now]
    split_ifs at ha with hna
    · by_cases hn : n = name
      · subst hn
        right
        rcases h.owned n a r ha with ⟨rfl, v, hv⟩ | hexp
        · rw [hv] at hown
          exact absurd ⟨rfl, Option.some.inj hown⟩ hna
        · exact hexp
      · rw [if_neg hn]
        exact h.owned n a r ha
  ttl n v r hr := by
    simp only [World.cell_setCell, leaseKey_inj] at hr
    split_ifs at hr with hn
    exact h.ttl n v r hr
  own e he := by
    rcases List.mem_append.mp he with he | he
    · exact h.own e he
    · rw [List.mem_singleton.mp he]
      exact hown

/-! ## The proof outline -/

/-- Between two operations of a call time passes; what it has read stays. -/
def leaseLogic : Logic LeaseState LeaseCall Unit where
  inv w := LeaseInv w.shared
  rely i w w' := w.shared.world.now ≤ w'.shared.world.now ∧ w'.shared.seen i = w.shared.seen i
  guar i w w' := w.shared.world.now ≤ w'.shared.world.now ∧
    ∀ k ≠ i, w'.shared.seen k = w.shared.seen k
  rely_refl _ _ := ⟨le_rfl, rfl⟩
  rely_trans h h' := ⟨h.1.trans h'.1, h'.2.trans h.2⟩

variable {x : Ext} {c : Chrono} {i : ℕ}

theorem LeaseState.note_seen (s : LeaseState) (j : LeaseCall) (o : Op) (w : World) {k : ℕ}
    (hk : k ≠ i) : (s.note i j o w).seen k = s.seen k := by
  unfold LeaseState.note
  split
  · exact Function.update_of_ne hk _ _
  · split_ifs <;> rfl
  · split_ifs <;> rfl
  · rfl

theorem LeaseState.note_world (s : LeaseState) (j : LeaseCall) (o : Op) (w : World) :
    (s.note i j o w).world = w := by
  unfold LeaseState.note
  split
  · rfl
  · split_ifs <;> rfl
  · split_ifs <;> rfl
  · rfl

variable {j : LeaseCall}

/-- Every operation keeps to the guarantee. -/
theorem lease_guar {o : Op} {ok : Bool} {w : View LeaseState LeaseCall Unit}
    {r : R o} (h : (leaseSystem x c).exec i j o ok w.shared = some (s, r)) :
    leaseLogic.guar i w ⟨s, w.jobs, ()⟩ := by
  simp only [leaseSystem, LeaseState.exec, Option.map_eq_some_iff] at h
  obtain ⟨⟨w', r'⟩, hx, heq⟩ := h
  have hnow := World.exec_now hx
  cases ok with
  | true =>
    obtain ⟨rfl, _⟩ := Prod.mk.inj heq
    refine ⟨?_, fun k hk => LeaseState.note_seen _ _ _ _ hk⟩
    rw [if_pos rfl, LeaseState.note_world, hnow]
  | false =>
    obtain ⟨rfl, _⟩ := Prod.mk.inj heq
    exact ⟨hnow.ge, fun k _ => rfl⟩

/-- Reading the clock. -/
theorem lease_utcNow :
    FTriple (leaseSystem x c) leaseRules i j (leaseLogic.contract i j) (fun _ => True) utcNow
      (fun now w => now ≤ w.shared.world.now) fun _ => True := by
  refine FTriple.issue (fun _ _ _ _ _ _ => trivial)
    (fun r w w' _ _ hr hw => le_trans hw hr.1) fun w ok s r ⟨hi, hj⟩ _ _ hx => ?_
  refine ⟨(), ⟨?_, hj⟩, lease_guar hx, ?_⟩
  · cases ok <;> cases hx <;> exact hi.later rfl (fun _ => rfl) le_rfl rfl
  · cases ok <;> cases hx <;> exact le_rfl

theorem lease_read (t : DateTime) :
    FTriple (leaseSystem x c) leaseRules i j (leaseLogic.contract i j)
      (fun w => t ≤ w.shared.world.now) (kvGetVersioned (leaseKey name))
      (fun cell w => t ≤ w.shared.world.now ∧ w.shared.seen i = cell) fun _ => True := by
  refine FTriple.attempt (fun w w' _ _ hr hw => le_trans hw hr.1)
    (fun cell w w' _ _ hr hw => ⟨le_trans hw.1 hr.1, hr.2.trans hw.2⟩)
    (fun _ _ _ _ _ _ => trivial) fun w ok s r ⟨hi, hj⟩ hnow _ hx => ?_
  refine ⟨(), ⟨?_, hj⟩, lease_guar hx, ?_, fun _ => trivial⟩
  · cases ok
    · cases hx
      exact hi.later rfl (fun _ => rfl) le_rfl rfl
    · cases j <;> cases hx <;> exact hi.later rfl (fun _ => rfl) le_rfl rfl
  · intro cell hcell
    cases ok
    · cases hx
      cases hcell
    · cases j <;> cases hx <;> cases hcell <;> exact ⟨hnow, Function.update_self _ _ _⟩

/-- A conditional write that creates the record, or replaces the one its call
    has read. -/
theorem lease_putIf {ttlSecs : UInt64} (httl : ttlSecs.toNat < 2 ^ 63)
    {now : DateTime} {expected : Option ℕ} {P : View LeaseState LeaseCall Unit → Prop}
    (hP : (leaseLogic.contract i (.acquire name holder ttlSecs)).Stable P)
    (hother : ∀ w, LeaseInv w.shared → P w →
      leaseOpRule i (.acquire name holder ttlSecs) w.shared
        (.write (leaseKey name) (.putIf (.lease ⟨holder, now, ttlSecs⟩) expected)) true = true →
      CellOp.enabled (.putIf (.lease ⟨holder, now, ttlSecs⟩) expected)
        (w.shared.world.cell (leaseKey name)) = true →
      ∀ a r, a ≠ holder → w.shared.held name a = some r →
        r.renewedAt + r.ttlSecs.toNat * secondNs < w.shared.world.now) :
    FTriple (leaseSystem x c) leaseRules i (.acquire name holder ttlSecs)
      (leaseLogic.contract i (.acquire name holder ttlSecs)) P
      (kvPutIfVersion (leaseKey name) (.lease ⟨holder, now, ttlSecs⟩) expected) (fun _ _ => True)
      fun _ => True := by
  refine FTriple.attempt hP (fun _ _ _ _ _ _ _ => trivial) (fun _ _ _ _ _ _ => trivial)
    fun w ok s r ⟨hi, hj⟩ hw hrule hx =>
      ⟨(), ⟨?_, hj⟩, lease_guar hx, fun _ _ => trivial, fun _ => trivial⟩
  cases ok with
  | false =>
    cases hx
    exact hi.later rfl (fun _ => rfl) le_rfl rfl
  | true =>
    cases hx
    simp only [LeaseState.note, if_true]
    split_ifs with hen
    · rw [CellOp.apply, if_pos hen]
      exact hi.grant rfl httl (hother w hi hw hrule hen)
    · rw [CellOp.apply, if_neg hen]
      exact hi.later rfl (fun n => World.cell_setCell_same _ _) le_rfl rfl

/-- A call of `try_acquire_lease` keeps the invariant. -/
theorem acquire_triple {ttlSecs : UInt64} (httl : ttlSecs.toNat < 2 ^ 63) :
    FTriple (leaseSystem x c) leaseRules i (.acquire name holder ttlSecs)
      (leaseLogic.contract i (.acquire name holder ttlSecs)) (fun _ => True)
      (tryAcquireLease c name holder ttlSecs) (fun _ _ => True) fun _ => True := by
  have htrue : (leaseLogic.contract i (.acquire name holder ttlSecs)).Stable fun _ => True :=
    fun _ _ _ _ _ _ => trivial
  refine FTriple.bind htrue lease_utcNow fun now => ?_
  refine FTriple.bind htrue (lease_read now) fun cell => ?_
  cases cell with
  | none =>
    refine lease_putIf httl (fun w w' _ _ hr hw => ⟨hw.1.trans hr.1, hr.2.trans hw.2⟩)
      fun w hi _ _ hen a r _ ha => ?_
    rcases hi.owned name a r ha with ⟨_, v, hv⟩ | hexp
    · rw [hv] at hen
      cases hen
    · exact hexp
  | some cell =>
    have hcell : (leaseLogic.contract i (.acquire name holder ttlSecs)).Stable fun w : View LeaseState LeaseCall Unit =>
        now ≤ w.shared.world.now ∧ w.shared.seen i = some cell :=
      fun w w' _ _ hr hw => ⟨hw.1.trans hr.1, hr.2.trans hw.2⟩
    refine FTriple.decode htrue (fun _ _ _ => trivial) fun record hrec => ?_
    refine FTriple.orPanic (fun _ _ => rfl) fun until_ huntil => ?_
    show FTriple _ _ _ _ _ _ (if _ then _ else _) _ _
    split_ifs with hgo
    · refine lease_putIf httl hcell fun w hi hw hrule hen a r ha hheld => ?_
      have hsame : w.shared.world.cell (leaseKey name) = some cell := by
        simpa [leaseOpRule, hen, hw.2] using hrule
      obtain ⟨v, value⟩ := cell
      obtain rfl := Value.lease?_eq_some.mp hrec
      rcases hi.owned name a r hheld with ⟨rfl, v', hv'⟩ | hexp
      · obtain rfl : record = r := by
          rw [hsame, Option.some.injEq, Versioned.mk.injEq, Value.lease.injEq] at hv'
          exact hv'.2
        -- another holder's record is replaced only after the expiry test
        have hlate : until_ < now := by simpa [ha] using hgo
        have hsum := leaseEnd_of_lt (hi.ttl name v record hsame) huntil
        exact lt_of_lt_of_le (hsum ▸ hlate) hw.1
      · exact hexp
    · exact fun w hi hw => FTriple.pure (ε := DepotError) htrue w hi trivial

/-- The delete of a release whose record still has the owner it has read. -/
theorem lease_delete {cell : Versioned Value} (hcell : ownerOf (some cell) = some holder) :
    FTriple (leaseSystem x c) leaseRules i (.release name holder)
      (leaseLogic.contract i (.release name holder)) (fun w => w.shared.seen i = some cell)
      (kvDelete (leaseKey name)) (fun _ _ => True) fun _ => True := by
  refine FTriple.attempt (fun w w' _ _ hr hw => hr.2.trans hw) (fun _ _ _ _ _ _ _ => trivial)
    (fun _ _ _ _ _ _ => trivial)
    fun w ok s r ⟨hi, hj⟩ hw hrule hx =>
      ⟨(), ⟨?_, hj⟩, lease_guar hx, fun _ _ => trivial, fun _ => trivial⟩
  cases ok with
  | false =>
    cases hx
    exact hi.later rfl (fun _ => rfl) le_rfl rfl
  | true =>
    cases hx
    simp only [LeaseState.note, if_true]
    split_ifs with hsome
    · have howner : ownerOf (w.shared.world.cell (leaseKey name)) = some holder := by
        have hnone : (w.shared.world.cell (leaseKey name)).isNone = false := by
          simpa [Option.isSome_iff_ne_none] using hsome
        rw [← hcell, ← hw]
        simpa [leaseRules, leaseOpRule, hnone] using hrule
      rw [CellOp.apply, if_pos (by exact hsome)]
      exact hi.release howner
    · rw [CellOp.apply, if_neg (by exact hsome)]
      exact hi.later rfl (fun n => World.cell_setCell_same _ _) le_rfl rfl

/-- A call of `release_lease` keeps the invariant. -/
theorem release_triple : FTriple (leaseSystem x c) leaseRules i (.release name holder)
      (leaseLogic.contract i (.release name holder)) (fun _ => True) (releaseLease name holder)
      (fun _ _ => True) fun _ => True := by
  have htrue : (leaseLogic.contract i (.release name holder)).Stable fun _ => True :=
    fun _ _ _ _ _ _ => trivial
  intro w hi _
  refine FTriple.bind htrue (lease_read w.shared.world.now) (fun cell => ?_) w hi le_rfl
  cases cell with
  | none => exact fun w hi hw => FTriple.pure (ε := DepotError) htrue w hi trivial
  | some cell =>
    refine FTriple.decode htrue (fun _ _ _ => trivial) fun record hrec => ?_
    show FTriple _ _ _ _ _ _ (if _ then _ else _) _ _
    split_ifs with hown
    · have hcell : ownerOf (some cell) = some holder := by
        rw [ownerOf, Option.bind_some, hrec, Option.map_some, hown]
      refine FTriple.bind htrue (M := fun _ _ => True) ?_ fun _ w hi hw =>
        FTriple.pure (ε := DepotError) htrue w hi trivial
      exact (lease_delete hcell).consequence (fun _ _ hw => hw.2) (fun _ _ _ _ => trivial)
        fun _ _ _ => trivial
    · exact fun w hi hw => FTriple.pure (ε := DepotError) htrue w hi trivial

theorem leaseLogic_sound (x : Ext) (c : Chrono) :
    leaseLogic.Sound (leaseSystem x c) leaseRules where
  guar_rely hne _ _ hg := ⟨hg.1, hg.2 _ hne⟩
  spawn w j hi hj := by
    refine ⟨(), hi, fun i => ⟨le_rfl, rfl⟩, ?_⟩
    have hdrop : ∀ {p : Async Bool}, FTriple (leaseSystem x c) leaseRules w.jobs.length j
        (leaseLogic.contract w.jobs.length j) (fun _ => True) p (fun _ _ => True) (fun _ => True) →
        Triple (leaseSystem x c) leaseRules w.jobs.length j (leaseLogic.contract w.jobs.length j)
          (fun _ => True) (p.run.bind fun _ => .pure ()) fun _ _ => True := fun hp =>
      Triple.bind hp fun _ _ _ _ _ _ _ => trivial
    have hnew : (w.jobs ++ [some j])[w.jobs.length]? = some (some j) := by simp
    cases j with
    | acquire name holder ttlSecs =>
      exact hdrop (acquire_triple (by simpa [leaseRules] using hj)) _ ⟨hi, hnew⟩ trivial
    | release name holder => exact hdrop release_triple _ ⟨hi, hnew⟩ trivial
  leave w i j hi _ := ⟨(), hi, fun k _ => ⟨le_rfl, rfl⟩⟩
  env w d s hi _ hs := by
    cases hs
    have hle : w.shared.world.now ≤ w.shared.world.now + (d : ℤ) :=
      Int.le_add_of_nonneg_right (Int.natCast_nonneg d)
    exact ⟨(), hi.later rfl (fun _ => rfl) hle rfl, fun k => ⟨hle, rfl⟩⟩

/-! ## Results -/

/-- The stored leases have lifetimes that fit the cast to `i64`. -/
def TtlsFit (w : World) : Prop :=
  ∀ name v r, w.cell (leaseKey name) = some ⟨v, .lease r⟩ → r.ttlSecs.toNat < 2 ^ 63

/-- **Main theorem.** After every run of calls that meets the condition, at most
    one holder has a live lease of each name, and no release has removed a
    lease of another holder. -/
theorem leases_exclusive (x : Ext) (c : Chrono) {w : World} (hw : TtlsFit w)
    {es : List (Event LeaseCall ℕ)} {p : Pool Op R LeaseState LeaseCall}
    (h : (Pool.init (LeaseState.start w)).run (leaseSystem x c) leaseRules es = some p) :
    p.shared.Exclusive ∧ p.shared.OwnOnly := by
  obtain ⟨_, hinv⟩ := (leaseLogic_sound x c).run_inv (g := ()) (leaseInv_start hw) h
  exact ⟨LeaseInv.exclusive hinv, LeaseInv.own hinv⟩

/-- Acquire, renew and release a lease, then another instance acquires it. -/
def leaseSchedule : List (Event LeaseCall ℕ) :=
  [.spawn (.acquire "gc" "x" 86400), .step 0 true, .step 0 true, .step 0 true, .env 60,
    .spawn (.acquire "gc" "x" 86400), .step 1 true, .step 1 true, .step 1 true,
    .spawn (.release "gc" "x"), .step 2 true, .step 2 true,
    .spawn (.acquire "gc" "y" 86400), .step 3 true, .step 3 true, .step 3 true]

/-- The state before anything has happened. -/
def emptyWorld : World where
  now := sampleNow

theorem ttlsFit_empty : TtlsFit emptyWorld := fun _ _ _ h => by cases h

/-- The usual course of events meets the condition. -/
theorem leases_exclusive_handover :
    ∃ p, (Pool.init (LeaseState.start emptyWorld)).run (leaseSystem Ext.sample chrono) leaseRules
        leaseSchedule = some p ∧
      p.shared.held "gc" "y" = some ⟨"y", sampleNow + 60, 86400⟩ ∧
      p.shared.Exclusive ∧ p.shared.OwnOnly := by
  refine ends_in (fun p => p.shared.held "gc" "y" = some ⟨"y", sampleNow + 60, 86400⟩)
    (by decide +kernel) fun p hp hheld => ?_
  exact ⟨hheld, leases_exclusive Ext.sample chrono ttlsFit_empty hp⟩

/-- `x` lets its lease expire and then releases it; between the read and the
    delete, `y` takes the lease over. Then `z` acquires it. -/
def overtakenRelease : List (Event LeaseCall ℕ) :=
  [.spawn (.acquire "gc" "x" 86400), .step 0 true, .step 0 true, .step 0 true,
    .env (86401 * 1000000000),
    .spawn (.release "gc" "x"), .step 1 true,
    .spawn (.acquire "gc" "y" 86400), .step 2 true, .step 2 true, .step 2 true,
    .step 1 true,
    .spawn (.acquire "gc" "z" 86400), .step 3 true, .step 3 true, .step 3 true]

/-- `w` lets its lease expire; `x` reads the expired record; `w` releases it and
    `z` acquires the lease, whose version is 1 again. Then `x` writes. -/
def staleTakeover : List (Event LeaseCall ℕ) :=
  [.spawn (.acquire "gc" "w" 86400), .step 0 true, .step 0 true, .step 0 true,
    .env (86401 * 1000000000),
    .spawn (.acquire "gc" "x" 86400), .step 1 true, .step 1 true,
    .spawn (.release "gc" "w"), .step 2 true, .step 2 true,
    .spawn (.acquire "gc" "z" 86400), .step 3 true, .step 3 true, .step 3 true,
    .step 1 true]

/-- Two leases of a day that were granted at the same time. -/
theorem not_exclusive {a b : String} (hab : a ≠ b)
    (ha : s.held "gc" a = some ⟨a, sampleNow + 86401 * secondNs, 86400⟩)
    (hb : s.held "gc" b = some ⟨b, sampleNow + 86401 * secondNs, 86400⟩)
    (hnow : s.world.now = sampleNow + 86401 * secondNs) : ¬ s.Exclusive := by
  have hlive : ∀ h, LeaseRecord.Live ⟨h, sampleNow + 86401 * secondNs, 86400⟩ s.world.now := by
    intro h
    rw [hnow]
    show sampleNow + 86401 * secondNs ≤
      sampleNow + 86401 * secondNs + (86400 : UInt64).toNat * secondNs
    decide
  exact fun h => hab (h "gc" a b _ _ ha hb (hlive _) (hlive _))

/-- **A release removes its successor's lease**, and a stale take-over replaces
    one that is alive. In both runs two instances end up holding the lease. -/
theorem release_removes_successor :
    (∃ p, (Pool.init (LeaseState.start emptyWorld)).run (leaseSystem Ext.sample chrono) .free
        overtakenRelease = some p ∧
      p.shared.removed = [("x", some "y")] ∧ ¬ p.shared.Exclusive ∧ ¬ p.shared.OwnOnly) ∧
    ∃ p, (Pool.init (LeaseState.start emptyWorld)).run (leaseSystem Ext.sample chrono) .free
        staleTakeover = some p ∧
      p.shared.removed = [("w", some "w")] ∧ ¬ p.shared.Exclusive := by
  constructor
  · refine ends_in (fun p =>
      p.shared.held "gc" "y" = some ⟨"y", sampleNow + 86401 * secondNs, 86400⟩ ∧
      p.shared.held "gc" "z" = some ⟨"z", sampleNow + 86401 * secondNs, 86400⟩ ∧
      p.shared.world.now = sampleNow + 86401 * secondNs ∧
      p.shared.removed = [("x", some "y")]) (by decide +kernel) fun p _ hall => ?_
    obtain ⟨hy, hz, hnow, hrem⟩ := hall
    refine ⟨hrem, not_exclusive (by decide) hy hz hnow, fun h => ?_⟩
    exact absurd (h ("x", some "y") (by rw [hrem]; exact List.mem_singleton_self _)) (by decide)
  · refine ends_in (fun p =>
      p.shared.held "gc" "x" = some ⟨"x", sampleNow + 86401 * secondNs, 86400⟩ ∧
      p.shared.held "gc" "z" = some ⟨"z", sampleNow + 86401 * secondNs, 86400⟩ ∧
      p.shared.world.now = sampleNow + 86401 * secondNs ∧
      p.shared.removed = [("w", some "w")]) (by decide +kernel) fun p _ hall => ?_
    obtain ⟨hx, hz, hnow, hrem⟩ := hall
    exact ⟨hrem, not_exclusive (by decide) hx hz hnow⟩

end Depot
