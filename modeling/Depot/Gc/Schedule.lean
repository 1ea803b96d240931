import Depot.Gc.Durations

/-!
# The schedule of the collector

The ticks of `run_blob_reaper` (`blob_reaper/gc_loop.rs`, lines 33–57 and 92–290) in fixed-time
mode: what a tick does to the time of the last pass, for every answer of the lease and every
outcome of a pass.

**Deviation.** A tick at which another holder has the lease starts no pass; the next tick looks
again. A pass that fails with a transient error counts as started `gc_interval - 5` seconds
earlier, which is later than it was for an interval below 5 seconds. A manual run changes the
stored time only, which the loop reads once, at its start. Other instances have a loop of their
own.

Results:
* `gcDue_true`, `gcDue_of_occurrence`: what a schedule that is due says, and when it is.
* `GcTrace.first_pass`: the first pass after another one comes after an occurrence.
* `schedule_kept`: the passes of every run of the loop.
-/

namespace Depot

open List
open Option (some.inj)

/-! ## The loop -/

/-- The settings in fixed-time mode; `startTime` is nanoseconds after midnight. -/
structure GcSettings where
  gcInterval : UInt64
  gcMinInterval : UInt64
  startTime : TimeDelta
  startTime_nonneg : 0 ≤ startTime
  startTime_lt : startTime < dayNs

/-- How a pass ends. -/
inductive PassOutcome where
  | completed
  | transient
  | failed
  deriving DecidableEq

/-- A tick: the clock when the schedule is checked, whether the lease is acquired, the clock after
    that, and how a pass that is started then ends. -/
structure GcTick where
  now : DateTime
  lease : Bool
  start : DateTime
  outcome : PassOutcome
  now_le : now ≤ start
  now_ge : chrono.minUtc ≤ now
  start_le : start ≤ chrono.maxUtc

/-- The variables of the loop: `last_gc_utc` and `transient_retries`. -/
structure GcLoop where
  last : DateTime
  transientRetries : ℕ := 0
  deriving DecidableEq

/-- `MAX_TRANSIENT_RETRIES`. -/
def maxTransientRetries : ℕ := 3

/-- One tick (lines 98–290): the variables after it, and whether the pass that it has started has
    completed, if it has started one. It is `none` if the tick panics. -/
def GcLoop.tick (g : GcSettings) (s : GcLoop) (t : GcTick) : Option (GcLoop × Option Bool) :=
  match gcDue chrono s.last t.now g.gcInterval g.gcMinInterval (some g.startTime) with
  | none => none
  | some false => some (s, none)
  | some true =>
      if !t.lease then some (s, none)
      else
        match t.outcome with
        | .completed => some (⟨t.start, 0⟩, some true)
        | .transient =>
            if s.transientRetries < maxTransientRetries then
              (retryAt chrono t.start g.gcInterval).map fun retryAt =>
                (⟨retryAt, s.transientRetries + 1⟩, some false)
            else some (⟨t.start, 0⟩, some false)
        | .failed => some (⟨t.start, 0⟩, some false)

/-- A run of the loop: its ticks, with the passes they have started. -/
inductive GcTrace (g : GcSettings) : GcLoop → List (GcTick × Option Bool) → GcLoop → Prop
  | nil (s : GcLoop) : GcTrace g s [] s
  | cons {s s' s'' : GcLoop} {t : GcTick} {pass : Option Bool} {rest : List (GcTick × Option Bool)}
      (h : s.tick g t = some (s', pass)) (hrest : GcTrace g s' rest s'') :
      GcTrace g s ((t, pass) :: rest) s''

/-! ## The schedule -/

/-- A scheduled occurrence: the start time of some day. -/
def GcSettings.Occurs (g : GcSettings) (o : DateTime) : Prop := ∃ day : ℤ, o = day * dayNs + g.startTime

/-- The ticks come one after the other, a pass before the next tick. -/
def InOrder (trace : List (GcTick × Option Bool)) : Prop :=
  trace.Pairwise fun a b => a.1.start ≤ b.1.now

/-- When the last pass of a run was started, or `first` if there was none. -/
def lastStart (first : DateTime) (trace : List (GcTick × Option Bool)) : DateTime :=
  trace.foldl (fun last p => if p.2.isSome then p.1.start else last) first

/-- The passes of a run follow the schedule: between two consecutive passes that complete lies an
    occurrence and the least interval; and an occurrence is followed by a pass at the first tick
    at which the least interval has elapsed since the last pass, if the tick is one of those that
    count. -/
structure ScheduleKept (counts : GcTick → Prop) (g : GcSettings) (first : DateTime)
    (trace : List (GcTick × Option Bool)) : Prop where
  apart : ∀ before t mid u after,
    trace = before ++ (t, some true) :: (mid ++ (u, some true) :: after) →
      (∀ p ∈ mid, p.2 ≠ some true) →
        g.gcMinInterval.toNat * secondNs ≤ u.start - t.start ∧
          ∃ o, g.Occurs o ∧ t.start < o ∧ o ≤ u.start
  followed : ∀ before t pass after, trace = before ++ (t, pass) :: after →
    ∀ o, g.Occurs o → first < o → (∀ p ∈ before, p.2.isSome → p.1.start < o) → o ≤ t.now →
      g.gcMinInterval.toNat * secondNs ≤ t.now - lastStart first before → counts t → pass.isSome

/-! ## When a pass is due -/

section

variable {g : GcSettings} {last now o : DateTime}

/-- The latest occurrence before an instant. -/
def GcSettings.latest (g : GcSettings) (now : DateTime) : DateTime :=
  if now - now % dayNs + g.startTime ≤ now then now - now % dayNs + g.startTime
  else now - now % dayNs + g.startTime - dayNs

theorem latest_occurs (g : GcSettings) (now : DateTime) : g.Occurs (g.latest now) := by
  have hday := Int.emod_add_mul_ediv now dayNs
  unfold GcSettings.latest
  split_ifs
  · exact ⟨now / dayNs, by linarith⟩
  · exact ⟨now / dayNs - 1, by linarith⟩

theorem latest_le (g : GcSettings) (now : DateTime) : g.latest now ≤ now := by
  have hmod : 0 ≤ now % dayNs := Int.emod_nonneg now (by decide)
  have hlt := g.startTime_lt
  unfold GcSettings.latest
  split_ifs with h
  · exact h
  · linarith

/-- No occurrence lies between the latest one and the instant. -/
theorem le_latest (ho : g.Occurs o) (h : o ≤ now) : o ≤ g.latest now := by
  obtain ⟨day, rfl⟩ := ho
  have hpos : 0 < dayNs := by decide
  have hmod : 0 ≤ now % dayNs := Int.emod_nonneg now (by decide)
  have hmodlt : now % dayNs < dayNs := Int.emod_lt_of_pos now hpos
  have hday := Int.emod_add_mul_ediv now dayNs
  have hnonneg := g.startTime_nonneg
  have hlt := g.startTime_lt
  have hle : day ≤ now / dayNs := by
    by_contra hgt
    have hmul : (now / dayNs + 1) * dayNs ≤ day * dayNs :=
      mul_le_mul_of_nonneg_right (Int.add_one_le_iff.mpr (not_le.mp hgt)) hpos.le
    linarith
  unfold GcSettings.latest
  split_ifs with htoday
  · have hmul : day * dayNs ≤ now / dayNs * dayNs := mul_le_mul_of_nonneg_right hle hpos.le
    linarith
  · have hle' : day ≤ now / dayNs - 1 := by
      by_contra hgt
      have heq : day = now / dayNs := by omega
      rw [heq] at h
      apply htoday
      linarith
    have hmul : day * dayNs ≤ (now / dayNs - 1) * dayNs :=
      mul_le_mul_of_nonneg_right hle' hpos.le
    linarith

/-- What `gc_due` computes. -/
theorem gcDue_eq_some {b : Bool}
    (h : gcDue chrono last now g.gcInterval g.gcMinInterval (some g.startTime) = some b) :
    b = (!decide (asU64 (max ((now - last).tdiv secondNs) 0) < g.gcMinInterval) &&
      decide (last < g.latest now)) := by
  unfold gcDue at h
  dsimp only at h
  by_cases helapsed : asU64 (max ((now - last).tdiv secondNs) 0) < g.gcMinInterval
  · rw [if_pos helapsed] at h
    rw [← some.inj h, decide_eq_true helapsed]
    rfl
  · rw [if_neg helapsed, Option.map_eq_some_iff] at h
    obtain ⟨sched, hsched, rfl⟩ := h
    have hlatest : sched = g.latest now := by
      unfold GcSettings.latest
      split_ifs at hsched ⊢
      · exact (some.inj hsched).symm
      · exact (chrono.instant_eq_some.mp hsched).1
    rw [hlatest, decide_eq_false helapsed]
    rfl

/-- A schedule that is due: the least interval has elapsed, and an occurrence has passed. -/
theorem gcDue_true
    (h : gcDue chrono last now g.gcInterval g.gcMinInterval (some g.startTime) = some true) :
    g.gcMinInterval.toNat * secondNs ≤ now - last ∧ ∃ o, g.Occurs o ∧ last < o ∧ o ≤ now := by
  have hdue := gcDue_eq_some h
  rw [Bool.true_eq, Bool.and_eq_true, Bool.not_eq_true', decide_eq_false_iff_not,
    decide_eq_true_eq, UInt64.lt_iff_toNat_lt, not_lt] at hdue
  obtain ⟨helapsed, hlast⟩ := hdue
  have hle := latest_le g now
  refine ⟨?_, g.latest now, latest_occurs g now, hlast, hle⟩
  have hnonneg : 0 ≤ now - last := by linarith
  have hdiv : (now - last).tdiv secondNs = (now - last) / secondNs :=
    Int.tdiv_eq_ediv_of_nonneg hnonneg
  have hquot : 0 ≤ (now - last) / secondNs := Int.ediv_nonneg hnonneg (by decide)
  rw [hdiv, max_eq_left hquot, asU64, UInt64.toNat_ofNat'] at helapsed
  have hmod : (g.gcMinInterval.toNat : ℤ) ≤ (now - last) / secondNs := by
    have hmodle := Nat.mod_le ((now - last) / secondNs).toNat (2 ^ 64)
    have hcast := Int.toNat_of_nonneg hquot
    omega
  exact (Int.le_ediv_iff_mul_le (by decide)).mp hmod

/-- When an occurrence makes the schedule due. -/
theorem gcDue_of_occurrence (hlast : chrono.minUtc ≤ last) (hnow : now ≤ chrono.maxUtc)
    (ho : g.Occurs o) (hlt : last < o) (hle : o ≤ now)
    (hmin : g.gcMinInterval.toNat * secondNs ≤ now - last) {b : Bool}
    (h : gcDue chrono last now g.gcInterval g.gcMinInterval (some g.startTime) = some b) :
    b = true := by
  rw [gcDue_eq_some h, Bool.and_eq_true, Bool.not_eq_true', decide_eq_false_iff_not,
    decide_eq_true_eq, UInt64.lt_iff_toNat_lt, not_lt]
  refine ⟨?_, lt_of_lt_of_le hlt (le_latest ho hle)⟩
  have hnonneg : 0 ≤ now - last := by linarith
  have hdiv : (now - last).tdiv secondNs = (now - last) / secondNs :=
    Int.tdiv_eq_ediv_of_nonneg hnonneg
  have hquot : 0 ≤ (now - last) / secondNs := Int.ediv_nonneg hnonneg (by decide)
  have hbound : (now - last) / secondNs < (2 ^ 64 : ℕ) := by
    refine Int.ediv_lt_of_lt_mul (by decide) ?_
    have hrange : chrono.maxUtc - chrono.minUtc < (2 ^ 64 : ℕ) * secondNs := by decide
    linarith
  have hmod := (Int.le_ediv_iff_mul_le (by decide)).mpr hmin
  rw [hdiv, max_eq_left hquot, asU64, UInt64.toNat_ofNat']
  have htonat := Int.toNat_of_nonneg hquot
  rw [Nat.mod_eq_of_lt ((Int.toNat_lt hquot).mpr hbound)]
  omega

end

/-! ## What the ticks do -/

section

variable {g : GcSettings} {s s' : GcLoop} {t : GcTick} {pass : Option Bool}

/-- Whether a pass is due at a tick. -/
def GcLoop.due (g : GcSettings) (s : GcLoop) (t : GcTick) : Option Bool :=
  gcDue chrono s.last t.now g.gcInterval g.gcMinInterval (some g.startTime)

/-- What a tick can do: nothing, if no pass is due or the lease is not acquired; or start a pass,
    which then counts from its start, or from earlier if it is to be tried again. -/
theorem tick_cases (h : s.tick g t = some (s', pass)) :
    (s' = s ∧ pass = none ∧ (s.due g t = some false ∨ s.due g t = some true ∧ t.lease = false)) ∨
    (s.due g t = some true ∧ t.lease = true ∧ ∃ completed, pass = some completed ∧
      (s'.last = t.start ∨
        completed = false ∧ retryAt chrono t.start g.gcInterval = some s'.last)) := by
  unfold GcLoop.tick at h
  split at h
  · cases h
  · next hdue =>
    obtain ⟨rfl, rfl⟩ := Prod.mk.inj (some.inj h)
    exact .inl ⟨rfl, rfl, .inl hdue⟩
  · next hdue =>
    cases hlease : t.lease with
    | false =>
      rw [hlease] at h
      obtain ⟨rfl, rfl⟩ := Prod.mk.inj (some.inj h)
      exact .inl ⟨rfl, rfl, .inr ⟨hdue, rfl⟩⟩
    | true =>
      rw [hlease] at h
      refine .inr ⟨hdue, rfl, ?_⟩
      cases hout : t.outcome with
      | completed =>
        rw [hout] at h
        obtain ⟨rfl, rfl⟩ := Prod.mk.inj (some.inj h)
        exact ⟨true, rfl, .inl rfl⟩
      | failed =>
        rw [hout] at h
        obtain ⟨rfl, rfl⟩ := Prod.mk.inj (some.inj h)
        exact ⟨false, rfl, .inl rfl⟩
      | transient =>
        rw [if_neg (by decide), hout] at h
        dsimp only at h
        split_ifs at h
        · obtain ⟨r, hr, heq⟩ := Option.map_eq_some_iff.mp h
          obtain ⟨rfl, rfl⟩ := Prod.mk.inj heq
          exact ⟨false, rfl, .inr ⟨rfl, hr⟩⟩
        · obtain ⟨rfl, rfl⟩ := Prod.mk.inj (some.inj h)
          exact ⟨false, rfl, .inl rfl⟩

/-- A pass that is to be tried again counts from before its start. -/
theorem retryAt_le (hinterval : 5 ≤ asI64 g.gcInterval) {start r : DateTime}
    (h : retryAt chrono start g.gcInterval = some r) : r ≤ start ∧ chrono.minUtc ≤ r := by
  obtain ⟨δ, hδ, hr⟩ := Option.bind_eq_some_iff.mp h
  obtain ⟨rfl, -, -⟩ := chrono.delta_eq_some.mp hδ
  obtain ⟨rfl, hmin, -⟩ := chrono.instant_eq_some.mp hr
  have hlt : asI64 g.gcInterval < 2 ^ 63 := by
    have hnat := g.gcInterval.toNat_lt
    rw [asI64_eq]
    split_ifs <;> omega
  have hmod : (asI64 g.gcInterval - 5).bmod (2 ^ 64) = asI64 g.gcInterval - 5 :=
    Int.bmod_eq_of_le (by omega) (by omega)
  rw [hmod] at hmin ⊢
  have hnonneg : 0 ≤ (asI64 g.gcInterval - 5) * secondNs := mul_nonneg (by omega) (by decide)
  exact ⟨by linarith, hmin⟩

end

/-! ## Runs -/

section

variable {g : GcSettings} {s s' : GcLoop} {trace : List (GcTick × Option Bool)}

theorem GcTrace.split {before after : List (GcTick × Option Bool)} (h : GcTrace g s (before ++ after) s') :
    ∃ s1, GcTrace g s before s1 ∧ GcTrace g s1 after s' := by
  induction before generalizing s with
  | nil => exact ⟨s, .nil s, h⟩
  | cons p before ih =>
    cases h with
    | cons htick hrest =>
      obtain ⟨s1, hbefore, hafter⟩ := ih hrest
      exact ⟨s1, .cons htick hbefore, hafter⟩

/-- The first pass of a run is one that is due by the time of the pass before it. -/
theorem GcTrace.first_pass {mid after : List (GcTick × Option Bool)} {u : GcTick} {completed : Bool}
    (h : GcTrace g s (mid ++ (u, some completed) :: after) s') : ∃ p ∈ mid ++ [(u, some completed)],
      gcDue chrono s.last p.1.now g.gcInterval g.gcMinInterval (some g.startTime) = some true := by
  induction mid generalizing s with
  | nil =>
    cases h with
    | cons htick hrest =>
      rcases tick_cases htick with ⟨-, hnone, -⟩ | ⟨hdue, -⟩
      · cases hnone
      · exact ⟨_, mem_cons_self, hdue⟩
  | cons p mid ih =>
    cases h with
    | cons htick hrest =>
      rcases tick_cases htick with ⟨rfl, -, -⟩ | ⟨hdue, -⟩
      · obtain ⟨q, hq, hdue⟩ := ih hrest
        exact ⟨q, mem_cons_of_mem _ hq, hdue⟩
      · exact ⟨_, mem_cons_self, hdue⟩

/-- The loop counts a pass from its start or from earlier. -/
theorem GcTrace.last_le (hinterval : 5 ≤ asI64 g.gcInterval) (hmin : chrono.minUtc ≤ s.last)
    {first : DateTime} (hfirst : s.last ≤ first) (h : GcTrace g s trace s') :
    s'.last ≤ lastStart first trace ∧ chrono.minUtc ≤ s'.last := by
  induction h generalizing first with
  | nil s => exact ⟨hfirst, hmin⟩
  | @cons s s1 s2 t pass rest htick hrest ih =>
    have hstart : chrono.minUtc ≤ t.start := t.now_ge.trans t.now_le
    rcases tick_cases htick with ⟨rfl, rfl, -⟩ | ⟨-, -, completed, rfl, hlast⟩
    · exact ih hmin hfirst
    · refine ih ?_ ?_
      · rcases hlast with hlast | ⟨-, hretry⟩
        · rw [hlast]
          exact hstart
        · exact (retryAt_le hinterval hretry).2
      · rcases hlast with hlast | ⟨-, hretry⟩
        · exact hlast.le
        · exact (retryAt_le hinterval hretry).1

/-- The last pass of a run is before an instant if all of them are. -/
theorem lastStart_lt {first o : DateTime} (hfirst : first < o)
    (h : ∀ p ∈ trace, p.2.isSome → p.1.start < o) : lastStart first trace < o := by
  induction trace generalizing first with
  | nil => exact hfirst
  | cons p trace ih =>
    refine ih ?_ fun q hq => h q (mem_cons_of_mem p hq)
    show (if p.2.isSome then p.1.start else first) < o
    split_ifs with hsome
    · exact h p mem_cons_self hsome
    · exact hfirst

/-- **Main theorem.** In every run of the loop, between two consecutive passes that complete lie a
    scheduled occurrence and the least interval; and an occurrence is followed by a pass at the
    first tick at which the least interval has elapsed since the last pass and the lease is
    acquired. -/
theorem schedule_kept (g : GcSettings) (s s' : GcLoop) (trace : List (GcTick × Option Bool))
    (hinterval : 5 ≤ asI64 g.gcInterval) (hlast : chrono.minUtc ≤ s.last)
    (horder : InOrder trace) (h : GcTrace g s trace s') :
    ScheduleKept (fun t => t.lease = true) g s.last trace := by
  constructor
  · rintro before t mid u after rfl -
    obtain ⟨s1, -, hpass⟩ := h.split
    cases hpass with
    | @cons _ s2 _ _ _ _ htick hrest =>
      have hstart : s2.last = t.start := by
        rcases tick_cases htick with ⟨-, hnone, -⟩ | ⟨-, -, completed, hpass, hlast⟩
        · cases hnone
        · refine hlast.resolve_right fun hretry => ?_
          rw [← some.inj hpass] at hretry
          cases hretry.1
      obtain ⟨p, hp, hdue⟩ := hrest.first_pass
      rw [hstart] at hdue
      obtain ⟨hmin, o, ho, hlt, hle⟩ := gcDue_true hdue
      have hpu : p.1.now ≤ u.start := by
        rcases mem_append.mp hp with hmid | hu
        · have hsuffix := (pairwise_append.mp horder).2.1
          have hafter := (pairwise_cons.mp hsuffix).2
          have hbefore := (pairwise_append.mp hafter).2.2 p hmid _ mem_cons_self
          exact p.1.now_le.trans (hbefore.trans u.now_le)
        · rw [mem_singleton.mp hu]
          exact u.now_le
      exact ⟨by linarith, o, ho, hlt, hle.trans hpu⟩
  · rintro before t pass after rfl o ho hfirst hbefore hle hmin hlease
    obtain ⟨s1, hrun, hpass⟩ := h.split
    obtain ⟨hlast1, hmin1⟩ := hrun.last_le hinterval hlast le_rfl
    have hbeforeo := lastStart_lt hfirst hbefore
    cases hpass with
    | cons htick hrest =>
      rcases tick_cases htick with ⟨-, -, hnot⟩ | ⟨-, -, completed, rfl, -⟩
      · have hdue : ∀ b, s1.due g t = some b → b = true := fun b hb =>
          gcDue_of_occurrence hmin1 (t.now_le.trans t.start_le) ho (lt_of_le_of_lt hlast1 hbeforeo)
            hle (by linarith) hb
        rcases hnot with hnot | ⟨-, hno⟩
        · exact absurd (hdue false hnot) Bool.false_ne_true
        · rw [hlease] at hno
          cases hno
      · rfl

end

/-! ## A tick without the lease -/

/-- Daily passes at midnight. -/
def midnight : GcSettings := ⟨86400, 3600, 0, le_rfl, by decide⟩

/-- A tick at noon of the day after, and whether it acquires the lease. -/
def noonTick (lease : Bool) : GcTick where
  now := dayNs + dayNs / 2
  lease := lease
  start := dayNs + dayNs / 2
  outcome := .completed
  now_le := le_rfl
  now_ge := by decide
  start_le := by decide

/-- **Counterexample.** A tick at which another holder has the lease starts no pass, although one
    is due. -/
theorem held_lease_skips_occurrence :
    ¬∀ (g : GcSettings) (s s' : GcLoop) (trace : List (GcTick × Option Bool)), InOrder trace →
      GcTrace g s trace s' → ScheduleKept (fun _ => True) g s.last trace := by
  intro h
  have hrun : GcTrace midnight ⟨0, 0⟩ [(noonTick false, none)] ⟨0, 0⟩ :=
    .cons (by decide +kernel) (.nil _)
  have hkept := h _ _ _ _ (pairwise_singleton _ _) hrun
  have hpass := hkept.followed [] _ _ [] rfl dayNs ⟨1, by decide⟩ (by decide) (by simp) (by decide)
    (by decide) trivial
  cases hpass

/-- A pass at the first tick with the lease. -/
theorem schedule_kept_noon : ScheduleKept (fun t => t.lease = true) midnight 0
      [(noonTick false, none), (noonTick true, some true)] := by
  have hheld : GcLoop.tick midnight ⟨0, 0⟩ (noonTick false) = some (⟨0, 0⟩, none) := by
    decide +kernel
  have hpass : GcLoop.tick midnight ⟨0, 0⟩ (noonTick true) =
      some (⟨dayNs + dayNs / 2, 0⟩, some true) := by decide +kernel
  exact schedule_kept midnight ⟨0, 0⟩ ⟨dayNs + dayNs / 2, 0⟩ _ (by decide) (by decide)
    (pairwise_pair.mpr le_rfl) (.cons hheld (.cons hpass (.nil _)))

end Depot
