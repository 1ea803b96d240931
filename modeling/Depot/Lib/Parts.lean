import Depot.Lib.Runs

/-!
# Sub-tasks on parts of the state

Concurrent sub-tasks each of which works on a part of the state of its own. However they are
interleaved, each of them runs on its part as it would by itself.

Results:
* `runsOn_par_left`, `runsOn_par_right`: what is seen of two interleaved programs on a part that
  only one of them touches.
* `RunsOn.runs`: what is seen of a program on the part it works on is a run of it.
* `runs_forkAll_parts`, `yields_join_parts`: any number of sub-tasks.
-/

namespace Lib

open List

variable {Op : Type} {R : Op → Type} {S V ι α β γ ε : Type}

section

variable (exec : (o : Op) → Bool → S → Option (S × R o)) (ok : S → Op → Bool → Prop)
variable (execV : (o : Op) → Bool → V → Option (V × R o)) (okV : V → Op → Bool → Prop)
variable (v : S → V)

/-- The operation works on the part `v` of the state. -/
def LocalOp (o : Op) : Prop :=
  ∀ s b s' r, ok s o b → exec o b s = some (s', r) →
    okV (v s) o b ∧ execV o b (v s) = some (v s', r)

/-- The operation leaves the part `v` of the state alone. -/
def BlindOp (o : Op) : Prop :=
  ∀ s b s' r, ok s o b → exec o b s = some (s', r) → v s' = v s

/-- What a run of `p` does to the part `v`, when others may change everything else before each
    of its operations. -/
inductive RunsOn {α : Type} : Prog Op R α → V → α → V → Prop where
  | pure (a : α) (u : V) : RunsOn (.pure a) u a u
  | op {o : Op} {k : R o → Prog Op R α} {s s' : S} {u : V} {r : R o} {a : α} (b : Bool)
      (hok : ok s o b) (hx : exec o b s = some (s', r)) (h : RunsOn (k r) (v s') a u) :
      RunsOn (.op o k) (v s) a u
  | choose {k : Bool → Prog Op R α} {u u' : V} {a : α} (b : Bool) (h : RunsOn (k b) u a u') :
      RunsOn (.choose k) u a u'

end

variable {exec : (o : Op) → Bool → S → Option (S × R o)} {ok : S → Op → Bool → Prop}
variable {execV : (o : Op) → Bool → V → Option (V × R o)} {okV : V → Op → Bool → Prop}
variable {v : S → V}

/-! ## One program -/

variable {p : Prog Op R α}

variable {s s' : S}

theorem Runs.on {a : α} (h : Runs exec ok p s a s') : RunsOn exec ok v p (v s) a (v s') := by
  induction h with
  | pure a s => exact .pure a (v s)
  | op b hok hx _ ih => exact .op b hok hx ih
  | choose b _ ih => exact .choose b ih

variable {u u' : V}

theorem runsOn_pure {a b : α} (h : RunsOn exec ok v (.pure a) u b u') : b = a ∧ u' = u := by
  cases h
  exact ⟨rfl, rfl⟩

theorem runsOn_bind {f : α → Prog Op R β} {u'' : V} {b : β}
    (h : RunsOn exec ok v (p.bind f) u b u'') :
    ∃ a u', RunsOn exec ok v p u a u' ∧ RunsOn exec ok v (f a) u' b u'' := by
  induction p generalizing u with
  | pure a => exact ⟨a, u, .pure a u, h⟩
  | op o k ih =>
    cases h with
    | op c hok hx h =>
      obtain ⟨a, u', hp, hf⟩ := ih _ h
      exact ⟨a, u', .op c hok hx hp, hf⟩
  | choose k ih =>
    cases h with
    | choose c h =>
      obtain ⟨a, u', hp, hf⟩ := ih _ h
      exact ⟨a, u', .choose c hp, hf⟩

/-- What is seen of a program on the part it works on is a run of it. -/
theorem RunsOn.runs (hp : p.Uses (LocalOp exec ok execV okV v)) {a : α}
    (h : RunsOn exec ok v p u a u') : Runs execV okV p u a u' := by
  induction h with
  | pure a u => exact .pure a u
  | op b hok hx _ ih =>
    obtain ⟨hokV, hxV⟩ := hp.1 _ b _ _ hok hx
    exact .op b hokV hxV (ih (hp.2 _))
  | choose b _ ih => exact .choose b (ih (hp b))

theorem runsOn_blind (hp : p.Uses (BlindOp exec ok v)) {a : α}
    (h : RunsOn exec ok v p u a u') : u' = u := by
  induction h with
  | pure a u => rfl
  | op b hok hx _ ih => exact (ih (hp.2 _)).trans (hp.1 _ b _ _ hok hx)
  | choose b _ ih => exact ih (hp b)

/-! ## Two programs -/

variable {q : Prog Op R β}

variable {stepL : Prog Op R β → Prog Op R γ}

variable {fin : β → Prog Op R γ}

/-- While the left operand waits, the right one leaves the part of the left one alone. -/
theorem runsOn_interleave_blind (hq : q.Uses (BlindOp exec ok v)) {c : γ}
    (h : RunsOn exec ok v (Prog.interleave stepL fin q) u c u') :
    (∃ q', q'.Uses (BlindOp exec ok v) ∧ RunsOn exec ok v (stepL q') u c u') ∨
      ∃ b, RunsOn exec ok v (fin b) u c u' := by
  induction q generalizing u with
  | pure b => exact .inr ⟨b, h⟩
  | op o k ih =>
    cases h with
    | choose left h =>
      cases left with
      | true => exact .inl ⟨_, hq, h⟩
      | false =>
        cases h with
        | op b hok hx h =>
          rw [hq.1 _ b _ _ hok hx] at h
          exact ih _ (hq.2 _) h
  | choose k ih =>
    cases h with
    | choose left h =>
      cases left with
      | true => exact .inl ⟨_, hq, h⟩
      | false =>
        cases h with
        | choose b h => exact ih b (hq b) h

/-- The left one of two interleaved programs, on a part that the right one leaves alone. -/
theorem runsOn_par_left (hq : q.Uses (BlindOp exec ok v))
    {c : α × β} (h : RunsOn exec ok v (p.par q) u c u') : RunsOn exec ok v p u c.1 u' := by
  have hend : ∀ {p : Prog Op R α} {b : β} {u : V},
      RunsOn exec ok v (p.bind fun a => .pure (a, b)) u c u' → RunsOn exec ok v p u c.1 u' := by
    intro p b u h
    obtain ⟨a, u1, ha, hpure⟩ := runsOn_bind h
    obtain ⟨rfl, rfl⟩ := runsOn_pure hpure
    exact ha
  induction p generalizing q u with
  | pure a =>
    obtain ⟨b, u1, hb, hpure⟩ := runsOn_bind h
    obtain ⟨rfl, rfl⟩ := runsOn_pure hpure
    rw [runsOn_blind hq hb]
    exact .pure a u
  | op o k ih =>
    rcases runsOn_interleave_blind hq h with ⟨q', hq', hrun⟩ | ⟨b, hrun⟩
    · cases hrun with
      | op b hok hx hrest => exact .op b hok hx (ih _ hq' hrest)
    · exact hend hrun
  | choose k ih =>
    rcases runsOn_interleave_blind hq h with ⟨q', hq', hrun⟩ | ⟨b, hrun⟩
    · cases hrun with
      | choose b hrest => exact .choose b (ih b hq' hrest)
    · exact hend hrun

/-- The right operand of an interleaving, whatever the left one does elsewhere. -/
theorem runsOn_interleave_right {c : γ} {b : β}
    (hstep : ∀ q u, RunsOn exec ok v (stepL q) u c u' → RunsOn exec ok v q u b u')
    (hfin : ∀ b' u, RunsOn exec ok v (fin b') u c u' → b = b' ∧ u' = u)
    (h : RunsOn exec ok v (Prog.interleave stepL fin q) u c u') : RunsOn exec ok v q u b u' := by
  induction q generalizing u with
  | pure b' =>
    obtain ⟨rfl, rfl⟩ := hfin b' u h
    exact .pure b u'
  | op o k ih =>
    cases h with
    | choose left h =>
      cases left with
      | true => exact hstep _ u h
      | false =>
        cases h with
        | op b' hok hx h => exact .op b' hok hx (ih _ h)
  | choose k ih =>
    cases h with
    | choose left h =>
      cases left with
      | true => exact hstep _ u h
      | false =>
        cases h with
        | choose b' h => exact .choose b' (ih b' h)

/-- The right one of two interleaved programs, on a part that the left one leaves alone. -/
theorem runsOn_par_right (hp : p.Uses (BlindOp exec ok v))
    {c : α × β} (h : RunsOn exec ok v (p.par q) u c u') : RunsOn exec ok v q u c.2 u' := by
  have hend : ∀ {p : Prog Op R α} {b : β} {u : V}, p.Uses (BlindOp exec ok v) →
      RunsOn exec ok v (p.bind fun a => .pure (a, b)) u c u' → c.2 = b ∧ u' = u := by
    intro p b u hp h
    obtain ⟨a, u1, ha, hpure⟩ := runsOn_bind h
    obtain ⟨rfl, rfl⟩ := runsOn_pure hpure
    exact ⟨rfl, runsOn_blind hp ha⟩
  induction p generalizing q u with
  | pure a =>
    obtain ⟨b, u1, hb, hpure⟩ := runsOn_bind h
    obtain ⟨rfl, rfl⟩ := runsOn_pure hpure
    exact hb
  | op o k ih =>
    refine runsOn_interleave_right (fun q' u1 hrun => ?_) (fun b u1 hrun => hend hp hrun) h
    cases hrun with
    | op b hok hx hrest =>
      rw [← hp.1 _ b _ _ hok hx]
      exact ih _ (hp.2 _) hrest
  | choose k ih =>
    refine runsOn_interleave_right (fun q' u1 hrun => ?_) (fun b u1 hrun => hend hp hrun) h
    cases hrun with
    | choose b hrest => exact ih b (hp b) hrest

/-! ## Any number of sub-tasks -/

/-- The sub-tasks of a list work on parts of their own: what each of them needs of its own
    operations and of those of the others. -/
structure Apportioned (exec : (o : Op) → Bool → S → Option (S × R o)) (ok : S → Op → Bool → Prop)
    (execV : (o : Op) → Bool → V → Option (V × R o)) (okV : V → Op → Bool → Prop)
    (v : ι → S → V) (f : ι → Task Op R α) (xs : List ι) : Prop where
  own : ∀ x ∈ xs, (f x).Uses (LocalOp exec ok execV okV (v x))
  others : xs.Pairwise fun x y =>
    (f y).Uses (BlindOp exec ok (v x)) ∧ (f x).Uses (BlindOp exec ok (v y))

variable {as : List α}

theorem length_of_runs_forkAll {ps : List (Task Op R α)}
    (h : Runs exec ok (Task.forkAll ps).flatten s as s') : as.length = ps.length := by
  suffices hgen : ∀ u u', RunsOn exec ok (fun _ : S => ()) (Task.forkAll ps).flatten u as u' →
      as.length = ps.length from hgen _ _ h.on
  clear h
  intro u u' h
  induction ps generalizing as u u' with
  | nil =>
    obtain ⟨rfl, -⟩ := runsOn_pure h
    rfl
  | cons p ps ih =>
    rw [Task.flatten_forkAll_cons] at h
    obtain ⟨c, u1, hpar, hpure⟩ := runsOn_bind h
    obtain ⟨rfl, -⟩ := runsOn_pure hpure
    have hblind : p.flatten.Uses (BlindOp exec ok fun _ : S => ()) :=
      (p.uses_any fun _ _ _ _ _ _ _ => rfl).flatten
    rw [length_cons, length_cons, ih _ _ (runsOn_par_right hblind hpar)]

/-- Sub-tasks on parts of their own: each of them runs on its part as it would by itself. -/
theorem runs_forkAll_parts {v : ι → S → V} {f : ι → Task Op R α} {xs : List ι}
    (hf : Apportioned exec ok execV okV v f xs)
    (h : Runs exec ok (Task.forkAll (xs.map f)).flatten s as s') :
    Forall₂ (fun x a => Runs execV okV (f x).flatten (v x s) a (v x s')) xs as := by
  have hlen : as.length = xs.length := by
    rw [length_of_runs_forkAll h, length_map]
  have hon : ∀ x ∈ xs,
      RunsOn exec ok (v x) (Task.forkAll (xs.map f)).flatten (v x s) as (v x s') := fun _ _ => h.on
  clear h
  induction xs generalizing as with
  | nil =>
    rw [length_nil, length_eq_zero_iff] at hlen
    rw [hlen]
    exact .nil
  | cons x xs ih =>
    obtain ⟨hothers, htail⟩ := pairwise_cons.mp hf.others
    cases as with
    | nil => cases hlen
    | cons a as =>
      have hsplit : ∀ y ∈ x :: xs, RunsOn exec ok (v y)
          ((f x).flatten.par (Task.forkAll (xs.map f)).flatten) (v y s) (a, as) (v y s') := by
        intro y hy
        have hy' := hon y hy
        rw [map_cons, Task.flatten_forkAll_cons] at hy'
        obtain ⟨c, u1, hpar, hpure⟩ := runsOn_bind hy'
        obtain ⟨hcons, rfl⟩ := runsOn_pure hpure
        obtain ⟨rfl, rfl⟩ := List.cons.inj hcons
        exact hpar
      have hrest : (Task.forkAll (xs.map f)).Uses (BlindOp exec ok (v x)) := by
        refine Task.Uses.forkAll fun q hq => ?_
        obtain ⟨y, hy, rfl⟩ := mem_map.mp hq
        exact (hothers y hy).1
      have hx := runsOn_par_left hrest.flatten (hsplit x mem_cons_self)
      refine .cons (hx.runs (hf.own x mem_cons_self).flatten) ?_
      refine ih ⟨fun y hy => hf.own y (mem_cons_of_mem x hy), htail⟩
        (Nat.succ.inj hlen) fun y hy => ?_
      exact runsOn_par_right (hothers y hy).2.flatten (hsplit y (mem_cons_of_mem x hy))

/-- Joined functions on parts of their own. -/
theorem yields_join_parts {v : ι → S → V} {f : ι → Fallible ε Op R α} {xs : List ι}
    (hf : Apportioned exec ok execV okV v (fun x => (f x).run) xs)
    (h : Yields exec ok (Fallible.join (xs.map f)) s (.ok as) s') :
    Forall₂ (fun x a => Yields execV okV (f x) (v x s) (.ok a) (v x s')) xs as := by
  unfold Yields Fallible.join at h
  rw [ExceptT.run_mk, Task.flatten_bind, map_map] at h
  obtain ⟨rs, s1, hall, hpure⟩ := runs_bind h
  obtain ⟨hr, rfl⟩ := runs_pure hpure
  exact forall₂_sequence (runs_forkAll_parts hf hall) hr.symm

end Lib
