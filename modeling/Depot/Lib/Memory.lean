import Depot.Lib.Runs

/-!
# Private memories

What a task does next depends on the replies it has received. A memory collects from them
what a proof needs: `note` says how a reply changes it. Nobody else writes to it, so what a
program does with its memory is a property of the program alone, whatever the other tasks do
meanwhile.

Results:
* `Fallible.Follows.bind`, `Fallible.Follows.attempt`, `Fallible.Follows.fold`: the rules for
  what a function asks for and remembers.
* `Pool.Following.run`: in every run the tasks do what their programs do.
* `Pool.Following.shared`: what the operations preserve, given what their tasks remember,
  holds after every run.
-/

namespace Lib

variable {Op : Type} {R : Op → Type} {S J E M ε α β σ : Type}

/-! ## Programs -/

section

variable (A : M → Op → Prop) (note : M → (o : Op) → R o → M)

/-- From the memory `m` on, the program asks only for what `A` allows at the time, and ends
    with a result and a memory as in `Q`. -/
def Prog.Follows (Q : α → M → Prop) : Prog Op R α → M → Prop
  | .pure a, m => Q a m
  | .op o k, m => A m o ∧ ∀ r, (k r).Follows Q (note m o r)
  | .choose k, m => ∀ b, (k b).Follows Q m

/-- From every memory as in `F`, the function asks only for what `A` allows; it returns as
    in `Q`, or fails with a memory as in `err`. -/
def Fallible.Follows (F : M → Prop) (p : Fallible ε Op R α) (Q : α → M → Prop)
    (err : M → Prop) : Prop :=
  ∀ m, F m → p.run.flatten.Follows A note
    (fun r m => match r with
      | .ok a => Q a m
      | .error _ => err m) m

end

variable {A : M → Op → Prop} {note : M → (o : Op) → R o → M}

theorem Prog.Follows.mono {Q Q' : α → M → Prop} (hQ : ∀ a m, Q a m → Q' a m)
    {p : Prog Op R α} {m : M} (h : p.Follows A note Q m) : p.Follows A note Q' m := by
  induction p generalizing m with
  | pure a => exact hQ a m h
  | op o k ih => exact ⟨h.1, fun r => ih r (h.2 r)⟩
  | choose k ih => exact fun b => ih b (h b)

theorem Prog.Follows.bind {Q : α → M → Prop} {Q' : β → M → Prop} {p : Prog Op R α}
    {f : α → Prog Op R β} {m : M} (h : p.Follows A note Q m)
    (hf : ∀ a m, Q a m → (f a).Follows A note Q' m) : (p.bind f).Follows A note Q' m := by
  induction p generalizing m with
  | pure a => exact hf a m h
  | op o k ih => exact ⟨h.1, fun r => ih r (h.2 r)⟩
  | choose k ih => exact fun b => ih b (h b)

/-! ## Functions that may fail -/

namespace Fallible.Follows

variable {F err : M → Prop} {Q : α → M → Prop}

variable {p : Fallible ε Op R α}

theorem weaken {F' err' : M → Prop} {Q' : α → M → Prop}
    (h : Fallible.Follows A note F p Q err) (hF : ∀ m, F' m → F m)
    (hQ : ∀ a m, Q a m → Q' a m) (herr : ∀ m, err m → err' m) :
    Fallible.Follows A note F' p Q' err' := by
  intro m hm
  refine (h m (hF m hm)).mono fun r m' hr => ?_
  cases r with
  | ok a => exact hQ a m' hr
  | error e => exact herr m' hr

theorem pure {a : α} (h : ∀ m, F m → Q a m) :
    Fallible.Follows A note F (Pure.pure a : Fallible ε Op R α) Q err := h

theorem throw {e : ε} (h : ∀ m, F m → err m) :
    Fallible.Follows A note F (MonadExcept.throw e : Fallible ε Op R α) Q err := h

theorem bind {f : α → Fallible ε Op R β} {K : α → M → Prop}
    {Q : β → M → Prop} (hp : Fallible.Follows A note F p K err)
    (hf : ∀ a, Fallible.Follows A note (K a) (f a) Q err) :
    Fallible.Follows A note F (p >>= f) Q err := by
  intro m hm
  show Prog.Follows A note _ (Task.flatten (Task.bind p.run _)) m
  rw [Task.flatten_bind]
  refine (hp m hm).bind fun r m' hr => ?_
  cases r with
  | ok a => exact hf a m' hr
  | error e => exact hr

theorem attempt {fail : Bool → ε} {o : Op} {f : R o → Option α}
    (hA : ∀ m, F m → A m o) (hQ : ∀ m r a, F m → f r = some a → Q a (note m o r))
    (herr : ∀ m r, F m → f r = none → err (note m o r)) :
    Fallible.Follows A note F (Fallible.attempt fail o f) Q err := by
  intro m hm
  refine ⟨hA m hm, fun r => ?_⟩
  cases hr : f r with
  | some a =>
    simp only [hr]
    exact hQ m r a hm hr
  | none =>
    simp only [hr]
    exact fun _ => herr m r hm hr

theorem issue {o : Op} {Q : R o → M → Prop} (hA : ∀ m, F m → A m o)
    (hQ : ∀ m r, F m → Q r (note m o r)) :
    Fallible.Follows A note F (Fallible.issue o : Fallible ε Op R (R o)) Q err :=
  fun m hm => ⟨hA m hm, fun r => hQ m r hm⟩

theorem check {e : ε} {Q : Unit → M → Prop} (hQ : ∀ m, F m → Q () m) (herr : ∀ m, F m → err m) :
    Fallible.Follows A note F (Fallible.check e : Fallible ε Op R Unit) Q err := by
  intro m hm go
  cases go with
  | true => exact hQ m hm
  | false => exact herr m hm

/-- A function whose operations teach it nothing. -/
theorem of_uses {P : Op → Prop} (hP : ∀ m o, F m → P o → A m o ∧ ∀ r, note m o r = m)
    (hp : Fallible.Uses P p) : Fallible.Follows A note F p (fun _ => F) F := by
  intro m hm
  have hgen : ∀ q : Prog Op R (Except ε α), q.Uses P → q.Follows A note (fun _ => F) m := by
    intro q hq
    induction q with
    | pure a => exact hm
    | op o k ih =>
      obtain ⟨hA, hnote⟩ := hP m o hm hq.1
      refine ⟨hA, fun r => ?_⟩
      rw [hnote]
      exact ih r (hq.2 r)
    | choose k ih => exact fun b => ih b (hq b)
  refine (hgen _ (Task.Uses.flatten hp)).mono fun r m' hr => ?_
  cases r with
  | ok a => exact hr
  | error e => exact hr

theorem ignore {K : M → Prop} (hp : Fallible.Follows A note F p (fun _ => K) K) :
    Fallible.Follows A note F (Fallible.ignore p) (fun _ => K) err := by
  intro m hm
  show Prog.Follows A note _ (Task.flatten (Task.bind p.run _)) m
  rw [Task.flatten_bind]
  refine (hp m hm).bind fun r m' hr => ?_
  cases r with
  | ok a => exact hr
  | error e => exact hr

/-- A loop whose rounds all start and end in the same way. -/
theorem fold {f : σ → β → Fallible ε Op R σ} {xs : List β}
    (h : ∀ t, ∀ x ∈ xs, Fallible.Follows A note F (f t x) (fun _ => F) err) (t : σ) :
    Fallible.Follows A note F (Fallible.fold f xs t) (fun _ => F) err := by
  induction xs generalizing t with
  | nil => exact pure fun _ hm => hm
  | cons x xs ih =>
    exact (h t x List.mem_cons_self).bind fun t' =>
      ih (fun t y hy => h t y (List.mem_cons_of_mem x hy)) t'

end Fallible.Follows

/-! ## Pools -/

/-- A system whose tasks remember; a new task has the memory `m₀`, and what a reply means to a
    task depends on its job. -/
def System.withMemory (sys : System Op R S J E) (note : J → M → (o : Op) → R o → M) :
    System Op R (S × (ℕ → M)) J E where
  exec i j o b s := (sys.exec i j o b s.1).map fun x =>
    ((x.1, Function.update s.2 i (note j (s.2 i) o x.2)), x.2)
  code := sys.code
  env e s := (sys.env e s.1).map fun s' => (s', s.2)
  leave j s := (sys.leave j s.1, s.2)

section

variable {sys : System Op R S J E} {note : J → M → (o : Op) → R o → M}
variable {rules : Rules Op (S × (ℕ → M)) J E} {A : J → M → Op → Prop} {Q : J → M → Prop} {m₀ : M}

/-- Every task is somewhere in its program, and those to come remember nothing yet. -/
structure Pool.Following (note : J → M → (o : Op) → R o → M) (A : J → M → Op → Prop)
    (Q : J → M → Prop) (m₀ : M) (p : Pool Op R (S × (ℕ → M)) J) : Prop where
  thread : ∀ i j (prog : Prog Op R Unit), p.threads[i]? = some (some (j, prog)) →
    prog.Follows (A j) (note j) (fun _ => Q j) (p.shared.2 i)
  fresh : ∀ i, p.threads.length ≤ i → p.shared.2 i = m₀

theorem Pool.following_init (s : S) :
    (Pool.init (s, fun _ => m₀) : Pool Op R (S × (ℕ → M)) J).Following note A Q m₀ where
  thread i j prog h := by simp [Pool.init] at h
  fresh _ _ := rfl

namespace Pool.Following

variable {p p' : Pool Op R (S × (ℕ → M)) J} {i : ℕ} {j : J}

theorem moved (h : p.Following note A Q m₀) {prog prog' : Prog Op R Unit} {s : S} {m : M}
    (hi : p.threads[i]? = some (some (j, prog)))
    (hprog : prog'.Follows (A j) (note j) (fun _ => Q j) m) :
    (⟨(s, Function.update p.shared.2 i m), p.threads.set i (some (j, prog'))⟩ :
      Pool Op R (S × (ℕ → M)) J).Following note A Q m₀ where
  thread i' j' q hq := by
    show q.Follows _ _ _ (Function.update p.shared.2 i m i')
    by_cases hii : i' = i
    · subst hii
      rw [List.getElem?_set_self', hi] at hq
      obtain ⟨rfl, rfl⟩ := Prod.mk.inj (Option.some.inj (Option.some.inj hq))
      rw [Function.update_self]
      exact hprog
    · rw [Function.update_of_ne hii]
      rw [List.getElem?_set_ne (Ne.symm hii)] at hq
      exact h.thread i' j' q hq
  fresh i' hi' := by
    have hlt : i < p.threads.length := (List.getElem?_eq_some_iff.mp hi).1
    rw [List.length_set] at hi'
    show Function.update p.shared.2 i m i' = m₀
    rw [Function.update_of_ne (by omega)]
    exact h.fresh i' hi'

/-- Every event keeps the tasks in their programs. -/
theorem apply (hcode : ∀ j, (sys.code j).flatten.Follows (A j) (note j) (fun _ => Q j) m₀)
    (h : p.Following note A Q m₀) {e : Event J E}
    (he : p.apply (sys.withMemory note) rules e = some p') : p'.Following note A Q m₀ := by
  cases e with
  | spawn j =>
    simp only [Pool.apply] at he
    split_ifs at he
    obtain rfl := Option.some.inj he
    refine ⟨fun i j' prog hi => ?_, fun i hi => h.fresh i ?_⟩
    · rcases Nat.lt_trichotomy i p.threads.length with hlt | rfl | hgt
      · rw [List.getElem?_append_left hlt] at hi
        exact h.thread i j' prog hi
      · rw [List.getElem?_concat_length] at hi
        obtain ⟨rfl, rfl⟩ := Prod.mk.inj (Option.some.inj (Option.some.inj hi))
        show Prog.Follows _ _ _ _ (p.shared.2 p.threads.length)
        rw [h.fresh _ (Nat.le_refl _)]
        exact hcode j
      · rw [List.getElem?_eq_none (by rw [List.length_append, List.length_singleton]; omega)] at hi
        cases hi
    · rw [List.length_append, List.length_singleton] at hi
      omega
  | step i b =>
    simp only [Pool.apply] at he
    split at he
    case h_2 => cases he
    case h_1 j prog hi =>
      have hfollow := h.thread i j prog hi
      cases prog with
      | pure a => cases he
      | choose k =>
        obtain rfl := Option.some.inj he
        have hmoved := h.moved (s := p.shared.1) hi (hfollow b)
        rwa [Function.update_eq_self] at hmoved
      | op o k =>
        simp only [stepThread] at he
        split_ifs at he
        obtain ⟨x, hx, rfl⟩ := Option.map_eq_some_iff.mp he
        obtain ⟨y, -, rfl⟩ := Option.map_eq_some_iff.mp hx
        exact h.moved hi (hfollow.2 y.2)
  | leave i =>
    simp only [Pool.apply] at he
    split at he
    case h_2 => cases he
    case h_1 j prog hi =>
      obtain rfl := Option.some.inj he
      refine ⟨fun i' j' q hq => ?_, fun i' hi' => h.fresh i' (by rwa [List.length_set] at hi')⟩
      by_cases hii : i' = i
      · subst hii
        rw [List.getElem?_set_self', hi] at hq
        cases hq
      · rw [List.getElem?_set_ne (Ne.symm hii)] at hq
        exact h.thread i' j' q hq
  | env e =>
    simp only [Pool.apply] at he
    split_ifs at he
    obtain ⟨s, hs, rfl⟩ := Option.map_eq_some_iff.mp he
    obtain ⟨s', -, rfl⟩ := Option.map_eq_some_iff.mp hs
    exact ⟨h.thread, h.fresh⟩

/-- **Tasks follow their programs** in every run. -/
theorem run (hcode : ∀ j, (sys.code j).flatten.Follows (A j) (note j) (fun _ => Q j) m₀)
    (h : p.Following note A Q m₀) {es : List (Event J E)}
    (hrun : p.run (sys.withMemory note) rules es = some p') : p'.Following note A Q m₀ :=
  run_induction (fun _ _ _ hp he => hp.apply hcode he) h hrun

/-- What a task remembers when it has returned. -/
theorem returned (h : p.Following note A Q m₀) (hi : p.returned i = some j) :
    Q j (p.shared.2 i) := by
  obtain ⟨a, ha⟩ := returned_eq_some.mp hi
  exact h.thread i j _ ha

/-- **Invariants.** What the operations preserve, given what their tasks remember, holds after
    every run. -/
theorem shared {P : S × (ℕ → M) → Prop}
    (hcode : ∀ j, (sys.code j).flatten.Follows (A j) (note j) (fun _ => Q j) m₀)
    (hop : ∀ i j o b s ms s' r, P (s, ms) → A j (ms i) o → rules.op i j (s, ms) o b = true →
      sys.exec i j o b s = some (s', r) → P (s', Function.update ms i (note j (ms i) o r)))
    (hleave : ∀ j s ms, P (s, ms) → P (sys.leave j s, ms))
    (henv : ∀ e s ms s', P (s, ms) → sys.env e s = some s' → P (s', ms))
    (h : p.Following note A Q m₀) (hp : P p.shared) {es : List (Event J E)}
    (hrun : p.run (sys.withMemory note) rules es = some p') : P p'.shared := by
  refine (run_induction (P := fun p => p.Following note A Q m₀ ∧ P p.shared)
    (fun p e p' hp he => ⟨hp.1.apply hcode he, ?_⟩) ⟨h, hp⟩ hrun).2
  obtain ⟨hfollowing, hP⟩ := hp
  cases e with
  | spawn j =>
    simp only [Pool.apply] at he
    split_ifs at he
    obtain rfl := Option.some.inj he
    exact hP
  | step i b =>
    simp only [Pool.apply] at he
    split at he
    case h_2 => cases he
    case h_1 j prog hi =>
      have hfollow := hfollowing.thread i j prog hi
      cases prog with
      | pure a => cases he
      | choose k =>
        obtain rfl := Option.some.inj he
        exact hP
      | op o k =>
        simp only [stepThread] at he
        split_ifs at he with hrule
        obtain ⟨x, hx, rfl⟩ := Option.map_eq_some_iff.mp he
        obtain ⟨y, hy, rfl⟩ := Option.map_eq_some_iff.mp hx
        exact hop i j o b _ _ _ _ hP hfollow.1 hrule hy
  | leave i =>
    simp only [Pool.apply] at he
    split at he
    case h_2 => cases he
    case h_1 j prog hi =>
      obtain rfl := Option.some.inj he
      exact hleave j _ _ hP
  | env e =>
    simp only [Pool.apply] at he
    split_ifs at he
    obtain ⟨s, hs, rfl⟩ := Option.map_eq_some_iff.mp he
    obtain ⟨s', hs', rfl⟩ := Option.map_eq_some_iff.mp hs
    exact henv e _ _ _ hP hs'

end Pool.Following

end

end Lib
