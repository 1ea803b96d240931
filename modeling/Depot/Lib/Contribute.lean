import Depot.Lib.Runs

/-!
# Concurrent contributions

Tasks that add to a shared value with an associative and commutative operation, one
contribution at a time. What the value is at the end depends on what has been contributed and
not on the order, so the contributions of sub-tasks can be summed up task by task.

Results:
* `Prog.Adds.bind`, `Prog.Adds.par`: what composed programs contribute.
* `Fallible.Adds.each`, `Fallible.Adds.join`: loops and joined functions.
* `Fallible.Adds.yields`: the value after a run.
-/

namespace Lib

open List

variable {Op : Type} {R : Op → Type} {S V ι α β γ ε : Type}

/-- An operation with which contributions can be summed up in any order. -/
structure Sums (add : V → V → V) (zero : V) : Prop where
  assoc : ∀ a b c, add (add a b) c = add a (add b c)
  comm : ∀ a b, add a b = add b a
  zero_add : ∀ a, add zero a = a

section

variable (add : V → V → V) (zero : V) (part : Op → V)

/-- The total of a list of contributions. -/
def sumUp (m : ι → V) (xs : List ι) : V := xs.foldr (fun x => add (m x)) zero

/-- On every run the program contributes `m` in all, and it returns as in `Q`. -/
def Prog.Adds (Q : α → Prop) : Prog Op R α → V → Prop
  | .pure a, m => m = zero ∧ Q a
  | .op o k, m => ∃ m', m = add (part o) m' ∧ ∀ r, (k r).Adds Q m'
  | .choose k, m => ∀ b, (k b).Adds Q m

/-- On every run the function contributes `m` in all, and it ends as in `Q`. -/
def Fallible.Adds (Q : Except ε α → Prop) (p : Fallible ε Op R α) (m : V) : Prop :=
  p.run.flatten.Adds add zero part Q m

end

variable {add : V → V → V} {zero : V} {part : Op → V}

theorem Sums.add_zero (hs : Sums add zero) (a : V) : add a zero = a := by
  rw [hs.comm, hs.zero_add]

@[simp] theorem sumUp_cons (m : ι → V) (x : ι) (xs : List ι) :
    sumUp add zero m (x :: xs) = add (m x) (sumUp add zero m xs) := rfl

variable {exec : (o : Op) → Bool → S → Option (S × R o)}

variable {Q : α → Prop} {Q' : β → Prop} {m m' : V} {ok : S → Op → Bool → Prop}

namespace Prog

/-! ## Programs -/

/-- A program whose result is worked on. -/
theorem Adds.map {p : Prog Op R α} {g : α → β}
    (hp : p.Adds add zero part Q m) (hg : ∀ a, Q a → Q' (g a)) :
    (p.bind fun a => .pure (g a)).Adds add zero part Q' m := by
  induction p generalizing m with
  | pure a => exact ⟨hp.1, hg a hp.2⟩
  | op o k ih =>
    obtain ⟨m', rfl, hk⟩ := hp
    exact ⟨m', rfl, fun r => ih r (hk r)⟩
  | choose k ih => exact fun b => ih b (hp b)

theorem Adds.bind (hs : Sums add zero) {p : Prog Op R α} {f : α → Prog Op R β}
    (hp : p.Adds add zero part Q m) (hf : ∀ a, Q a → (f a).Adds add zero part Q' m') :
    (p.bind f).Adds add zero part Q' (add m m') := by
  induction p generalizing m with
  | pure a =>
    obtain ⟨hm, ha⟩ := hp
    rw [hm, hs.zero_add]
    exact hf a ha
  | op o k ih =>
    obtain ⟨m1, rfl, hk⟩ := hp
    exact ⟨add m1 m', hs.assoc _ _ _, fun r => ih r (hk r)⟩
  | choose k ih => exact fun b => ih b (hp b)

theorem Adds.interleave (hs : Sums add zero) {stepL : Prog Op R β → Prog Op R γ}
    {fin : β → Prog Op R γ} {Q : β → Prop} {Q' : γ → Prop}
    (hstep : ∀ q m', q.Adds add zero part Q m' → (stepL q).Adds add zero part Q' (add m m'))
    (hfin : ∀ b, Q b → (fin b).Adds add zero part Q' m) {q : Prog Op R β}
    (hq : q.Adds add zero part Q m') :
    (interleave stepL fin q).Adds add zero part Q' (add m m') := by
  induction q generalizing m' with
  | pure b =>
    obtain ⟨hm, hb⟩ := hq
    rw [hm, hs.add_zero]
    exact hfin b hb
  | op o k ih =>
    intro left
    cases left with
    | true => exact hstep _ _ hq
    | false =>
      obtain ⟨m1, rfl, hk⟩ := hq
      refine ⟨add m m1, ?_, fun r => ih r (hk r)⟩
      rw [← hs.assoc, ← hs.assoc, hs.comm m]
  | choose k ih =>
    intro left
    cases left with
    | true => exact hstep _ _ hq
    | false => exact fun b => ih b (hq b)

/-- Interleaved programs contribute what both of them contribute. -/
theorem Adds.par (hs : Sums add zero) {p : Prog Op R α} {q : Prog Op R β}
    (hp : p.Adds add zero part Q m) (hq : q.Adds add zero part Q' m') :
    (p.par q).Adds add zero part (fun c => Q c.1 ∧ Q' c.2) (add m m') := by
  have hfin : ∀ {p : Prog Op R α} {m : V}, p.Adds add zero part Q m → ∀ b, Q' b →
      (p.bind fun a => .pure (a, b)).Adds add zero part (fun c => Q c.1 ∧ Q' c.2) m :=
    fun hp b hb => hp.map fun a ha => ⟨ha, hb⟩
  induction p generalizing q m m' with
  | pure a =>
    obtain ⟨hm, ha⟩ := hp
    rw [hm, hs.zero_add]
    exact hq.map fun b hb => ⟨ha, hb⟩
  | op o k ih =>
    refine Adds.interleave hs (fun q' m1 hq' => ?_) (hfin hp) hq
    obtain ⟨m2, rfl, hk⟩ := hp
    exact ⟨add m2 m1, hs.assoc _ _ _, fun r => ih r (hk r) hq'⟩
  | choose k ih =>
    refine Adds.interleave hs (fun q' m1 hq' => ?_) (hfin hp) hq
    exact fun b => ih b (hp b) hq'

/-- The value after a run. -/
theorem Adds.runs (hs : Sums add zero) {v : S → V}
    (hop : ∀ o s b s' r, ok s o b → exec o b s = some (s', r) → v s' = add (v s) (part o))
    {p : Prog Op R α} (hp : p.Adds add zero part Q m) {s s' : S} {a : α}
    (h : Runs exec ok p s a s') : v s' = add (v s) m ∧ Q a := by
  induction h generalizing m with
  | pure a s =>
    obtain ⟨hm, ha⟩ := hp
    rw [hm, hs.add_zero]
    exact ⟨rfl, ha⟩
  | op b hok hx _ ih =>
    obtain ⟨m', rfl, hk⟩ := hp
    obtain ⟨hv, ha⟩ := ih (hk _)
    rw [hv, hop _ _ _ _ _ hok hx, hs.assoc]
    exact ⟨rfl, ha⟩
  | choose b _ ih => exact ih (hp b)

end Prog

/-! ## Tasks and functions -/

variable {xs : List ι}

theorem adds_forkAll (hs : Sums add zero) {f : ι → Task Op R α} {Q : ι → α → Prop} {m : ι → V}
    (hf : ∀ x ∈ xs, (f x).flatten.Adds add zero part (Q x) (m x)) :
    (Task.forkAll (xs.map f)).flatten.Adds add zero part (Forall₂ Q xs) (sumUp add zero m xs) := by
  induction xs with
  | nil => exact ⟨rfl, .nil⟩
  | cons x xs ih =>
    rw [map_cons, Task.flatten_forkAll_cons, sumUp_cons]
    have hrest := ih fun y hy => hf y (mem_cons_of_mem x hy)
    exact ((hf x mem_cons_self).par hs hrest).map fun c hc => .cons hc.1 hc.2

variable {p : Fallible ε Op R α}

namespace Fallible

theorem adds_pure {a : α} : Adds add zero part (· = .ok a) (pure a : Fallible ε Op R α) zero :=
  ⟨rfl, rfl⟩

theorem adds_throw {e : ε} :
    Adds add zero part (· = .error e) (throw e : Fallible ε Op R α) zero := ⟨rfl, rfl⟩

theorem Adds.bind (hs : Sums add zero) {f : α → Fallible ε Op R β} {a : α}
    {Q : Except ε β → Prop} (hp : Adds add zero part (· = .ok a) p m)
    (hf : Adds add zero part Q (f a) m') : Adds add zero part Q (p >>= f) (add m m') := by
  unfold Adds
  rw [Fallible.run_bind, Task.flatten_bind]
  refine Prog.Adds.bind hs hp fun r hr => ?_
  rw [hr]
  exact hf

theorem Adds.capture {r : Except ε α} (hp : Adds add zero part (· = r) p m) :
    Adds add zero part (· = .ok r) (Fallible.capture p) m := by
  unfold Adds Fallible.capture
  rw [ExceptT.run_mk, Task.flatten_bind]
  exact hp.map fun r1 hr => congrArg _ hr

/-- A loop contributes what its rounds contribute. -/
theorem Adds.each (hs : Sums add zero) {f : ι → Fallible ε Op R Unit} {m : ι → V}
    (hf : ∀ x ∈ xs, Adds add zero part (· = .ok ()) (f x) (m x)) :
    Adds add zero part (· = .ok ()) (Fallible.each f xs) (sumUp add zero m xs) := by
  induction xs with
  | nil => exact ⟨rfl, rfl⟩
  | cons x xs ih =>
    have hrest := ih fun y hy => hf y (mem_cons_of_mem x hy)
    exact Adds.bind hs (hf x mem_cons_self) hrest

theorem sequence_eq_ok {r : ι → α} {rs : List (Except ε α)}
    (h : Forall₂ (fun x a => a = .ok (r x)) xs rs) : sequence rs = .ok (xs.map r) := by
  induction h with
  | nil => rfl
  | cons hx _ ih =>
    rw [hx, sequence, ih]
    rfl

/-- Joined functions contribute what each of them contributes. -/
theorem Adds.join (hs : Sums add zero) {f : ι → Fallible ε Op R α} {r : ι → α} {m : ι → V}
    (hf : ∀ x ∈ xs, Adds add zero part (· = .ok (r x)) (f x) (m x)) :
    Adds add zero part (· = .ok (xs.map r)) (Fallible.join (xs.map f)) (sumUp add zero m xs) := by
  unfold Adds Fallible.join
  rw [ExceptT.run_mk, Task.flatten_bind, map_map]
  have hall := adds_forkAll (R := R) hs (f := fun x => (f x).run) (Q := fun x a => a = .ok (r x)) hf
  exact hall.map fun rs hrs => sequence_eq_ok hrs

/-- The value after a run. -/
theorem Adds.yields (hs : Sums add zero) {v : S → V}
    (hop : ∀ o s b s' r, ok s o b → exec o b s = some (s', r) → v s' = add (v s) (part o))
    {Q : Except ε α → Prop} (hp : Adds add zero part Q p m)
    {s s' : S} {r : Except ε α} (h : Yields exec ok p s r s') : v s' = add (v s) m ∧ Q r :=
  Prog.Adds.runs hs hop hp h

end Fallible

end Lib
