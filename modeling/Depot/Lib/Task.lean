import Depot.Lib.Prog

/-!
# Tasks

The language in which asynchronous functions are written down: operations,
choices of the environment, and `fork`, which runs two sub-tasks concurrently
and joins them. The meaning of a task is the interaction tree `flatten`, where
the scheduler interleaves the sub-tasks. `solo` runs a task by itself, every
operation succeeding and sub-tasks one after the other; it is one of the
behaviours of the tree.

Results:
* `Task.flatten_bind`: a sequence and its tree.
* `Task.Uses.flatten`: which operations a task can issue.
* `Task.reaches_of_solo`: the solo run is a run of the tree.
-/

namespace Lib

/-- Tasks that issue operations `o : Op`, receive replies in `R o` and return
    an `α`. -/
inductive Task (Op : Type) (R : Op → Type) : Type → Type 1 where
  | pure {α : Type} (a : α) : Task Op R α
  | op {α : Type} (o : Op) (k : R o → Task Op R α) : Task Op R α
  | choose {α : Type} (k : Bool → Task Op R α) : Task Op R α
  | fork {α β γ : Type} (p : Task Op R β) (q : Task Op R γ) (k : β → γ → Task Op R α) :
      Task Op R α

namespace Task

variable {Op : Type} {R : Op → Type} {α β γ : Type}

/-- Issue one operation and return its reply. -/
def call (o : Op) : Task Op R (R o) := .op o .pure

/-- Sequential composition. -/
def bind {α β : Type} : Task Op R α → (α → Task Op R β) → Task Op R β
  | .pure a, f => f a
  | .op o k, f => .op o fun r => (k r).bind f
  | .choose k, f => .choose fun b => (k b).bind f
  | .fork p q k, f => .fork p q fun a b => (k a b).bind f

instance : Monad (Task Op R) where
  pure := .pure
  bind := Task.bind

/-- Run the tasks of a list concurrently and return their results in the order
    of the list. -/
def forkAll : List (Task Op R α) → Task Op R (List α)
  | [] => .pure []
  | p :: ps => .fork p (forkAll ps) fun a as => .pure (a :: as)

/-- Run `f` on the elements of a list, one after the other. -/
def forEach (xs : List β) (f : β → Task Op R Unit) : Task Op R Unit :=
  match xs with
  | [] => .pure ()
  | x :: xs => (f x).bind fun _ => forEach xs f

/-! ## Meaning -/

/-- The interaction tree of a task. -/
def flatten {α : Type} : Task Op R α → Prog Op R α
  | .pure a => .pure a
  | .op o k => .op o fun r => (k r).flatten
  | .choose k => .choose fun b => (k b).flatten
  | .fork p q k => (p.flatten.par q.flatten).bind fun x => (k x.1 x.2).flatten

theorem flatten_bind (p : Task Op R α) (f : α → Task Op R β) :
    (p.bind f).flatten = p.flatten.bind fun a => (f a).flatten := by
  induction p with
  | pure a => rfl
  | op o k ih => simp [bind, flatten, ih]
  | choose k ih => simp [bind, flatten, ih]
  | fork p q k _ _ ih => simp [bind, flatten, ih, Prog.bind_assoc]

theorem flatten_forkAll_cons (p : Task Op R α) (ps : List (Task Op R α)) :
    (forkAll (p :: ps)).flatten =
      (p.flatten.par (forkAll ps).flatten).bind fun x => .pure (x.1 :: x.2) := rfl

/-! ## Which operations a task can issue -/

/-- Every operation the task can issue satisfies `P`. -/
def Uses {α : Type} (P : Op → Prop) : Task Op R α → Prop
  | .pure _ => True
  | .op o k => P o ∧ ∀ r, (k r).Uses P
  | .choose k => ∀ b, (k b).Uses P
  | .fork p q k => p.Uses P ∧ q.Uses P ∧ ∀ a b, (k a b).Uses P

variable {P : Op → Prop}

theorem uses_call {o : Op} (h : P o) : (call o : Task Op R (R o)).Uses P :=
  ⟨h, fun _ => trivial⟩

theorem Uses.bind {p : Task Op R α} {f : α → Task Op R β} (hp : p.Uses P)
    (hf : ∀ a, (f a).Uses P) : (p.bind f).Uses P := by
  induction p with
  | pure a => exact hf a
  | op o k ih => exact ⟨hp.1, fun r => ih r (hp.2 r) hf⟩
  | choose k ih => exact fun b => ih b (hp b) hf
  | fork p q k _ _ ih => exact ⟨hp.1, hp.2.1, fun a b => ih a b (hp.2.2 a b) hf⟩

theorem Uses.forkAll {ps : List (Task Op R α)} (h : ∀ p ∈ ps, p.Uses P) : (forkAll ps).Uses P := by
  induction ps with
  | nil => trivial
  | cons p ps ih =>
    exact ⟨h p List.mem_cons_self, ih fun q hq => h q (List.mem_cons_of_mem p hq),
      fun _ _ => trivial⟩

theorem Uses.mono {Q : Op → Prop} (hPQ : ∀ o, P o → Q o) {p : Task Op R α} (h : p.Uses P) :
    p.Uses Q := by
  induction p with
  | pure a => trivial
  | op o k ih => exact ⟨hPQ o h.1, fun r => ih r (h.2 r)⟩
  | choose k ih => exact fun b => ih b (h b)
  | fork p q k ihp ihq ih =>
    exact ⟨ihp h.1, ihq h.2.1, fun a b => ih a b (h.2.2 a b)⟩

theorem Uses.flatten {p : Task Op R α} (h : p.Uses P) : p.flatten.Uses P := by
  induction p with
  | pure a => trivial
  | op o k ih => exact ⟨h.1, fun r => ih r (h.2 r)⟩
  | choose k ih => exact fun b => ih b (h b)
  | fork p q k ihp ihq ih =>
    exact ((ihp h.1).par (ihq h.2.1)).bind fun x => ih x.1 x.2 (h.2.2 x.1 x.2)

/-! ## Solo runs -/

variable {S : Type}

/-- Run a task by itself: every operation succeeds, choices are `true` and
    sub-tasks run one after the other. -/
def solo (exec : (o : Op) → Bool → S → Option (S × R o)) {α : Type} :
    Task Op R α → S → Option (S × α)
  | .pure a, s => some (s, a)
  | .op o k, s => (exec o true s).bind fun x => (k x.2).solo exec x.1
  | .choose k, s => (k true).solo exec s
  | .fork p q k, s => (p.solo exec s).bind fun x =>
      (q.solo exec x.1).bind fun y => (k x.2 y.2).solo exec y.1

variable {exec : (o : Op) → Bool → S → Option (S × R o)}

theorem solo_bind (p : Task Op R α) (f : α → Task Op R β) (s : S) :
    (p.bind f).solo exec s = (p.solo exec s).bind fun x => (f x.2).solo exec x.1 := by
  induction p generalizing s with
  | pure a => rfl
  | op o k ih =>
    simp only [bind, solo, Option.bind_assoc]
    cases exec o true s with
    | none => rfl
    | some x => exact ih x.2 f x.1
  | choose k ih => exact ih true f s
  | fork p q k _ _ ih =>
    simp only [bind, solo, Option.bind_assoc]
    cases p.solo exec s with
    | none => rfl
    | some x =>
      simp only [Option.bind_some]
      cases q.solo exec x.1 with
      | none => rfl
      | some y => exact ih x.2 y.2 f y.1

end Task

/-- `Reaches exec ok p s a s'`: in some sequence of successful operations, each
    admitted by `ok`, the tree `p` goes from `s` to `s'` and returns `a`. -/
inductive Reaches {Op : Type} {R : Op → Type} {S α : Type}
    (exec : (o : Op) → Bool → S → Option (S × R o)) (ok : S → Op → Prop) :
    Prog Op R α → S → α → S → Prop where
  | pure (a : α) (s : S) : Reaches exec ok (.pure a) s a s
  | op {o : Op} {k : R o → Prog Op R α} {s s' s'' : S} {r : R o} {a : α}
      (hok : ok s o) (hx : exec o true s = some (s', r)) (h : Reaches exec ok (k r) s' a s'') :
      Reaches exec ok (.op o k) s a s''
  | choose {k : Bool → Prog Op R α} {s s' : S} {a : α} (b : Bool)
      (h : Reaches exec ok (k b) s a s') : Reaches exec ok (.choose k) s a s'

section Reaches

variable {Op : Type} {R : Op → Type} {S α β : Type}
variable {exec : (o : Op) → Bool → S → Option (S × R o)} {ok : S → Op → Prop}

theorem Reaches.bind {p : Prog Op R α} {f : α → Prog Op R β} {s s' s'' : S} {a : α} {b : β}
    (hp : Reaches exec ok p s a s') (hf : Reaches exec ok (f a) s' b s'') :
    Reaches exec ok (p.bind f) s b s'' := by
  induction hp with
  | pure a s => exact hf
  | op hok hx _ ih => exact .op hok hx (ih hf)
  | choose c _ ih => exact .choose c (ih hf)

theorem Reaches.par {p : Prog Op R α} {q : Prog Op R β} {s s' s'' : S} {a : α} {b : β}
    (hp : Reaches exec ok p s a s') (hq : Reaches exec ok q s' b s'') :
    Reaches exec ok (p.par q) s (a, b) s'' := by
  induction hp with
  | pure a s => exact hq.bind (.pure _ _)
  | @op o k s s' s3 r a hok hx hrest ih =>
    cases q with
    | pure b' =>
      cases hq
      exact (Reaches.op hok hx hrest).bind (.pure _ _)
    | op o' k' => exact .choose true (.op hok hx (ih hq))
    | choose k' => exact .choose true (.op hok hx (ih hq))
  | @choose k s s' a c hrest ih =>
    cases q with
    | pure b' =>
      cases hq
      exact (Reaches.choose c hrest).bind (.pure _ _)
    | op o' k' => exact .choose true (.choose c (ih hq))
    | choose k' => exact .choose true (.choose c (ih hq))

/-- The solo run is a run of the tree, when all operations are admitted. -/
theorem Task.reaches_of_solo {p : Task Op R α} {s s' : S} {a : α}
    (hok : p.Uses fun o => ∀ s, ok s o) (h : p.solo exec s = some (s', a)) :
    Reaches exec ok p.flatten s a s' := by
  induction p generalizing s s' with
  | pure a =>
    simp only [solo, Option.some.injEq, Prod.mk.injEq] at h
    obtain ⟨rfl, rfl⟩ := h
    exact .pure _ _
  | op o k ih =>
    simp only [solo, Option.bind_eq_some_iff] at h
    obtain ⟨⟨s1, r⟩, hx, h⟩ := h
    exact .op (hok.1 s) hx (ih r (hok.2 r) h)
  | choose k ih => exact .choose true (ih true (hok true) h)
  | fork p q k ihp ihq ih =>
    simp only [solo, Option.bind_eq_some_iff] at h
    obtain ⟨⟨s1, x⟩, hp, ⟨s2, y⟩, hq, h⟩ := h
    exact ((ihp hok.1 hp).par (ihq hok.2.1 hq)).bind (ih x y (hok.2.2 x y) h)

end Reaches

end Lib
