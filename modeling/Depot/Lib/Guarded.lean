import Depot.Lib.Runs

/-!
# Guarded programs

A program is guarded when nothing is changed before a grant: on every trace, whatever the replies
are, each operation that changes something comes after an operation whose reply grants it.

Results:
* `Prog.Guarded.trace`: what the structure of a program says about its traces.
* `Fallible.Guarded.bind`, `Fallible.Guarded.of_uses`, `Fallible.Secures.guarded`: guarded
  functions.
* `Task.CanChange.trace`: a task that can change something does so on a trace.
-/

namespace Lib

open List

variable {Op Op' : Type} {R : Op → Type} {R' : Op' → Type} {ε α β : Type}

/-! ## Traces -/

/-- The operations that a program issues, with their replies, up to some point of a run. -/
inductive Prog.Trace : Prog Op R α → List (Σ o : Op, R o) → Prop where
  | nil (p : Prog Op R α) : Trace p []
  | op {o : Op} {k : R o → Prog Op R α} (r : R o) {t : List (Σ o : Op, R o)}
      (h : Trace (k r) t) : Trace (.op o k) (⟨o, r⟩ :: t)
  | choose {k : Bool → Prog Op R α} (b : Bool) {t : List (Σ o : Op, R o)}
      (h : Trace (k b) t) : Trace (.choose k) t

/-- Every change on the trace comes after a grant. -/
def GuardedTrace (grants : (Σ o : Op, R o) → Prop) (changes : Op → Prop)
    (t : List (Σ o : Op, R o)) : Prop :=
  ∀ before e after, t = before ++ e :: after → changes e.1 → ∃ g ∈ before, grants g

/-- A program that changes nothing before a grant. -/
def Prog.Guarded (grants : (Σ o : Op, R o) → Prop) (changes : Op → Prop) : Prog Op R α → Prop
  | .pure _ => True
  | .op o k => ¬changes o ∧ ∀ r, grants ⟨o, r⟩ ∨ (k r).Guarded grants changes
  | .choose k => ∀ b, (k b).Guarded grants changes

variable {grants : (Σ o : Op, R o) → Prop} {changes : Op → Prop}

theorem guardedTrace_nil : GuardedTrace grants changes ([] : List (Σ o : Op, R o)) := by
  intro before e after h
  simp at h

/-- A first operation that changes nothing, and after which all is granted or guarded. -/
theorem GuardedTrace.cons {e : Σ o : Op, R o} {t : List (Σ o : Op, R o)} (hfirst : ¬changes e.1)
    (hrest : grants e ∨ GuardedTrace grants changes t) : GuardedTrace grants changes (e :: t) := by
  intro before e' after ht hc
  cases before with
  | nil =>
    obtain ⟨rfl, -⟩ := List.cons.inj ht
    exact absurd hc hfirst
  | cons d before =>
    obtain ⟨rfl, ht'⟩ := List.cons.inj ht
    rcases hrest with hgrant | hrest
    · exact ⟨e, mem_cons_self, hgrant⟩
    · obtain ⟨g, hg, hgrants⟩ := hrest before e' after ht' hc
      exact ⟨g, mem_cons_of_mem _ hg, hgrants⟩

variable {p : Prog Op R α}

variable {t : List (Σ o : Op, R o)}

/-- Every trace of a guarded program is guarded. -/
theorem Prog.Guarded.trace (h : p.Guarded grants changes)
    (ht : p.Trace t) : GuardedTrace grants changes t := by
  induction ht with
  | nil p => exact guardedTrace_nil
  | op r _ ih => exact .cons h.1 ((h.2 r).imp id ih)
  | choose b _ ih => exact ih (h b)

theorem Prog.Guarded.of_uses (h : p.Uses fun o => ¬changes o) : p.Guarded grants changes := by
  induction p with
  | pure a => trivial
  | op o k ih => exact ⟨h.1, fun r => .inr (ih r (h.2 r))⟩
  | choose k ih => exact fun b => ih b (h b)

theorem Prog.Guarded.bind {f : α → Prog Op R β} (hp : p.Guarded grants changes)
    (hf : ∀ a, (f a).Guarded grants changes) : (p.bind f).Guarded grants changes := by
  induction p with
  | pure a => exact hf a
  | op o k ih => exact ⟨hp.1, fun r => (hp.2 r).imp id fun h => ih r h⟩
  | choose k ih => exact fun b => ih b (hp b)

/-- A program that changes nothing before a grant and succeeds only after one. -/
def Prog.Secures (grants : (Σ o : Op, R o) → Prop) (changes : Op → Prop) :
    Prog Op R (Except ε α) → Prop
  | .pure (.ok _) => False
  | .pure (.error _) => True
  | .op o k => ¬changes o ∧ ∀ r, grants ⟨o, r⟩ ∨ (k r).Secures grants changes
  | .choose k => ∀ b, (k b).Secures grants changes

theorem Prog.Secures.guarded {p : Prog Op R (Except ε α)} {f : Except ε α → Prog Op R β}
    (hp : p.Secures grants changes) (hf : ∀ e, (f (.error e)).Guarded grants changes) :
    (p.bind f).Guarded grants changes := by
  induction p with
  | pure r =>
    cases r with
    | ok a => exact hp.elim
    | error e => exact hf e
  | op o k ih => exact ⟨hp.1, fun r => (hp.2 r).imp id fun h => ih r h⟩
  | choose k ih => exact fun b => ih b (hp b)

theorem Prog.Secures.bind {p : Prog Op R (Except ε α)} {f : Except ε α → Prog Op R (Except ε β)}
    (hp : p.Secures grants changes) (hf : ∀ e, (f (.error e)).Secures grants changes) :
    (p.bind f).Secures grants changes := by
  induction p with
  | pure r =>
    cases r with
    | ok a => exact hp.elim
    | error e => exact hf e
  | op o k ih => exact ⟨hp.1, fun r => (hp.2 r).imp id fun h => ih r h⟩
  | choose k ih => exact fun b => ih b (hp b)

theorem Prog.Secures.after {f : α → Prog Op R (Except ε β)}
    (hp : p.Guarded grants changes) (hf : ∀ a, (f a).Secures grants changes) :
    (p.bind f).Secures grants changes := by
  induction p with
  | pure a => exact hf a
  | op o k ih => exact ⟨hp.1, fun r => (hp.2 r).imp id fun h => ih r h⟩
  | choose k ih => exact fun b => ih b (hp b)

variable {P : Op → Prop} {o : Op}

variable {answer : R o → Except ε α}

/-! ## Functions that may fail -/

namespace Fallible

/-- A function that changes nothing before a grant. -/
def Guarded (grants : (Σ o : Op, R o) → Prop) (changes : Op → Prop) (q : Fallible ε Op R α) :
    Prop :=
  (Task.flatten q.run).Guarded grants changes

variable {q : Fallible ε Op R α}

theorem Guarded.of_uses (h : Fallible.Uses (fun o => ¬changes o) q) :
    Guarded grants changes q := Prog.Guarded.of_uses (Task.Uses.flatten h)

variable {f : α → Fallible ε Op R β}

theorem Guarded.bind (hq : Guarded grants changes q) (hf : ∀ a, Guarded grants changes (f a)) :
    Guarded grants changes (q >>= f) := by
  show (Task.flatten (Task.bind q.run _)).Guarded grants changes
  rw [Task.flatten_bind]
  refine Prog.Guarded.bind hq fun r => ?_
  cases r with
  | ok a => exact hf a
  | error e => trivial

/-- A function that changes nothing before a grant and succeeds only after one. -/
def Secures (grants : (Σ o : Op, R o) → Prop) (changes : Op → Prop) (q : Fallible ε Op R α) :
    Prop :=
  (Task.flatten q.run).Secures grants changes

/-- An operation whose reply may be a refusal. -/
def ask (o : Op) (answer : R o → Except ε α) : Fallible ε Op R α :=
  ExceptT.mk (.op o fun r => .pure (answer r))

theorem uses_ask (h : P o) : Uses P (ask o answer : Fallible ε Op R α) := ⟨h, fun _ => trivial⟩

theorem secures_ask (ho : ¬changes o) (h : ∀ r a, answer r = .ok a → grants ⟨o, r⟩) :
    Secures grants changes (ask o answer : Fallible ε Op R α) := by
  refine ⟨ho, fun r => ?_⟩
  show _ ∨ (Prog.pure (answer r) : Prog Op R (Except ε α)).Secures grants changes
  cases hr : answer r with
  | ok a => exact .inl (h r a hr)
  | error e => exact .inr trivial

/-- What secures a function secures all that follows. -/
theorem Secures.guarded (hq : Secures grants changes q) : Guarded grants changes (q >>= f) := by
  show (Task.flatten (Task.bind q.run _)).Guarded grants changes
  rw [Task.flatten_bind]
  exact Prog.Secures.guarded hq fun e => trivial

theorem Secures.bind (hq : Secures grants changes q) : Secures grants changes (q >>= f) := by
  show (Task.flatten (Task.bind q.run _)).Secures grants changes
  rw [Task.flatten_bind]
  exact Prog.Secures.bind hq fun e => trivial

theorem Secures.after (hq : Guarded grants changes q) (hf : ∀ a, Secures grants changes (f a)) :
    Secures grants changes (q >>= f) := by
  show (Task.flatten (Task.bind q.run _)).Secures grants changes
  rw [Task.flatten_bind]
  refine Prog.Secures.after hq fun r => ?_
  cases r with
  | ok a => exact hf a
  | error e => trivial

end Fallible

/-! ## Programs over more operations -/

/-- A task over other operations. -/
def Task.embed (e : Op → Op') (reply : ∀ o, R' (e o) → R o) {α : Type} :
    Task Op R α → Task Op' R' α
  | .pure a => .pure a
  | .op o k => .op (e o) fun r => (k (reply o r)).embed e reply
  | .choose k => .choose fun b => (k b).embed e reply
  | .fork p q k => .fork (p.embed e reply) (q.embed e reply) fun a b => (k a b).embed e reply

theorem Task.Uses.embed {e : Op → Op'} {reply : ∀ o, R' (e o) → R o}
    {Q : Op' → Prop} (h : ∀ o, P o → Q (e o)) {q : Task Op R α} (hq : q.Uses P) :
    (q.embed e reply).Uses Q := by
  induction q with
  | pure a => trivial
  | op o k ih => exact ⟨h o hq.1, fun r => ih _ (hq.2 _)⟩
  | choose k ih => exact fun b => ih b (hq b)
  | fork p q k ihp ihq ih => exact ⟨ihp hq.1, ihq hq.2.1, fun a b => ih a b (hq.2.2 a b)⟩

/-- A function over other operations. -/
def Fallible.embed (e : Op → Op') (reply : ∀ o, R' (e o) → R o) (q : Fallible ε Op R α) :
    Fallible ε Op' R' α :=
  ExceptT.mk (Task.embed e reply q.run)

theorem Fallible.Uses.embed {e : Op → Op'} {reply : ∀ o, R' (e o) → R o}
    {Q : Op' → Prop} (h : ∀ o, P o → Q (e o)) {q : Fallible ε Op R α}
    (hq : Fallible.Uses P q) : Fallible.Uses Q (Fallible.embed e reply q) :=
  Task.Uses.embed h hq

/-! ## What a program can come to -/

/-- A run of a task, without sub-tasks that run concurrently, can return `a`. -/
def Task.CanAnswer {α : Type} : Task Op R α → α → Prop
  | .pure b, a => b = a
  | .op _ k, a => ∃ r, (k r).CanAnswer a
  | .choose k, a => ∃ b, (k b).CanAnswer a
  | .fork .., _ => False

/-- A run of a task, without sub-tasks that run concurrently, can change something. -/
def Task.CanChange {α : Type} (changes : Op → Prop) : Task Op R α → Prop
  | .pure _ => False
  | .op o k => changes o ∧ Nonempty (R o) ∨ ∃ r, (k r).CanChange changes
  | .choose k => ∃ b, (k b).CanChange changes
  | .fork .. => False

variable {a : α}

namespace Task

variable {p : Task Op R α} {f : α → Task Op R β}

theorem CanAnswer.bind {b : β} (hp : p.CanAnswer a) (hf : (f a).CanAnswer b) :
    (p.bind f).CanAnswer b := by
  induction p with
  | pure c => exact (show c = a from hp) ▸ hf
  | op o k ih => exact hp.imp fun r hr => ih r hr hf
  | choose k ih => exact hp.imp fun c hc => ih c hc hf
  | fork => exact hp.elim

theorem CanChange.bind (hp : p.CanAnswer a) (hf : (f a).CanChange changes) :
    (p.bind f).CanChange changes := by
  induction p with
  | pure c => exact (show c = a from hp) ▸ hf
  | op o k ih => exact .inr (hp.imp fun r hr => ih r hr hf)
  | choose k ih => exact hp.imp fun c hc => ih c hc hf
  | fork => exact hp.elim

theorem CanChange.left (hp : p.CanChange changes) : (p.bind f).CanChange changes := by
  induction p with
  | pure c => exact hp.elim
  | op o k ih => exact hp.imp id fun h => h.imp fun r hr => ih r hr
  | choose k ih => exact hp.imp fun c hc => ih c hc
  | fork => exact hp.elim

/-- A task that can change something does so on a trace. -/
theorem CanChange.trace (hp : p.CanChange changes) :
    ∃ t, p.flatten.Trace t ∧ ∃ e ∈ t, changes e.1 := by
  induction p with
  | pure c => exact hp.elim
  | op o k ih =>
    rcases hp with ⟨hc, ⟨r⟩⟩ | ⟨r, hr⟩
    · exact ⟨[⟨o, r⟩], .op r (.nil _), ⟨o, r⟩, mem_singleton_self _, hc⟩
    · obtain ⟨t, ht, e, he, hc⟩ := ih r hr
      exact ⟨_, .op r ht, e, mem_cons_of_mem _ he, hc⟩
  | choose k ih =>
    obtain ⟨b, hb⟩ := hp
    obtain ⟨t, ht, hc⟩ := ih b hb
    exact ⟨t, .choose b ht, hc⟩
  | fork => exact hp.elim

variable {e : Op → Op'} {reply : ∀ o, R' (e o) → R o}

theorem CanAnswer.embed (back : ∀ o r, ∃ r', reply o r' = r) (hp : p.CanAnswer a) :
    (p.embed e reply).CanAnswer a := by
  induction p with
  | pure c => exact hp
  | op o k ih =>
    obtain ⟨r, hr⟩ := hp
    obtain ⟨r', rfl⟩ := back o r
    exact ⟨r', ih _ hr⟩
  | choose k ih => exact hp.imp fun c hc => ih c hc
  | fork => exact hp.elim

theorem CanChange.embed {changes' : Op' → Prop} (back : ∀ o r, ∃ r', reply o r' = r)
    (hc : ∀ o, changes o → changes' (e o)) (hp : p.CanChange changes) :
    (p.embed e reply).CanChange changes' := by
  induction p with
  | pure c => exact hp.elim
  | op o k ih =>
    rcases hp with ⟨ho, ⟨r⟩⟩ | ⟨r, hr⟩
    · exact .inl ⟨hc o ho, ⟨(back o r).choose⟩⟩
    · obtain ⟨r', rfl⟩ := back o r
      exact .inr ⟨r', ih _ hr⟩
  | choose k ih => exact hp.imp fun c hc => ih c hc
  | fork => exact hp.elim

end Task

theorem Prog.Trace.uses (ht : p.Trace t) (hp : p.Uses P) : ∀ e ∈ t, P e.1 := by
  induction ht with
  | nil p => exact nofun
  | op r _ ih =>
    intro e he
    rcases mem_cons.mp he with rfl | he
    · exact hp.1
    · exact ih (hp.2 r) e he
  | choose b _ ih => exact ih (hp b)

namespace Fallible

/-- The function can return `a`. -/
def CanAnswer (q : Fallible ε Op R α) (a : α) : Prop := Task.CanAnswer q.run (.ok a)

/-- The function can change something. -/
def CanChange (changes : Op → Prop) (q : Fallible ε Op R α) : Prop :=
  Task.CanChange changes q.run

variable {q : Fallible ε Op R α} {f : α → Fallible ε Op R β}

theorem CanAnswer.bind {b : β} (hq : CanAnswer q a) (hf : CanAnswer (f a) b) :
    CanAnswer (q >>= f) b := Task.CanAnswer.bind hq hf

theorem CanChange.bind (hq : CanAnswer q a) (hf : CanChange changes (f a)) :
    CanChange changes (q >>= f) := Task.CanChange.bind hq hf

theorem CanChange.left (hq : CanChange changes q) : CanChange changes (q >>= f) :=
  Task.CanChange.left hq

theorem canAnswer_pure (a : α) : CanAnswer (pure a : Fallible ε Op R α) a := rfl

theorem CanAnswer.capture (hq : CanAnswer q a) :
    CanAnswer (capture q) (.ok a : Except ε α) := Task.CanAnswer.bind hq rfl

theorem canAnswer_issue (r : R o) : CanAnswer (issue o : Fallible ε Op R (R o)) r := ⟨r, rfl⟩

theorem canAnswer_attempt {fail : Bool → ε} {g : R o → Option α} (r : R o)
    (h : g r = some a) : CanAnswer (attempt fail o g : Fallible ε Op R α) a := by
  refine ⟨r, ?_⟩
  simp only [h]
  rfl

theorem canChange_attempt {fail : Bool → ε} {g : R o → Option α} (ho : changes o)
    (r : R o) : CanChange changes (attempt fail o g : Fallible ε Op R α) := .inl ⟨ho, ⟨r⟩⟩

/-- A function that can change something, and only issues operations that grant nothing, changes
    something before a grant. -/
theorem CanChange.not_guarded (hq : CanChange changes q)
    (huses : Fallible.Uses P q) (hP : ∀ e, grants e → ¬P e.1) :
    ∃ t, (Task.flatten q.run).Trace t ∧ ¬GuardedTrace grants changes t := by
  obtain ⟨t, ht, e, he, hc⟩ := Task.CanChange.trace hq
  refine ⟨t, ht, fun hguarded => ?_⟩
  obtain ⟨before, after, rfl⟩ := append_of_mem he
  obtain ⟨g, hg, hgrants⟩ := hguarded before e after rfl hc
  exact hP g hgrants (ht.uses (Task.Uses.flatten huses) g (mem_append_left _ hg))

theorem canAnswer_each {f : β → Fallible ε Op R Unit} {xs : List β}
    (h : ∀ x ∈ xs, CanAnswer (f x) ()) : CanAnswer (each f xs) () := by
  induction xs with
  | nil => exact canAnswer_pure ()
  | cons x xs ih =>
    exact (h x mem_cons_self).bind (ih fun y hy => h y (mem_cons_of_mem x hy))

end Fallible

end Lib
