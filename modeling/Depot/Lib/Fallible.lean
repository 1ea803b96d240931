import Depot.Lib.RelyGuarantee

/-!
# Tasks that may fail

Asynchronous functions that return a result or an error: an error ends the
function at the first operation whose failure it does not handle, the errors
of concurrent sub-tasks are seen once all of them are joined, and a failing
operation of a store shows up as an error that the environment picks.

Results:
* `Fallible.Uses.bind`, `Fallible.Uses.fold`, `Fallible.Uses.join`: which
  operations a composed function can issue.
* `FTriple.bind`, `FTriple.attempt`, `FTriple.fold`, `FTriple.join`: the rules
  for proofs about them.
-/

namespace Lib

open List

/-- Tasks that return an `α` or fail with an `ε`. -/
abbrev Fallible (ε Op : Type) (R : Op → Type) (α : Type) : Type 1 := ExceptT ε (Task Op R) α

namespace Fallible

variable {ε Op : Type} {R : Op → Type} {α β σ : Type}

/-- Issue an operation and return its reply. -/
def issue (o : Op) : Fallible ε Op R (R o) := ExceptT.mk (.op o fun r => .pure (.ok r))

/-- Issue an operation whose reply may be a failure; the environment decides
    which of two errors is reported. -/
def attempt (fail : Bool → ε) (o : Op) (f : R o → Option α) : Fallible ε Op R α :=
  ExceptT.mk (.op o fun r =>
    match f r with
    | some a => .pure (.ok a)
    | none => .choose fun b => .pure (.error (fail b)))

/-- Go on, or fail with `e`, as the environment decides. -/
def check (e : ε) : Fallible ε Op R Unit :=
  ExceptT.mk (.choose fun go => .pure (if go then .ok () else .error e))

/-- Run `p` and return its outcome; its errors do not propagate. -/
def capture (p : Fallible ε Op R α) : Fallible ε Op R (Except ε α) :=
  ExceptT.mk (p.run.bind fun r => .pure (.ok r))

/-- Run `p` and drop its outcome. -/
def ignore (p : Fallible ε Op R α) : Fallible ε Op R Unit :=
  ExceptT.mk (p.run.bind fun _ => .pure (.ok ()))

/-- Run `f` on the elements of a list, one after the other, threading a state. -/
def fold (f : σ → β → Fallible ε Op R σ) : List β → σ → Fallible ε Op R σ
  | [], s => pure s
  | x :: xs, s => f s x >>= fold f xs

/-- Run `f` on the elements of a list, one after the other. -/
def each (f : β → Fallible ε Op R Unit) (xs : List β) : Fallible ε Op R Unit :=
  fold (fun _ x => f x) xs ()

/-- The results of a list of outcomes, or the first error. -/
def sequence : List (Except ε α) → Except ε (List α)
  | [] => .ok []
  | .ok a :: rs => (sequence rs).map (a :: ·)
  | .error e :: _ => .error e

/-- An outcome that is already known. -/
def ofExcept (r : Except ε α) : Fallible ε Op R α := ExceptT.mk (.pure r)

/-- Run `p` and `q` concurrently, wait for both and return their outcomes. -/
def both (p : Fallible ε Op R α) (q : Fallible ε Op R β) :
    Fallible ε Op R (Except ε α × Except ε β) :=
  ExceptT.mk (.fork p.run q.run fun a b => .pure (.ok (a, b)))

/-- Run the tasks of a list concurrently and wait for all of them. A task that
    is dropped because another one has failed is one whose next operation
    fails. -/
def join (ps : List (Fallible ε Op R α)) : Fallible ε Op R (List α) :=
  ExceptT.mk ((Task.forkAll (ps.map ExceptT.run)).bind fun rs => .pure (sequence rs))

/-! ## Which operations a function can issue -/

variable {P : Op → Prop}

/-- Every operation the function can issue satisfies `P`. -/
def Uses (P : Op → Prop) (p : Fallible ε Op R α) : Prop := Task.Uses P p.run

theorem uses_pure (a : α) : Uses P (pure a : Fallible ε Op R α) := trivial

theorem uses_throw (e : ε) : Uses P (throw e : Fallible ε Op R α) := trivial

theorem uses_issue {o : Op} (h : P o) : Uses P (issue o : Fallible ε Op R (R o)) :=
  ⟨h, fun _ => trivial⟩

theorem uses_attempt {fail : Bool → ε} {o : Op} {f : R o → Option α} (h : P o) :
    Uses P (attempt fail o f) := by
  refine ⟨h, fun r => ?_⟩
  show Task.Uses P (match f r with
    | some a => Task.pure (Except.ok a)
    | none => Task.choose fun b => Task.pure (Except.error (fail b)))
  cases f r with
  | some a => trivial
  | none => exact fun _ => trivial

theorem uses_check (e : ε) : Uses P (check e : Fallible ε Op R Unit) := fun _ => trivial

theorem Uses.bind {p : Fallible ε Op R α} {f : α → Fallible ε Op R β} (hp : Uses P p)
    (hf : ∀ a, Uses P (f a)) : Uses P (p >>= f) := by
  refine Task.Uses.bind hp fun r => ?_
  cases r with
  | ok a => exact hf a
  | error e => trivial

theorem Uses.capture {p : Fallible ε Op R α} (hp : Uses P p) : Uses P (capture p) :=
  Task.Uses.bind hp fun _ => trivial

theorem Uses.ignore {p : Fallible ε Op R α} (hp : Uses P p) : Uses P (ignore p) :=
  Task.Uses.bind hp fun _ => trivial

theorem Uses.fold {f : σ → β → Fallible ε Op R σ} {xs : List β} {s : σ}
    (h : ∀ s, ∀ x ∈ xs, Uses P (f s x)) : Uses P (fold f xs s) := by
  induction xs generalizing s with
  | nil => trivial
  | cons x xs ih =>
    exact (h s x mem_cons_self).bind fun s' =>
      ih fun s y hy => h s y (mem_cons_of_mem x hy)

theorem Uses.each {f : β → Fallible ε Op R Unit} {xs : List β} (h : ∀ x ∈ xs, Uses P (f x)) :
    Uses P (each f xs) :=
  Uses.fold fun _ => h

theorem uses_ofExcept (r : Except ε α) : Uses P (ofExcept r : Fallible ε Op R α) := trivial

theorem Uses.both {p : Fallible ε Op R α} {q : Fallible ε Op R β} (hp : Uses P p)
    (hq : Uses P q) : Uses P (both p q) :=
  ⟨hp, hq, fun _ _ => trivial⟩

theorem Uses.join {ps : List (Fallible ε Op R α)} (h : ∀ p ∈ ps, Uses P p) : Uses P (join ps) := by
  refine Task.Uses.bind (Task.Uses.forkAll fun q hq => ?_) fun _ => trivial
  obtain ⟨p, hp, rfl⟩ := mem_map.mp hq
  exact h p hp

theorem Uses.mono {Q : Op → Prop} (hPQ : ∀ o, P o → Q o) {p : Fallible ε Op R α}
    (h : Uses P p) : Uses Q p := Task.Uses.mono hPQ h

end Fallible

/-! ## Triples -/

section FTriple

variable {ε Op : Type} {R : Op → Type} {S J E G : Type} {α β σ : Type}
variable (sys : System Op R S J E) (rules : Rules Op S J E) (i : ℕ) (j : J)
  (A : Contract S J G)

/-- `post` of a result, `err` after an error. -/
def outcome (post : α → View S J G → Prop) (err : View S J G → Prop) :
    Except ε α → View S J G → Prop
  | .ok a => post a
  | .error _ => err

/-- `p` keeps its contract from every state that satisfies `pre`; a result
    satisfies `post`, and `err` holds after an error. -/
def FTriple (pre : View S J G → Prop) (p : Fallible ε Op R α) (post : α → View S J G → Prop)
    (err : View S J G → Prop) : Prop :=
  Triple sys rules i j A pre p.run (outcome post err)

variable {sys rules i j A}
variable {pre pre' err err' : View S J G → Prop} {post post' : α → View S J G → Prop}

theorem FTriple.consequence {p : Fallible ε Op R α}
    (h : FTriple sys rules i j A pre' p post' err') (hpre : ∀ w, A.inv w → pre w → pre' w)
    (hpost : ∀ a w, A.inv w → post' a w → post a w) (herr : ∀ w, A.inv w → err' w → err w) :
    FTriple sys rules i j A pre p post err := by
  refine Triple.consequence h hpre fun r w hi hw => ?_
  cases r with
  | ok a => exact hpost a w hi hw
  | error e => exact herr w hi hw

/-- A precondition that does not depend on the state. -/
theorem FTriple.assume {φ : Prop} {p : Fallible ε Op R α}
    (h : φ → FTriple sys rules i j A pre p post err) :
    FTriple sys rules i j A (fun w => pre w ∧ φ) p post err :=
  fun w hi hw => h hw.2 w hi hw.1

theorem FTriple.pure {a : α} (hs : A.Stable (post a)) :
    FTriple sys rules i j A (post a) (pure a : Fallible ε Op R α) post err :=
  fun w hi hw u hu hi' => hs w u hi hi' hu hw

theorem FTriple.throw {e : ε} (hs : A.Stable err) :
    FTriple sys rules i j A err (throw e : Fallible ε Op R α) post err :=
  fun w hi hw u hu hi' => hs w u hi hi' hu hw

theorem FTriple.bind {p : Fallible ε Op R α} {f : α → Fallible ε Op R β}
    {M : α → View S J G → Prop} {post : β → View S J G → Prop} (hs : A.Stable err)
    (hp : FTriple sys rules i j A pre p M err)
    (hf : ∀ a, FTriple sys rules i j A (M a) (f a) post err) :
    FTriple sys rules i j A pre (p >>= f) post err := by
  refine Triple.bind hp fun r => ?_
  cases r with
  | ok a => exact hf a
  | error e => exact FTriple.throw (α := β) hs

/-- A conditional before the rest of a function. -/
theorem FTriple.when {c : Prop} [Decidable c] {p : Fallible ε Op R PUnit}
    {f : PUnit → Fallible ε Op R β} {M : View S J G → Prop} {post : β → View S J G → Prop}
    (hs : A.Stable err) (hp : c → FTriple sys rules i j A pre p (fun _ => M) err)
    (hpre : ¬c → ∀ w, A.inv w → pre w → M w)
    (hf : ∀ u, FTriple sys rules i j A M (f u) post err) :
    FTriple sys rules i j A pre (if c then p >>= f else f ⟨⟩) post err := by
  split_ifs with hc
  · exact FTriple.bind hs (hp hc) hf
  · exact Triple.weaken_pre (hf _) (hpre hc)

/-- An operation that cannot fail. -/
theorem FTriple.issue {o : Op} {post : R o → View S J G → Prop} (hpre : A.Stable pre)
    (hpost : ∀ r, A.Stable (post r))
    (h : ∀ w b s r, A.inv w → pre w → rules.op i j w.shared o b = true →
      sys.exec i j o b w.shared = some (s, r) →
      ∃ g, A.inv ⟨s, w.jobs, g⟩ ∧ A.guar w ⟨s, w.jobs, g⟩ ∧ post r ⟨s, w.jobs, g⟩) :
    FTriple sys rules i j A pre (Fallible.issue o : Fallible ε Op R (R o)) post err :=
  Triple.op hpre h fun r => FTriple.pure (hpost r)

/-- An operation that may fail. -/
theorem FTriple.attempt {fail : Bool → ε} {o : Op} {f : R o → Option α} (hpre : A.Stable pre)
    (hpost : ∀ a, A.Stable (post a)) (hs : A.Stable err)
    (h : ∀ w b s r, A.inv w → pre w → rules.op i j w.shared o b = true →
      sys.exec i j o b w.shared = some (s, r) →
      ∃ g, A.inv ⟨s, w.jobs, g⟩ ∧ A.guar w ⟨s, w.jobs, g⟩ ∧
        (∀ a, f r = some a → post a ⟨s, w.jobs, g⟩) ∧ (f r = none → err ⟨s, w.jobs, g⟩)) :
    FTriple sys rules i j A pre (Fallible.attempt fail o f) post err := by
  refine Triple.op (M := fun r w =>
    (∀ a, f r = some a → post a w) ∧ (f r = none → err w)) hpre h fun r => ?_
  cases hr : f r with
  | some a => exact Triple.weaken_pre (FTriple.pure (hpost a)) fun w _ hw => hw.1 a rfl
  | none =>
    exact Triple.choose fun b =>
      Triple.weaken_pre (FTriple.throw (α := α) (e := fail b) hs) fun w _ hw => hw.2 rfl

theorem FTriple.check {e : ε} (hs : A.Stable pre) :
    FTriple sys rules i j A pre (Fallible.check e : Fallible ε Op R Unit) (fun _ => pre) pre := by
  refine Triple.choose fun go => ?_
  cases go with
  | true => exact fun w hi hw u hu hi' => hs w u hi hi' hu hw
  | false => exact FTriple.throw (α := Unit) hs

theorem FTriple.capture {p : Fallible ε Op R α} {Q : Except ε α → View S J G → Prop}
    (hs : ∀ r, A.Stable (Q r))
    (hp : FTriple sys rules i j A pre p (fun a => Q (.ok a)) (fun w => ∀ e, Q (.error e) w)) :
    FTriple sys rules i j A pre (Fallible.capture p) Q err := by
  refine Triple.bind (M := Q) (Triple.weaken_post hp fun r w _ hw => ?_) fun r =>
    FTriple.pure (hs r)
  cases r with
  | ok a => exact hw
  | error e => exact hw e

theorem FTriple.ignore {p : Fallible ε Op R α} {Q : View S J G → Prop} (hs : A.Stable Q)
    (hp : FTriple sys rules i j A pre p (fun _ => Q) Q) :
    FTriple sys rules i j A pre (Fallible.ignore p) (fun _ => Q) err := by
  refine Triple.bind (M := fun _ => Q) (Triple.weaken_post hp fun r w _ hw => ?_) fun r w hi hw u
    hu hi' => hs w u hi hi' hu hw
  cases r <;> exact hw

/-- A loop: `I done s` holds once the elements `done` are done and the state
    is `s`. -/
theorem FTriple.fold {f : σ → β → Fallible ε Op R σ} {xs : List β} {s : σ}
    {I : List β → σ → View S J G → Prop} (hs : ∀ s, A.Stable (I xs s)) (herr : A.Stable err)
    (h : ∀ done x rest s, xs = done ++ x :: rest →
      FTriple sys rules i j A (I done s) (f s x) (I (done ++ [x])) err) :
    FTriple sys rules i j A (I [] s) (Fallible.fold f xs s) (I xs) err := by
  suffices hgen : ∀ rest done s, xs = done ++ rest →
      FTriple sys rules i j A (I done s) (Fallible.fold f rest s) (I xs) err from
    hgen xs [] s rfl
  intro rest
  induction rest with
  | nil =>
    rintro done s rfl
    rw [append_nil] at hs ⊢
    exact FTriple.pure (hs s)
  | cons x rest ih =>
    intro done s hxs
    exact (h done x rest s hxs).bind herr fun s' => ih (done ++ [x]) s' (by simpa using hxs)

theorem FTriple.each {f : β → Fallible ε Op R Unit} {xs : List β}
    {I : List β → View S J G → Prop} (hs : A.Stable (I xs)) (herr : A.Stable err)
    (h : ∀ done x rest, xs = done ++ x :: rest →
      FTriple sys rules i j A (I done) (f x) (fun _ => I (done ++ [x])) err) :
    FTriple sys rules i j A (I []) (Fallible.each f xs) (fun _ => I xs) err :=
  FTriple.fold (I := fun done _ => I done) (fun _ => hs) herr fun done x rest _ => h done x rest

/-- What each outcome satisfies, the joined outcome satisfies. -/
theorem outcome_sequence {xs : List β} {rs : List (Except ε α)} {post : β → α → View S J G → Prop}
    {errs : β → View S J G → Prop} {w : View S J G}
    (h : Forall₂ (fun x r => outcome (post x) (errs x) r w) xs rs) :
    outcome (fun as w => Forall₂ (fun x a => post x a w) xs as) (fun w => ∃ x ∈ xs, errs x w)
      (Fallible.sequence rs) w := by
  induction h with
  | nil => exact Forall₂.nil
  | @cons x r xs rs hx _ ih =>
    cases r with
    | error e => exact ⟨x, mem_cons_self, hx⟩
    | ok a =>
      simp only [Fallible.sequence]
      cases hrs : Fallible.sequence rs with
      | ok as =>
        rw [hrs] at ih
        exact Forall₂.cons hx ih
      | error e =>
        rw [hrs] at ih
        obtain ⟨y, hy, herr⟩ := ih
        exact ⟨y, mem_cons_of_mem x hy, herr⟩

theorem FTriple.part {B : Contract S J G} (hB : B.Part A) {p : Fallible ε Op R α}
    (h : FTriple sys rules i j B pre p post err) : FTriple sys rules i j A pre p post err :=
  Triple.part hB h

/-- What neither the others nor `p` disturb can be carried along. -/
theorem FTriple.frame {F : View S J G → Prop} (hF : A.Stable F)
    (hG : ∀ w w', A.inv w → A.inv w' → A.guar w w' → F w → F w') {p : Fallible ε Op R α}
    (h : FTriple sys rules i j A pre p post err) :
    FTriple sys rules i j A (fun w => F w ∧ pre w) p (fun a w => F w ∧ post a w) err := by
  refine Triple.weaken_post (Triple.frame hF hG h) fun r w _ hw => ?_
  cases r with
  | ok a => exact hw
  | error e => exact hw.2

/-- What neither the others nor the operations of `p` disturb can be carried along. -/
theorem FTriple.frame_uses {P : Op → Prop} {F : View S J G → Prop} (hF : A.Stable F)
    (hop : ∀ o u b s r g, P o → A.inv u → F u → sys.exec i j o b u.shared = some (s, r) →
      A.inv ⟨s, u.jobs, g⟩ → F ⟨s, u.jobs, g⟩)
    {p : Fallible ε Op R α} (hp : Fallible.Uses P p) (h : FTriple sys rules i j A pre p post err) :
    FTriple sys rules i j A (fun w => F w ∧ pre w) p (fun a w => F w ∧ post a w) err := by
  intro w hi hw
  refine Safe.weaken (Safe.frame_uses hF hop hp.flatten hi hw.1 (h w hi hw.2)) fun r u _ hu => ?_
  cases r with
  | ok a => exact hu
  | error e => exact hu.2

theorem FTriple.ofExcept {r : Except ε α} (hs : A.Stable (outcome post err r)) :
    FTriple sys rules i j A (outcome post err r) (Fallible.ofExcept r) post err :=
  fun w hi hw u hu hi' => hs w u hi hi' hu hw

/-- Concurrent functions, one for each element of a list. -/
theorem FTriple.join {B : β → Contract S J G} {xs : List β} (hB : A.Parts B xs)
    {f : β → Fallible ε Op R α} {post : β → α → View S J G → Prop}
    {errs : β → View S J G → Prop} (hs : ∀ x a, (B x).Stable (post x a))
    (hes : ∀ x, (B x).Stable (errs x))
    (h : ∀ x ∈ xs, FTriple sys rules i j (B x) pre (f x) (post x) (errs x)) :
    FTriple sys rules i j A pre (Fallible.join (xs.map f))
      (fun as w => Forall₂ (fun x a => post x a w) xs as) (fun w => ∃ x ∈ xs, errs x w) := by
  have hstab : ∀ x r, (B x).Stable (outcome (ε := ε) (post x) (errs x) r) := fun x r => by
    cases r with
    | ok a => exact hs x a
    | error e => exact hes x
  have hall := Triple.forkAll hB (f := fun x => (f x).run) hstab h
  rw [Fallible.join, map_map]
  refine Triple.bind hall fun rs => ?_
  intro u hiu hu v hv hiv
  have hmem := (forall₂_and_left (p := (· ∈ xs)) xs rs).mpr ⟨fun _ h => h, hu⟩
  refine outcome_sequence (hmem.imp fun x r ⟨hx, hr⟩ => ?_)
  have hpart := hB.part x hx
  exact hstab x r u v ((hpart.inv u).mpr hiu) ((hpart.inv v).mpr hiv) (hpart.rely u v hv) hr

/-- Two concurrent functions of which one does only what all tasks, this one
    included, tolerate. -/
theorem FTriple.both_background {P : Op → Prop} {p : Fallible ε Op R β} {q : Fallible ε Op R α}
    (hP : ∀ o w b s r, P o → A.inv w → rules.op i j w.shared o b = true →
      sys.exec i j o b w.shared = some (s, r) →
      ∃ g, A.inv ⟨s, w.jobs, g⟩ ∧ A.guar w ⟨s, w.jobs, g⟩ ∧ A.rely w ⟨s, w.jobs, g⟩)
    (hp : Fallible.Uses P p) (hpost : ∀ a, A.Stable (post a)) (herr : A.Stable err)
    (hq : FTriple sys rules i j A pre q post err) :
    FTriple sys rules i j A pre (Fallible.both p q) (fun r => outcome post err r.2) err' := by
  let B : Contract S J G :=
    { A with
      rely := fun _ _ => True
      guar := fun w w' => A.guar w w' ∧ A.rely w w'
      rely_refl := fun _ => trivial
      rely_trans := fun _ _ => trivial }
  have hB : B.Part A := ⟨fun _ => Iff.rfl, fun _ _ _ => trivial, fun _ _ h => h.1⟩
  have hp' : Triple sys rules i j B pre p.run fun _ _ => True := by
    refine Triple.consequence (Triple.uses (I := fun _ => True) (fun _ _ _ _ _ _ => trivial)
      (fun o w b s r ho hi _ hr hx => ?_) hp) (fun _ _ _ => trivial) fun _ _ _ h => h
    obtain ⟨g, hi', hg, hrel⟩ := hP o w b s r ho hi hr hx
    exact ⟨g, hi', ⟨hg, hrel⟩, trivial⟩
  refine Triple.fork hB (Contract.Part.refl A) (fun _ _ _ _ _ => trivial)
    (fun _ _ _ _ hg => hg.2) hp' hq fun a b => ?_
  intro w hi hw u hu hi'
  cases b with
  | ok b => exact hpost b w u hi hi' hu hw.2
  | error e => exact herr w u hi hi' hu hw.2

/-- A function whose operations all keep the contract and `I` keeps them. -/
theorem FTriple.uses {P : Op → Prop} {I : View S J G → Prop} (hs : A.Stable I)
    (h : ∀ o w b s r, P o → A.inv w → I w → rules.op i j w.shared o b = true →
      sys.exec i j o b w.shared = some (s, r) →
      ∃ g, A.inv ⟨s, w.jobs, g⟩ ∧ A.guar w ⟨s, w.jobs, g⟩ ∧ I ⟨s, w.jobs, g⟩)
    {p : Fallible ε Op R α} (hp : Fallible.Uses P p) : FTriple sys rules i j A I p (fun _ => I) I :=
  Triple.weaken_post (Triple.uses hs h hp) fun r w _ hw => by cases r <;> exact hw

end FTriple

end Lib
