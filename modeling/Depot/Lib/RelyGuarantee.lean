import Depot.Lib.Pool
import Mathlib.Data.List.Forall2

/-!
# Rely-guarantee reasoning for pools

A proof about a pool keeps an invariant of the shared state, of the jobs that
are running and of a ghost value that only the proof sees. Each task is
verified once: its program is followed operation by operation, between two
operations anything the other tasks are allowed to do may happen (`rely`), and
every own step has to keep the invariant and to do only what the others expect
(`guar`).

Results:
* `Safe.bind`, `Safe.par`: the program constructs.
* `Triple.op`, `Triple.bind`, `Triple.forEach`, `Triple.forkAll`, `Triple.uses`:
  the rules proofs about programs are assembled from.
* `Logic.Sound.run_inv`, `Logic.Sound.run_post`: the invariant holds after every
  run, and the postcondition of every task that has returned.
-/

namespace Lib

open List

/-- What a proof sees of a pool: the shared state, the running jobs and a
    ghost value. -/
structure View (S J G : Type) where
  shared : S
  jobs : List (Option J)
  ghost : G

/-- The obligations of one task: the invariant, what the other tasks may do
    between two of its steps, and what its own steps may do. -/
structure Contract (S J G : Type) where
  inv : View S J G → Prop
  rely : View S J G → View S J G → Prop
  guar : View S J G → View S J G → Prop
  rely_refl : ∀ w, rely w w
  rely_trans : ∀ {w w' w''}, rely w w' → rely w' w'' → rely w w''

section Safe

variable {Op : Type} {R : Op → Type} {S J E G : Type} {α β : Type}
variable (sys : System Op R S J E) (rules : Rules Op S J E) (i : ℕ) (j : J)
  (A : Contract S J G)

/-- `p`, run for job `j` from `w`, keeps its contract in every interleaving,
    and the result satisfies `Q` if it returns. -/
def Safe : Prog Op R α → (α → View S J G → Prop) → View S J G → Prop
  | .pure a, Q, w => ∀ w', A.rely w w' → A.inv w' → Q a w'
  | .op o k, Q, w => ∀ w', A.rely w w' → A.inv w' → ∀ b s r,
      rules.op i j w'.shared o b = true → sys.exec i j o b w'.shared = some (s, r) →
        ∃ g, A.inv ⟨s, w'.jobs, g⟩ ∧ A.guar w' ⟨s, w'.jobs, g⟩ ∧ Safe (k r) Q ⟨s, w'.jobs, g⟩
  | .choose k, Q, w => ∀ b, Safe (k b) Q w

variable {sys rules i j A}

theorem Safe.stable {p : Prog Op R α} {Q : α → View S J G → Prop} {w w' : View S J G}
    (h : Safe sys rules i j A p Q w) (hr : A.rely w w') : Safe sys rules i j A p Q w' := by
  induction p with
  | pure a => exact fun u hu => h u (A.rely_trans hr hu)
  | op o k ih => exact fun u hu => h u (A.rely_trans hr hu)
  | choose k ih => exact fun b => ih b (h b)

variable {w : View S J G} {p : Prog Op R α}

theorem Safe.weaken {Q Q' : α → View S J G → Prop}
    (h : Safe sys rules i j A p Q w) (hQ : ∀ a u, A.inv u → Q a u → Q' a u) :
    Safe sys rules i j A p Q' w := by
  induction p generalizing w with
  | pure a => exact fun u hu hi => hQ a u hi (h u hu hi)
  | op o k ih =>
    intro u hu hi b s r ha hx
    obtain ⟨g, hi', hg, hs⟩ := h u hu hi b s r ha hx
    exact ⟨g, hi', hg, ih r hs⟩
  | choose k ih => exact fun b => ih b (h b)

variable {Q : α → View S J G → Prop}

/-- The result's assertion survives what the others do afterwards. -/
theorem Safe.closed (h : Safe sys rules i j A p Q w) :
    Safe sys rules i j A p (fun a u => ∀ u', A.rely u u' → A.inv u' → Q a u') w := by
  induction p generalizing w with
  | pure a => exact fun u hu _ u' hu' hi' => h u' (A.rely_trans hu hu') hi'
  | op o k ih =>
    intro u hu hi b s r ha hx
    obtain ⟨g, hi', hg, hs⟩ := h u hu hi b s r ha hx
    exact ⟨g, hi', hg, ih r hs⟩
  | choose k ih => exact fun b => ih b (h b)

/-- A task that keeps a stricter contract keeps a looser one. -/
theorem Safe.mono {A' : Contract S J G}
    (h : Safe sys rules i j A p Q w) (hinv : ∀ u, A'.inv u ↔ A.inv u)
    (hrely : ∀ u u', A'.rely u u' → A.rely u u') (hguar : ∀ u u', A.guar u u' → A'.guar u u') :
    Safe sys rules i j A' p Q w := by
  induction p generalizing w with
  | pure a => exact fun u hu hi => h u (hrely w u hu) ((hinv u).mp hi)
  | op o k ih =>
    intro u hu hi b s r ha hx
    obtain ⟨g, hi', hg, hs⟩ := h u (hrely w u hu) ((hinv u).mp hi) b s r ha hx
    exact ⟨g, (hinv _).mpr hi', hguar _ _ hg, ih r hs⟩
  | choose k ih => exact fun b => ih b (h b)

theorem Safe.bind {p : Prog Op R α} {f : α → Prog Op R β} {Q : β → View S J G → Prop}
    {w : View S J G} (hw : A.inv w)
    (h : Safe sys rules i j A p (fun a u => Safe sys rules i j A (f a) Q u) w) :
    Safe sys rules i j A (p.bind f) Q w := by
  induction p generalizing w with
  | pure a => exact h w (A.rely_refl w) hw
  | op o k ih =>
    intro u hu hi b s r ha hx
    obtain ⟨g, hi', hg, hs⟩ := h u hu hi b s r ha hx
    exact ⟨g, hi', hg, ih r hi' hs⟩
  | choose k ih => exact fun b => ih b hw (h b)

/-- What neither the others nor the task itself disturb holds at its end. -/
theorem Safe.frame {F : View S J G → Prop}
    (hrely : ∀ u u', A.inv u → A.inv u' → A.rely u u' → F u → F u')
    (hguar : ∀ u u', A.inv u → A.inv u' → A.guar u u' → F u → F u') (hw : A.inv w) (hF : F w)
    (h : Safe sys rules i j A p Q w) : Safe sys rules i j A p (fun a u => F u ∧ Q a u) w := by
  induction p generalizing w with
  | pure a => exact fun u hu hi => ⟨hrely w u hw hi hu hF, h u hu hi⟩
  | op o k ih =>
    intro u hu hi b s r ha hx
    obtain ⟨g, hi', hg, hs⟩ := h u hu hi b s r ha hx
    exact ⟨g, hi', hg, ih r hi' (hguar _ _ hi hi' hg (hrely w u hw hi hu hF)) hs⟩
  | choose k ih => exact fun b => ih b hw hF (h b)

/-- What the others leave alone, and the operations of the task too, holds at its end. -/
theorem Safe.frame_uses {P : Op → Prop} {F : View S J G → Prop}
    (hrely : ∀ u u', A.inv u → A.inv u' → A.rely u u' → F u → F u')
    (hop : ∀ o u b s r g, P o → A.inv u → F u → sys.exec i j o b u.shared = some (s, r) →
      A.inv ⟨s, u.jobs, g⟩ → F ⟨s, u.jobs, g⟩)
    (hp : p.Uses P) (hw : A.inv w) (hF : F w) (h : Safe sys rules i j A p Q w) :
    Safe sys rules i j A p (fun a u => F u ∧ Q a u) w := by
  induction p generalizing w with
  | pure a => exact fun u hu hi => ⟨hrely w u hw hi hu hF, h u hu hi⟩
  | op o k ih =>
    intro u hu hi b s r ha hx
    obtain ⟨g, hi', hg, hs⟩ := h u hu hi b s r ha hx
    have hF' := hop o u b s r g hp.1 hi (hrely w u hw hi hu hF) hx hi'
    exact ⟨g, hi', hg, ih r (hp.2 r) hi' hF' hs⟩
  | choose k ih => exact fun b => ih b (hp b) hw hF (h b)

/-! ### Interleaved sub-tasks -/

/-- `B` is a contract for a sub-task of a task that keeps `A`. -/
structure Contract.Part (B A : Contract S J G) : Prop where
  inv : ∀ u, B.inv u ↔ A.inv u
  rely : ∀ u u', A.rely u u' → B.rely u u'
  guar : ∀ u u', B.guar u u' → A.guar u u'

/-- Tasks that keep `C` tolerate the steps of tasks that keep `B`. -/
def Contract.Tolerates (C B : Contract S J G) : Prop :=
  ∀ u u', B.inv u → B.inv u' → B.guar u u' → C.rely u u'

theorem Contract.Part.refl (A : Contract S J G) : A.Part A :=
  ⟨fun _ => Iff.rfl, fun _ _ h => h, fun _ _ h => h⟩

variable {B C : Contract S J G}

theorem Safe.part (hB : B.Part A) (h : Safe sys rules i j B p Q w) : Safe sys rules i j A p Q w :=
  h.mono (fun u => (hB.inv u).symm) hB.rely hB.guar

/-- The right operand moves while the left one, safe for `P`, waits. -/
theorem Safe.interleave {γ : Type} (hB : B.Part A) (hC : C.Part A) (htol : B.Tolerates C)
    {p : Prog Op R α} {P : α → View S J G → Prop} {Q : β → View S J G → Prop}
    {T : γ → View S J G → Prop} {stepL : Prog Op R β → Prog Op R γ} {fin : β → Prog Op R γ}
    (hstep : ∀ q u, A.inv u → Safe sys rules i j B p P u → Safe sys rules i j C q Q u →
      Safe sys rules i j A (stepL q) T u)
    (hfin : ∀ b u, A.inv u → Safe sys rules i j B p P u → Safe sys rules i j C (.pure b) Q u →
      Safe sys rules i j A (fin b) T u)
    {q : Prog Op R β} {w : View S J G} (hw : A.inv w) (hp : Safe sys rules i j B p P w)
    (hq : Safe sys rules i j C q Q w) : Safe sys rules i j A (Prog.interleave stepL fin q) T w := by
  induction q generalizing w with
  | pure b => exact hfin b w hw hp hq
  | op o k ih =>
    intro left
    cases left with
    | true => exact hstep _ w hw hp hq
    | false =>
      intro u hu hi b s r ha hx
      have hiC := (hC.inv u).mpr hi
      obtain ⟨g, hi', hg, hs⟩ := hq u (hC.rely w u hu) hiC b s r ha hx
      have hp' := (hp.stable (hB.rely w u hu)).stable (htol _ _ hiC hi' hg)
      have hiA := (hC.inv _).mp hi'
      exact ⟨g, hiA, hC.guar _ _ hg, ih r hiA hp' hs⟩
  | choose k ih =>
    intro left
    cases left with
    | true => exact hstep _ w hw hp hq
    | false => exact fun b => ih b hw hp (hq b)

/-- Once one sub-task, under contract `B`, has returned, what its result says is
    a frame for the other one, which runs alone. -/
theorem Safe.par_rest {γ : Type} (hB : B.Part A) (hC : C.Part A) (htol : B.Tolerates C)
    {P : View S J G → Prop} {q : Prog Op R β} {Q : β → View S J G → Prop} {mk : β → γ}
    {T : γ → View S J G → Prop} (hT : ∀ b u, P u → Q b u → T (mk b) u)
    (hw : A.inv w) (hp : ∀ u, B.rely w u → A.inv u → P u) (hq : Safe sys rules i j C q Q w) :
    Safe sys rules i j A (q.bind fun b => .pure (mk b)) T w := by
  let D : Contract S J G := { A with guar := C.guar }
  have hD : Safe sys rules i j D q Q w :=
    hq.mono (fun u => (hC.inv u).symm) hC.rely fun _ _ h => h
  have hframe := Safe.frame (A := D) (F := fun u => ∀ u', B.rely u u' → A.inv u' → P u')
    (fun u u' _ _ hr hF v hv hiv => hF v (B.rely_trans (hB.rely _ _ hr) hv) hiv)
    (fun u u' hi hi' hg hF v hv hiv =>
      hF v (B.rely_trans (htol u u' ((hC.inv u).mpr hi) ((hC.inv u').mpr hi') hg) hv) hiv)
    hw hp hD.closed
  have hA : Safe sys rules i j A q _ w :=
    hframe.mono (fun _ => Iff.rfl) (fun _ _ h => h) hC.guar
  refine Safe.bind hw (hA.weaken fun b u _ h v hv hiv => ?_)
  exact hT b v (h.1 v (hB.rely _ _ hv) hiv) (h.2 v hv hiv)

/-- Two sub-tasks may be interleaved when each tolerates the other's steps. -/
theorem Safe.par (hB : B.Part A) (hC : C.Part A) (hBC : B.Tolerates C) (hCB : C.Tolerates B)
    {p : Prog Op R α} {q : Prog Op R β} {P : α → View S J G → Prop}
    {Q : β → View S J G → Prop} {w : View S J G} (hw : A.inv w)
    (hp : Safe sys rules i j B p P w) (hq : Safe sys rules i j C q Q w) :
    Safe sys rules i j A (p.par q) (fun x u => P x.1 u ∧ Q x.2 u) w := by
  induction p generalizing q w with
  | pure a =>
    exact Safe.par_rest hB hC hBC (fun b u h h' => ⟨h, h'⟩) hw
      (fun u hr hi => hp u hr ((hB.inv u).mpr hi)) hq
  | op o k ih =>
    refine Safe.interleave hB hC hBC (fun q' u hu hl hr => ?_) (fun b u hu hl hr => ?_) hw hp hq
    · intro v hv hi c s r ha hx
      have hiB := (hB.inv v).mpr hi
      obtain ⟨g, hi', hg, hs⟩ := hl v (hB.rely u v hv) hiB c s r ha hx
      have hr' := (hr.stable (hC.rely u v hv)).stable (hCB _ _ hiB hi' hg)
      have hiA := (hB.inv _).mp hi'
      exact ⟨g, hiA, hB.guar _ _ hg, ih r hiA hs hr'⟩
    · exact Safe.par_rest hC hB hCB (fun a u h h' => ⟨h', h⟩) hu
        (fun v hv hi => hr v hv ((hC.inv v).mpr hi)) hl
  | choose k ih =>
    refine Safe.interleave hB hC hBC (fun q' u hu hl hr => ?_) (fun b u hu hl hr => ?_) hw hp hq
    · exact fun c => ih c hu (hl c) hr
    · exact Safe.par_rest hC hB hCB (fun a u h h' => ⟨h', h⟩) hu
        (fun v hv hi => hr v hv ((hC.inv v).mpr hi)) hl

end Safe

/-! ## Triples -/

section Triple

variable {Op : Type} {R : Op → Type} {S J E G : Type} {α β γ : Type}
variable (sys : System Op R S J E) (rules : Rules Op S J E) (i : ℕ) (j : J)
  (A : Contract S J G)

/-- `p` keeps its contract from every state that satisfies `pre`, and its
    result satisfies `post`. -/
def Triple (pre : View S J G → Prop) (p : Task Op R α) (post : α → View S J G → Prop) : Prop :=
  ∀ w, A.inv w → pre w → Safe sys rules i j A p.flatten post w

/-- The other tasks do not invalidate `P`. -/
def Contract.Stable (P : View S J G → Prop) : Prop :=
  ∀ w w', A.inv w → A.inv w' → A.rely w w' → P w → P w'

variable {sys rules i j A}
variable {pre pre' : View S J G → Prop} {post post' : α → View S J G → Prop}

variable {p : Task Op R α}

theorem Triple.consequence (h : Triple sys rules i j A pre' p post')
    (hpre : ∀ w, A.inv w → pre w → pre' w)
    (hpost : ∀ a w, A.inv w → post' a w → post a w) : Triple sys rules i j A pre p post :=
  fun w hi hw => (h w hi (hpre w hi hw)).weaken hpost

theorem Triple.weaken_pre (h : Triple sys rules i j A pre' p post)
    (hpre : ∀ w, A.inv w → pre w → pre' w) : Triple sys rules i j A pre p post :=
  h.consequence hpre fun _ _ _ hw => hw

theorem Triple.weaken_post (h : Triple sys rules i j A pre p post')
    (hpost : ∀ a w, A.inv w → post' a w → post a w) : Triple sys rules i j A pre p post :=
  h.consequence (fun _ _ hw => hw) hpost

theorem Triple.pure {a : α} (hs : A.Stable (post a)) :
    Triple sys rules i j A (post a) (.pure a) post :=
  fun w hi hw u hu hi' => hs w u hi hi' hu hw

/-- One operation and what follows it: the precondition survives until the
    operation takes effect, and the effect keeps the invariant, the guarantee
    and establishes what the rest needs. -/
theorem Triple.op {o : Op} {k : R o → Task Op R α} {M : R o → View S J G → Prop}
    (hpre : A.Stable pre)
    (h : ∀ w b s r, A.inv w → pre w → rules.op i j w.shared o b = true →
      sys.exec i j o b w.shared = some (s, r) →
      ∃ g, A.inv ⟨s, w.jobs, g⟩ ∧ A.guar w ⟨s, w.jobs, g⟩ ∧ M r ⟨s, w.jobs, g⟩)
    (hk : ∀ r, Triple sys rules i j A (M r) (k r) post) :
    Triple sys rules i j A pre (.op o k) post := by
  intro w hi hw u hu hiu b s r ha hx
  obtain ⟨g, hi', hg, hp⟩ := h u b s r hiu (hpre w u hi hiu hu hw) ha hx
  exact ⟨g, hi', hg, hk r _ hi' hp⟩

theorem Triple.call {o : Op} {post : R o → View S J G → Prop} (hpre : A.Stable pre)
    (hpost : ∀ r, A.Stable (post r))
    (h : ∀ w b s r, A.inv w → pre w → rules.op i j w.shared o b = true →
      sys.exec i j o b w.shared = some (s, r) →
      ∃ g, A.inv ⟨s, w.jobs, g⟩ ∧ A.guar w ⟨s, w.jobs, g⟩ ∧ post r ⟨s, w.jobs, g⟩) :
    Triple sys rules i j A pre (Task.call o) post :=
  Triple.op hpre h fun r => Triple.pure (hpost r)

theorem Triple.bind {p : Task Op R α} {f : α → Task Op R β} {M : α → View S J G → Prop}
    {post : β → View S J G → Prop} (hp : Triple sys rules i j A pre p M)
    (hf : ∀ a, Triple sys rules i j A (M a) (f a) post) :
    Triple sys rules i j A pre (p.bind f) post := by
  intro w hi hw
  rw [Task.flatten_bind]
  exact Safe.bind hi ((hp w hi hw).weaken fun a u hu ha => hf a u hu ha)

theorem Triple.choose {k : Bool → Task Op R α} (h : ∀ b, Triple sys rules i j A pre (k b) post) :
    Triple sys rules i j A pre (.choose k) post :=
  fun w hi hw b => h b w hi hw

/-- What neither the others nor `p` disturb can be carried along. -/
theorem Triple.frame {F : View S J G → Prop} (hF : A.Stable F)
    (hG : ∀ w w', A.inv w → A.inv w' → A.guar w w' → F w → F w') {p : Task Op R α}
    (h : Triple sys rules i j A pre p post) :
    Triple sys rules i j A (fun w => F w ∧ pre w) p fun a w => F w ∧ post a w :=
  fun w hi hw => Safe.frame hF hG hi hw.1 (h w hi hw.2)

/-- A loop that runs `f` on each element: `I done` holds once the elements
    `done` are done. -/
theorem Triple.forEach {xs : List β} {f : β → Task Op R Unit} {I : List β → View S J G → Prop}
    (hs : A.Stable (I xs))
    (h : ∀ done x rest, xs = done ++ x :: rest →
      Triple sys rules i j A (I done) (f x) fun _ => I (done ++ [x])) :
    Triple sys rules i j A (I []) (Task.forEach xs f) fun _ => I xs := by
  suffices hgen : ∀ rest done, xs = done ++ rest →
      Triple sys rules i j A (I done) (Task.forEach rest f) fun _ => I xs from
    hgen xs [] rfl
  intro rest
  induction rest with
  | nil =>
    rintro done rfl
    rw [append_nil] at hs ⊢
    exact fun w hi hw u hu hi' => hs w u hi hi' hu hw
  | cons x rest ih =>
    intro done hxs
    exact (h done x rest hxs).bind fun _ => ih (done ++ [x]) (by simpa using hxs)

theorem Triple.part {B : Contract S J G} (hB : B.Part A) {p : Task Op R α}
    (h : Triple sys rules i j B pre p post) : Triple sys rules i j A pre p post :=
  fun w hi hw => (h w ((hB.inv w).mpr hi) hw).part hB

/-- Two interleaved sub-tasks that tolerate each other's steps. -/
theorem Triple.fork {B C : Contract S J G} (hB : B.Part A) (hC : C.Part A) (hBC : B.Tolerates C)
    (hCB : C.Tolerates B) {p : Task Op R β} {q : Task Op R γ} {k : β → γ → Task Op R α}
    {P : β → View S J G → Prop} {Q : γ → View S J G → Prop}
    (hp : Triple sys rules i j B pre p P) (hq : Triple sys rules i j C pre q Q)
    (hk : ∀ a b, Triple sys rules i j A (fun w => P a w ∧ Q b w) (k a b) post) :
    Triple sys rules i j A pre (.fork p q k) post := by
  intro w hi hw
  have hpar := Safe.par hB hC hBC hCB hi (hp w ((hB.inv w).mpr hi) hw) (hq w ((hC.inv w).mpr hi) hw)
  exact Safe.bind hi (hpar.weaken fun x u hu hx => hk x.1 x.2 u hu hx)

/-- The contract of the sub-tasks of a list together. -/
def Contract.all (A : Contract S J G) (B : β → Contract S J G) (xs : List β) :
    Contract S J G where
  inv := A.inv
  rely u u' := ∀ x ∈ xs, (B x).rely u u'
  guar u u' := A.guar u u' ∧ ∃ x ∈ xs, (B x).guar u u'
  rely_refl u x _ := (B x).rely_refl u
  rely_trans h h' x hx := (B x).rely_trans (h x hx) (h' x hx)

/-- The sub-tasks of a list keep contracts that tolerate each other. -/
structure Contract.Parts (A : Contract S J G) (B : β → Contract S J G) (xs : List β) : Prop where
  part : ∀ x ∈ xs, (B x).Part A
  tolerates : xs.Pairwise fun x y => (B x).Tolerates (B y) ∧ (B y).Tolerates (B x)

theorem Contract.Parts.tail {B : β → Contract S J G} {x : β} {xs : List β}
    (h : A.Parts B (x :: xs)) : A.Parts B xs :=
  ⟨fun y hy => h.part y (mem_cons_of_mem x hy), h.tolerates.of_cons⟩

/-- All sub-tasks keep the contract of the task itself, and tolerate it. -/
theorem Contract.Parts.same (htol : A.Tolerates A) (xs : List β) : A.Parts (fun _ => A) xs :=
  ⟨fun _ _ => Contract.Part.refl A, pairwise_of_forall fun _ _ => ⟨htol, htol⟩⟩

/-- Interleaved sub-tasks, one for each element of a list. -/
theorem Triple.forkAll {B : β → Contract S J G} {xs : List β} (hB : A.Parts B xs)
    {f : β → Task Op R α} {post : β → α → View S J G → Prop}
    (hs : ∀ x a, (B x).Stable (post x a))
    (h : ∀ x ∈ xs, Triple sys rules i j (B x) pre (f x) (post x)) :
    Triple sys rules i j A pre (Task.forkAll (xs.map f)) fun rs w =>
      Forall₂ (fun x r => post x r w) xs rs := by
  have hall : ∀ ys, A.Parts B ys → (∀ x ∈ ys, Triple sys rules i j (B x) pre (f x) (post x)) →
      Triple sys rules i j (A.all B ys) pre (Task.forkAll (ys.map f)) fun rs w =>
        Forall₂ (fun x r => post x r w) ys rs := by
    intro ys
    induction ys with
    | nil => exact fun _ _ _ _ _ _ _ _ => Forall₂.nil
    | cons x ys ih =>
      intro hBs hf
      have hx := hBs.part x mem_cons_self
      have hy : ∀ y ∈ ys, (B y).Part A := fun y hy => hBs.part y (mem_cons_of_mem x hy)
      have htol := pairwise_cons.mp hBs.tolerates
      have hleft : (B x).Part (A.all B (x :: ys)) :=
        ⟨hx.inv, fun u u' hr => hr x mem_cons_self,
          fun u u' hg => ⟨hx.guar u u' hg, x, mem_cons_self, hg⟩⟩
      have hright : (A.all B ys).Part (A.all B (x :: ys)) :=
        ⟨fun _ => Iff.rfl, fun u u' hr y hy => hr y (mem_cons_of_mem x hy),
          fun u u' ⟨hA, y, hy, hg⟩ => ⟨hA, y, mem_cons_of_mem x hy, hg⟩⟩
      have hxy : (B x).Tolerates (A.all B ys) := fun u u' hi hi' ⟨_, y, hmem, hg⟩ =>
        (htol.1 y hmem).1 u u' (((hy y hmem).inv u).mpr hi) (((hy y hmem).inv u').mpr hi') hg
      have hyx : (A.all B ys).Tolerates (B x) := fun u u' hi hi' hg y hmem =>
        (htol.1 y hmem).2 u u' hi hi' hg
      refine Triple.fork hleft hright hxy hyx (hf x mem_cons_self)
        (ih hBs.tail fun y hmem => hf y (mem_cons_of_mem x hmem)) fun a as => ?_
      intro w hi hw v hv hiv
      have hmem := (forall₂_and_left (p := (· ∈ ys)) ys as).mpr ⟨fun _ h => h, hw.2⟩
      refine Forall₂.cons ?_ (hmem.imp fun y r ⟨hmem, hr⟩ => ?_)
      · exact hs x a w v ((hx.inv w).mpr hi) ((hx.inv v).mpr hiv) (hv x mem_cons_self) hw.1
      · exact hs y r w v (((hy y hmem).inv w).mpr hi) (((hy y hmem).inv v).mpr hiv)
          (hv y (mem_cons_of_mem x hmem)) hr
  have hA : (A.all B xs).Part A :=
    ⟨fun _ => Iff.rfl, fun u u' hr x hx => (hB.part x hx).rely u u' hr, fun _ _ hg => hg.1⟩
  exact Triple.part hA (hall xs hB h)

/-- A program whose operations all keep the contract and `I` keeps them. -/
theorem Triple.uses {P : Op → Prop} {I : View S J G → Prop} (hs : A.Stable I)
    (h : ∀ o w b s r, P o → A.inv w → I w → rules.op i j w.shared o b = true →
      sys.exec i j o b w.shared = some (s, r) →
      ∃ g, A.inv ⟨s, w.jobs, g⟩ ∧ A.guar w ⟨s, w.jobs, g⟩ ∧ I ⟨s, w.jobs, g⟩)
    (hp : p.Uses P) : Triple sys rules i j A I p fun _ => I := by
  suffices hgen : ∀ q : Prog Op R α, q.Uses P → ∀ w, A.inv w → I w →
      Safe sys rules i j A q (fun _ => I) w from
    fun w hi hw => hgen p.flatten hp.flatten w hi hw
  intro q hq w hi hw
  induction q generalizing w with
  | pure a => exact fun u hu hiu => hs w u hi hiu hu hw
  | op o k ih =>
    intro u hu hiu b s r ha hx
    obtain ⟨g, hi', hg, hI⟩ := h o u b s r hq.1 hiu (hs w u hi hiu hu hw) ha hx
    exact ⟨g, hi', hg, ih r (hq.2 r) _ hi' hI⟩
  | choose k ih => exact fun b => ih b (hq b) w hi hw

end Triple

/-! ## Adequacy -/

/-- A proof outline for a system: one invariant, and for each task what the
    others may do to it, what it may do to them and what holds once it has
    returned. -/
structure Logic (S J G : Type) where
  inv : View S J G → Prop
  rely : ℕ → View S J G → View S J G → Prop
  guar : ℕ → View S J G → View S J G → Prop
  post : ℕ → J → View S J G → Prop := fun _ _ _ => True
  rely_refl : ∀ i w, rely i w w
  rely_trans : ∀ {i w w' w''}, rely i w w' → rely i w' w'' → rely i w w''

/-- The contract of task `i`, which runs job `j`. -/
def Logic.contract {S J G : Type} (L : Logic S J G) (i : ℕ) (j : J) : Contract S J G where
  inv w := L.inv w ∧ w.jobs[i]? = some (some j)
  rely := L.rely i
  guar := L.guar i
  rely_refl := L.rely_refl i
  rely_trans := L.rely_trans

section Adequacy

variable {Op : Type} {R : Op → Type} {S J E G : Type}

/-- What has to be shown of a proof outline: the guarantees imply the relies,
    starting a task, ending one and the environment's moves keep the invariant
    and respect the relies, and the program of a new task is safe. -/
structure Logic.Sound (L : Logic S J G) (sys : System Op R S J E) (rules : Rules Op S J E) :
    Prop where
  guar_rely : ∀ {i k w w'}, i ≠ k → L.inv w → L.inv w' → L.guar k w w' → L.rely i w w'
  spawn : ∀ w j, L.inv w → rules.spawn w.shared w.jobs j = true →
    ∃ g, L.inv ⟨w.shared, w.jobs ++ [some j], g⟩ ∧
      (∀ i, L.rely i w ⟨w.shared, w.jobs ++ [some j], g⟩) ∧
      Safe sys rules w.jobs.length j (L.contract w.jobs.length j) (sys.code j).flatten
        (fun _ => L.post w.jobs.length j) ⟨w.shared, w.jobs ++ [some j], g⟩
  leave : ∀ w i j, L.inv w → w.jobs[i]? = some (some j) →
    ∃ g, L.inv ⟨sys.leave j w.shared, w.jobs.set i none, g⟩ ∧
      ∀ k ≠ i, L.rely k w ⟨sys.leave j w.shared, w.jobs.set i none, g⟩
  env : ∀ w e s, L.inv w → rules.env w.shared w.jobs e = true → sys.env e w.shared = some s →
    ∃ g, L.inv ⟨s, w.jobs, g⟩ ∧ ∀ k, L.rely k w ⟨s, w.jobs, g⟩

variable {sys : System Op R S J E} {rules : Rules Op S J E} {L : Logic S J G}

/-- The invariant holds with some ghost value for which every task is safe. -/
def Logic.Holds (L : Logic S J G) (sys : System Op R S J E) (rules : Rules Op S J E)
    (p : Pool Op R S J) : Prop :=
  ∃ g, L.inv ⟨p.shared, p.jobs, g⟩ ∧ ∀ i j prog, p.threads[i]? = some (some (j, prog)) →
    Safe sys rules i j (L.contract i j) prog (fun _ => L.post i j) ⟨p.shared, p.jobs, g⟩

variable {s : S}

theorem Logic.holds_init {g : G} (h : L.inv ⟨s, [], g⟩) : L.Holds sys rules (Pool.init s) :=
  ⟨g, h, fun i j prog hi => by simp [Pool.init] at hi⟩

theorem Pool.jobs_set {threads : List (Option (J × Prog Op R Unit))} {i : ℕ} {j : J}
    {prog : Prog Op R Unit} (hi : threads[i]? = some (some (j, prog))) (prog' : Prog Op R Unit) :
    (threads.set i (some (j, prog'))).map (Option.map Prod.fst) =
      threads.map (Option.map Prod.fst) := by
  refine ext_getElem? fun k => ?_
  rw [getElem?_map, getElem?_map, getElem?_set]
  split_ifs with h1 h2
  · subst h1; simp [hi]
  · subst h1; simp [getElem?_eq_none (Nat.le_of_not_lt h2)]
  · rfl

variable {p : Pool Op R S J}

/-- The other tasks stay safe when task `i` moves to `x`. -/
theorem Logic.holds_set {i : ℕ} {x : Option (J × Prog Op R Unit)}
    {g g' : G} (hsafe : ∀ k j prog, p.threads[k]? = some (some (j, prog)) →
      Safe sys rules k j (L.contract k j) prog (fun _ => L.post k j) ⟨p.shared, p.jobs, g⟩)
    {js : List (Option J)} (hjs : js = (p.threads.set i x).map (Option.map Prod.fst))
    (hinv : L.inv ⟨s, js, g'⟩) (hrely : ∀ k ≠ i, L.rely k ⟨p.shared, p.jobs, g⟩ ⟨s, js, g'⟩)
    (hx : ∀ j prog, x = some (j, prog) →
      Safe sys rules i j (L.contract i j) prog (fun _ => L.post i j) ⟨s, js, g'⟩) :
    L.Holds sys rules ⟨s, p.threads.set i x⟩ := by
  subst hjs
  refine ⟨g', hinv, fun k j prog hk => ?_⟩
  rw [getElem?_set] at hk
  split_ifs at hk with h1 h2
  · subst h1
    exact hx j prog (by simpa using hk)
  · exact (hsafe k j prog hk).stable (hrely k (Ne.symm h1))

theorem Logic.Sound.step_holds (hL : L.Sound sys rules) {p p' : Pool Op R S J} {i : ℕ} {b : Bool}
    (hp : L.Holds sys rules p) (h : p.apply sys rules (.step i b) = some p') :
    L.Holds sys rules p' := by
  obtain ⟨g, hinv, hsafe⟩ := hp
  simp only [Pool.apply] at h
  split at h
  case h_2 => cases h
  case h_1 j prog hi =>
    have hi_safe := hsafe i j prog hi
    cases prog with
    | pure a => cases h
    | choose k =>
      simp only [Pool.stepThread, Option.some.injEq] at h
      subst h
      exact L.holds_set hsafe (Pool.jobs_set hi _).symm hinv (fun k' _ => L.rely_refl k' _)
        (by rintro _ _ ⟨⟩; exact hi_safe b)
    | op o k =>
      simp only [Pool.stepThread] at h
      split_ifs at h with ha
      rw [Option.map_eq_some_iff] at h
      obtain ⟨⟨s, r⟩, hx, rfl⟩ := h
      have hjob : p.jobs[i]? = some (some j) := by simp [Pool.jobs, hi]
      obtain ⟨g', ⟨hinv', _⟩, hg, hs⟩ := hi_safe _ (L.rely_refl i _) ⟨hinv, hjob⟩ b s r ha hx
      exact L.holds_set hsafe (Pool.jobs_set hi _).symm hinv'
        (fun k' hk => hL.guar_rely hk hinv hinv' hg) (by rintro _ _ ⟨⟩; exact hs)

theorem Logic.Sound.apply_holds (hL : L.Sound sys rules) {p p' : Pool Op R S J} {e : Event J E}
    (hp : L.Holds sys rules p) (h : p.apply sys rules e = some p') : L.Holds sys rules p' := by
  cases e with
  | step i b => exact hL.step_holds hp h
  | spawn j =>
    obtain ⟨g, hinv, hsafe⟩ := hp
    simp only [Pool.apply] at h
    split_ifs at h with ha
    simp only [Option.some.injEq] at h
    subst h
    obtain ⟨g', hinv', hrely, hnew⟩ := hL.spawn _ j hinv ha
    have hjobs : (⟨p.shared, p.threads ++ [some (j, (sys.code j).flatten)]⟩ : Pool Op R S J).jobs =
        p.jobs ++ [some j] := by simp [Pool.jobs]
    refine ⟨g', by rw [hjobs]; exact hinv', fun i j' prog hi => ?_⟩
    rw [hjobs]
    rcases Nat.lt_trichotomy i p.threads.length with hlt | rfl | hgt
    · rw [getElem?_append_left hlt] at hi
      exact (hsafe i j' prog hi).stable (hrely i)
    · simp only [getElem?_concat_length, Option.some.injEq, Prod.mk.injEq] at hi
      obtain ⟨rfl, rfl⟩ := hi
      simpa [Pool.jobs] using hnew
    · rw [getElem?_eq_none (by simp; omega)] at hi
      cases hi
  | leave i =>
    obtain ⟨g, hinv, hsafe⟩ := hp
    simp only [Pool.apply] at h
    split at h
    case h_2 => cases h
    case h_1 j prog hi =>
      simp only [Option.some.injEq] at h
      subst h
      obtain ⟨g', hinv', hrely⟩ := hL.leave _ i j hinv (by simp [Pool.jobs, hi])
      refine L.holds_set hsafe ?_ hinv' hrely (by rintro _ _ ⟨⟩)
      simp [Pool.jobs, map_set]
  | env e =>
    obtain ⟨g, hinv, hsafe⟩ := hp
    simp only [Pool.apply] at h
    split_ifs at h with ha
    rw [Option.map_eq_some_iff] at h
    obtain ⟨s, hx, rfl⟩ := h
    obtain ⟨g', hinv', hrely⟩ := hL.env _ e s hinv ha hx
    exact ⟨g', hinv', fun i j prog hi => (hsafe i j prog hi).stable (hrely i)⟩

variable {es : List (Event J E)}

variable (hL : L.Sound sys rules) {g : G} (h0 : L.inv ⟨s, [], g⟩)
variable (h : (Pool.init s).run sys rules es = some p)

include hL h0 h

theorem Logic.Sound.run_holds : L.Holds sys rules p :=
  Pool.run_induction (fun _ _ _ hq hx => hL.apply_holds hq hx) (Logic.holds_init h0) h

/-- **Adequacy.** A sound proof outline whose invariant holds at the start
    holds after every admitted run. -/
theorem Logic.Sound.run_inv : ∃ g, L.inv ⟨p.shared, p.jobs, g⟩ := by
  obtain ⟨g, hinv, _⟩ := hL.run_holds h0 h
  exact ⟨g, hinv⟩

/-- A task that has returned satisfies its postcondition, whatever the others
    have done since. -/
theorem Logic.Sound.run_post
    {i : ℕ} {j : J} (hi : p.returned i = some j) : ∃ g, L.post i j ⟨p.shared, p.jobs, g⟩ := by
  obtain ⟨a, hi⟩ := Pool.returned_eq_some.mp hi
  obtain ⟨g, hinv, hsafe⟩ := hL.run_holds h0 h
  exact ⟨g, hsafe i j _ hi _ (L.rely_refl i _) ⟨hinv, by simp [Pool.jobs, hi]⟩⟩

end Adequacy

end Lib
