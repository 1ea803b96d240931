import Depot.Lib.Guarded
import Depot.Lib.Memory

/-!
# Requests that are answered

A pool whose tasks are requests: at its end each of them gives an answer, and the answers are
logged in the order in which they are given. Giving the answer is a step of its own, so
anything may happen between the last operation of a request and its answer.

Results:
* `Task.flatten_embed`: the tree of a task over more operations.
* `Prog.Follows.embed`: what a program follows over more operations.
* `follows_answering`: what a request follows that does not answer twice.
-/

namespace Lib

variable {Op Op' : Type} {R : Op → Type} {R' : Op' → Type} {S J E M α β γ ρ : Type}

/-! ## Programs over more operations -/

/-- A program over other operations. -/
def Prog.embed (e : Op → Op') (reply : ∀ o, R' (e o) → R o) : Prog Op R α → Prog Op' R' α
  | .pure a => .pure a
  | .op o k => .op (e o) fun r => (k (reply o r)).embed e reply
  | .choose k => .choose fun b => (k b).embed e reply

variable {note : M → (o : Op) → R o → M}

section

variable {e : Op → Op'} {reply : ∀ o, R' (e o) → R o}

theorem Prog.embed_bind (p : Prog Op R α) (f : α → Prog Op R β) :
    (p.bind f).embed e reply = (p.embed e reply).bind fun a => (f a).embed e reply := by
  induction p with
  | pure a => rfl
  | op o k ih => simp [embed, ih]
  | choose k ih => simp [embed, ih]

theorem Prog.embed_interleave {stepL : Prog Op R β → Prog Op R γ} {fin : β → Prog Op R γ}
    {stepL' : Prog Op' R' β → Prog Op' R' γ} {fin' : β → Prog Op' R' γ}
    (hstep : ∀ q, (stepL q).embed e reply = stepL' (q.embed e reply))
    (hfin : ∀ b, (fin b).embed e reply = fin' b) (q : Prog Op R β) :
    (interleave stepL fin q).embed e reply = interleave stepL' fin' (q.embed e reply) := by
  induction q with
  | pure b => exact hfin b
  | op o k ih =>
    show Prog.choose _ = Prog.choose _
    congr 1
    funext left
    cases left with
    | true => exact hstep (.op o k)
    | false =>
      show Prog.op _ _ = Prog.op _ _
      congr 1
      funext r
      exact ih _
  | choose k ih =>
    show Prog.choose _ = Prog.choose _
    congr 1
    funext left
    cases left with
    | true => exact hstep (.choose k)
    | false =>
      show Prog.choose _ = Prog.choose _
      congr 1
      funext b
      exact ih b

theorem Prog.embed_par (p : Prog Op R α) (q : Prog Op R β) :
    (p.par q).embed e reply = (p.embed e reply).par (q.embed e reply) := by
  induction p generalizing q with
  | pure a => exact embed_bind q _
  | op o k ih =>
    refine embed_interleave (fun q => ?_) (fun b => embed_bind _ _) q
    show Prog.op _ _ = Prog.op _ _
    congr 1
    funext r
    exact ih _ q
  | choose k ih =>
    refine embed_interleave (fun q => ?_) (fun b => embed_bind _ _) q
    show Prog.choose _ = Prog.choose _
    congr 1
    funext b
    exact ih b q

theorem Task.flatten_embed (p : Task Op R α) :
    (p.embed e reply).flatten = p.flatten.embed e reply := by
  induction p with
  | pure a => rfl
  | op o k ih => simp [Task.embed, Task.flatten, Prog.embed, ih]
  | choose k ih => simp [Task.embed, Task.flatten, Prog.embed, ih]
  | fork p q k ihp ihq ih =>
    simp [Task.embed, Task.flatten, Prog.embed_bind, Prog.embed_par, ihp, ihq, ih]

/-- A program follows over more operations what it follows by itself. -/
theorem Prog.Follows.embed {A : M → Op → Prop}
    {A' : M → Op' → Prop} {note' : M → (o : Op') → R' o → M}
    (hA : ∀ m o, A m o → A' m (e o)) (hnote : ∀ m o r, note' m (e o) r = note m o (reply o r))
    {Q : α → M → Prop} {p : Prog Op R α} {m : M} (h : p.Follows A note Q m) :
    (p.embed e reply).Follows A' note' Q m := by
  induction p generalizing m with
  | pure a => exact h
  | op o k ih =>
    refine ⟨hA m o h.1, fun r => ?_⟩
    rw [hnote]
    exact ih _ (h.2 _)
  | choose k ih => exact fun b => ih b (h b)

end

/-! ## Answers -/

/-- The operations of a request, and giving the answer. -/
inductive AnswerOp (Op ρ : Type) where
  | op (o : Op)
  | answer (a : ρ)

/-- The replies. -/
abbrev AnswerOp.Reply (R : Op → Type) : AnswerOp Op ρ → Type
  | .op o => R o
  | .answer _ => Unit

/-- An operation; an answer is logged with the request that gives it. -/
def answerExec (exec : ℕ → J → (o : Op) → Bool → S → Option (S × R o)) (i : ℕ) (j : J) :
    (o : AnswerOp Op ρ) → Bool → S × List (ℕ × ρ) →
      Option ((S × List (ℕ × ρ)) × AnswerOp.Reply R o)
  | .op o, b, s => (exec i j o b s.1).map fun x => ((x.1, s.2), x.2)
  | .answer a, _, s => some ((s.1, s.2 ++ [(i, a)]), ())

def answerCode (code : J → Task Op R ρ) (j : J) : Task (AnswerOp Op ρ) (AnswerOp.Reply R) Unit :=
  ((code j).embed .op fun _ r => r).bind fun a => .op (.answer a) fun _ => .pure ()

/-- The system of requests. -/
def answering (exec : ℕ → J → (o : Op) → Bool → S → Option (S × R o)) (code : J → Task Op R ρ)
    (env : E → S → Option S) : System (AnswerOp Op ρ) (AnswerOp.Reply R) (S × List (ℕ × ρ)) J E where
  exec := answerExec exec
  code := answerCode code
  env e s := (env e s.1).map fun s' => (s', s.2)
  leave _ s := s

/-- A request with a memory: it follows `A` up to its answer, may give the answer, and ends with
    it. -/
theorem follows_answering {A : M → Op → Prop}
    {A' : M → AnswerOp Op ρ → Prop} {note' : M → (o : AnswerOp Op ρ) → AnswerOp.Reply R o → M}
    (hA : ∀ m o, A m o → A' m (.op o)) (hnote : ∀ m o r, note' m (.op o) r = note m o r)
    {Q : ρ → M → Prop} (hQ : ∀ a m, Q a m → A' m (.answer a)) {Q' : M → Prop}
    (hend : ∀ a m, Q' (note' m (.answer a) ())) {code : J → Task Op R ρ} {j : J}
    {m : M} (h : (code j).flatten.Follows A note Q m) :
    (answerCode code j).flatten.Follows A' note' (fun _ => Q') m := by
  unfold answerCode
  rw [Task.flatten_bind, Task.flatten_embed]
  exact (h.embed hA hnote).bind fun a m' ha => ⟨hQ a m' ha, fun _ => hend a m'⟩

end Lib
