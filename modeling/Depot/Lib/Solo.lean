import Depot.Lib.Task

/-!
# Total correctness of solo runs

What a task returns when it runs by itself, and that it returns at all.

Results:
* `Ends.bind`, `Ends.call`, `Ends.forEach`: the rules for the ways of composing tasks.
-/

namespace Lib

variable {Op : Type} {R : Op → Type} {S α β : Type}
variable {exec : (o : Op) → Bool → S → Option (S × R o)}

/-- By itself the task returns, with a result and a state that satisfy `post`. -/
def Ends (exec : (o : Op) → Bool → S → Option (S × R o)) (p : Task Op R α) (s : S)
    (post : α → S → Prop) : Prop :=
  ∃ s' a, p.solo exec s = some (s', a) ∧ post a s'

variable {s : S}

theorem Ends.pure {a : α} {post : α → S → Prop} (h : post a s) :
    Ends exec (.pure a) s post := ⟨s, a, rfl, h⟩

theorem Ends.bind {p : Task Op R α} {f : α → Task Op R β} {mid : α → S → Prop}
    {post : β → S → Prop} (hp : Ends exec p s mid)
    (hf : ∀ a s', mid a s' → Ends exec (f a) s' post) : Ends exec (p.bind f) s post := by
  obtain ⟨s', a, hrun, hmid⟩ := hp
  obtain ⟨s'', b, hrun', hpost⟩ := hf a s' hmid
  refine ⟨s'', b, ?_, hpost⟩
  rw [Task.solo_bind, hrun]
  exact hrun'

theorem Ends.call {o : Op} {s' : S} {r : R o} {post : R o → S → Prop}
    (hx : exec o true s = some (s', r)) (h : post r s') : Ends exec (Task.call o) s post := by
  refine ⟨s', r, ?_, h⟩
  show (exec o true s).bind _ = _
  rw [hx]
  rfl

theorem Ends.mono {p : Task Op R α} {post post' : α → S → Prop} (h : Ends exec p s post)
    (hpost : ∀ a s', post a s' → post' a s') : Ends exec p s post' := by
  obtain ⟨s', a, hrun, ha⟩ := h
  exact ⟨s', a, hrun, hpost a s' ha⟩

/-- A loop keeps what each of its rounds keeps. -/
theorem Ends.forEach {xs : List β} {f : β → Task Op R Unit} {I : S → Prop}
    (hf : ∀ x ∈ xs, ∀ s, I s → Ends exec (f x) s fun _ => I) (hs : I s) :
    Ends exec (Task.forEach xs f) s fun _ => I := by
  induction xs generalizing s with
  | nil => exact Ends.pure hs
  | cons x xs ih =>
    refine (hf x List.mem_cons_self s hs).bind fun _ s' hs' => ?_
    exact ih (fun y hy => hf y (List.mem_cons_of_mem x hy)) hs'

end Lib
