import Mathlib.Data.Nat.Basic
import Mathlib.Logic.Function.Basic
import Mathlib.Order.MinMax
import Mathlib.Tactic.SplitIfs

/-!
# Generations

Work that several tasks do over and over, each time from the start: a task draws a number
when it starts, the numbers grow, and it notes when it has made its work visible and when it
is done. The task with the last number drawn has seen everything that was there when it drew
it; it is overtaken by no one if nobody publishes whose number is smaller than a published
one.

Results:
* `Generations.Valid`: what drawing, publishing and finishing preserve.
* `Generations.Rely`: what the other tasks leave to a task.
* `Generations.Valid.finished_eq`: once every task is done, so is the last one.
-/

namespace Lib

/-- The last number drawn, the last one of each task (zero before the first), the largest
    one published and the largest one finished. -/
structure Generations where
  drawn : ℕ := 0
  ticket : ℕ → ℕ := fun _ => 0
  published : ℕ := 0
  finished : ℕ := 0

namespace Generations

/-- Task `i` draws a number. -/
def draw (i : ℕ) (g : Generations) : Generations :=
  { g with
    drawn := g.drawn + 1
    ticket := Function.update g.ticket i (g.drawn + 1) }

/-- Task `i` publishes. -/
def publish (i : ℕ) (g : Generations) : Generations :=
  { g with published := max g.published (g.ticket i) }

/-- Task `i` is done. -/
def finish (i : ℕ) (g : Generations) : Generations :=
  { g with
    published := max g.published (g.ticket i)
    finished := max g.finished (g.ticket i) }

section

variable (i k : ℕ) (g : Generations)

@[simp] theorem draw_drawn : (g.draw i).drawn = g.drawn + 1 := rfl
@[simp] theorem draw_ticket_self : (g.draw i).ticket i = g.drawn + 1 := Function.update_self ..
@[simp] theorem draw_finished : (g.draw i).finished = g.finished := rfl
@[simp] theorem publish_drawn : (g.publish i).drawn = g.drawn := rfl
@[simp] theorem publish_finished : (g.publish i).finished = g.finished := rfl
@[simp] theorem finish_drawn : (g.finish i).drawn = g.drawn := rfl
@[simp] theorem finish_published : (g.finish i).published = max g.published (g.ticket i) := rfl
@[simp] theorem finish_finished : (g.finish i).finished = max g.finished (g.ticket i) := rfl

theorem draw_ticket : (g.draw i).ticket k = if k = i then g.drawn + 1 else g.ticket k :=
  Function.update_apply ..

end

/-- The order of the numbers; each was drawn once, and the last one belongs to a task that
    is not done before the others are behind. -/
structure Valid (g : Generations) : Prop where
  finished_le : g.finished ≤ g.published
  published_le : g.published ≤ g.drawn
  ticket_le : ∀ i, g.ticket i ≤ g.drawn
  ticket_inj : ∀ {i k}, g.ticket i ≠ 0 → g.ticket i = g.ticket k → i = k
  pending : g.finished ≠ g.drawn → ∃ i, g.ticket i = g.drawn

/-- What the other tasks leave to task `i`. -/
structure Rely (i : ℕ) (g g' : Generations) : Prop where
  ticket : g'.ticket i = g.ticket i
  drawn : g.drawn ≤ g'.drawn
  published : g.published ≤ g'.published
  finished : g.finished ≤ g'.finished
  ended : g.ticket i ≠ 0 → g'.finished = g.ticket i → g.finished = g.ticket i

variable {g g' g'' : Generations} {i k : ℕ}

theorem valid_default : Valid {} where
  finished_le := le_rfl
  published_le := le_rfl
  ticket_le _ := le_rfl
  ticket_inj h := absurd rfl h
  pending h := absurd rfl h

theorem Valid.draw (h : g.Valid) (i : ℕ) : (g.draw i).Valid where
  finished_le := h.finished_le
  published_le := h.published_le.trans (Nat.le_succ _)
  ticket_le k := by
    have hk := h.ticket_le k
    rw [draw_ticket, draw_drawn]
    split_ifs <;> omega
  ticket_inj := by
    intro k l hk hkl
    have hk' := h.ticket_le k
    have hl' := h.ticket_le l
    rw [draw_ticket, draw_ticket] at hkl
    rw [draw_ticket] at hk
    split_ifs at hkl hk with h1 h2 h2
    · rw [h1, h2]
    · omega
    · omega
    · exact h.ticket_inj hk hkl
  pending _ := ⟨i, draw_ticket_self i g⟩

theorem Valid.publish (h : g.Valid) (i : ℕ) : (g.publish i).Valid where
  finished_le := h.finished_le.trans (le_max_left _ _)
  published_le := max_le h.published_le (h.ticket_le i)
  ticket_le := h.ticket_le
  ticket_inj := h.ticket_inj
  pending := h.pending

theorem Valid.finish (h : g.Valid) (i : ℕ) : (g.finish i).Valid where
  finished_le := max_le_max_right _ h.finished_le
  published_le := max_le h.published_le (h.ticket_le i)
  ticket_le := h.ticket_le
  ticket_inj := h.ticket_inj
  pending hne := by
    by_cases hf : g.finished = g.drawn
    · have ht := h.ticket_le i
      rw [finish_finished, hf, finish_drawn] at hne
      omega
    · exact h.pending hf

theorem Rely.refl (i : ℕ) (g : Generations) : Rely i g g where
  ticket := rfl
  drawn := le_rfl
  published := le_rfl
  finished := le_rfl
  ended _ h := h

theorem Rely.trans (h : Rely i g g') (h' : Rely i g' g'') : Rely i g g'' where
  ticket := h'.ticket.trans h.ticket
  drawn := h.drawn.trans h'.drawn
  published := h.published.trans h'.published
  finished := h.finished.trans h'.finished
  ended hne heq := by
    refine h.ended hne ?_
    rw [← h.ticket] at hne heq ⊢
    exact h'.ended hne heq

theorem rely_draw (hik : i ≠ k) : Rely i g (g.draw k) where
  ticket := by rw [draw_ticket, if_neg hik]
  drawn := Nat.le_succ _
  published := le_rfl
  finished := le_rfl
  ended _ h := h

theorem rely_publish (i k : ℕ) (g : Generations) : Rely i g (g.publish k) where
  ticket := rfl
  drawn := le_rfl
  published := le_max_left _ _
  finished := le_rfl
  ended _ h := h

theorem rely_finish (h : g.Valid) (hik : i ≠ k) : Rely i g (g.finish k) where
  ticket := rfl
  drawn := le_rfl
  published := le_max_left _ _
  finished := le_max_left _ _
  ended hne heq := by
    rw [finish_finished] at heq
    rcases max_choice g.finished (g.ticket k) with hmax | hmax
    · rw [← heq, hmax]
    · rw [hmax] at heq
      exact absurd (h.ticket_inj hne heq.symm) hik

/-- If every task is done, then so is the one with the last number. -/
theorem Valid.finished_eq (h : g.Valid) (hdone : ∀ i, g.ticket i ≤ g.finished) :
    g.finished = g.drawn := by
  by_contra hne
  obtain ⟨i, hi⟩ := h.pending hne
  have hle := hdone i
  have hf := h.finished_le
  have hp := h.published_le
  omega

end Generations

end Lib
