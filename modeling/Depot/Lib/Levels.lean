import Mathlib.Data.List.Basic

/-!
# Searching a graph level by level

A breadth-first search that goes a bounded number of levels from one node. The start counts as
visited only when it is met again.

Results:
* `mem_levels`: the nodes visited are those that some number of steps leads to, from one up to
  the bound.
-/

namespace Lib

variable {α : Type} [DecidableEq α] {next : α → List α}

/-- `k` steps lead from one node to another. -/
def Steps (next : α → List α) : ℕ → α → α → Prop
  | 0, a, b => a = b
  | k + 1, a, b => ∃ c, Steps next k a c ∧ b ∈ next c

/-- A node is met: it is visited and put in the queue of the next level, unless it was. -/
def visit (s : List α × List α) (a : α) : List α × List α :=
  if a ∈ s.1 then s else (s.1 ++ [a], s.2 ++ [a])

/-- The nodes visited after `n` more levels; `queue` holds the last one. -/
def levels (next : α → List α) : ℕ → List α → List α → List α
  | 0, visited, _ => visited
  | n + 1, visited, queue =>
      let s := (queue.flatMap next).foldl visit (visited, [])
      levels next n s.1 s.2

theorem mem_foldl_visit (as : List α) (s : List α × List α) (b : α) :
    (b ∈ (as.foldl visit s).1 ↔ b ∈ s.1 ∨ b ∈ as) ∧
      (b ∈ (as.foldl visit s).2 ↔ b ∈ s.2 ∨ b ∈ as ∧ b ∉ s.1) := by
  induction as generalizing s with
  | nil => simp
  | cons a as ih =>
    obtain ⟨hvisited, hqueue⟩ := ih (visit s a)
    rw [List.foldl_cons, hvisited, hqueue, visit]
    by_cases ha : a ∈ s.1
    · rw [if_pos ha]
      constructor <;> constructor <;> grind
    · rw [if_neg ha]
      constructor <;> constructor <;> grind

/-- What is visited stays visited. -/
theorem levels_subset (n : ℕ) (visited queue : List α) (b : α) (hb : b ∈ visited) :
    b ∈ levels next n visited queue := by
  induction n generalizing visited queue with
  | zero => exact hb
  | succ n ih => exact ih _ _ ((mem_foldl_visit _ _ b).1.mpr (.inl hb))

/-- The state of the search after `i` levels from `a`. -/
structure LevelInv (next : α → List α) (a : α) (i : ℕ) (visited queue : List α) : Prop where
  visited : ∀ b, b ∈ visited ↔ ∃ k, 1 ≤ k ∧ k ≤ i ∧ Steps next k a b
  queued : ∀ b ∈ queue, Steps next i a b
  reached : ∀ b, Steps next i a b → b ∈ queue ∨ ∃ k, 1 ≤ k ∧ k < i ∧ Steps next k a b

theorem LevelInv.start (a : α) : LevelInv next a 0 [] [a] where
  visited b := by
    constructor
    · intro h
      cases h
    · rintro ⟨k, hk, hk', -⟩
      omega
  queued b hb := (List.mem_singleton.mp hb).symm
  reached b hb := .inl (List.mem_singleton.mpr (Eq.symm hb))

variable {visited queue : List α}

omit [DecidableEq α] in
/-- The nodes of the next level are the successors of the queue. -/
theorem LevelInv.next_iff {a b : α} {i : ℕ} (h : LevelInv next a i visited queue) :
    (Steps next (i + 1) a b → b ∈ queue.flatMap next ∨ b ∈ visited) ∧
      (b ∈ queue.flatMap next → Steps next (i + 1) a b) := by
  constructor
  · rintro ⟨c, hc, hb⟩
    rcases h.reached c hc with hqueue | ⟨k, hk, hlt, hsteps⟩
    · exact .inl (List.mem_flatMap.mpr ⟨c, hqueue, hb⟩)
    · exact .inr ((h.visited b).mpr ⟨k + 1, by omega, by omega, c, hsteps, hb⟩)
  · intro hb
    obtain ⟨c, hc, hb⟩ := List.mem_flatMap.mp hb
    exact ⟨c, h.queued c hc, hb⟩

theorem LevelInv.step {a : α} {i : ℕ} {visited queue : List α}
    (h : LevelInv next a i visited queue) :
    LevelInv next a (i + 1) ((queue.flatMap next).foldl visit (visited, [])).1
      ((queue.flatMap next).foldl visit (visited, [])).2 where
  visited b := by
    rw [(mem_foldl_visit _ _ b).1, h.visited b]
    constructor
    · rintro (⟨k, hk, hle, hsteps⟩ | hb)
      · exact ⟨k, hk, by omega, hsteps⟩
      · exact ⟨i + 1, by omega, by omega, h.next_iff.2 hb⟩
    · rintro ⟨k, hk, hle, hsteps⟩
      by_cases heq : k = i + 1
      · subst heq
        exact (h.next_iff.1 hsteps).symm.imp (h.visited b).mp id
      · exact .inl ⟨k, hk, by omega, hsteps⟩
  queued b hb := by
    rw [(mem_foldl_visit _ _ b).2] at hb
    exact h.next_iff.2 ((hb.resolve_left nofun).1)
  reached b hb := by
    rw [(mem_foldl_visit _ _ b).2]
    by_cases hvisited : b ∈ visited
    · obtain ⟨k, hk, hle, hsteps⟩ := (h.visited b).mp hvisited
      exact .inr ⟨k, hk, by omega, hsteps⟩
    · exact .inl (.inr ⟨(h.next_iff.1 hb).resolve_right hvisited, hvisited⟩)

theorem LevelInv.levels {a : α} {i : ℕ} (h : LevelInv next a i visited queue) (n : ℕ) (b : α) :
    b ∈ levels next n visited queue ↔ ∃ k, 1 ≤ k ∧ k ≤ i + n ∧ Steps next k a b := by
  induction n generalizing i visited queue with
  | zero => exact h.visited b
  | succ n ih =>
    rw [Lib.levels, ih h.step, show i + 1 + n = i + (n + 1) by omega]

/-- The nodes visited within `n` levels of `a`. -/
theorem mem_levels (n : ℕ) (a b : α) :
    b ∈ levels next n [] [a] ↔ ∃ k, 1 ≤ k ∧ k ≤ n ∧ Steps next k a b := by
  rw [(LevelInv.start a).levels n b, Nat.zero_add]

end Lib
