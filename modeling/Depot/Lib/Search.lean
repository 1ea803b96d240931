import Mathlib.Data.List.Basic
import Mathlib.Logic.Relation

/-!
# Searching a graph

A search with a stack, over a graph given by the successors of each node. A
node is entered once; its successors that have not been entered yet go on the
stack.

Results:
* `mem_search`: the nodes entered are those that can be reached from the stack.
* `search_terminates`: the search ends if only finitely many nodes have
  successors.
-/

namespace Lib

open List

variable {α : Type} [DecidableEq α] {next : α → List α}

/-- The nodes entered: `seen`, and what can be reached from `stack`. `fuel` bounds
    the number of rounds. -/
def search (next : α → List α) : ℕ → List α → List α → Option (List α)
  | _, [], seen => some seen
  | 0, _ :: _, _ => none
  | fuel + 1, a :: stack, seen =>
      if a ∈ seen then search next fuel stack seen
      else
        search next fuel (((next a).filter fun c => decide (c ∉ a :: seen)).reverse ++ stack)
          (a :: seen)

/-- One node can be reached from another. -/
def CanReach (next : α → List α) : α → α → Prop := Relation.ReflTransGen fun a b => b ∈ next a

variable {stack seen result : List α}

variable {fuel : ℕ}

/-- What the search has entered it goes on from. -/
theorem search_closed (h : search next fuel stack seen = some result)
    (hseen : ∀ a ∈ seen, ∀ c ∈ next a, c ∈ seen ∨ c ∈ stack) :
    (∀ a ∈ seen, a ∈ result) ∧ (∀ a ∈ stack, a ∈ result) ∧
      ∀ a ∈ result, ∀ c ∈ next a, c ∈ result := by
  induction fuel generalizing stack seen with
  | zero =>
    cases stack with
    | nil =>
      obtain rfl := Option.some_inj.mp h
      exact ⟨fun _ ha => ha, nofun, fun a ha c hc => (hseen a ha c hc).resolve_right nofun⟩
    | cons a stack => cases h
  | succ fuel ih =>
    cases stack with
    | nil =>
      obtain rfl := Option.some_inj.mp h
      exact ⟨fun _ ha => ha, nofun, fun a ha c hc => (hseen a ha c hc).resolve_right nofun⟩
    | cons a stack =>
      rw [search] at h
      split_ifs at h with ha
      · obtain ⟨h1, h2, h3⟩ := ih h fun b hb c hc => by
          rcases hseen b hb c hc with hin | hin
          · exact .inl hin
          · rcases mem_cons.mp hin with rfl | hin
            · exact .inl ha
            · exact .inr hin
        refine ⟨h1, fun b hb => ?_, h3⟩
        rcases mem_cons.mp hb with rfl | hb
        · exact h1 b ha
        · exact h2 b hb
      · obtain ⟨h1, h2, h3⟩ := ih h fun b hb c hc => by
          by_cases hin : c ∈ a :: seen
          · exact .inl hin
          · rcases mem_cons.mp hb with rfl | hb
            · exact .inr (mem_append_left _ (mem_reverse.mpr
                (mem_filter.mpr ⟨hc, decide_eq_true hin⟩)))
            · rcases hseen b hb c hc with hold | hold
              · exact absurd (mem_cons_of_mem a hold) hin
              · rcases mem_cons.mp hold with rfl | hold
                · exact absurd mem_cons_self hin
                · exact .inr (mem_append_right _ hold)
        refine ⟨fun b hb => h1 b (mem_cons_of_mem a hb), fun b hb => ?_, h3⟩
        rcases mem_cons.mp hb with rfl | hb
        · exact h1 b mem_cons_self
        · exact h2 b (mem_append_right _ hb)

/-- What the search enters can be reached. -/
theorem search_sound (h : search next fuel stack seen = some result) {b : α} (hb : b ∈ result) :
    b ∈ seen ∨ ∃ a ∈ stack, CanReach next a b := by
  induction fuel generalizing stack seen with
  | zero =>
    cases stack with
    | nil =>
      obtain rfl := Option.some_inj.mp h
      exact .inl hb
    | cons a stack => cases h
  | succ fuel ih =>
    cases stack with
    | nil =>
      obtain rfl := Option.some_inj.mp h
      exact .inl hb
    | cons a stack =>
      rw [search] at h
      split_ifs at h with ha
      · rcases ih h with hin | ⟨c, hc, hreach⟩
        · exact .inl hin
        · exact .inr ⟨c, mem_cons_of_mem a hc, hreach⟩
      · rcases ih h with hin | ⟨c, hc, hreach⟩
        · rcases mem_cons.mp hin with rfl | hin
          · exact .inr ⟨b, mem_cons_self, .refl⟩
          · exact .inl hin
        · rcases mem_append.mp hc with hc | hc
          · have hnext := (mem_filter.mp (mem_reverse.mp hc)).1
            exact .inr ⟨a, mem_cons_self, .head hnext hreach⟩
          · exact .inr ⟨c, mem_cons_of_mem a hc, hreach⟩

/-- The nodes entered are those that can be reached. -/
theorem mem_search (h : search next fuel stack [] = some result) {b : α} :
    b ∈ result ↔ ∃ a ∈ stack, CanReach next a b := by
  constructor
  · intro hb
    exact (search_sound h hb).resolve_left nofun
  · rintro ⟨a, ha, hreach⟩
    obtain ⟨-, hstack, hclosed⟩ := search_closed h nofun
    induction hreach with
    | refl => exact hstack a ha
    | tail _ hnext ih => exact hclosed _ ih _ hnext

/-- A longer search finds the same. -/
theorem search_mono {fuel' : ℕ} (hle : fuel ≤ fuel')
    (h : search next fuel stack seen = some result) :
    search next fuel' stack seen = some result := by
  induction fuel generalizing fuel' stack seen with
  | zero =>
    cases stack with
    | nil =>
      rw [search] at h ⊢
      exact h
    | cons a stack => cases h
  | succ fuel ih =>
    obtain ⟨n, rfl⟩ : ∃ n, fuel' = n + 1 := ⟨fuel' - 1, by omega⟩
    cases stack with
    | nil => exact h
    | cons a stack =>
      rw [search] at h ⊢
      split_ifs at h ⊢ with ha
      · exact ih (by omega) h
      · exact ih (by omega) h

/-- The nodes of a list that have not been entered. -/
def unseen (nodes seen : List α) : List α := nodes.filter fun a => decide (a ∉ seen)

theorem unseen_cons (nodes seen : List α) (a : α) :
    unseen nodes (a :: seen) = (unseen nodes seen).filter fun b => decide (b ≠ a) := by
  rw [unseen, unseen, filter_filter]
  refine filter_congr fun b _ => ?_
  rw [← Bool.decide_and, decide_eq_decide, mem_cons, not_or]

/-- The search ends if only the nodes of a list have successors: each of them is
    entered once, and the stack gets shorter otherwise. -/
theorem search_terminates {nodes : List α} (hnodes : ∀ a, next a ≠ [] → a ∈ nodes)
    (stack seen : List α) : ∃ fuel result, search next fuel stack seen = some result := by
  induction hn : (unseen nodes seen).length using Nat.strongRecOn generalizing stack seen with
  | ind n ih =>
    induction stack generalizing seen with
    | nil => exact ⟨0, seen, rfl⟩
    | cons a stack ihs =>
      by_cases ha : a ∈ seen
      · obtain ⟨fuel, result, hrun⟩ := ihs seen hn
        exact ⟨fuel + 1, result, by rw [search, if_pos ha, hrun]⟩
      · have hcons := unseen_cons nodes seen a
        by_cases hnil : next a = []
        · have hle : (unseen nodes (a :: seen)).length ≤ n := by
            rw [hcons, ← hn]
            exact length_filter_le _ _
          have hgo : ∃ fuel result, search next fuel stack (a :: seen) = some result := by
            rcases Nat.lt_or_eq_of_le hle with hlt | heq
            · exact ih _ hlt stack (a :: seen) rfl
            · exact ihs (a :: seen) heq
          obtain ⟨fuel, result, hrun⟩ := hgo
          refine ⟨fuel + 1, result, ?_⟩
          rw [search, if_neg ha, hnil]
          exact hrun
        · have hlt : (unseen nodes (a :: seen)).length < n := by
            rw [hcons, ← hn]
            refine length_filter_lt_length_iff_exists.mpr ⟨a, ?_, by simp⟩
            exact mem_filter.mpr ⟨hnodes a hnil, decide_eq_true ha⟩
          obtain ⟨fuel, result, hrun⟩ := ih _ hlt
            (((next a).filter fun c => decide (c ∉ a :: seen)).reverse ++ stack) (a :: seen) rfl
          exact ⟨fuel + 1, result, by rw [search, if_neg ha, hrun]⟩

end Lib
