import Mathlib.Data.List.Lex
import Mathlib.Order.Lattice

/-!
# Lexicographic order and prefixes

Scans of sorted keys start at a prefix or right after a key, and stop where the
prefix ends. These are the facts about the lexicographic order behind that.

Results:
* `append_least_le_iff`: the least list after `a` is `a` with a least element at
  its end.
* `prefix_of_between`: the lists with a prefix form an interval.
* `prefix_lt_of_lt`: the interval ends where the last element of the prefix is
  replaced by a greater one.
-/

namespace Lib

open List

variable {α : Type} [LinearOrder α]

theorem cons_le_cons_iff {a b : α} {l m : List α} : a :: l ≤ b :: m ↔ a < b ∨ a = b ∧ l ≤ m := by
  rw [← not_lt, ← not_lt, cons_lt_cons_iff]
  constructor
  · intro h
    rcases lt_trichotomy a b with hab | rfl | hab
    · exact .inl hab
    · exact .inr ⟨rfl, fun hml => h (.inr ⟨rfl, hml⟩)⟩
    · exact absurd (.inl hab) h
  · rintro (hab | ⟨rfl, hml⟩) (hba | ⟨heq, hlt⟩)
    · exact lt_asymm hab hba
    · exact absurd hab (heq ▸ lt_irrefl _)
    · exact lt_irrefl _ hba
    · exact hml hlt

theorem le_append (p c : List α) : p ≤ p ++ c := by
  induction p with
  | nil => exact not_lt.mp (not_lt_nil _)
  | cons x p ih => exact cons_le_cons_iff.mpr (.inr ⟨rfl, ih⟩)

variable {a b p : List α}

/-- Nothing lies between `a` and `a` followed by a least element. -/
theorem append_least_le_iff {c : α} (hc : ∀ x, c ≤ x) : a ++ [c] ≤ b ↔ a < b := by
  induction a generalizing b with
  | nil =>
    cases b with
    | nil => simp
    | cons y b =>
      rw [nil_append, cons_le_cons_iff]
      have hnil : [] ≤ b := not_lt.mp (not_lt_nil b)
      have hy : c < y ∨ c = y ∧ [] ≤ b := (hc y).lt_or_eq.imp id fun h => ⟨h, hnil⟩
      simpa using hy
  | cons x a ih =>
    cases b with
    | nil => simp
    | cons y b => rw [cons_append, cons_le_cons_iff, cons_lt_cons_iff, ih]

/-- What lies between a prefix and a list with that prefix has the prefix. -/
theorem prefix_of_between (hpa : p ≤ a) (hab : a ≤ b) (hb : p <+: b) : p <+: a := by
  induction p generalizing a b with
  | nil => exact nil_prefix
  | cons x p ih =>
    obtain ⟨c, rfl⟩ := hb
    cases a with
    | nil => exact absurd hpa (by simp)
    | cons y a =>
      rw [cons_append] at hab
      rcases cons_le_cons_iff.mp hpa with hxy | ⟨rfl, hpa'⟩
      · rcases cons_le_cons_iff.mp hab with hyx | ⟨rfl, _⟩
        · exact absurd hxy (lt_asymm hyx)
        · exact absurd hxy (lt_irrefl _)
      · rcases cons_le_cons_iff.mp hab with hxx | ⟨_, hab'⟩
        · exact absurd hxx (lt_irrefl _)
        · exact prefix_cons_inj _ |>.mpr (ih hpa' hab' (prefix_append p c))

/-- The lists with a prefix lie below the prefix with its last element raised. -/
theorem prefix_lt_of_lt {x y : α} (hxy : x < y) (h : p ++ [x] <+: b) : b < p ++ [y] := by
  induction p generalizing b with
  | nil =>
    obtain ⟨c, rfl⟩ := h
    exact cons_lt_cons_iff.mpr (.inl hxy)
  | cons z p ih =>
    obtain ⟨c, rfl⟩ := h
    rw [cons_append, cons_append, cons_append, cons_lt_cons_iff]
    exact .inr ⟨rfl, ih (prefix_append _ _)⟩

/-- In ascending order, the lists with a prefix come first among those from the
    prefix on. -/
theorem filter_eq_takeWhile {β : Type} {q : β → Bool} {l : List β}
    (h : l.Pairwise fun a b => q b = true → q a = true) : l.filter q = l.takeWhile q := by
  induction l with
  | nil => rfl
  | cons x l ih =>
    obtain ⟨hx, hl⟩ := pairwise_cons.mp h
    by_cases hq : q x = true
    · rw [filter_cons_of_pos hq, takeWhile_cons_of_pos hq, ih hl]
    · rw [filter_cons_of_neg hq, takeWhile_cons_of_neg hq]
      exact filter_eq_nil_iff.mpr fun b hb hqb => hq (hx b hb hqb)

end Lib
