import Mathlib.Data.List.Sort
import Mathlib.Data.Prod.Lex

/-!
# The last element of a stably sorted list

A stable sort keeps the order of elements with equal keys. In a list that increases, the last
element after the sort is therefore the greatest by its key, and then by itself.

Results:
* `mergeSort_last_iff`: the last element of the sorted list.
* `exists_mergeSort_last`: there is one, unless the list is empty.
-/

namespace Lib

open List

variable {α β : Type} [LinearOrder β] (key : α → β)

/-- The comparison of two elements by their keys. -/
def keyLe (a b : α) : Bool := decide (key a ≤ key b)

variable {key} {l : List α} {last : α}

theorem keyLe_trans (a b c : α) (hab : keyLe key a b = true) (hbc : keyLe key b c = true) :
    keyLe key a c = true :=
  decide_eq_true ((of_decide_eq_true hab).trans (of_decide_eq_true hbc))

theorem keyLe_total (a b : α) : (keyLe key a b || keyLe key b a) = true := by
  simp [keyLe, le_total]

/-- The last element has the greatest key. -/
theorem key_le_last (h : (l.mergeSort (keyLe key)).getLast? = some last) {a : α} (ha : a ∈ l) :
    key a ≤ key last := by
  obtain ⟨front, hfront⟩ := getLast?_eq_some_iff.mp h
  have hsorted : (l.mergeSort (keyLe key)).Pairwise fun a b => keyLe key a b = true :=
    pairwise_mergeSort keyLe_trans keyLe_total l
  rw [hfront] at hsorted
  have hmem : a ∈ front ++ [last] := hfront ▸ mem_mergeSort.mpr ha
  rcases mem_append.mp hmem with hmem | hmem
  · exact of_decide_eq_true (pairwise_append.mp hsorted |>.2.2 a hmem last (by simp))
  · rw [mem_singleton.mp hmem]

/-- Among the elements with its key, the last one comes last in the list. -/
theorem not_sublist_last (h : (l.mergeSort (keyLe key)).getLast? = some last) (hnodup : l.Nodup)
    {a : α} (hkey : key last ≤ key a) : ¬Sublist [last, a] l := by
  intro hsub
  have hsorted : Sublist [last, a] (l.mergeSort (keyLe key)) :=
    pair_sublist_mergeSort keyLe_trans keyLe_total (decide_eq_true hkey) hsub
  obtain ⟨front, hfront⟩ := getLast?_eq_some_iff.mp h
  have hperm : (front ++ [last]).Nodup := hfront ▸ (mergeSort_perm l _).nodup_iff.mpr hnodup
  rw [hfront] at hsorted
  -- The last element stands before another one, and so twice in the sorted list.
  obtain ⟨first, second, hpair, hfirst, hsecond⟩ := sublist_append_iff.mp hsorted
  have hdisjoint := (nodup_append.mp hperm).2.2
  cases first with
  | nil =>
    have hlength := hsecond.length_le
    rw [nil_append] at hpair
    rw [← hpair] at hlength
    simp at hlength
  | cons c first =>
    obtain ⟨rfl, -⟩ := List.cons.inj hpair
    exact hdisjoint last (hfirst.subset mem_cons_self) last (mem_singleton_self last) rfl

section

variable [LinearOrder α]

/-- Two elements of an increasing list stand in it in their order. -/
theorem pair_sublist_of_lt {a b : α} (hl : l.Pairwise (· < ·)) (ha : a ∈ l) (hb : b ∈ l)
    (hab : a < b) : Sublist [a, b] l := by
  obtain ⟨before, after, rfl⟩ := append_of_mem ha
  obtain ⟨-, hafter, hbefore⟩ := pairwise_append.mp hl
  have hmem : b ∈ after := by
    rcases mem_append.mp hb with hb | hb
    · exact absurd (hbefore b hb a mem_cons_self) hab.asymm
    · rcases mem_cons.mp hb with rfl | hb
      · exact absurd hab (lt_irrefl b)
      · exact hb
  have hpair : Sublist [a, b] (a :: after) :=
    (singleton_sublist.mpr hmem).cons_cons a
  exact hpair.trans (sublist_append_right before (a :: after))

/-- The greatest element by its key and then by itself. -/
theorem le_mergeSort_last (hl : l.Pairwise (· < ·))
    (h : (l.mergeSort (keyLe key)).getLast? = some last) {a : α} (ha : a ∈ l) :
    toLex (key a, a) ≤ toLex (key last, last) := by
  rw [Prod.Lex.toLex_le_toLex]
  rcases (key_le_last h ha).lt_or_eq with hlt | heq
  · exact .inl hlt
  · refine .inr ⟨heq, not_lt.mp fun hlt => ?_⟩
    have hmem : last ∈ l := mem_mergeSort.mp (mem_of_getLast? h)
    have hnodup : l.Nodup := hl.imp ne_of_lt
    exact not_sublist_last h hnodup heq.ge (pair_sublist_of_lt hl hmem ha hlt)

/-- The last element of an increasing list that is sorted by keys. -/
theorem mergeSort_last_iff (hl : l.Pairwise (· < ·)) :
    (l.mergeSort (keyLe key)).getLast? = some last ↔
      last ∈ l ∧ ∀ a ∈ l, toLex (key a, a) ≤ toLex (key last, last) := by
  constructor
  · intro h
    have hmem : last ∈ l := mem_mergeSort.mp (mem_of_getLast? h)
    exact ⟨hmem, fun a ha => le_mergeSort_last hl h ha⟩
  · rintro ⟨hmem, hmax⟩
    cases hlast : (l.mergeSort (keyLe key)).getLast? with
    | none =>
      rw [getLast?_eq_none_iff] at hlast
      exact absurd (hlast ▸ mem_mergeSort.mpr hmem) not_mem_nil
    | some other =>
      have hother : other ∈ l := mem_mergeSort.mp (mem_of_getLast? hlast)
      have heq := le_antisymm (hmax other hother) (le_mergeSort_last hl hlast hmem)
      rw [(Prod.mk.inj (toLex.injective heq)).2]

end

variable (key) in
theorem exists_mergeSort_last (hne : l ≠ []) :
    ∃ last, (l.mergeSort (keyLe key)).getLast? = some last := by
  obtain ⟨a, ha⟩ := exists_mem_of_ne_nil l hne
  refine Option.ne_none_iff_exists'.mp fun hnone => ?_
  rw [getLast?_eq_none_iff] at hnone
  exact absurd (hnone ▸ mem_mergeSort.mpr ha) not_mem_nil

end Lib
