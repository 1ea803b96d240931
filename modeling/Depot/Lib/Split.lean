import Mathlib.Data.List.Basic
import Mathlib.Data.List.DropRight

/-!
# Splitting at separators

A list is split at the elements that satisfy a predicate; the words of a text are the parts that
are not empty.

Results:
* `splitOnP_append`: a beginning without separators belongs to the first part.
* `words_append_cons`: the words before and after a separator.
* `strip_strip`: a list without separators at its ends stays as it is.
-/

namespace Lib

open List

variable {α : Type} {p : α → Bool}

variable {xs start word : List α}

/-- No part has a separator. -/
theorem notMem_of_mem_splitOnP {seg : List α} (h : seg ∈ xs.splitOnP p) :
    ∀ c ∈ seg, p c = false := by
  induction xs generalizing seg with
  | nil =>
    rw [splitOnP_nil, mem_singleton] at h
    rw [h]
    exact nofun
  | cons c cs ih =>
    rw [splitOnP_cons_eq_if_modifyHead] at h
    split_ifs at h with hc
    · rcases mem_cons.mp h with rfl | h
      · exact nofun
      · exact ih h
    · cases hs : cs.splitOnP p with
      | nil =>
        rw [hs] at h
        cases h
      | cons first rest =>
        rw [hs] at h ih
        rcases mem_cons.mp h with rfl | h
        · intro d hd
          rcases mem_cons.mp hd with rfl | hd
          · exact Bool.eq_false_iff.mpr hc
          · exact ih mem_cons_self d hd
        · exact ih (mem_cons_of_mem _ h)

theorem notMem_of_mem_splitOn [DecidableEq α] {a : α} {xs seg : List α} (h : seg ∈ xs.splitOn a) :
    a ∉ seg := fun hmem => by
  rw [splitOn_eq_splitOnP] at h
  have hne := notMem_of_mem_splitOnP h a hmem
  rw [beq_self_eq_true] at hne
  cases hne

/-- A beginning without separators belongs to the first part. -/
theorem splitOnP_append (h : ∀ c ∈ start, p c = false) (xs : List α) :
    (start ++ xs).splitOnP p = (xs.splitOnP p).modifyHead (start ++ ·) := by
  induction start with
  | nil =>
    rw [nil_append]
    cases xs.splitOnP p with
    | nil => rfl
    | cons first rest => rfl
  | cons c start ih =>
    obtain ⟨hc, hstart⟩ := forall_mem_cons.mp h
    rw [cons_append, splitOnP_cons_eq_if_modifyHead, hc, if_neg Bool.false_ne_true,
      ih hstart, modifyHead_modifyHead]
    rfl

variable {a c sep : α}

theorem splitOn_append [DecidableEq α] (h : a ∉ start) (xs : List α) :
    (start ++ xs).splitOn a = (xs.splitOn a).modifyHead (start ++ ·) := by
  rw [splitOn_eq_splitOnP, splitOn_eq_splitOnP]
  refine splitOnP_append (fun c hc => ?_) xs
  rw [beq_eq_false_iff_ne]
  rintro rfl
  exact h hc

/-- What joined parts consist of. -/
theorem mem_intercalate {parts : List (List α)} (h : c ∈ [a].intercalate parts) :
    c = a ∨ ∃ part ∈ parts, c ∈ part := by
  induction parts with
  | nil => cases h
  | cons part parts ih =>
    by_cases hnil : parts = []
    · rw [hnil, intercalate_singleton] at h
      exact .inr ⟨part, mem_cons_self, h⟩
    · rw [intercalate_cons_of_ne_nil hnil, mem_append, mem_append, mem_singleton] at h
      rcases h with (h | h) | h
      · exact .inr ⟨part, mem_cons_self, h⟩
      · exact .inl h
      · refine (ih h).imp_right ?_
        rintro ⟨other, hother, hc⟩
        exact ⟨other, mem_cons_of_mem _ hother, hc⟩

/-! ## Words -/

/-- The parts of a list that are not empty. -/
def words (p : α → Bool) (xs : List α) : List (List α) := (xs.splitOnP p).filter (· ≠ [])

theorem mem_words (h : word ∈ words p xs) : word ≠ [] ∧ ∀ c ∈ word, p c = false := by
  obtain ⟨hmem, hne⟩ := mem_filter.mp h
  exact ⟨of_decide_eq_true hne, notMem_of_mem_splitOnP hmem⟩

@[simp] theorem words_nil : words p ([] : List α) = [] := by simp [words]

theorem words_append_cons (hsep : p sep = true) (xs ys : List α) :
    words p (xs ++ sep :: ys) = words p xs ++ words p ys := by
  rw [words, splitOnP_append_cons _ _ hsep, filter_append, words, words]

theorem words_cons (hsep : p sep = true) (xs : List α) : words p (sep :: xs) = words p xs := by
  have happend := words_append_cons hsep [] xs
  rwa [nil_append, words_nil, nil_append] at happend

theorem words_replicate (hsep : p sep = true) (n : ℕ) (xs : List α) :
    words p (replicate n sep ++ xs) = words p xs := by
  induction n with
  | zero => rw [replicate_zero, nil_append]
  | succ n ih => rw [replicate_succ, cons_append, words_cons hsep, ih]

theorem words_singleton (hne : word ≠ []) (h : ∀ c ∈ word, p c = false) :
    words p word = [word] := by
  rw [words, splitOnP_eq_singleton h]
  simp [hne]

/-! ## Without separators at the ends -/

/-- A list without the separators it begins and ends with. -/
def strip (p : α → Bool) (xs : List α) : List α := (xs.dropWhile p).rdropWhile p

theorem strip_cons (hc : p c = true) (xs : List α) : strip p (c :: xs) = strip p xs := by
  rw [strip, dropWhile_cons, if_pos hc, strip]

theorem strip_concat (hc : p c = true) (xs : List α) : strip p (xs ++ [c]) = strip p xs := by
  by_cases hall : ∀ x ∈ xs, p x = true
  · have hxs : xs.dropWhile p = [] := dropWhile_eq_nil_iff.mpr hall
    rw [strip, strip, dropWhile_append_of_pos hall, dropWhile_cons, if_pos hc, hxs]
    rfl
  · have hne : (xs.dropWhile p).isEmpty = false := by
      rw [isEmpty_eq_false_iff, Ne, dropWhile_eq_nil_iff]
      exact hall
    rw [strip, strip, dropWhile_append, hne, if_neg Bool.false_ne_true,
      rdropWhile_concat_pos _ _ _ hc]

theorem strip_sublist (xs : List α) : (strip p xs).Sublist xs :=
  (List.rdropWhile_prefix p (xs.dropWhile p)).sublist.trans (dropWhile_suffix p).sublist

theorem strip_of_none (h : ∀ c ∈ xs, p c = false) : strip p xs = xs := by
  have hdrop : xs.dropWhile p = xs := by
    cases xs with
    | nil => rfl
    | cons c xs =>
      rw [dropWhile_cons, h c mem_cons_self]
      rfl
  rw [strip, hdrop, rdropWhile_eq_self_iff]
  intro hne
  rw [h _ (getLast_mem hne)]
  exact Bool.false_ne_true

/-- A list that has been stripped stays as it is. -/
theorem strip_strip (xs : List α) : strip p (strip p xs) = strip p xs := by
  have hhead : (strip p xs).dropWhile p = strip p xs := by
    cases hstrip : strip p xs with
    | nil => rfl
    | cons c rest =>
      obtain ⟨tail, htail⟩ := rdropWhile_prefix p (xs.dropWhile p)
      have hdrop : xs.dropWhile p = c :: (rest ++ tail) := by
        rw [← htail, ← strip, hstrip]
        rfl
      have hnot := head?_dropWhile_not p xs
      rw [hdrop, head?_cons] at hnot
      rw [dropWhile_cons, hnot]
      rfl
  have hlast : (strip p xs).rdropWhile p = strip p xs := rdropWhile_idempotent p _
  rw [strip, hhead, hlast]

end Lib
