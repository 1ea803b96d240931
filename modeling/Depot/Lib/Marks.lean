import Mathlib.Data.List.Basic
import Mathlib.Data.List.Induction

/-!
# Marks on the items of a list

A list grows, and items are marked by their keys: each time the last one with the key.

Results:
* `markAll_append`: marks of the items at the end leave the others as they are.
* `flags_markAll`: which items are marked in the end.
* `lastFlags_eq_iff`: when these are the items that were to be marked.
* `of_countP_eq`: a property that holds as often as a weaker one is the same.
-/

namespace Lib

open List

variable {α κ : Type}

/-! ## One mark -/

/-- The list with its last item that has a property changed. -/
def changeLast (p : α → Bool) (f : α → α) (l : List α) : List α :=
  match l.reverse.findIdx? p with
  | some i => l.modify (l.length - 1 - i) f
  | none => l

section

variable {p : α → Bool} {f : α → α}

theorem modify_concat_length (l : List α) (a : α) : (l ++ [a]).modify l.length f = l ++ [f a] := by
  induction l with
  | nil => rfl
  | cons b l ih => rw [cons_append, length_cons, modify_succ_cons, ih, cons_append]

variable {l m : List α}

theorem modify_concat_of_lt {i : ℕ} (hi : i < l.length) (a : α) :
    (l ++ [a]).modify i f = l.modify i f ++ [a] := by
  induction l generalizing i with
  | nil => cases hi
  | cons b l ih =>
    cases i with
    | zero => rfl
    | succ i =>
      rw [cons_append, modify_succ_cons, ih (by simpa using hi), modify_succ_cons,
        cons_append]

theorem changeLast_concat (l : List α) (a : α) : changeLast p f (l ++ [a]) =
    if p a = true then l ++ [f a] else changeLast p f l ++ [a] := by
  rw [changeLast, reverse_append, reverse_singleton, singleton_append, findIdx?_cons]
  split_ifs with h
  · have hlast : (l ++ [a]).length - 1 - 0 = l.length := by simp
    simp only [hlast]
    exact modify_concat_length l a
  · rw [changeLast]
    cases hidx : l.reverse.findIdx? p with
    | none => rfl
    | some i =>
      have hlt : i < l.length := by
        have := (findIdx?_eq_some_iff_getElem.mp hidx).1
        rwa [length_reverse] at this
      have hsub : (l ++ [a]).length - 1 - (i + 1) = l.length - 1 - i := by
        rw [length_append, length_singleton]
        omega
      simp only [Option.map_some, hsub]
      exact modify_concat_of_lt (by omega) a

theorem changeLast_append (h : ∃ a ∈ m, p a = true) :
    changeLast p f (l ++ m) = l ++ changeLast p f m := by
  induction m using reverseRecOn with
  | nil => simp at h
  | append_singleton m a ih =>
    rw [← append_assoc, changeLast_concat, changeLast_concat]
    split_ifs with ha
    · exact append_assoc ..
    · have hrest : ∃ b ∈ m, p b = true := by
        obtain ⟨b, hb, hp⟩ := h
        rcases mem_append.mp hb with hb | hb
        · exact ⟨b, hb, hp⟩
        · rw [mem_singleton.mp hb] at hp
          exact absurd hp ha
      rw [ih hrest, append_assoc]

theorem changeLast_append_left (h : ∀ a ∈ m, p a = false) :
    changeLast p f (l ++ m) = changeLast p f l ++ m := by
  induction m using reverseRecOn with
  | nil => simp
  | append_singleton m a ih =>
    have ha : ¬ p a = true := by simp [h a (by simp)]
    rw [← append_assoc, changeLast_concat, if_neg ha, ih fun b hb => h b (by simp [hb]),
      append_assoc]

theorem map_changeLast {β : Type} {g : α → β} (hg : ∀ a, g (f a) = g a) (l : List α) :
    (changeLast p f l).map g = l.map g := by
  induction l using reverseRecOn with
  | nil => rfl
  | append_singleton l a ih =>
    rw [changeLast_concat]
    split_ifs
    · simp [hg]
    · simp [ih]

end

/-! ## A run of marks -/

section

variable [DecidableEq κ] (key : α → κ) (f : α → α)

/-- Items are marked, one after the other. -/
def markAll (marks : List κ) (l : List α) : List α :=
  marks.foldl (fun l k => changeLast (fun a => decide (key a = k)) f l) l

/-- Whether each item is the last one with its key, and the key is marked. -/
def lastFlags (marks : List κ) : List α → List Bool
  | [] => []
  | a :: l => decide (key a ∈ marks ∧ ∀ b ∈ l, key b ≠ key a) :: lastFlags marks l

variable {key f} {marks : List κ} {l m : List α}

theorem markAll_cons (k : κ) : markAll key f (k :: marks) l =
    markAll key f marks (changeLast (fun a => decide (key a = k)) f l) := rfl

section

variable (hf : ∀ a, key (f a) = key a)
include hf

theorem map_key_markAll (marks : List κ) (l : List α) :
    (markAll key f marks l).map key = l.map key := by
  induction marks generalizing l with
  | nil => rfl
  | cons k marks ih => rw [markAll_cons, ih, map_changeLast hf]

omit [DecidableEq κ] in
theorem mem_key_changeLast {k : κ} {p : α → Bool} :
    (∃ a ∈ changeLast p f m, key a = k) ↔ ∃ a ∈ m, key a = k := by
  rw [← mem_map, map_changeLast hf, mem_map]

/-- Marks of the items at the end leave the others as they are. -/
theorem markAll_append (h : ∀ k ∈ marks, ∃ a ∈ m, key a = k) :
    markAll key f marks (l ++ m) = l ++ markAll key f marks m := by
  induction marks generalizing m with
  | nil => rfl
  | cons k marks ih =>
    obtain ⟨a, ha, hk⟩ := h k mem_cons_self
    rw [markAll_cons, markAll_cons, changeLast_append ⟨a, ha, decide_eq_true hk⟩]
    exact ih fun k' hk' => (mem_key_changeLast hf).mpr (h k' (mem_cons_of_mem k hk'))

omit hf in
/-- Marks of other items leave those at the end as they are. -/
theorem markAll_append_left (h : ∀ k ∈ marks, ∀ a ∈ m, key a ≠ k) :
    markAll key f marks (l ++ m) = markAll key f marks l ++ m := by
  induction marks generalizing l with
  | nil => rfl
  | cons k marks ih =>
    have hnone : ∀ a ∈ m, decide (key a = k) = false := fun a ha =>
      decide_eq_false (h k mem_cons_self a ha)
    rw [markAll_cons, markAll_cons, changeLast_append_left hnone]
    exact ih fun k' hk' => h k' (mem_cons_of_mem k hk')

/-- Marks that find nothing change nothing. -/
theorem markAll_of_not (h : ∀ k ∈ marks, ∀ a ∈ l, key a ≠ k) : markAll key f marks l = l := by
  have hleft := markAll_append_left (l := []) (f := f) h
  have hnil : markAll key f marks ([] : List α) = [] :=
    map_eq_nil_iff.mp (map_key_markAll hf marks [])
  rwa [nil_append, hnil, nil_append] at hleft

end

theorem lastFlags_concat (marks : List κ) (l : List α) (a : α) : lastFlags key marks (l ++ [a]) =
    lastFlags key (marks.filter (· ≠ key a)) l ++ [decide (key a ∈ marks)] := by
  induction l with
  | nil => simp [lastFlags]
  | cons b l ih =>
    have hiff : (key b ∈ marks ∧ ∀ c ∈ l ++ [a], key c ≠ key b) ↔
        key b ∈ marks.filter (· ≠ key a) ∧ ∀ c ∈ l, key c ≠ key b := by
      simp only [mem_append, mem_singleton, mem_filter, decide_eq_true_eq]
      constructor
      · rintro ⟨hmem, hlater⟩
        exact ⟨⟨hmem, fun heq => hlater a (.inr rfl) heq.symm⟩, fun c hc => hlater c (.inl hc)⟩
      · rintro ⟨⟨hmem, hne⟩, hlater⟩
        refine ⟨hmem, fun c hc => ?_⟩
        rcases hc with hc | rfl
        · exact hlater c hc
        · exact fun heq => hne heq.symm
    rw [cons_append, lastFlags, ih, lastFlags, decide_eq_decide.mpr hiff, cons_append]

theorem length_lastFlags (marks : List κ) (l : List α) :
    (lastFlags key marks l).length = l.length := by
  induction l with
  | nil => rfl
  | cons a l ih => rw [lastFlags, length_cons, length_cons, ih]

theorem lastFlags_map {ι : Type} {g : ι → α} (marks : List κ) (l : List ι) :
    lastFlags key marks (l.map g) = lastFlags (fun i => key (g i)) marks l := by
  induction l with
  | nil => rfl
  | cons i l ih => simp [lastFlags, ih]

/-- Which items are marked in the end, if none was before. -/
theorem flags_markAll (hf : ∀ a, key (f a) = key a) {flag : α → Bool}
    (hflag : ∀ a, flag (f a) = true) (h : ∀ a ∈ l, flag a = false) :
    (markAll key f marks l).map flag = lastFlags key marks l := by
  have hconcat : ∀ (marks : List κ) (l : List α) (a : α), ∃ a', key a' = key a ∧
      (flag a' = true ↔ flag a = true ∨ key a ∈ marks) ∧
      markAll key f marks (l ++ [a]) = markAll key f (marks.filter (· ≠ key a)) l ++ [a'] := by
    intro marks
    induction marks with
    | nil => exact fun l a => ⟨a, rfl, by simp, rfl⟩
    | cons k marks ih =>
      intro l a
      rw [markAll_cons, changeLast_concat]
      by_cases hk : key a = k
      · obtain ⟨a', hkey, hmark, heq⟩ := ih l (f a)
        refine ⟨a', hkey.trans (hf a), ?_, ?_⟩
        · simp [hmark, hflag, hk]
        · rw [if_pos (decide_eq_true hk), heq, hf, filter_cons_of_neg (by simp [hk])]
      · obtain ⟨a', hkey, hmark, heq⟩ := ih (changeLast (fun a => decide (key a = k)) f l) a
        refine ⟨a', hkey, ?_, ?_⟩
        · simp [hmark, hk]
        · rw [if_neg (by simp [hk]), heq, filter_cons_of_pos (by simpa using fun h => hk h.symm),
            markAll_cons]
  induction l using reverseRecOn generalizing marks with
  | nil =>
    rw [map_eq_nil_iff.mp (map_key_markAll hf marks [])]
    rfl
  | append_singleton l a ih =>
    obtain ⟨a', -, hmark, heq⟩ := hconcat marks l a
    have ha : flag a = false := h a (by simp)
    have hlast : flag a' = decide (key a ∈ marks) := by
      rw [Bool.eq_iff_iff, hmark, ha, decide_eq_true_eq]
      simp
    rw [heq, map_append, ih fun b hb => h b (by simp [hb]), map_singleton, hlast,
      lastFlags_concat]

theorem lastFlags_congr {marks' : List κ} (h : ∀ a ∈ l, key a ∈ marks ↔ key a ∈ marks') :
    lastFlags key marks l = lastFlags key marks' l := by
  induction l with
  | nil => rfl
  | cons a l ih =>
    rw [lastFlags, lastFlags, ih fun b hb => h b (mem_cons_of_mem a hb)]
    simp only [h a mem_cons_self]

theorem mem_lastFlags_iff {due : α → Bool} : lastFlags key marks l = l.map due ↔
    (∀ a ∈ l, due a = true → key a ∈ marks) ∧ (l.Pairwise fun a b => due a = true → key b ≠ key a) ∧
        ∀ pre a post, l = pre ++ a :: post → key a ∈ marks → (∀ b ∈ post, key b ≠ key a) →
          due a = true := by
  induction l with
  | nil => simp [lastFlags]
  | cons c l ih =>
    rw [lastFlags, map_cons, List.cons.injEq, ih, pairwise_cons, forall_mem_cons]
    constructor
    · rintro ⟨hc, hmem, hpair, hlast⟩
      refine ⟨⟨fun hdue => ?_, hmem⟩, ⟨fun b hb hdue => ?_, hpair⟩, ?_⟩
      · rw [← hc, decide_eq_true_eq] at hdue
        exact hdue.1
      · rw [← hc, decide_eq_true_eq] at hdue
        exact hdue.2 b hb
      · intro pre a post heq hmark hlater
        cases pre with
        | nil =>
          obtain ⟨rfl, rfl⟩ := List.cons.inj heq
          rw [← hc, decide_eq_true_eq]
          exact ⟨hmark, hlater⟩
        | cons d pre => exact hlast pre a post (List.cons.inj heq).2 hmark hlater
    · rintro ⟨⟨hcmem, hmem⟩, ⟨hcpair, hpair⟩, hlast⟩
      refine ⟨?_, hmem, hpair, fun pre a post heq => hlast (c :: pre) a post (congrArg (c :: ·) heq)⟩
      rw [Bool.eq_iff_iff, decide_eq_true_eq]
      exact ⟨fun h => hlast [] c l rfl h.1 h.2, fun hdue => ⟨hcmem hdue, fun b hb => hcpair b hb hdue⟩⟩

/-- The items that are marked are those that were due, exactly when none that was due is followed
    by one with the same key. -/
theorem lastFlags_eq_iff {due : α → Bool}
    (h : ∀ a ∈ l, key a ∈ marks ↔ ∃ b ∈ l, key b = key a ∧ due b = true) :
    lastFlags key marks l = l.map due ↔ l.Pairwise fun a b => due a = true → key b ≠ key a := by
  rw [mem_lastFlags_iff]
  constructor
  · exact fun hall => hall.2.1
  · intro hpair
    refine ⟨fun a ha hdue => (h a ha).mpr ⟨a, ha, rfl, hdue⟩, hpair, ?_⟩
    intro pre a post heq hmark hlast
    obtain ⟨b, hb, hkey, hdue⟩ := (h a (by simp [heq])).mp hmark
    rw [heq, mem_append, mem_cons] at hb
    rcases hb with hb | rfl | hb
    · rw [heq, pairwise_append] at hpair
      exact absurd hkey.symm (hpair.2.2 b hb a mem_cons_self hdue)
    · exact hdue
    · exact absurd hkey (hlast b hb)

end

/-- A property that holds as often as a weaker one is the same. -/
theorem of_countP_eq {p q : α → Bool} {l : List α} (h : ∀ a ∈ l, p a = true → q a = true)
    (hcount : l.countP p = l.countP q) : ∀ a ∈ l, q a = true → p a = true := by
  induction l with
  | nil => simp
  | cons b l ih =>
    have hle : l.countP p ≤ l.countP q :=
      countP_mono_left fun a ha => h a (mem_cons_of_mem b ha)
    have hb := h b mem_cons_self
    rw [countP_cons, countP_cons] at hcount
    have hrest : l.countP p = l.countP q ∧ (q b = true → p b = true) := by
      cases hp : p b with
      | true => simpa [hp, hb hp] using hcount
      | false =>
        cases hq : q b with
        | true =>
          simp only [hp, hq, Bool.false_eq_true, if_false, if_true] at hcount
          omega
        | false => simpa [hp, hq] using hcount
    intro a ha hqa
    rcases mem_cons.mp ha with rfl | ha
    · exact hrest.2 hqa
    · exact ih (fun a ha => h a (mem_cons_of_mem b ha)) hrest.1 a ha hqa

end Lib
