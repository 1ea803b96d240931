import Mathlib.Data.List.Infix

/-!
# First occurrences

The first place where a list occurs in another one, as searches in texts find it: the rest of the
text from there on, or the text up to its end.

Results:
* `fromFirst_eq_some_iff`, `throughFirst_eq_some_iff`: what is found is the first occurrence.
* `not_overlapping`: an occurrence that begins before a mark ends before it, if the mark is no
  later character of what occurs.
* `fromFirst_clear`, `throughFirst_clear`: what is found behind a text in which no occurrence
  begins.
-/

namespace Lib

open List

variable {α : Type} [DecidableEq α]

/-- The rest of a list from the first occurrence of `p` on. -/
def fromFirst (p xs : List α) : Option (List α) := xs.tails.find? fun t => p.isPrefixOf t

/-- A list up to the end of the first occurrence of `p`. -/
def throughFirst (p xs : List α) : Option (List α) := xs.inits.find? fun f => p.isSuffixOf f

variable {p xs : List α}

theorem fromFirst_eq_none_iff : fromFirst p xs = none ↔ ¬ p <:+: xs := by
  rw [fromFirst, find?_eq_none]
  constructor
  · rintro h ⟨a, b, rfl⟩
    refine h (p ++ b) ((mem_tails _ _).mpr ⟨a, by simp⟩) ?_
    rw [List.isPrefixOf_iff_prefix]
    exact prefix_append _ _
  · intro h t ht hp
    exact h ((List.isPrefixOf_iff_prefix.mp hp).isInfix.trans ((mem_tails _ _).mp ht).isInfix)

theorem throughFirst_eq_none_iff : throughFirst p xs = none ↔ ¬ p <:+: xs := by
  rw [throughFirst, find?_eq_none]
  constructor
  · rintro h ⟨a, b, rfl⟩
    refine h (a ++ p) ((mem_inits _ _).mpr ⟨b, rfl⟩) ?_
    rw [isSuffixOf_iff_suffix]
    exact List.suffix_append _ _
  · intro h f hf hp
    exact h ((isSuffixOf_iff_suffix.mp hp).isInfix.trans ((mem_inits _ _).mp hf).isInfix)

variable {t : List α}

theorem not_isPrefixOf_iff : (!p.isPrefixOf t) = true ↔ ¬ p <+: t := by
  rw [Bool.not_eq_true', ← Bool.not_eq_true, isPrefixOf_iff_prefix]

theorem not_isSuffixOf_iff : (!p.isSuffixOf t) = true ↔ ¬ p <:+ t := by
  rw [Bool.not_eq_true', ← Bool.not_eq_true, isSuffixOf_iff_suffix]

theorem fromFirst_eq_some_iff : fromFirst p xs = some t ↔
    ∃ a, xs = a ++ t ∧ p <+: t ∧ ∀ a' t', xs = a' ++ t' → p <+: t' → a.length ≤ a'.length := by
  rw [fromFirst, find?_eq_some_iff_getElem]
  simp only [getElem_tails, isPrefixOf_iff_prefix, length_tails, not_isPrefixOf_iff]
  constructor
  · rintro ⟨hp, i, hi, rfl, hmin⟩
    refine ⟨xs.take i, (take_append_drop i xs).symm, hp, fun a' t' heq hp' => ?_⟩
    rw [length_take]
    by_contra hlt
    have hlt' : a'.length < i := by omega
    have hdrop : xs.drop a'.length = t' := by rw [heq, drop_left]
    exact hmin a'.length hlt' (hdrop ▸ hp')
  · rintro ⟨a, rfl, hp, hmin⟩
    have hlen : a.length < (a ++ t).length + 1 := by
      rw [length_append]
      omega
    refine ⟨hp, a.length, hlen, drop_left, fun j hj hp' => ?_⟩
    have hle := hmin ((a ++ t).take j) _ (take_append_drop j _).symm hp'
    rw [length_take] at hle
    omega

theorem throughFirst_eq_some_iff {f : List α} : throughFirst p xs = some f ↔
    f <+: xs ∧ p <:+ f ∧ ∀ f', f' <+: xs → p <:+ f' → f.length ≤ f'.length := by
  rw [throughFirst, find?_eq_some_iff_getElem]
  simp only [getElem_inits, isSuffixOf_iff_suffix, length_inits, not_isSuffixOf_iff]
  constructor
  · rintro ⟨hp, i, hi, rfl, hmin⟩
    refine ⟨List.take_prefix _ _, hp, fun f' hf' hp' => ?_⟩
    rw [length_take]
    by_contra hlt
    have hlt' : f'.length < i := by omega
    exact hmin f'.length hlt' (prefix_iff_eq_take.mp hf' ▸ hp')
  · rintro ⟨hf, hp, hmin⟩
    have hle := hf.length_le
    refine ⟨hp, f.length, by omega, (prefix_iff_eq_take.mp hf).symm, fun j hj hp' => ?_⟩
    have hle' := hmin _ (List.take_prefix j xs) hp'
    rw [length_take] at hle'
    omega

omit [DecidableEq α] in
theorem suffix_tail {w : List α} (h : w <:+ p) (hne : w ≠ p) : w <:+ p.tail := by
  cases p with
  | nil => exact absurd (suffix_nil.mp h) hne
  | cons c p =>
    rcases suffix_cons_iff.mp h with rfl | h
    · exact absurd rfl hne
    · exact h

omit [DecidableEq α] in
/-- What begins with a mark does not begin within an occurrence of `p`, if the mark is no later
    character of it. -/
theorem mark_not_mem {w e : List α} {mark : α} (hmark : e.head? = some mark)
    (hp : mark ∉ p.tail) (hwe : w <+: e) (hw : w ≠ []) (hwp : w <:+ p) : w = p := by
  by_contra hne
  have hmem : mark ∈ w := by
    obtain ⟨tail, rfl⟩ := hwe
    rw [head?_append_of_ne_nil _ hw] at hmark
    exact mem_of_mem_head? hmark
  exact hp ((suffix_tail hwp hne).subset hmem)

omit [DecidableEq α] in
/-- Let `f` be the shortest beginning of `c ++ e ++ y` that ends with `p`. If `f` itself begins
    with `e` and is hardly longer, then it ends before that `e` begins: an overlap would be a
    shorter beginning that ends with `p`, or `e` would begin within `p`. -/
theorem not_overlapping {c e y f : List α} {mark : α} (hmark : e.head? = some mark)
    (hp : mark ∉ p.tail) (hc : c ≠ []) (hf : f <+: c ++ e ++ y) (hend : p <:+ f)
    (hfirst : ∀ f', f' <+: c ++ e ++ y → p <:+ f' → f.length ≤ f'.length)
    (he : e <+: f) (hlen : f.length ≤ c.length + e.length) : f.length ≤ c.length := by
  by_contra hlt
  have hcf : c <+: f := by
    have hprefix : c <+: c ++ e ++ y := append_assoc c e y ▸ prefix_append c _
    exact prefix_of_prefix_length_le hprefix hf (by omega)
  obtain ⟨w, rfl⟩ := hcf
  have hw : w ≠ [] := by
    rintro rfl
    simp at hlt
  have hwe : w <+: e := by
    rw [append_assoc, prefix_append_right_inj] at hf
    refine prefix_of_prefix_length_le hf (prefix_append e y) ?_
    rw [length_append] at hlen
    omega
  have hshort : w.length < p.length := by
    by_contra hle
    have hpw : p <:+ w := suffix_of_suffix_length_le hend (List.suffix_append c w) (by omega)
    have hle' := hfirst w ((hwe.trans he).trans hf) hpw
    rw [length_append] at hle'
    have hpos := length_pos_iff.mpr hc
    omega
  have hwp : w <:+ p := suffix_of_suffix_length_le (List.suffix_append c w) hend (by omega)
  have heq := mark_not_mem hmark hp hwe hw hwp
  rw [heq] at hshort
  omega

/-! ## Texts without a beginning -/

section

variable {mark : α} {a b : List α}

omit [DecidableEq α] in
/-- No occurrence of `mark :: p` begins in the text, whatever follows on it. -/
inductive Clear (mark : α) (p : List α) : List α → Prop
  | nil : Clear mark p []
  | cons {c : α} {text : List α} (here : c = mark → ¬ p <+: text ∧ ¬ text <+: p)
      (rest : Clear mark p text) : Clear mark p (c :: text)

omit [DecidableEq α] in
theorem clear_cons_iff {c : α} : Clear mark p (c :: a) ↔
    (c = mark → ¬ p <+: a ∧ ¬ a <+: p) ∧ Clear mark p a := by
  constructor
  · rintro (_ | ⟨here, rest⟩)
    exact ⟨here, rest⟩
  · exact fun h => .cons h.1 h.2

/-- The texts can be tested. -/
def decidableClear (mark : α) (p : List α) : (text : List α) → Decidable (Clear mark p text)
  | [] => .isTrue .nil
  | _ :: text => @decidable_of_iff _ _ clear_cons_iff.symm
      (@instDecidableAnd _ _ inferInstance (decidableClear mark p text))

instance (text : List α) : Decidable (Clear mark p text) := decidableClear mark p text

omit [DecidableEq α] in
theorem Clear.append (ha : Clear mark p a) (hb : Clear mark p b) : Clear mark p (a ++ b) := by
  induction ha with
  | nil => exact hb
  | @cons c a here rest ih =>
    refine .cons (fun hc => ?_) ih
    obtain ⟨hshort, hlong⟩ := here hc
    constructor
    · intro hp
      rcases prefix_or_prefix_of_prefix hp (prefix_append a b) with h | h
      · exact hshort h
      · exact hlong h
    · intro hab
      exact hlong ((prefix_append a b).trans hab)

omit [DecidableEq α] in
theorem clear_of_notMem (h : mark ∉ a) : Clear mark p a := by
  induction a with
  | nil => exact .nil
  | cons c a ih =>
    rw [mem_cons, not_or] at h
    exact .cons (fun hc => absurd hc.symm h.1) (ih h.2)

omit [DecidableEq α] in
theorem clear_flatten {texts : List (List α)} (h : ∀ text ∈ texts, Clear mark p text) :
    Clear mark p texts.flatten := by
  induction texts with
  | nil => exact .nil
  | cons text texts ih =>
    rw [flatten_cons]
    exact (h text mem_cons_self).append (ih fun t ht => h t (mem_cons_of_mem _ ht))

omit [DecidableEq α] in
/-- An occurrence begins after the text. -/
theorem Clear.length_le {rest before after : List α} (h : Clear mark p a)
    (heq : a ++ rest = before ++ (mark :: p ++ after)) : a.length ≤ before.length := by
  induction h generalizing before with
  | nil => exact Nat.zero_le _
  | @cons c a here clear ih =>
    cases before with
    | nil =>
      obtain ⟨rfl, htail⟩ := List.cons.inj heq
      obtain ⟨hshort, hlong⟩ := here rfl
      have hp : p <+: a ++ rest := ⟨after, htail.symm⟩
      rcases prefix_or_prefix_of_prefix hp (prefix_append a rest) with h | h
      · exact absurd h hshort
      · exact absurd h hlong
    | cons d before =>
      have hle := ih (List.cons.inj heq).2
      rw [length_cons, length_cons]
      omega

omit [DecidableEq α] in
theorem Clear.notInfix (h : Clear mark p a) : ¬ mark :: p <:+: a := by
  rintro ⟨before, after, heq⟩
  have hbefore : a ++ [] = before ++ (mark :: p ++ after) := by simp [← heq]
  have hle := h.length_le hbefore
  have hlen := congrArg List.length heq
  simp only [length_append, length_cons] at hlen
  omega

/-- The first occurrence is behind the text. -/
theorem fromFirst_clear (h : Clear mark p a) (rest : List α) :
    fromFirst (mark :: p) (a ++ (mark :: p ++ rest)) = some (mark :: p ++ rest) := by
  refine fromFirst_eq_some_iff.mpr ⟨a, rfl, prefix_append _ _, fun a' t' heq ht' => ?_⟩
  obtain ⟨after, rfl⟩ := ht'
  exact h.length_le heq

/-- It ends where it does. -/
theorem throughFirst_clear (h : Clear mark p a) :
    throughFirst (mark :: p) (a ++ mark :: p) = some (a ++ mark :: p) := by
  refine throughFirst_eq_some_iff.mpr ⟨prefix_rfl, List.suffix_append _ _, ?_⟩
  rintro f' ⟨after, hafter⟩ ⟨before, rfl⟩
  have hbefore : a ++ mark :: p = before ++ (mark :: p ++ after) := by
    rw [← hafter, append_assoc]
  have hle := h.length_le hbefore
  rw [length_append, length_append]
  omega

end

end Lib
