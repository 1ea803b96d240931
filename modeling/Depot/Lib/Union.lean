import Depot.Lib.SortedMap
import Mathlib.Data.Finset.Card
import Mathlib.Data.Finset.Dedup
import Mathlib.Data.Finset.Insert

/-!
# Unions of sorted maps

The union of several maps in which the first map that has a key wins, and its windows: runs of
entries from a number on.

Results:
* `SortedMap.get_union`: the union looks a key up in the first map that has it.
* `SortedMap.window_eq_iff`: exactly when two maps have the same window.
-/

namespace Lib

open List
open Option (isSome_iff_exists none_or or_none some_or)

namespace SortedMap

variable {κ ν : Type} [LinearOrder κ]

/-! ## Parts of a map -/

/-- The first `n` entries. -/
def first (n : ℕ) (m : SortedMap κ ν) : SortedMap κ ν :=
  ⟨m.entries.take n, m.sorted.sublist (take_sublist _ _)⟩

/-- How many keys there are before `k`. -/
def rank (m : SortedMap κ ν) (k : κ) : ℕ := (m.entries.filter fun e => e.1 < k).length

/-- An entry stands where its rank says. -/
theorem getElem?_entries_iff {m : SortedMap κ ν} {i : ℕ} {e : κ × ν} :
    m.entries[i]? = some e ↔ m.get e.1 = some e.2 ∧ m.rank e.1 = i := by
  obtain ⟨es, hs⟩ := m
  rw [← mem_entries_iff, rank]
  dsimp only
  induction es generalizing i with
  | nil => simp
  | cons a es ih =>
    obtain ⟨ha, hs'⟩ := pairwise_cons.mp hs
    have hnone : (es.filter fun e => e.1 < a.1) = [] :=
      filter_eq_nil_iff.mpr fun b hb => by simpa using (ha b hb).le
    cases i with
    | zero =>
      rw [getElem?_cons_zero, Option.some.injEq, length_eq_zero_iff, filter_eq_nil_iff]
      constructor
      · rintro rfl
        refine ⟨mem_cons_self, fun b hb => ?_⟩
        rcases mem_cons.mp hb with rfl | hb
        · simp
        · simpa using (ha b hb).le
      · rintro ⟨he, hleast⟩
        rcases mem_cons.mp he with heq | he
        · exact heq.symm
        · exact absurd (decide_eq_true (ha e he)) (hleast a mem_cons_self)
    | succ i =>
      rw [getElem?_cons_succ, ih hs', mem_cons]
      constructor
      · rintro ⟨he, hr⟩
        refine ⟨.inr he, ?_⟩
        rw [filter_cons, if_pos (decide_eq_true (ha e he)), length_cons, hr]
      · rintro ⟨rfl | he, hr⟩
        · rw [filter_cons, if_neg (by simp), hnone] at hr
          cases hr
        · rw [filter_cons, if_pos (decide_eq_true (ha e he)), length_cons] at hr
          exact ⟨he, Nat.succ.inj hr⟩

/-! ## Windows -/

theorem mem_keys {m : SortedMap κ ν} {k : κ} : k ∈ m.entries.map Prod.fst ↔ (m.get k).isSome := by
  rw [mem_map, isSome_iff_exists]
  constructor
  · rintro ⟨e, he, rfl⟩
    exact ⟨e.2, mem_entries_iff.mp he⟩
  · rintro ⟨v, hv⟩
    exact ⟨(k, v), mem_entries_iff.mpr hv, rfl⟩

/-- Exactly when two maps have the same window of `l` entries from number `o` on, and both go on
    after it or neither does: when the entries of the second stand in the first where they stand
    in the second, and there are as many after them. -/
theorem window_eq_iff (f m : SortedMap κ ν) (o l : ℕ) :
    ((f.entries.drop o).take l = (m.entries.drop o).take l ∧
      (o + l < f.entries.length ↔ o + l < m.entries.length)) ↔
    (∀ e ∈ (m.entries.drop o).take l, f.get e.1 = some e.2 ∧ f.rank e.1 = m.rank e.1) ∧
      min (f.entries.length - o) (l + 1) = min (m.entries.length - o) (l + 1) := by
  have hwindow : ∀ (n : SortedMap κ ν) (i : ℕ),
      ((n.entries.drop o).take l)[i]? = if i < l then n.entries[o + i]? else none := by
    intro n i
    rw [getElem?_take, getElem?_drop]
  constructor
  · rintro ⟨heq, hmore⟩
    refine ⟨fun e he => ?_, ?_⟩
    · obtain ⟨i, hi⟩ := mem_iff_getElem?.mp he
      have hf := hi
      rw [← heq] at hf
      rw [hwindow] at hi hf
      split_ifs at hi hf with hil
      obtain ⟨_, hrm⟩ := getElem?_entries_iff.mp hi
      obtain ⟨hgf, hrf⟩ := getElem?_entries_iff.mp hf
      exact ⟨hgf, hrf.trans hrm.symm⟩
    · have hlen := congrArg List.length heq
      rw [length_take, length_take, length_drop, length_drop] at hlen
      omega
  · rintro ⟨hin, hlen⟩
    refine ⟨ext_getElem? fun i => ?_, by omega⟩
    rw [hwindow, hwindow]
    split_ifs with hil
    · cases hm : m.entries[o + i]? with
      | some e =>
        have he : e ∈ (m.entries.drop o).take l := by
          refine mem_iff_getElem?.mpr ⟨i, ?_⟩
          rw [hwindow, if_pos hil, hm]
        obtain ⟨hg, hrank⟩ := hin e he
        exact getElem?_entries_iff.mpr ⟨hg, hrank.trans (getElem?_entries_iff.mp hm).2⟩
      | none =>
        have hle := List.getElem?_eq_none_iff.mp hm
        exact getElem?_eq_none (by omega)
    · rfl

/-! ## Unions -/

/-- Add an entry unless its key is there. -/
def putAbsent (m : SortedMap κ ν) (e : κ × ν) : SortedMap κ ν :=
  if (m.get e.1).isSome then m else m.insert e.1 e.2

/-- Add the entries whose keys are not there. -/
def addAbsent (m : SortedMap κ ν) (es : List (κ × ν)) : SortedMap κ ν := es.foldl putAbsent m

/-- The union of maps; the first map with a key wins. -/
def union (ms : List (SortedMap κ ν)) : SortedMap κ ν :=
  ms.foldl (fun m n => m.addAbsent n.entries) empty

theorem get_putAbsent (m : SortedMap κ ν) (e : κ × ν) (k : κ) :
    (m.putAbsent e).get k = (m.get k).or (if k = e.1 then some e.2 else none) := by
  unfold putAbsent
  split_ifs with hs hk hk
  · obtain ⟨v, hv⟩ := isSome_iff_exists.mp hs
    rw [hk, hv, some_or]
  · rw [or_none]
  · have hn := Option.not_isSome_iff_eq_none.mp hs
    rw [get_insert, if_pos hk, hk, hn, none_or]
  · rw [get_insert, if_neg hk, or_none]

theorem get_addAbsent (m : SortedMap κ ν) (es : List (κ × ν)) (k : κ) :
    (m.addAbsent es).get k = (m.get k).or ((es.find? fun e => e.1 = k).map Prod.snd) := by
  unfold addAbsent
  induction es generalizing m with
  | nil => rw [foldl_nil, find?_nil, Option.map_none, or_none]
  | cons e es ih =>
    rw [foldl_cons, ih, get_putAbsent, Option.or_assoc, find?_cons]
    by_cases hk : k = e.1
    · rw [if_pos hk, decide_eq_true hk.symm, some_or]
      rfl
    · rw [if_neg hk, decide_eq_false (Ne.symm hk), none_or]

/-- A list in strictly ascending order is a map. -/
theorem entries_addAbsent {es : List (κ × ν)} (h : es.Pairwise fun a b => a.1 < b.1) :
    (empty.addAbsent es).entries = es := by
  refine eq_of_mem_iff_of_sorted (empty.addAbsent es).sorted h fun e => ?_
  have hget : (empty.addAbsent es).get e.1 = (⟨es, h⟩ : SortedMap κ ν).get e.1 := by
    rw [get_addAbsent]
    rfl
  rw [show e = (e.1, e.2) from rfl, mem_entries_iff, hget]
  exact mem_entries_iff.symm

/-- The union looks a key up in the first map that has it. -/
theorem get_union (ms : List (SortedMap κ ν)) (k : κ) :
    (union ms).get k = ms.findSome? fun m => m.get k := by
  have hacc : ∀ m : SortedMap κ ν, (ms.foldl (fun m n => m.addAbsent n.entries) m).get k =
      (m.get k).or (ms.findSome? fun m => m.get k) := by
    induction ms with
    | nil => intro m; rw [foldl_nil, findSome?_nil, or_none]
    | cons n ms ih =>
      intro m
      rw [foldl_cons, ih, get_addAbsent, Option.or_assoc, findSome?_cons]
      congr 1
      show (n.get k).or _ = _
      cases n.get k <;> rfl
  exact (hacc empty).trans (none_or)

theorem isSome_get_union {ms : List (SortedMap κ ν)} {k : κ} :
    ((union ms).get k).isSome ↔ ∃ m ∈ ms, (m.get k).isSome := by
  rw [get_union, findSome?_isSome_iff]

/-- The keys of several maps. -/
def keysOf (ms : List (SortedMap κ ν)) : Finset κ :=
  (ms.flatMap fun m => m.entries.map Prod.fst).toFinset

theorem mem_keysOf {ms : List (SortedMap κ ν)} {k : κ} :
    k ∈ keysOf ms ↔ ((union ms).get k).isSome := by
  rw [keysOf, mem_toFinset, mem_flatMap, isSome_get_union]
  exact exists_congr fun m => and_congr_right fun _ => mem_keys

/-- The union has as many entries as there are keys. -/
theorem length_union (ms : List (SortedMap κ ν)) :
    (union ms).entries.length = (keysOf ms).card := by
  rw [← length_map (f := Prod.fst),
    ← toFinset_card_of_nodup (nodup_keys_of_sorted (union ms).sorted)]
  congr 1
  refine Finset.ext fun k => ?_
  rw [mem_toFinset, mem_keys, mem_keysOf]

/-- The rank in the union is the number of keys before. -/
theorem rank_union (ms : List (SortedMap κ ν)) (k : κ) :
    (union ms).rank k = ((keysOf ms).filter (· < k)).card := by
  have hnodup : (((union ms).entries.filter fun e => e.1 < k).map Prod.fst).Nodup :=
    (nodup_keys_of_sorted (union ms).sorted).sublist (filter_sublist.map _)
  rw [rank, ← length_map (f := Prod.fst), ← toFinset_card_of_nodup hnodup]
  congr 1
  refine Finset.ext fun a => ?_
  rw [mem_toFinset, mem_map, Finset.mem_filter, mem_keysOf, ← mem_keys, mem_map]
  constructor
  · rintro ⟨e, he, rfl⟩
    exact ⟨⟨e, (mem_filter.mp he).1, rfl⟩, of_decide_eq_true (mem_filter.mp he).2⟩
  · rintro ⟨⟨e, he, rfl⟩, hlt⟩
    exact ⟨e, mem_filter.mpr ⟨he, decide_eq_true hlt⟩, rfl⟩

end SortedMap

end Lib
