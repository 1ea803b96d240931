import Mathlib.Data.List.Basic
import Mathlib.Data.List.Sort
import Mathlib.Order.Basic
import Mathlib.Order.Defs.LinearOrder

/-!
# Sorted finite maps

A finite map as its list of entries in strictly increasing key order, the
order in which a range scan returns them. The order is a field, so a map whose
entries are out of order or repeat a key cannot be built.

Results:
* `sortByKey_sorted`, `eq_of_mem_iff_of_sorted`: sorting by key.
* `SortedMap.get_insert`, `SortedMap.get_erase`: lookups after an update.
* `SortedMap.mem_entries_iff`: the entries are exactly the lookups.
-/

namespace Lib

open List

/-! ## Sorting by key -/

section SortByKey

variable {κ α : Type} [LinearOrder κ]

/-- Sort a list of entries by their keys. -/
def sortByKey (items : List (κ × α)) : List (κ × α) := items.insertionSort fun a b => a.1 ≤ b.1

theorem perm_sortByKey (items : List (κ × α)) : (sortByKey items).Perm items :=
  perm_insertionSort _ _

theorem mem_sortByKey {items : List (κ × α)} {e : κ × α} : e ∈ sortByKey items ↔ e ∈ items :=
  mem_insertionSort _

/-- Entries with distinct keys are sorted strictly. -/
theorem sortByKey_sorted {items : List (κ × α)} (h : (items.map Prod.fst).Nodup) :
    (sortByKey items).Pairwise fun a b => a.1 < b.1 := by
  have : Std.Total fun a b : κ × α => a.1 ≤ b.1 := ⟨fun a b => le_total a.1 b.1⟩
  have : IsTrans (κ × α) fun a b => a.1 ≤ b.1 := ⟨fun _ _ _ h h' => le_trans h h'⟩
  have hle : (sortByKey items).Pairwise fun a b => a.1 ≤ b.1 := pairwise_insertionSort _ _
  have hne : (sortByKey items).Pairwise fun a b => a.1 ≠ b.1 :=
    pairwise_map.mp (((perm_sortByKey items).map Prod.fst).nodup_iff.mpr h)
  exact hle.imp₂ (fun _ _ hle hne => lt_of_le_of_ne hle hne) hne

/-- A list in strictly ascending order is determined by its entries. -/
theorem eq_of_mem_iff_of_sorted {l l' : List (κ × α)} (hl : l.Pairwise fun a b => a.1 < b.1)
    (hl' : l'.Pairwise fun a b => a.1 < b.1) (h : ∀ e, e ∈ l ↔ e ∈ l') : l = l' := by
  have : Std.Irrefl fun a b : κ × α => a.1 < b.1 := ⟨fun a => lt_irrefl a.1⟩
  have : Std.Antisymm fun a b : κ × α => a.1 < b.1 := ⟨fun a b h h' => absurd h' h.asymm⟩
  exact List.Pairwise.eq_of_mem_iff hl hl' @h

theorem nodup_keys_of_sorted {l : List (κ × α)} (h : l.Pairwise fun a b => a.1 < b.1) :
    (l.map Prod.fst).Nodup := pairwise_map.mpr (h.imp fun hlt => hlt.ne)

end SortByKey

/-! ## Maps -/

/-- Finite maps with entries in strictly increasing key order. -/
structure SortedMap (κ ν : Type) [LinearOrder κ] where
  entries : List (κ × ν)
  sorted : entries.Pairwise fun a b => a.1 < b.1

namespace SortedMap

variable {κ ν : Type} [LinearOrder κ]

def empty : SortedMap κ ν := ⟨[], List.Pairwise.nil⟩

/-- The value at `k`. -/
def get (m : SortedMap κ ν) (k : κ) : Option ν :=
  (m.entries.find? fun e => e.1 = k).map Prod.snd

/-- Put `(k, v)` in its place in a sorted list, over an entry with that key. -/
def insertEntry (k : κ) (v : ν) : List (κ × ν) → List (κ × ν)
  | [] => [(k, v)]
  | e :: es =>
      if k < e.1 then (k, v) :: e :: es
      else if k = e.1 then (k, v) :: es
      else e :: insertEntry k v es

variable {k : κ} {v : ν}

theorem mem_insertEntry {es : List (κ × ν)} (hs : es.Pairwise fun a b => a.1 < b.1) {x : κ × ν} :
    x ∈ insertEntry k v es ↔ x = (k, v) ∨ x ∈ es ∧ x.1 ≠ k := by
  induction es with
  | nil => simp [insertEntry]
  | cons e es ih =>
    rw [pairwise_cons] at hs
    rw [insertEntry]
    split_ifs with h1 h2
    · have hne : ∀ y ∈ e :: es, y.1 ≠ k := by
        intro y hy
        rcases mem_cons.mp hy with rfl | hy
        · exact ne_of_gt h1
        · exact ne_of_gt (h1.trans (hs.1 y hy))
      constructor
      · intro hx
        rcases mem_cons.mp hx with rfl | hx
        · exact .inl rfl
        · exact .inr ⟨hx, hne x hx⟩
      · rintro (rfl | hx)
        · exact mem_cons_self
        · exact mem_cons_of_mem _ hx.1
    · have hne : ∀ y ∈ es, y.1 ≠ k := fun y hy => ne_of_gt (h2 ▸ hs.1 y hy)
      constructor
      · intro hx
        rcases mem_cons.mp hx with rfl | hx
        · exact .inl rfl
        · exact .inr ⟨mem_cons_of_mem e hx, hne x hx⟩
      · rintro (rfl | ⟨hx, hxk⟩)
        · exact mem_cons_self
        · rcases mem_cons.mp hx with rfl | hx
          · exact absurd h2.symm hxk
          · exact mem_cons_of_mem _ hx
    · rw [mem_cons, ih hs.2, mem_cons]
      constructor
      · rintro (rfl | rfl | ⟨hx, hxk⟩)
        · exact .inr ⟨.inl rfl, Ne.symm h2⟩
        · exact .inl rfl
        · exact .inr ⟨.inr hx, hxk⟩
      · rintro (rfl | ⟨rfl | hx, hxk⟩)
        · exact .inr (.inl rfl)
        · exact .inl rfl
        · exact .inr (.inr ⟨hx, hxk⟩)

theorem sorted_insertEntry {es : List (κ × ν)} (hs : es.Pairwise fun a b => a.1 < b.1) :
    (insertEntry k v es).Pairwise fun a b => a.1 < b.1 := by
  induction es with
  | nil => simp [insertEntry]
  | cons e es ih =>
    have hs' := pairwise_cons.mp hs
    rw [insertEntry]
    split_ifs with h1 h2
    · refine pairwise_cons.mpr ⟨fun y hy => ?_, hs⟩
      rcases mem_cons.mp hy with rfl | hy
      · exact h1
      · exact h1.trans (hs'.1 y hy)
    · exact pairwise_cons.mpr ⟨fun y hy => h2 ▸ hs'.1 y hy, hs'.2⟩
    · refine pairwise_cons.mpr ⟨fun y hy => ?_, ih hs'.2⟩
      rcases (mem_insertEntry hs'.2).mp hy with rfl | hy
      · exact lt_of_le_of_ne (not_lt.mp h1) (Ne.symm h2)
      · exact hs'.1 y hy.1

/-- Set the value at `k`. -/
def insert (m : SortedMap κ ν) (k : κ) (v : ν) : SortedMap κ ν :=
  ⟨insertEntry k v m.entries, sorted_insertEntry m.sorted⟩

/-- Remove the entry at `k`. -/
def erase (m : SortedMap κ ν) (k : κ) : SortedMap κ ν :=
  ⟨m.entries.filter fun e => e.1 ≠ k, m.sorted.filter _⟩

/-- Set the value at `k`, or remove it. -/
def assign (m : SortedMap κ ν) (k : κ) : Option ν → SortedMap κ ν
  | some v => m.insert k v
  | none => m.erase k

/-- Keep the entries whose key satisfies `p`. -/
def restrict (m : SortedMap κ ν) (p : κ → Bool) : SortedMap κ ν :=
  ⟨m.entries.filter fun e => p e.1, m.sorted.filter _⟩

/-! ## Lookups -/

variable {m : SortedMap κ ν}

/-- The entries are exactly the lookups. -/
theorem mem_entries_iff : (k, v) ∈ m.entries ↔ m.get k = some v := by
  obtain ⟨es, hs⟩ := m
  simp only [get]
  induction es with
  | nil => simp
  | cons e es ih =>
    have hs' := pairwise_cons.mp hs
    rw [mem_cons, find?_cons]
    by_cases hek : e.1 = k
    · have hnot : (k, v) ∉ es := fun hm => (ne_of_lt (hs'.1 _ hm)) hek
      obtain ⟨k', v'⟩ := e
      cases hek
      simp only [decide_true, Option.map_some, Option.some.injEq, hnot, or_false,
        Prod.mk.injEq, true_and]
      exact eq_comm
    · have hne : (k, v) ≠ e := fun he => hek (by rw [← he])
      simp only [hek, decide_false, hne, false_or]
      exact ih hs'.2

@[simp] theorem get_empty (k : κ) : (empty : SortedMap κ ν).get k = none := rfl

theorem get_insert (m : SortedMap κ ν) (k k' : κ) (v : ν) :
    (m.insert k v).get k' = if k' = k then some v else m.get k' := by
  refine Option.ext fun x => ?_
  rw [← mem_entries_iff, insert, mem_insertEntry m.sorted, mem_entries_iff]
  split_ifs with h
  · subst h
    simp [eq_comm]
  · simp [h]

@[simp] theorem get_insert_self (m : SortedMap κ ν) (k : κ) (v : ν) :
    (m.insert k v).get k = some v := by rw [get_insert, if_pos rfl]

theorem get_erase (m : SortedMap κ ν) (k k' : κ) :
    (m.erase k).get k' = if k' = k then none else m.get k' := by
  refine Option.ext fun x => ?_
  rw [← mem_entries_iff, erase, mem_filter, mem_entries_iff]
  split_ifs with h
  · simp [h]
  · simp [h]

@[simp] theorem get_erase_self (m : SortedMap κ ν) (k : κ) : (m.erase k).get k = none := by
  rw [get_erase, if_pos rfl]

theorem get_assign (m : SortedMap κ ν) (k k' : κ) (c : Option ν) :
    (m.assign k c).get k' = if k' = k then c else m.get k' := by
  cases c with
  | some v => exact get_insert m k k' v
  | none => exact get_erase m k k'

theorem get_restrict (m : SortedMap κ ν) (p : κ → Bool) (k : κ) :
    (m.restrict p).get k = if p k then m.get k else none := by
  refine Option.ext fun x => ?_
  rw [← mem_entries_iff, restrict, mem_filter, mem_entries_iff]
  split_ifs with h
  · simp [h]
  · simp [h]

theorem ext_entries {m m' : SortedMap κ ν} (h : m.entries = m'.entries) : m = m' := by
  cases m
  cases m'
  congr

/-- Maps with the same lookups are equal. -/
theorem ext_get {m m' : SortedMap κ ν} (h : ∀ k, m.get k = m'.get k) : m = m' := by
  have hperm : ∀ x, x ∈ m.entries ↔ x ∈ m'.entries := fun x => by
    rw [show x = (x.1, x.2) from rfl, mem_entries_iff, mem_entries_iff, h]
  exact ext_entries (eq_of_mem_iff_of_sorted m.sorted m'.sorted hperm)

/-! ## Range scans -/

/-- The entries from key `start` on, before key `stop` if one is given. -/
def range (m : SortedMap κ ν) (start : κ) (stop : Option κ) : List (κ × ν) :=
  m.entries.filter fun e => start ≤ e.1 ∧ stop.all (fun k => decide (e.1 < k)) = true

/-- The first `limit` entries of a range, and whether there are no more. -/
def page (m : SortedMap κ ν) (start : κ) (stop : Option κ) (limit : ℕ) : List (κ × ν) × Bool :=
  ((m.range start stop).take limit, decide ((m.range start stop).length ≤ limit))

variable {stop : Option κ} {start : κ} {e : κ × ν}

theorem mem_range : e ∈ m.range start stop ↔ e ∈ m.entries ∧ start ≤ e.1 ∧ ∀ k ∈ stop, e.1 < k := by
  cases stop <;> simp [range]

theorem range_sorted (m : SortedMap κ ν) (start : κ) (stop : Option κ) :
    (m.range start stop).Pairwise fun a b => a.1 < b.1 := m.sorted.filter _

variable {limit : ℕ}

theorem page_subset
    (he : e ∈ (m.page start stop limit).1) : m.get e.1 = some e.2 ∧ start ≤ e.1 := by
  have hr := mem_range.mp (mem_of_mem_take he)
  exact ⟨mem_entries_iff.mp hr.1, hr.2.1⟩

theorem page_sorted (m : SortedMap κ ν) (start : κ) (stop : Option κ) (limit : ℕ) :
    (m.page start stop limit).1.Pairwise fun a b => a.1 < b.1 :=
  (m.range_sorted start stop).sublist (take_sublist _ _)

variable {l : List (κ × ν)}

/-- The last key of a sorted list is the largest. -/
theorem le_of_getLast (hs : l.Pairwise fun a b => a.1 < b.1) {last e : κ × ν}
    (hl : l.getLast? = some last) (he : e ∈ l) : e.1 ≤ last.1 := by
  obtain ⟨front, rfl⟩ := getLast?_eq_some_iff.mp hl
  rcases mem_append.mp he with h | h
  · exact ((pairwise_append.mp hs).2.2 e h last (mem_singleton_self _)).le
  · rw [mem_singleton.mp h]

/-- The last page misses nothing. -/
theorem page_done (hd : (m.page start stop limit).2 = true) (hk : m.get k = some v)
    (hs : start ≤ k) (he : ∀ k' ∈ stop, k < k') : (k, v) ∈ (m.page start stop limit).1 := by
  have hle : (m.range start stop).length ≤ limit := by simpa [page] using hd
  rw [page, take_of_length_le hle]
  exact mem_range.mpr ⟨mem_entries_iff.mpr hk, hs, he⟩

/-- A page misses nothing up to its last key. -/
theorem mem_page_of_le {last : κ × ν} (hl : (m.page start stop limit).1.getLast? = some last)
    (hk : m.get k = some v) (hs : start ≤ k) (hle : k ≤ last.1) :
    (k, v) ∈ (m.page start stop limit).1 := by
  have hlast : last ∈ (m.range start stop).take limit := mem_of_getLast? hl
  have hstop := (mem_range.mp (mem_of_mem_take hlast)).2.2
  have hmem : (k, v) ∈ m.range start stop :=
    mem_range.mpr ⟨mem_entries_iff.mpr hk, hs, fun k' hk' => lt_of_le_of_lt hle (hstop k' hk')⟩
  rw [← take_append_drop limit (m.range start stop)] at hmem
  rcases mem_append.mp hmem with h | h
  · exact h
  · have hlt : last.1 < k := by
      have hp := m.range_sorted start stop
      rw [← take_append_drop limit (m.range start stop), pairwise_append] at hp
      exact hp.2.2 last hlast (k, v) h
    exact absurd hle (not_le.mpr hlt)

/-- A page of a positive size that is not the last one has a last key. -/
theorem page_getLast (hpos : 0 < limit) (hd : (m.page start stop limit).2 = false) :
    ∃ last, (m.page start stop limit).1.getLast? = some last := by
  have hlt : limit < (m.range start stop).length := by simpa [page] using hd
  have hne : (m.page start stop limit).1 ≠ [] := by
    intro h
    have := congrArg List.length h
    simp only [page, length_take, length_nil] at this
    omega
  exact ⟨_, getLast?_eq_getLast_of_ne_nil hne⟩

/-- The range that starts right after the last key of a page is what the page
    has left over. -/
theorem range_after {start next : κ}
    {last : κ × ν} (hl : (m.page start stop limit).1.getLast? = some last)
    (hnext : ∀ k, next ≤ k ↔ last.1 < k) : m.range next stop = (m.range start stop).drop limit := by
  have hmem : last ∈ (m.range start stop).take limit := mem_of_getLast? hl
  have hstart : start ≤ last.1 := (mem_range.mp (mem_of_mem_take hmem)).2.1
  have hsub : m.range next stop = (m.range start stop).filter fun e => last.1 < e.1 := by
    rw [range, range, filter_filter]
    refine filter_congr fun e _ => ?_
    by_cases he : last.1 < e.1
    · simp [hnext, he, hstart.trans he.le]
    · simp [hnext, he]
  have hsorted := m.range_sorted start stop
  rw [← take_append_drop limit (m.range start stop), pairwise_append] at hsorted
  rw [hsub, ← take_append_drop limit (m.range start stop), filter_append]
  have htake : ((m.range start stop).take limit).filter (fun e => last.1 < e.1) = [] := by
    refine filter_eq_nil_iff.mpr fun e he => ?_
    obtain ⟨front, hfront⟩ := getLast?_eq_some_iff.mp hl
    have hpage : (m.range start stop).take limit = front ++ [last] := hfront
    rw [hpage] at he hsorted
    rcases mem_append.mp he with hin | hin
    · have hlt := (pairwise_append.mp hsorted.1).2.2 e hin last (mem_singleton_self _)
      simpa using hlt.le
    · rw [mem_singleton.mp hin]
      simp
  have hdrop : ((m.range start stop).drop limit).filter (fun e => last.1 < e.1) =
      (m.range start stop).drop limit := by
    refine filter_eq_self.mpr fun e he => ?_
    exact decide_eq_true (hsorted.2.2 last hmem e he)
  rw [htake, hdrop, nil_append, take_append_drop]

/-! ## Places of entries -/

/-- The number of entries before an entry says whether it is among the first ones. -/
theorem mem_take_iff (hs : l.Pairwise fun a b => a.1 < b.1)
    (he : e ∈ l) {n : ℕ} : e ∈ l.take n ↔ (l.filter fun a => a.1 < e.1).length < n := by
  induction l generalizing n with
  | nil => cases he
  | cons a l ih =>
    obtain ⟨hhead, htail⟩ := pairwise_cons.mp hs
    cases n with
    | zero => simp
    | succ n =>
      rw [take_succ_cons, mem_cons, filter_cons]
      rcases mem_cons.mp he with rfl | hmem
      · have hnone : (l.filter fun b => b.1 < e.1) = [] :=
          filter_eq_nil_iff.mpr fun b hb => by simpa using (hhead b hb).le
        simp [hnone]
      · have hlt := hhead e hmem
        have hne : e ≠ a := by
          rintro rfl
          exact lt_irrefl _ hlt
        rw [if_pos (by simpa using hlt), length_cons, ih htail hmem]
        simp [hne]

/-- If an entry of a kind is preceded by fewer than `n` entries of other kinds, then there is one
    of its kind among the first `n` entries. -/
theorem exists_mem_take (hs : l.Pairwise fun a b => a.1 < b.1) {p : κ × ν → Bool}
    (he : e ∈ l) (hp : p e = true) {n : ℕ}
    (hn : (l.filter fun a => !p a && decide (a.1 < e.1)).length < n) :
    ∃ a ∈ l.take n, p a = true := by
  by_contra hnone
  push Not at hnone
  have hnot : e ∉ l.take n := fun h => hnone e h hp
  have hlen : n ≤ (l.filter fun a => a.1 < e.1).length :=
    not_lt.mp fun h => hnot ((mem_take_iff hs he).mpr h)
  have htake : (l.take n).length = n :=
    length_take_of_le (hlen.trans (length_filter_le _ _))
  have hall : ((l.take n).filter fun a => !p a && decide (a.1 < e.1)) = l.take n := by
    refine filter_eq_self.mpr fun a ha => ?_
    have hlt : a.1 < e.1 := by
      have hdrop : e ∈ l.drop n := by
        rw [← take_append_drop n l] at he
        exact (mem_append.mp he).resolve_left hnot
      rw [← take_append_drop n l] at hs
      exact (pairwise_append.mp hs).2.2 a ha e hdrop
    simp [hnone a ha, hlt]
  have hle := ((take_sublist n l).filter fun a => !p a && decide (a.1 < e.1)).length_le
  rw [hall, htake] at hle
  omega

end SortedMap

end Lib
