import Mathlib.Data.List.Sort
import Mathlib.Data.Prod.Lex

/-!
# Merging sorted streams

A k-way merge keeps the next key of every stream in a heap, takes the smallest
one off and puts the following key of that stream in. Here a stream is anything
that can be peeked at and moved on.

Results:
* `Front.start_merges`, `Front.pop_merges`: the merge delivers the entries of all
  streams in ascending order of their keys, each of them once.
-/

namespace Lib

open List

/-! ## Streams -/

/-- Streams of keyed entries. -/
structure Source (σ κ α : Type) where
  peek : σ → Option (κ × α)
  next : σ → σ

/-- What is left in a stream, for the states in which the next entry has been
    fetched. -/
structure Source.Spec {σ κ α : Type} (src : Source σ κ α) where
  ready : σ → Prop
  rest : σ → List (κ × α)
  peek_eq : ∀ s, ready s → src.peek s = (rest s).head?
  next_ready : ∀ s, ready s → ready (src.next s)
  rest_next : ∀ s, ready s → rest (src.next s) = (rest s).tail

/-- The streams of a merge, and the heap with the next key of each of them in
    ascending order. -/
structure Front (σ κ : Type) where
  streams : List σ
  heap : List (κ ×ₗ ℕ)

variable {i : ℕ}

/-- Taking the first entry off one of several lists. -/
theorem perm_flatten_set {β : Type} {l : List (List β)} {e : β} {r : List β}
    (h : l[i]? = some (e :: r)) : l.flatten.Perm (e :: (l.set i r).flatten) := by
  induction l generalizing i with
  | nil => cases h
  | cons x l ih =>
    cases i with
    | zero =>
      obtain rfl : x = e :: r := by simpa using h
      exact Perm.refl _
    | succ i =>
      have hi : l.flatten.Perm (e :: (l.set i r).flatten) := ih (by simpa using h)
      exact (hi.append_left x).trans perm_middle

namespace Front

variable {σ κ α : Type} [LinearOrder κ]

/-- Put the next key of stream `i` into the heap. -/
def push (src : Source σ κ α) (heap : List (κ ×ₗ ℕ)) (i : ℕ) (s : σ) : List (κ ×ₗ ℕ) :=
  match src.peek s with
  | some e => heap.orderedInsert (· ≤ ·) (toLex (e.1, i))
  | none => heap

/-- The keys of the streams from number `i` on. -/
def heapFrom (src : Source σ κ α) : ℕ → List σ → List (κ ×ₗ ℕ)
  | _, [] => []
  | i, s :: streams => push src (heapFrom src (i + 1) streams) i s

/-- A merge that has not delivered anything yet. -/
def start (src : Source σ κ α) (streams : List σ) : Front σ κ := ⟨streams, heapFrom src 0 streams⟩

/-- Take the smallest key off the heap and move its stream on; a stream that has
    nothing to deliver is passed over. -/
def popHeap (src : Source σ κ α) (streams : List σ) :
    List (κ ×ₗ ℕ) → Option ((κ × α) × Front σ κ)
  | [] => none
  | k :: heap =>
      match streams[(ofLex k).2]? with
      | some s =>
          match src.peek s with
          | some e =>
              some (e, ⟨streams.set (ofLex k).2 (src.next s),
                push src heap (ofLex k).2 (src.next s)⟩)
          | none => popHeap src streams heap
      | none => popHeap src streams heap

/-- The smallest entry that is left, and the merge after it. -/
def pop (src : Source σ κ α) (f : Front σ κ) : Option ((κ × α) × Front σ κ) :=
  popHeap src f.streams f.heap

/-! ## What a merge delivers -/

variable {src : Source σ κ α}

/-- The merge `f` is about to deliver the list `L`. -/
structure Merges (spec : src.Spec) (f : Front σ κ) (L : List (κ × α)) : Prop where
  ready : ∀ s ∈ f.streams, spec.ready s
  sorted : f.heap.Pairwise (· ≤ ·)
  nodup : f.heap.Nodup
  mem_heap : ∀ k i, toLex (k, i) ∈ f.heap ↔
    ∃ s e, f.streams[i]? = some s ∧ src.peek s = some e ∧ e.1 = k
  rest_sorted : ∀ s ∈ f.streams, (spec.rest s).Pairwise fun a b => a.1 < b.1
  perm : L.Perm (f.streams.map spec.rest).flatten
  ascending : L.Pairwise fun a b => a.1 < b.1

variable {heap : List (κ ×ₗ ℕ)}

theorem mem_push {s : σ} {x : κ ×ₗ ℕ} :
    x ∈ push src heap i s ↔ (∃ e, src.peek s = some e ∧ x = toLex (e.1, i)) ∨ x ∈ heap := by
  unfold push
  cases src.peek s with
  | some e => simp [mem_orderedInsert]
  | none => simp

theorem push_sorted (h : heap.Pairwise (· ≤ ·)) (i : ℕ) (s : σ) :
    (push src heap i s).Pairwise (· ≤ ·) := by
  unfold push
  cases src.peek s with
  | some e => exact h.orderedInsert _ _
  | none => exact h

theorem heapFrom_sorted (n : ℕ) (streams : List σ) : (heapFrom src n streams).Pairwise (· ≤ ·) := by
  induction streams generalizing n with
  | nil => exact List.Pairwise.nil
  | cons s streams ih => exact push_sorted (ih (n + 1)) n s

theorem push_nodup (h : heap.Nodup)
    (hi : ∀ k, toLex (k, i) ∉ heap) (s : σ) : (push src heap i s).Nodup := by
  unfold push
  cases src.peek s with
  | some e => exact (perm_orderedInsert _ _ _).nodup_iff.mpr (nodup_cons.mpr ⟨hi _, h⟩)
  | none => exact h

theorem mem_heapFrom {n : ℕ} {streams : List σ} {k : κ} : toLex (k, i) ∈ heapFrom src n streams ↔
      ∃ j s e, i = n + j ∧ streams[j]? = some s ∧ src.peek s = some e ∧ e.1 = k := by
  induction streams generalizing n with
  | nil => simp [heapFrom]
  | cons s streams ih =>
    rw [heapFrom, mem_push, ih]
    constructor
    · rintro (⟨e, he, hx⟩ | ⟨j, s', e, rfl, hs, he, hk⟩)
      · obtain ⟨rfl, rfl⟩ := Prod.mk.inj (toLex.injective hx)
        exact ⟨0, s, e, rfl, rfl, he, rfl⟩
      · exact ⟨j + 1, s', e, by omega, hs, he, hk⟩
    · rintro ⟨j, s', e, rfl, hs, he, rfl⟩
      cases j with
      | zero =>
        obtain rfl : s = s' := by simpa using hs
        exact .inl ⟨e, he, rfl⟩
      | succ j => exact .inr ⟨j, s', e, by omega, hs, he, rfl⟩

theorem heapFrom_nodup (n : ℕ) (streams : List σ) : (heapFrom src n streams).Nodup := by
  induction streams generalizing n with
  | nil => exact nodup_nil
  | cons s streams ih =>
    refine push_nodup (ih (n + 1)) (fun k hk => ?_) s
    obtain ⟨j, _, _, hj, _⟩ := mem_heapFrom.mp hk
    omega

variable {L : List (κ × α)}

/-- A merge of streams that are ready delivers all their entries. -/
theorem start_merges (spec : src.Spec) {streams : List σ} (hr : ∀ s ∈ streams, spec.ready s)
    (hs : ∀ s ∈ streams, (spec.rest s).Pairwise fun a b => a.1 < b.1)
    (hp : L.Perm (streams.map spec.rest).flatten)
    (ha : L.Pairwise fun a b => a.1 < b.1) : (start src streams).Merges spec L := by
  refine ⟨hr, heapFrom_sorted 0 streams, heapFrom_nodup 0 streams, fun k i => ?_, hs, hp, ha⟩
  refine mem_heapFrom.trans ⟨?_, ?_⟩
  · rintro ⟨j, s, e, rfl, h⟩
    rw [Nat.zero_add]
    exact ⟨s, e, h⟩
  · rintro ⟨s, e, h⟩
    exact ⟨i, s, e, (Nat.zero_add i).symm, h⟩

/-- The first entry that is left is the least one, and it is on top of the heap. -/
theorem Merges.head {spec : src.Spec} {f : Front σ κ} {L : List (κ × α)} (h : f.Merges spec L)
    {k : κ} {i : ℕ} {heap : List (κ ×ₗ ℕ)} (hh : f.heap = toLex (k, i) :: heap) {s : σ} {e : κ × α}
    (hs : f.streams[i]? = some s) (he : src.peek s = some e) (hk : e.1 = k) :
    ∃ L', L = e :: L' := by
  have hready := h.ready s (mem_of_getElem? hs)
  have hrest : (spec.rest s).head? = some e := (spec.peek_eq s hready).symm.trans he
  have hmem : e ∈ L := by
    refine h.perm.mem_iff.mpr (mem_flatten.mpr ⟨spec.rest s, ?_, mem_of_head? hrest⟩)
    exact mem_map_of_mem (mem_of_getElem? hs)
  have hleast : ∀ b ∈ L, e.1 ≤ b.1 := by
    intro b hb
    obtain ⟨r, hr, hbr⟩ := mem_flatten.mp (h.perm.mem_iff.mp hb)
    obtain ⟨s', hs', rfl⟩ := mem_map.mp hr
    obtain ⟨j, hj⟩ := mem_iff_getElem?.mp hs'
    obtain ⟨first, r, hfirst⟩ := exists_cons_of_ne_nil (ne_nil_of_mem hbr)
    have hpeek : src.peek s' = some first := by
      rw [spec.peek_eq s' (h.ready s' hs'), hfirst]
      rfl
    have hheap : toLex (first.1, j) ∈ f.heap := (h.mem_heap _ _).mpr ⟨s', first, hj, hpeek, rfl⟩
    have hle : k ≤ first.1 := by
      have hsorted := h.sorted
      rw [hh] at hheap hsorted
      rcases mem_cons.mp hheap with heq | hin
      · obtain ⟨hfk, _⟩ := Prod.mk.inj (toLex.injective heq)
        exact hfk.symm.le
      · have hlex := (pairwise_cons.mp hsorted).1 _ hin
        rcases Prod.Lex.toLex_le_toLex.mp hlex with hlt | ⟨heq, _⟩
        · exact hlt.le
        · exact heq.le
    have hfb : first.1 ≤ b.1 := by
      have hsorted := h.rest_sorted s' hs'
      rw [hfirst] at hbr hsorted
      rcases mem_cons.mp hbr with rfl | hin
      · exact le_rfl
      · exact ((pairwise_cons.mp hsorted).1 b hin).le
    rw [hk]
    exact hle.trans hfb
  obtain ⟨b, L', rfl⟩ := exists_cons_of_ne_nil (ne_nil_of_mem hmem)
  rcases mem_cons.mp hmem with rfl | hin
  · exact ⟨L', rfl⟩
  · have hlt := (pairwise_cons.mp h.ascending).1 e hin
    exact absurd (hleast b mem_cons_self) (not_le.mpr hlt)

/-- The merge after the top of the heap is taken off and its stream moved on. -/
theorem Merges.moved {spec : src.Spec} {f : Front σ κ} {e : κ × α}
    (h : f.Merges spec (e :: L)) {k : κ}
    (hh : f.heap = toLex (k, i) :: heap) {s : σ} (hs : f.streams[i]? = some s)
    (he : src.peek s = some e) (hk : e.1 = k) :
    Merges spec ⟨f.streams.set i (src.next s), push src heap i (src.next s)⟩ L := by
  have hi : i < f.streams.length := (List.getElem?_eq_some_iff.mp hs).1
  have hready := h.ready s (mem_of_getElem? hs)
  have hnodup := h.nodup
  have hsorted := h.sorted
  rw [hh] at hnodup hsorted
  have hown : ∀ k', toLex (k', i) ∉ heap := by
    intro k' hin
    obtain ⟨s', e', hs', he', hk'⟩ := (h.mem_heap k' i).mp
      (by rw [hh]; exact mem_cons_of_mem _ hin)
    obtain rfl : s = s' := Option.some.inj (hs.symm.trans hs')
    obtain rfl : e = e' := Option.some.inj (he.symm.trans he')
    obtain rfl : k = k' := hk.symm.trans hk'
    exact (nodup_cons.mp hnodup).1 hin
  refine ⟨fun s' hs' => ?_, push_sorted (pairwise_cons.mp hsorted).2 _ _,
    push_nodup (nodup_cons.mp hnodup).2 hown _, fun k' j => ?_, fun s' hs' => ?_, ?_,
    (pairwise_cons.mp h.ascending).2⟩
  · rcases mem_or_eq_of_mem_set hs' with hin | rfl
    · exact h.ready s' hin
    · exact spec.next_ready s hready
  · rw [mem_push]
    constructor
    · rintro (⟨e', he', hx⟩ | hin)
      · obtain ⟨rfl, rfl⟩ := Prod.mk.inj (toLex.injective hx)
        exact ⟨_, e', getElem?_set_self hi, he', rfl⟩
      · have hne : i ≠ j := by
          rintro rfl
          exact hown k' hin
        obtain ⟨s', e', hs', hrest⟩ := (h.mem_heap k' j).mp
          (by rw [hh]; exact mem_cons_of_mem _ hin)
        exact ⟨s', e', (getElem?_set_ne hne).trans hs', hrest⟩
    · rintro ⟨s', e', hs', he', rfl⟩
      by_cases hij : i = j
      · subst hij
        obtain rfl : src.next s = s' := Option.some.inj ((getElem?_set_self hi).symm.trans hs')
        exact .inl ⟨e', he', rfl⟩
      · rw [getElem?_set_ne hij] at hs'
        have hin := (h.mem_heap e'.1 j).mpr ⟨s', e', hs', he', rfl⟩
        rw [hh] at hin
        rcases mem_cons.mp hin with heq | hin
        · obtain ⟨_, rfl⟩ := Prod.mk.inj (toLex.injective heq)
          exact absurd rfl hij
        · exact .inr hin
  · rcases mem_or_eq_of_mem_set hs' with hin | rfl
    · exact h.rest_sorted s' hin
    · rw [spec.rest_next s hready]
      exact (h.rest_sorted s (mem_of_getElem? hs)).tail
  · have hhead : (spec.rest s).head? = some e := (spec.peek_eq s hready).symm.trans he
    have hcons : (f.streams.map spec.rest)[i]? = some (e :: (spec.rest s).tail) := by
      rw [getElem?_map, hs, Option.map_some, cons_head?_tail hhead]
    have hperm := h.perm.trans (perm_flatten_set hcons)
    rw [← spec.rest_next s hready, ← map_set] at hperm
    exact hperm.cons_inv

/-- **Main theorem.** A merge delivers the least entry that is left and goes on
    with the others; it ends when none is left. -/
theorem pop_merges {spec : src.Spec} {f : Front σ κ} (h : f.Merges spec L) :
    (L = [] ∧ f.pop src = none) ∨
      ∃ e L' f', L = e :: L' ∧ f.pop src = some (e, f') ∧ f'.Merges spec L' := by
  cases hh : f.heap with
  | nil =>
    refine .inl ⟨?_, ?_⟩
    · have hempty : ∀ r ∈ f.streams.map spec.rest, r = [] := by
        intro r hr
        obtain ⟨s, hs, rfl⟩ := mem_map.mp hr
        obtain ⟨j, hj⟩ := mem_iff_getElem?.mp hs
        by_contra hne
        obtain ⟨first, r, hfirst⟩ := exists_cons_of_ne_nil hne
        have hpeek : src.peek s = some first := by
          rw [spec.peek_eq s (h.ready s hs), hfirst]
          rfl
        have hheap : toLex (first.1, j) ∈ f.heap := (h.mem_heap _ _).mpr ⟨s, first, hj, hpeek, rfl⟩
        rw [hh] at hheap
        cases hheap
      have hflat := flatten_eq_nil_iff.mpr hempty
      have hperm := h.perm
      rw [hflat] at hperm
      exact hperm.eq_nil
    · rw [pop, hh]
      rfl
  | cons top heap =>
    obtain ⟨s, e, hs, he, hk⟩ := (h.mem_heap (ofLex top).1 (ofLex top).2).mp
      (by rw [hh]; exact mem_cons_self)
    have htop : f.heap = toLex ((ofLex top).1, (ofLex top).2) :: heap := hh
    obtain ⟨L', rfl⟩ := h.head htop hs he hk
    refine .inr ⟨e, L', _, rfl, ?_, h.moved htop hs he hk⟩
    rw [pop, hh, popHeap, hs]
    simp only [he]

end Front

end Lib
