import Mathlib.Data.List.AList

/-!
# Tallies

Hash maps that accumulate: a contribution for a key is combined with what the map
has for the key, or with a start value when there is nothing yet. Maps of parts are
merged the same way. A hash map is an association list here, whose order nothing
below depends on.

Results:
* `lookup_tally`: a tally has the total of the contributions for each key.
* `lookup_merge`: merging the tallies of two lists gives the tally of both.
* `total_perm`: the total does not depend on the order of the contributions.
-/

namespace Lib

open List

abbrev HashMap (K M : Type) := AList fun _ : K => M

/-- The entries, in some order. -/
def pairs {K M : Type} (m : HashMap K M) : List (K × M) := m.entries.map fun e => (e.1, e.2)

variable {K M : Type} [DecidableEq K]

variable {m : HashMap K M}

theorem mem_pairs {k : K} {v : M} : (k, v) ∈ pairs m ↔ m.lookup k = some v := by
  rw [← Option.mem_def, AList.mem_lookup_iff, pairs, mem_map]
  constructor
  · rintro ⟨⟨k', v'⟩, hmem, he⟩
    obtain ⟨rfl, rfl⟩ := Prod.mk.inj he
    exact hmem
  · exact fun h => ⟨⟨k, v⟩, h, rfl⟩

omit [DecidableEq K] in
theorem nodup_pairs (m : HashMap K M) : ((pairs m).map Prod.fst).Nodup := by
  have hk := m.nodupKeys
  unfold NodupKeys List.keys at hk
  rw [pairs, map_map]
  exact hk

/-- Insert entries one after the other. -/
def insertAll (es : List (K × M)) (m : HashMap K M) : HashMap K M :=
  es.foldl (fun m e => m.insert e.1 e.2) m

theorem lookup_insertAll_cons (e : K × M) (es : List (K × M)) (m : HashMap K M) (k : K) :
    (insertAll (e :: es) m).lookup k = (insertAll es (m.insert e.1 e.2)).lookup k := rfl

variable {es : List (K × M)}

/-- A key that is not inserted keeps its value. -/
theorem lookup_insertAll_of_notMem {k : K}
    (h : k ∉ es.map Prod.fst) : (insertAll es m).lookup k = m.lookup k := by
  induction es generalizing m with
  | nil => rfl
  | cons e es ih =>
    rw [map_cons, mem_cons, not_or] at h
    rw [lookup_insertAll_cons, ih h.2, AList.lookup_insert_ne h.1]

/-- What is found was inserted, or was there before. -/
theorem mem_of_lookup_insertAll {k : K} {v : M} (h : (insertAll es m).lookup k = some v) :
    (k, v) ∈ es ∨ k ∉ es.map Prod.fst ∧ m.lookup k = some v := by
  induction es generalizing m with
  | nil => exact .inr ⟨not_mem_nil, h⟩
  | cons e es ih =>
    rw [lookup_insertAll_cons] at h
    rcases ih h with hmem | ⟨hnot, hv⟩
    · exact .inl (mem_cons_of_mem _ hmem)
    · by_cases hk : k = e.1
      · subst hk
        rw [AList.lookup_insert, Option.some.injEq] at hv
        subst hv
        exact .inl mem_cons_self
      · rw [AList.lookup_insert_ne hk] at hv
        refine .inr ⟨?_, hv⟩
        rw [map_cons, mem_cons, not_or]
        exact ⟨hk, hnot⟩

theorem lookup_insertAll_isSome {k : K}
    (h : k ∈ es.map Prod.fst) : ((insertAll es m).lookup k).isSome = true := by
  induction es generalizing m with
  | nil => cases h
  | cons e es ih =>
    rw [lookup_insertAll_cons]
    by_cases hk : k ∈ es.map Prod.fst
    · exact ih hk
    · rw [map_cons, mem_cons] at h
      obtain rfl := h.resolve_right hk
      rw [lookup_insertAll_of_notMem hk, AList.lookup_insert]
      rfl

/-! ## Totals -/

section Total

variable (op : M → M → M) (z : M)

/-- What is contributed for a key. -/
def contributions (es : List (K × M)) (k : K) : List M :=
  (es.filter fun e => e.1 = k).map Prod.snd

/-- The contributions for a key, combined. -/
def total (es : List (K × M)) (k : K) : M := (contributions es k).foldl op z

/-- One contribution. -/
def bump (m : HashMap K M) (e : K × M) : HashMap K M :=
  m.insert e.1 (op ((m.lookup e.1).getD z) e.2)

/-- Contributions one after the other. -/
def tallyInto (m : HashMap K M) (es : List (K × M)) : HashMap K M := es.foldl (bump op z) m

theorem lookup_bump (m : HashMap K M) (e : K × M) (k : K) :
    (bump op z m e).lookup k =
      if k = e.1 then some (op ((m.lookup k).getD z) e.2) else m.lookup k := by
  unfold bump
  split_ifs with hk
  · subst hk
    exact AList.lookup_insert _
  · exact AList.lookup_insert_ne hk

theorem lookup_tallyInto (m : HashMap K M) (es : List (K × M)) (k : K) :
    (tallyInto op z m es).lookup k =
      if k ∈ es.map Prod.fst then some ((contributions es k).foldl op ((m.lookup k).getD z))
      else m.lookup k := by
  induction es generalizing m with
  | nil => rfl
  | cons e es ih =>
    have hstep : tallyInto op z m (e :: es) = tallyInto op z (bump op z m e) es := rfl
    rw [hstep, ih, lookup_bump]
    unfold contributions
    by_cases hk : k = e.1
    · subst hk
      have hf : (e :: es).filter (fun e' => e'.1 = e.1) = e :: es.filter fun e' => e'.1 = e.1 :=
        filter_cons_of_pos (decide_eq_true rfl)
      have hin : e.1 ∈ (e :: es).map Prod.fst := mem_cons_self
      rw [if_pos rfl, if_pos hin, hf, map_cons, foldl_cons]
      split_ifs with hmem
      · rfl
      · have hnil : es.filter (fun e' => e'.1 = e.1) = [] := by
          refine filter_eq_nil_iff.mpr fun e' he' heq => ?_
          exact hmem (mem_map.mpr ⟨e', he', of_decide_eq_true heq⟩)
        rw [hnil]
        rfl
    · have hf : (e :: es).filter (fun e' => e'.1 = k) = es.filter fun e' => e'.1 = k :=
        filter_cons_of_neg (by simpa using fun h : e.1 = k => hk h.symm)
      rw [if_neg hk, hf]
      by_cases hmem : k ∈ es.map Prod.fst
      · have hin : k ∈ (e :: es).map Prod.fst := mem_cons_of_mem _ hmem
        rw [if_pos hmem, if_pos hin]
      · have hout : k ∉ (e :: es).map Prod.fst := not_mem_cons_of_ne_of_not_mem hk hmem
        rw [if_neg hmem, if_neg hout]

/-- A tally has the total of the contributions for each key. -/
theorem lookup_tally (es : List (K × M)) (k : K) :
    (tallyInto op z ∅ es).lookup k =
      if k ∈ es.map Prod.fst then some (total op z es k) else none :=
  lookup_tallyInto op z ∅ es k

variable {op z} [Std.Associative op] [Std.Commutative op]

omit [DecidableEq K] [Std.Commutative op] in
theorem foldl_from (hz : op z z = z) (xs : List M) : op z (xs.foldl op z) = xs.foldl op z := by
  have assoc_op : ∀ a b c, op (op a b) c = op a (op b c) := Std.Associative.assoc
  have hgen : ∀ (xs : List M) (a : M), op z a = a → op z (xs.foldl op a) = xs.foldl op a := by
    intro xs
    induction xs with
    | nil => exact fun a ha => ha
    | cons x xs ih =>
      intro a ha
      refine ih (op a x) ?_
      rw [← assoc_op, ha]
  exact hgen xs z hz

omit [DecidableEq K] in
theorem foldl_op_append (hz : op z z = z) (xs ys : List M) :
    (xs ++ ys).foldl op z = op (xs.foldl op z) (ys.foldl op z) := by
  have assoc_op : ∀ a b c, op (op a b) c = op a (op b c) := Std.Associative.assoc
  have comm_op : ∀ a b, op a b = op b a := Std.Commutative.comm
  have hgen : ∀ (ys : List M) (a b : M), ys.foldl op (op a b) = op a (ys.foldl op b) := by
    intro ys
    induction ys with
    | nil => exact fun _ _ => rfl
    | cons y ys ih =>
      intro a b
      rw [foldl_cons, foldl_cons, assoc_op]
      exact ih a (op b y)
  have hcomm : op (xs.foldl op z) z = xs.foldl op z := by
    rw [comm_op]
    exact foldl_from hz xs
  rw [List.foldl_append, ← hgen, hcomm]

theorem contributions_append (es es' : List (K × M)) (k : K) :
    contributions (es ++ es') k = contributions es k ++ contributions es' k := by
  rw [contributions, filter_append, map_append]
  rfl

theorem total_append (hz : op z z = z) (es es' : List (K × M)) (k : K) :
    total op z (es ++ es') k = op (total op z es k) (total op z es' k) := by
  rw [total, contributions_append, foldl_op_append hz]
  rfl

omit [Std.Associative op] [Std.Commutative op] in
/-- A key without contributions. -/
theorem total_of_notMem {es : List (K × M)} {k : K} (h : k ∉ es.map Prod.fst) :
    total op z es k = z := by
  have hnil : es.filter (fun e => e.1 = k) = [] := by
    refine filter_eq_nil_iff.mpr fun e he heq => ?_
    exact h (mem_map.mpr ⟨e, he, of_decide_eq_true heq⟩)
  rw [total, contributions, hnil]
  rfl

/-- The order of the contributions does not matter. -/
theorem total_perm {es' : List (K × M)} (h : es.Perm es') (k : K) :
    total op z es k = total op z es' k := by
  have hp : (contributions es k).Perm (contributions es' k) := (h.filter _).map _
  have assoc_op : ∀ a b c, op (op a b) c = op a (op b c) := Std.Associative.assoc
  have comm_op : ∀ a b, op a b = op b a := Std.Commutative.comm
  refine hp.foldl_eq' (fun x _ y _ a => ?_) z
  rw [assoc_op, comm_op x y, ← assoc_op]

/-! ## Merging -/

/-- `m` is the tally of `es`. -/
def IsTally (op : M → M → M) (z : M) (m : HashMap K M) (es : List (K × M)) : Prop :=
  ∀ k, m.lookup k = if k ∈ es.map Prod.fst then some (total op z es k) else none

omit [Std.Associative op] [Std.Commutative op] in
theorem isTally_tally (es : List (K × M)) : IsTally op z (tallyInto op z ∅ es) es :=
  lookup_tally op z es

omit [Std.Associative op] [Std.Commutative op] in
/-- Keys that differ contribute at most once each. -/
theorem contributions_nodup {es : List (K × M)} (h : (es.map Prod.fst).Nodup) {k : K} {v : M}
    (hm : (k, v) ∈ es) : contributions es k = [v] := by
  induction es with
  | nil => cases hm
  | cons e es ih =>
    rw [map_cons, nodup_cons] at h
    unfold contributions
    rcases mem_cons.mp hm with rfl | hm
    · have hnil : es.filter (fun e' => e'.1 = k) = [] := by
        refine filter_eq_nil_iff.mpr fun e' he' heq => ?_
        exact h.1 (mem_map.mpr ⟨e', he', of_decide_eq_true heq⟩)
      have hpos : ((k, v) :: es).filter (fun e' => e'.1 = k) = [(k, v)] := by
        rw [← hnil]
        exact filter_cons_of_pos (decide_eq_true rfl)
      rw [hpos]
      rfl
    · have hne : e.1 ≠ k := fun heq => h.1 (heq ▸ mem_map_of_mem hm)
      rw [filter_cons_of_neg (by simpa using hne)]
      exact ih h.2 hm

/-- Merging the tallies of two lists, the second in any order, gives the tally of both. -/
theorem lookup_merge (hz : op z z = z) {m' : HashMap K M} {es' xs : List (K × M)}
    (h : IsTally op z m es) (h' : IsTally op z m' es') (hx : xs.Perm (pairs m')) :
    IsTally op z (tallyInto op z m xs) (es ++ es') := by
  have comm_op : ∀ a b, op a b = op b a := Std.Commutative.comm
  intro k
  have hnd : (xs.map Prod.fst).Nodup := (hx.map Prod.fst).nodup_iff.mpr (nodup_pairs m')
  have hkeys : k ∈ xs.map Prod.fst ↔ k ∈ es'.map Prod.fst := by
    rw [(hx.map Prod.fst).mem_iff]
    constructor
    · intro hk
      obtain ⟨⟨k', v⟩, hv, rfl⟩ := mem_map.mp hk
      have hl := mem_pairs.mp hv
      rw [h'] at hl
      by_contra hno
      rw [if_neg hno] at hl
      cases hl
    · intro hk
      have hl := h' k
      rw [if_pos hk] at hl
      exact mem_map.mpr ⟨_, mem_pairs.mpr hl, rfl⟩
  have happ : k ∈ (es ++ es').map Prod.fst ↔ k ∈ es.map Prod.fst ∨ k ∈ es'.map Prod.fst := by
    rw [map_append, mem_append]
  rw [lookup_tallyInto]
  by_cases hk : k ∈ es'.map Prod.fst
  · have hl := h' k
    rw [if_pos hk] at hl
    rw [if_pos (hkeys.mpr hk), if_pos (happ.mpr (.inr hk)),
      contributions_nodup hnd (hx.mem_iff.mpr (mem_pairs.mpr hl)), foldl_cons, foldl_nil,
      total_append hz, h k]
    split_ifs with hmem
    · rfl
    · rw [total_of_notMem hmem]
      rfl
  · rw [if_neg (mt hkeys.mp hk), h k]
    by_cases hmem : k ∈ es.map Prod.fst
    · rw [if_pos hmem, if_pos (happ.mpr (.inl hmem)), total_append hz, total_of_notMem hk,
        comm_op, total, foldl_from hz]
    · rw [if_neg hmem, if_neg (mt happ.mp (not_or.mpr ⟨hmem, hk⟩))]

end Total

end Lib
