import Depot.Core.Async
import Depot.Lib.Lex

/-!
# Batched scans

Reading a partition in batches (`core/src/service/scan.rs`), over a store that
does not change meanwhile: a scan is then a function of its arguments.

Results:
* `World.matching_batch`: what one batch of a scan has to do with the entries
  that have the prefix.
* `forEachInPartition_eq`: the batches of a partition together are the entries
  with the prefix, each of them once.
-/

namespace Depot

open Lib List

/-! ## Prefixes -/

/-- `SCAN_BATCH_SIZE`. -/
def scanBatchSize : ℕ := 1000

/-- `per_shard_batch` (lines 29–31). -/
def perShardBatch (limit : ℕ) : ℕ := max (limit / numShards + 1) 4 * 2

/-- `sk.starts_with(prefix)`. -/
def hasPrefix (skPrefix sk : String) : Bool := decide (skPrefix.toList <+: sk.toList)

/-- The character after `c`, if its UTF-8 encoding is that of `c` with the last
    byte raised by one. -/
def charSucc (c : Char) : Option Char :=
  if c.toNat = 0x7f ∨ 0x80 ≤ c.toNat ∧ c.toNat % 64 = 63 then none
  else some (Char.ofNat (c.toNat + 1))

/-- `prefix_end` (`scan.rs` lines 90–92 over `keys.rs` lines 314–324): the last
    byte raised by one, if that leaves a string. A byte of a string is never
    `0xff`; after the byte `0x7f`, and after the last continuation byte `0xbf`,
    what comes out is not UTF-8. -/
def prefixEnd (skPrefix : String) : Option String :=
  skPrefix.toList.getLast?.bind fun c =>
    (charSucc c).map fun c' => String.ofList (skPrefix.toList.dropLast ++ [c'])

theorem lt_charSucc {c c' : Char} (h : charSucc c = some c') : c < c' := by
  unfold charSucc at h
  split_ifs at h with hc
  obtain rfl := Option.some.inj h
  have hv : (c.toNat + 1).isValidChar := by
    have hvalid : c.toNat.isValidChar := c.valid
    unfold Nat.isValidChar at hvalid ⊢
    omega
  have hn : (Char.ofNat (c.toNat + 1)).toNat = c.toNat + 1 := by
    rw [Char.ofNat, dif_pos hv]
    rfl
  show c.toNat < (Char.ofNat (c.toNat + 1)).toNat
  omega

/-- Every key with the prefix lies before the end of the prefix. -/
theorem lt_prefixEnd {skPrefix sk stop : String} (h : prefixEnd skPrefix = some stop)
    (hp : skPrefix.toList <+: sk.toList) : sk < stop := by
  obtain ⟨c, hc, hstop⟩ := Option.bind_eq_some_iff.mp h
  obtain ⟨c', hc', rfl⟩ := Option.map_eq_some_iff.mp hstop
  obtain ⟨front, hfront⟩ := getLast?_eq_some_iff.mp hc
  rw [String.lt_iff_toList_lt, String.toList_ofList, hfront, dropLast_concat]
  rw [hfront] at hp
  exact prefix_lt_of_lt (lt_charSucc hc') hp

theorem le_of_hasPrefix {skPrefix sk : String} (hp : skPrefix.toList <+: sk.toList) :
    skPrefix ≤ sk := by
  rw [String.le_iff_toList_le]
  obtain ⟨rest, hrest⟩ := hp
  rw [← hrest]
  exact le_append _ _

/-- The key after the last one read is the next one a scan starts from. -/
theorem cursorAfter_le_iff {sk k : String} : cursorAfter sk ≤ k ↔ sk < k := by
  rw [String.le_iff_toList_le, String.lt_iff_toList_lt, cursorAfter, String.toList_append,
    String.toList_singleton]
  exact append_least_le_iff fun c => Char.le_def.mpr (Nat.zero_le _)

/-! ## Reading a partition -/

/-- `kv.scan_range`, while the store does not change. -/
def World.scanRange (w : World) (part : Part) (skStart : String) (skEnd : Option String)
    (limit : ℕ) : ScanResult :=
  let p := (w.kv part).page skStart skEnd limit
  ⟨p.1.map fun e => (e.1, e.2.value), p.2⟩

/-- The entries of a partition from a key on, before another one. -/
def World.entriesFrom (w : World) (part : Part) (skStart : String) (skEnd : Option String) :
    List (String × Value) :=
  ((w.kv part).range skStart skEnd).map fun e => (e.1, e.2.value)

/-- The entries of a partition with a prefix, from a key on. -/
def World.matching (w : World) (part : Part) (skPrefix skStart : String) :
    List (String × Value) :=
  (w.entriesFrom part skStart (prefixEnd skPrefix)).filter fun e => hasPrefix skPrefix e.1

variable {w : World} {part : Part} {skPrefix skStart : String} {skEnd : Option String} {limit : ℕ}

@[simp] theorem World.scanRange_items : (w.scanRange part skStart skEnd limit).items =
    (w.entriesFrom part skStart skEnd).take limit := by
  rw [scanRange, SortedMap.page, entriesFrom, map_take]

@[simp] theorem World.scanRange_done : (w.scanRange part skStart skEnd limit).done =
    decide ((w.entriesFrom part skStart skEnd).length ≤ limit) := by
  simp [scanRange, SortedMap.page, entriesFrom]

theorem World.mem_entriesFrom {e : String × Value} : e ∈ w.entriesFrom part skStart skEnd ↔
    w.value ⟨part, e.1⟩ = some e.2 ∧ skStart ≤ e.1 ∧ ∀ k ∈ skEnd, e.1 < k := by
  constructor
  · intro h
    obtain ⟨e', he', rfl⟩ := mem_map.mp h
    obtain ⟨hmem, hrange⟩ := SortedMap.mem_range.mp he'
    refine ⟨?_, hrange⟩
    rw [value, cell, SortedMap.mem_entries_iff.mp hmem]
    rfl
  · rintro ⟨hv, hrange⟩
    obtain ⟨c, hc, hcv⟩ := Option.map_eq_some_iff.mp hv
    refine mem_map.mpr ⟨(e.1, c), SortedMap.mem_range.mpr ⟨?_, hrange⟩, ?_⟩
    · exact SortedMap.mem_entries_iff.mpr hc
    · exact Prod.ext rfl hcv

theorem World.entriesFrom_sorted (w : World) (part : Part) (skStart : String)
    (skEnd : Option String) : (w.entriesFrom part skStart skEnd).Pairwise fun a b => a.1 < b.1 :=
  pairwise_map.mpr ((w.kv part).range_sorted skStart skEnd)

theorem World.length_entriesFrom_le : (w.entriesFrom part skStart skEnd).length ≤
    (w.kv part).entries.length := by
  rw [entriesFrom, length_map]
  exact length_filter_le _ _

/-- A scan that goes on after the last key of a batch reads what is left. -/
theorem World.entriesFrom_cursorAfter {last : String × Value}
    (h : ((w.entriesFrom part skStart skEnd).take limit).getLast? = some last) :
    w.entriesFrom part (cursorAfter last.1) skEnd =
      (w.entriesFrom part skStart skEnd).drop limit := by
  rw [entriesFrom, ← map_take, getLast?_map] at h
  obtain ⟨e, he, rfl⟩ := Option.map_eq_some_iff.mp h
  rw [entriesFrom, entriesFrom, ← map_drop]
  exact congrArg _ (SortedMap.range_after he fun k => cursorAfter_le_iff)

/-- The entries with a prefix are those that are read until the first one
    without it. -/
theorem World.matching_eq_takeWhile (h : skPrefix ≤ skStart) :
    w.matching part skPrefix skStart = (w.entriesFrom part skStart (prefixEnd skPrefix)).takeWhile
      fun e => hasPrefix skPrefix e.1 := by
  refine filter_eq_takeWhile ?_
  refine (w.entriesFrom_sorted part skStart _).imp_of_mem fun {a b} ha _ hab hb => ?_
  have hpa : skPrefix ≤ a.1 := h.trans (mem_entriesFrom.mp ha).2.1
  rw [String.le_iff_toList_le] at hpa
  exact decide_eq_true (prefix_of_between hpa (String.lt_iff_toList_lt.mp hab).le
    (of_decide_eq_true hb))

/-- The entries with a prefix from a key on. -/
theorem World.mem_matching {e : String × Value} : e ∈ w.matching part skPrefix skStart ↔
    w.value ⟨part, e.1⟩ = some e.2 ∧ skStart ≤ e.1 ∧ hasPrefix skPrefix e.1 = true := by
  rw [matching, mem_filter, mem_entriesFrom]
  constructor
  · rintro ⟨⟨hv, hs, _⟩, hp⟩
    exact ⟨hv, hs, hp⟩
  · rintro ⟨hv, hs, hp⟩
    exact ⟨⟨hv, hs, fun stop hstop => lt_prefixEnd hstop (of_decide_eq_true hp)⟩, hp⟩

/-- A batch, up to the first entry without the prefix, and what is left after
    it. -/
theorem World.matching_batch (h : skPrefix ≤ skStart) (hpos : 0 < limit) :
    let result := w.scanRange part skStart (prefixEnd skPrefix) limit
    let own := result.items.takeWhile fun e => hasPrefix skPrefix e.1
    (own.length ≠ result.items.length ∨ result.done = true →
      w.matching part skPrefix skStart = own) ∧
    (own.length = result.items.length → result.done = false →
      ∃ last, result.items.getLast? = some last ∧ skPrefix ≤ cursorAfter last.1 ∧
        w.matching part skPrefix skStart =
          own ++ w.matching part skPrefix (cursorAfter last.1) ∧
        (w.entriesFrom part (cursorAfter last.1) (prefixEnd skPrefix)).length <
          (w.entriesFrom part skStart (prefixEnd skPrefix)).length) := by
  simp only [scanRange_items, scanRange_done, decide_eq_true_eq, decide_eq_false_iff_not, not_le]
  rw [matching_eq_takeWhile h]
  have hsplit := @takeWhile_append _ (fun e : String × Value => hasPrefix skPrefix e.1)
    ((w.entriesFrom part skStart (prefixEnd skPrefix)).take limit)
    ((w.entriesFrom part skStart (prefixEnd skPrefix)).drop limit)
  rw [take_append_drop] at hsplit
  constructor
  · rintro (hne | hdone)
    · rw [hsplit, if_neg hne]
    · rw [take_of_length_le hdone]
  · intro hlen hmore
    have hne : (w.entriesFrom part skStart (prefixEnd skPrefix)).take limit ≠ [] := by
      intro hnil
      have hzero := congrArg List.length hnil
      rw [length_take, length_nil] at hzero
      omega
    have hlast := getLast?_eq_getLast_of_ne_nil hne
    have hrest := entriesFrom_cursorAfter hlast
    have hmem := mem_entriesFrom.mp (mem_of_mem_take (mem_of_getLast? hlast))
    have hle := h.trans (hmem.2.1.trans (cursorAfter_le_iff.mp le_rfl).le)
    refine ⟨_, hlast, hle, ?_, ?_⟩
    · rw [matching_eq_takeWhile hle, hrest, hsplit, if_pos hlen]
      exact congrArg (· ++ _) ((List.takeWhile_prefix _).eq_of_length hlen).symm
    · rw [hrest, length_drop]
      omega

/-! ## The callback loop -/

section Visit

variable {σ : Type}

/-- The entries of one batch (lines 64–71), and whether to go on. -/
def visitEntries (skPrefix : String)
    (callback : σ → String → Value → Except DepotError (σ × Bool)) :
    List (String × Value) → σ → Except DepotError (σ × Bool)
  | [], s => .ok (s, true)
  | e :: es, s =>
      if hasPrefix skPrefix e.1 then
        match callback s e.1 e.2 with
        | .error err => .error err
        | .ok (s, true) => visitEntries skPrefix callback es s
        | .ok (s, false) => .ok (s, false)
      else .ok (s, false)

/-- The batches of `for_each_in_partition` (lines 35–87), from a cursor on. -/
def forEachFrom (w : World) (part : Part) (skPrefix : String) (batchSize : ℕ)
    (callback : σ → String → Value → Except DepotError (σ × Bool)) :
    ℕ → Option String → σ → Except DepotError σ
  | 0, _, s => .ok s
  | fuel + 1, cursor, s =>
      let result := w.scanRange part (cursor.getD skPrefix) (prefixEnd skPrefix) batchSize
      match visitEntries skPrefix callback result.items s with
      | .error err => .error err
      | .ok (s, false) => .ok s
      | .ok (s, true) =>
          if result.done then .ok s
          else
            match result.items.getLast? with
            | some last =>
                forEachFrom w part skPrefix batchSize callback fuel (some (cursorAfter last.1)) s
            | none => .ok s

/-- `for_each_in_partition`. No partition has more batches than entries. -/
def forEachInPartition (w : World) (part : Part) (skPrefix : String) (batchSize : ℕ)
    (callback : σ → String → Value → Except DepotError (σ × Bool)) (s : σ) :
    Except DepotError σ :=
  forEachFrom w part skPrefix batchSize callback ((w.kv part).entries.length + 1) none s

variable {callback : σ → String → Value → Except DepotError (σ × Bool)}

theorem visitEntries_append {xs ys : List (String × Value)} {s : σ} :
    visitEntries skPrefix callback (xs ++ ys) s =
      match visitEntries skPrefix callback xs s with
      | .ok (s, true) => visitEntries skPrefix callback ys s
      | r => r := by
  induction xs generalizing s with
  | nil => rfl
  | cons x xs ih =>
    rw [cons_append, visitEntries, visitEntries]
    split_ifs with hp
    · cases callback s x.1 x.2 with
      | error err => rfl
      | ok r =>
        obtain ⟨s', cont⟩ := r
        cases cont
        · rfl
        · exact ih
    · rfl

/-- The entries from the first one without the prefix on are not visited. -/
theorem visitEntries_takeWhile (es : List (String × Value)) (s : σ) :
    (visitEntries skPrefix callback es s).map Prod.fst =
      (visitEntries skPrefix callback (es.takeWhile fun e => hasPrefix skPrefix e.1) s).map
        Prod.fst := by
  induction es generalizing s with
  | nil => rfl
  | cons e es ih =>
    by_cases hp : hasPrefix skPrefix e.1 = true
    · rw [takeWhile_cons_of_pos (p := fun e : String × Value => hasPrefix skPrefix e.1) hp,
        visitEntries, visitEntries, if_pos hp, if_pos hp]
      cases callback s e.1 e.2 with
      | error err => rfl
      | ok r =>
        obtain ⟨s', cont⟩ := r
        cases cont
        · rfl
        · exact ih s'
    · rw [takeWhile_cons_of_neg (p := fun e : String × Value => hasPrefix skPrefix e.1) hp,
        visitEntries, visitEntries, if_neg hp]
      rfl

/-- The loop goes on only after a batch in which every entry has the prefix. -/
theorem visitEntries_true {es : List (String × Value)} {s s' : σ}
    (h : visitEntries skPrefix callback es s = .ok (s', true)) :
    es.takeWhile (fun e => hasPrefix skPrefix e.1) = es := by
  induction es generalizing s with
  | nil => rfl
  | cons e es ih =>
    rw [visitEntries] at h
    by_cases hp : hasPrefix skPrefix e.1 = true
    · rw [if_pos hp] at h
      rw [takeWhile_cons_of_pos (p := fun e : String × Value => hasPrefix skPrefix e.1) hp]
      cases hc : callback s e.1 e.2 with
      | error err => rw [hc] at h; cases h
      | ok r =>
        obtain ⟨s'', cont⟩ := r
        rw [hc] at h
        cases cont
        · cases h
        · rw [ih h]
    · rw [if_neg hp] at h
      cases h

theorem forEachFrom_eq {batchSize : ℕ} (hpos : 0 < batchSize) {fuel : ℕ} {cursor : Option String}
    (hc : skPrefix ≤ cursor.getD skPrefix)
    (hf : (w.entriesFrom part (cursor.getD skPrefix) (prefixEnd skPrefix)).length < fuel) (s : σ) :
    forEachFrom w part skPrefix batchSize callback fuel cursor s =
      (visitEntries skPrefix callback (w.matching part skPrefix (cursor.getD skPrefix)) s).map
        Prod.fst := by
  induction fuel generalizing cursor s with
  | zero => omega
  | succ fuel ih =>
    obtain ⟨hlast, hnext⟩ := @World.matching_batch w part _ _ _ hc hpos
    rw [forEachFrom]
    set batch := w.scanRange part (cursor.getD skPrefix) (prefixEnd skPrefix) batchSize
    have htake := @visitEntries_takeWhile skPrefix _ callback batch.items s
    by_cases hown : (batch.items.takeWhile fun e => hasPrefix skPrefix e.1) = batch.items
    · cases hd : batch.done with
      | true =>
        rw [hlast (.inr hd), hown]
        cases visitEntries skPrefix callback _ s with
        | error err => rfl
        | ok r =>
          obtain ⟨s', cont⟩ := r
          cases cont <;> rfl
      | false =>
        obtain ⟨last, hl, hle, hmatch, hlt⟩ := hnext (congrArg List.length hown) hd
        rw [hmatch, hown, visitEntries_append]
        cases visitEntries skPrefix callback _ s with
        | error err => rfl
        | ok r =>
          obtain ⟨s', cont⟩ := r
          cases cont with
          | false => rfl
          | true =>
            simp only [hl]
            have hstart : (some (cursorAfter last.1)).getD skPrefix = cursorAfter last.1 := rfl
            rw [← hstart] at hle hlt ⊢
            exact ih hle (by omega) s'
    · rw [hlast (.inl fun hlen => hown ((List.takeWhile_prefix _).eq_of_length hlen)), ← htake]
      cases hv : visitEntries skPrefix callback batch.items s with
      | error err => rfl
      | ok r =>
        obtain ⟨s', cont⟩ := r
        cases cont with
        | false => rfl
        | true => exact absurd (visitEntries_true hv) hown

/-- `for_each_in_partition` visits the entries with the prefix in ascending
    order, until the callback stops it. -/
theorem forEachInPartition_eq {batchSize : ℕ} (hpos : 0 < batchSize) (s : σ) :
    forEachInPartition w part skPrefix batchSize callback s =
      (visitEntries skPrefix callback (w.matching part skPrefix skPrefix) s).map Prod.fst :=
  @forEachFrom_eq w part skPrefix σ callback batchSize hpos _ none le_rfl
    (Nat.lt_succ_of_le World.length_entriesFrom_le) s

end Visit

end Depot
