import Depot.Lib.Utf8
import Depot.Service.Scan

/-!
# Iterating over a partition

`for_each_in_partition` (`core/src/service/scan.rs`, lines 35–87) with the calls it makes of its
callback, over a store that does not change meanwhile, and the bound of its scans, which is
computed on the bytes of the prefix.

Results:
* `prefixEndUtf8_eq`: the bound that is computed on bytes.
* `forEachLoop_eq`: the loop returns after finitely many batches, and its calls are those of a
  visitor of all entries with the prefix.
* `visitWhile_stopped`: the calls of such a visitor.
-/

namespace Depot

open Lib List

/-! ## The bound on bytes -/

/-- The loop of `prefix_end` (`keys.rs` lines 314–324), from the last byte on. -/
def raiseLast : List UInt8 → Option (List UInt8)
  | [] => none
  | b :: rest => if b < 0xFF then some ((b + 1) :: rest) else raiseLast rest

/-- `keys::prefix_end`. -/
def prefixEndBytes (bytes : List UInt8) : Option (List UInt8) :=
  (raiseLast bytes.reverse).map reverse

/-- `as_bytes`. -/
def asBytes (s : String) : List UInt8 := s.toList.flatMap String.utf8EncodeChar

/-- `prefix_end` (`scan.rs` lines 90–92). -/
def prefixEndUtf8 (skPrefix : String) : Option String :=
  (prefixEndBytes (asBytes skPrefix)).bind fun b => String.fromUTF8? b.toByteArray

theorem prefixEndBytes_append {bs : List UInt8} {n : ℕ} (hn : n < 0xFF) :
    prefixEndBytes (bs ++ [UInt8.ofNat n]) = some (bs ++ [UInt8.ofNat (n + 1)]) := by
  have hlt : UInt8.ofNat n < 0xFF := by
    rw [UInt8.lt_iff_toNat_lt, UInt8.toNat_ofNat_of_lt' (show n < 256 by omega)]
    exact hn
  rw [prefixEndBytes, reverse_append, reverse_singleton, singleton_append, raiseLast,
    if_pos hlt, Option.map_some, reverse_cons, reverse_reverse]
  have hsucc : UInt8.ofNat n + 1 = UInt8.ofNat (n + 1) := by
    rw [UInt8.ofNat_add]
    rfl
  rw [hsucc]

/-- The bound that is computed on the bytes of the prefix: the last character is replaced by the
    next one, if raising the last byte leaves a string. -/
theorem prefixEndUtf8_eq (skPrefix : String) : prefixEndUtf8 skPrefix = prefixEnd skPrefix := by
  unfold prefixEndUtf8 asBytes prefixEnd
  rcases eq_nil_or_concat skPrefix.toList with hnil | ⟨front, c, hconcat⟩
  · rw [hnil]
    rfl
  · rw [hconcat, concat_eq_append, flatMap_append, flatMap_singleton,
      utf8EncodeChar_eq, ← append_assoc, getLast?_concat, dropLast_concat]
    have hlt := lastByte_lt c.toNat
    rw [prefixEndBytes_append (by omega), Option.bind_some, Option.bind_some, append_assoc]
    unfold charSucc
    split_ifs with hc
    · rw [Option.map_none]
      unfold String.fromUTF8?
      refine dif_neg fun hvalid => ?_
      obtain ⟨hlast, hfirst⟩ := last_of_isValidUTF8 (by omega)
        ((isValidUTF8_append _ _).mp hvalid)
      unfold lastByte at hlast hfirst
      unfold firstBytes at hfirst
      rcases hc with hc | ⟨hle, hmod⟩
      · simp only [hc] at hfirst
        exact absurd (hfirst rfl) (by decide)
      · split_ifs at hlast <;> omega
    · have hvalid : (c.toNat + 1).isValidChar := by
        have hchar : c.toNat.isValidChar := c.valid
        unfold Nat.isValidChar at hchar ⊢
        omega
      have hnext : (Char.ofNat (c.toNat + 1)).toNat = c.toNat + 1 := by
        rw [Char.ofNat, dif_pos hvalid]
        rfl
      obtain ⟨hfirst, hlast⟩ := encode_succ hc
      have hencode : front.flatMap String.utf8EncodeChar ++
          (firstBytes c.toNat ++ [UInt8.ofNat (lastByte c.toNat + 1)]) =
            (front ++ [Char.ofNat (c.toNat + 1)]).flatMap String.utf8EncodeChar := by
        rw [flatMap_append, flatMap_singleton, utf8EncodeChar_eq, hnext, hfirst, hlast]
      rw [hencode, fromUTF8?_encode, Option.map_some]

/-! ## The loop and its calls -/

/-- What the callback answers after the calls made of it so far, the last of them included. -/
abbrev Visitor := List (String × Value) → Except DepotError Bool

/-- The entries of one batch (lines 64–71): the calls, and what the loop returns if it does. -/
def visitItems (skPrefix : String) (visitor : Visitor) : List (String × Value) →
    List (String × Value) → List (String × Value) × Option (Except DepotError Unit)
  | [], calls => (calls, none)
  | e :: items, calls =>
      if (!skPrefix.isEmpty) && !hasPrefix skPrefix e.1 then (calls, some (.ok ()))
      else
        match visitor (calls ++ [e]) with
        | .error err => (calls ++ [e], some (.error err))
        | .ok false => (calls ++ [e], some (.ok ()))
        | .ok true => visitItems skPrefix visitor items (calls ++ [e])

/-- `for_each_in_partition`, from a cursor on: the calls and what it returns, or nothing if it
    has not returned after `fuel` batches. -/
def forEachLoop (w : World) (part : Part) (skPrefix : String) (batchSize : ℕ) (visitor : Visitor) :
    ℕ → Option String → List (String × Value) →
      Option (List (String × Value) × Except DepotError Unit)
  | 0, _, _ => none
  | fuel + 1, cursor, calls =>
      let result := w.scanRange part (cursor.getD skPrefix) (prefixEndUtf8 skPrefix) batchSize
      match visitItems skPrefix visitor result.items calls with
      | (calls, some r) => some (calls, r)
      | (calls, none) =>
          if result.done then some (calls, .ok ())
          else
            match result.items.getLast? with
            | some last =>
                forEachLoop w part skPrefix batchSize visitor fuel (some (cursorAfter last.1)) calls
            | none => some (calls, .ok ())

/-- A visitor of a list of entries. -/
def visitWhile (visitor : Visitor) : List (String × Value) → List (String × Value) →
    List (String × Value) × Option (Except DepotError Unit)
  | [], calls => (calls, none)
  | e :: items, calls =>
      match visitor (calls ++ [e]) with
      | .error err => (calls ++ [e], some (.error err))
      | .ok false => (calls ++ [e], some (.ok ()))
      | .ok true => visitWhile visitor items (calls ++ [e])

/-- The calls `calls` of a visitor of `entries`: an initial segment, in which every call but the
    last one has been answered with `true`, and which ends with the first other answer or with
    the last entry. -/
structure Stopped (visitor : Visitor) (entries calls : List (String × Value))
    (r : Except DepotError Unit) : Prop where
  initial : calls <+: entries
  goes_on : ∀ before e after, calls = before ++ e :: after → after ≠ [] →
    visitor (before ++ [e]) = .ok true
  stops : (calls = entries ∧ r = .ok () ∧ (calls ≠ [] → visitor calls = .ok true)) ∨
    calls ≠ [] ∧ visitor calls = .ok false ∧ r = .ok () ∨
      calls ≠ [] ∧ ∃ err, visitor calls = .error err ∧ r = .error err

/-- `for_each_in_partition` returns, after finitely many batches, and its calls are those of a
    visitor of the entries with the prefix, each key once and in ascending order. -/
def ForEachVisits (w : World) (part : Part) (skPrefix : String) (batchSize : ℕ)
    (visitor : Visitor) : Prop :=
  ∃ entries calls r n,
    (entries.Pairwise fun a b => a.1 < b.1) ∧
    (∀ e : String × Value, e ∈ entries ↔
      w.value ⟨part, e.1⟩ = some e.2 ∧ skPrefix.toList <+: e.1.toList) ∧
    (∀ fuel ≥ n, forEachLoop w part skPrefix batchSize visitor fuel none [] = some (calls, r)) ∧
    Stopped visitor entries calls r

section

variable {w : World} {part : Part} {skPrefix : String} {visitor : Visitor}

theorem isEmpty_hasPrefix (skPrefix sk : String) :
    ((!skPrefix.isEmpty) && !hasPrefix skPrefix sk) = !hasPrefix skPrefix sk := by
  by_cases hempty : skPrefix = ""
  · subst hempty
    simp [hasPrefix]
  · have hne : skPrefix.isEmpty = false := by simpa using hempty
    simp [hne]

/-- A batch is visited until the first entry without the prefix. -/
theorem visitItems_eq (items calls : List (String × Value)) :
    visitItems skPrefix visitor items calls =
      match visitWhile visitor (items.takeWhile fun e => hasPrefix skPrefix e.1) calls with
      | (calls, some r) => (calls, some r)
      | (calls, none) =>
          (calls, if (items.takeWhile fun e => hasPrefix skPrefix e.1).length = items.length then
            none else some (.ok ())) := by
  induction items generalizing calls with
  | nil => rfl
  | cons e items ih =>
    rw [visitItems, isEmpty_hasPrefix]
    cases hp : hasPrefix skPrefix e.1 with
    | false =>
      rw [takeWhile_cons_of_neg (by simp [hp])]
      rfl
    | true =>
      rw [takeWhile_cons_of_pos (by simpa using hp), visitWhile]
      cases visitor (calls ++ [e]) with
      | error err => rfl
      | ok go =>
        cases go with
        | false => rfl
        | true =>
          simp only [Bool.not_true, Bool.false_eq_true, if_false, ih, length_cons, Nat.succ_inj]

theorem visitWhile_append (items items' calls : List (String × Value)) :
    visitWhile visitor (items ++ items') calls =
      match visitWhile visitor items calls with
      | (calls, some r) => (calls, some r)
      | (calls, none) => visitWhile visitor items' calls := by
  induction items generalizing calls with
  | nil => rfl
  | cons e items ih =>
    rw [cons_append, visitWhile, visitWhile]
    cases visitor (calls ++ [e]) with
    | error err => rfl
    | ok go =>
      cases go with
      | false => rfl
      | true => exact ih _

/-- The loop returns, and its calls are those of a visitor of the entries with the prefix. -/
theorem forEachLoop_eq {batchSize : ℕ} (hpos : 0 < batchSize) {fuel : ℕ} {cursor : Option String}
    (hc : skPrefix ≤ cursor.getD skPrefix)
    (hf : (w.entriesFrom part (cursor.getD skPrefix) (prefixEnd skPrefix)).length < fuel)
    (calls : List (String × Value)) :
    forEachLoop w part skPrefix batchSize visitor fuel cursor calls =
      some ((visitWhile visitor (w.matching part skPrefix (cursor.getD skPrefix)) calls).1,
        (visitWhile visitor (w.matching part skPrefix (cursor.getD skPrefix)) calls).2.getD
          (.ok ())) := by
  induction fuel generalizing cursor calls with
  | zero => omega
  | succ fuel ih =>
    obtain ⟨hlast, hnext⟩ := @World.matching_batch w part _ _ _ hc hpos
    rw [forEachLoop, prefixEndUtf8_eq, visitItems_eq]
    set batch := w.scanRange part (cursor.getD skPrefix) (prefixEnd skPrefix) batchSize
    by_cases hown : (batch.items.takeWhile fun e => hasPrefix skPrefix e.1).length =
        batch.items.length
    · cases hd : batch.done with
      | true =>
        rw [hlast (.inr hd)]
        cases hv : visitWhile visitor _ calls with
        | mk calls' r =>
          cases r with
          | some r => rfl
          | none =>
            simp only [hown, if_true]
            rfl
      | false =>
        obtain ⟨last, hl, hle, hmatch, hlt⟩ := hnext hown hd
        rw [hmatch, visitWhile_append]
        cases hv : visitWhile visitor _ calls with
        | mk calls' r =>
          cases r with
          | some r => rfl
          | none =>
            simp only [hown, if_true, hl, Bool.false_eq_true, if_false]
            have hstart : (some (cursorAfter last.1)).getD skPrefix = cursorAfter last.1 := rfl
            rw [← hstart] at hle hlt ⊢
            exact ih hle (by omega) calls'
    · rw [hlast (.inl hown)]
      cases hv : visitWhile visitor _ calls with
      | mk calls' r =>
        cases r with
        | some r => rfl
        | none =>
          simp only [hown, if_false]
          rfl

/-- The calls of a visitor that has been called `before` times and told to go on. -/
theorem visitWhile_stopped (before items : List (String × Value))
    (hbefore : ∀ front e after, before = front ++ e :: after → visitor (front ++ [e]) = .ok true) :
    Stopped visitor (before ++ items) (visitWhile visitor items before).1
      ((visitWhile visitor items before).2.getD (.ok ())) := by
  induction items generalizing before with
  | nil =>
    rw [visitWhile, append_nil]
    refine ⟨prefix_rfl, fun front e after h _ => hbefore front e after h, .inl ⟨rfl, rfl, ?_⟩⟩
    intro hne
    obtain ⟨front, e, rfl⟩ := (eq_nil_or_concat before).resolve_left hne
    rw [concat_eq_append] at hbefore ⊢
    exact hbefore front e [] rfl
  | cons e items ih =>
    have hcalls : before ++ e :: items = (before ++ [e]) ++ items := by simp
    have hinitial : before ++ [e] <+: before ++ e :: items := by
      rw [hcalls]
      exact prefix_append _ _
    have hgo : ∀ front e' after, before ++ [e] = front ++ e' :: after → after ≠ [] →
        visitor (front ++ [e']) = .ok true := by
      intro front e' after h hne
      obtain ⟨after', last, rfl⟩ := (eq_nil_or_concat after).resolve_left hne
      rw [concat_eq_append, ← cons_append, ← append_assoc] at h
      exact hbefore front e' after' (append_inj_left' h rfl)
    rw [visitWhile]
    cases hv : visitor (before ++ [e]) with
    | error err => exact ⟨hinitial, hgo, .inr (.inr ⟨by simp, err, hv, rfl⟩)⟩
    | ok go =>
      cases go with
      | false => exact ⟨hinitial, hgo, .inr (.inl ⟨by simp, hv, rfl⟩)⟩
      | true =>
        rw [hcalls]
        refine ih (before ++ [e]) fun front e' after h => ?_
        by_cases hne : after = []
        · subst hne
          obtain ⟨rfl, he⟩ := append_inj' h rfl
          rw [← he]
          exact hv
        · exact hgo front e' after h hne

/-- **Main theorem.** For every content of the partition, every prefix, every callback and every
    batch size of at least one, `for_each_in_partition` returns after finitely many batches, and
    visits the entries with the prefix until the callback says to stop. -/
theorem for_each_in_partition_visits (w : World) (part : Part) (skPrefix : String) (batchSize : ℕ)
    (visitor : Visitor) (hpos : 1 ≤ batchSize) :
    ForEachVisits w part skPrefix batchSize visitor := by
  refine ⟨w.matching part skPrefix skPrefix, _, _, (w.kv part).entries.length + 1,
    (w.entriesFrom_sorted part _ _).filter _, fun e => ?_, fun fuel hfuel => ?_,
    visitWhile_stopped [] (w.matching part skPrefix skPrefix) (by simp)⟩
  · rw [World.mem_matching, hasPrefix, decide_eq_true_eq]
    exact and_congr_right fun _ => ⟨fun h => h.2, fun h => ⟨le_of_hasPrefix h, h⟩⟩
  · exact forEachLoop_eq hpos le_rfl
      (lt_of_le_of_lt World.length_entriesFrom_le (Nat.lt_of_succ_le hfuel)) []

/-- Batches of one entry, and a prefix whose last byte has no successor. -/
theorem for_each_in_partition_visits_delete :
    ForEachVisits (World.setCell { now := 0 } ⟨⟨.repos, .single⟩, "a\x7fb"⟩
      (some ⟨1, .timestamp 0⟩)) ⟨.repos, .single⟩ "a\x7f" 1 (fun calls => .ok (calls.length < 2)) :=
  for_each_in_partition_visits _ _ _ 1 _ le_rfl

end

end Depot
