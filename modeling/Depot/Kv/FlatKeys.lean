import Depot.Lib.Lex
import Mathlib.Data.List.Infix

/-!
# Flat keys

The embedded backend keeps the entries of all partitions of a table in one ordered table of byte
strings: a key is the partition key, a zero byte and the sort key
(`kv/redb/src/redb_kv.rs`, lines 507–534). A scan turns an interval of sort keys into an interval
of flat keys, with `prefix_end` (`core/src/store/keys.rs`, lines 314–324) for open ends.

**Deviation.** Nothing keeps a zero byte out of a partition key, which is made of the name of a
repository or of a store: the keys of the partition `a\0b` lie in the interval of the partition
`a`.

Results:
* `fromUtf8_utf8`, `utf8_inj`: a text is determined by its bytes.
* `between_iff`: the flat keys from a prefix up to its end are those with the prefix.
* `flatKey_inj_of_apart`: flat keys are faithful for partition keys that lie apart.
-/

namespace Depot.Redb

open Lib List

/-! ## Texts as bytes -/

/-- Bytes in their order. -/
instance linearOrderUInt8 : LinearOrder UInt8 where
  le_refl a := UInt8.le_refl a
  le_trans _ _ _ h h' := UInt8.le_trans h h'
  le_antisymm _ _ h h' := UInt8.le_antisymm h h'
  le_total a b := UInt8.le_total a b
  lt_iff_le_not_ge a b := by
    rw [UInt8.lt_iff_toNat_lt, UInt8.le_iff_toNat_le, UInt8.le_iff_toNat_le]
    omega
  toDecidableLE := inferInstance

/-- `str::as_bytes`: the text in UTF-8. -/
def utf8 (s : String) : List UInt8 := s.toByteArray.data.toList

/-- `String::from_utf8(bytes).unwrap_or_default()`. -/
def fromUtf8 (bytes : List UInt8) : String := (String.fromUTF8? ⟨bytes.toArray⟩).getD ""

@[simp] theorem fromUtf8_utf8 (s : String) : fromUtf8 (utf8 s) = s := by
  have hbytes : (⟨(utf8 s).toArray⟩ : ByteArray) = s.toByteArray := rfl
  unfold fromUtf8
  rw [hbytes, String.fromUTF8?, dif_pos s.isValidUTF8]
  rfl

theorem utf8_inj {s t : String} : utf8 s = utf8 t ↔ s = t := by
  constructor
  · intro h
    rw [← fromUtf8_utf8 s, h, fromUtf8_utf8]
  · rintro rfl
    rfl

/-! ## Flat keys -/

/-- `flat_key` (lines 507–513). -/
def flatKey (pk sk : String) : List UInt8 := utf8 pk ++ 0 :: utf8 sk

/-- `partition_prefix` (lines 516–521). -/
def partitionPrefix (pk : String) : List UInt8 := utf8 pk ++ [0]

/-- `extract_sk` (lines 526–529). -/
def extractSk (flat : List UInt8) (prefixLen : ℕ) : String := fromUtf8 (flat.drop prefixLen)

/-- The loop of `prefix_end`, on the bytes from the last to the first. -/
def raiseLast : List UInt8 → Option (List UInt8)
  | [] => none
  | b :: bs => if b < 0xff then some ((b + 1) :: bs) else raiseLast bs

/-- `prefix_end` (`keys.rs`, lines 314–324). -/
def prefixRangeEnd (bytes : List UInt8) : Option (List UInt8) :=
  (raiseLast bytes.reverse).map reverse

theorem flatKey_eq (pk sk : String) : flatKey pk sk = partitionPrefix pk ++ utf8 sk := by
  simp [flatKey, partitionPrefix]

@[simp] theorem extractSk_flatKey (pk sk : String) :
    extractSk (flatKey pk sk) (partitionPrefix pk).length = sk := by
  rw [flatKey_eq, extractSk, drop_left, fromUtf8_utf8]

/-! ## Ends of intervals -/

theorem raiseLast_append (bs : List UInt8) (b : UInt8) : raiseLast (bs ++ [b]) =
    match raiseLast bs with
    | some e => some (e ++ [b])
    | none => if b < 0xff then some [b + 1] else none := by
  induction bs with
  | nil => rfl
  | cons c bs ih =>
    rw [cons_append, raiseLast, raiseLast]
    by_cases hc : c < 0xff
    · rw [if_pos hc, if_pos hc]
      rfl
    · rw [if_neg hc, if_neg hc]
      exact ih

theorem prefixRangeEnd_cons (b : UInt8) (bs : List UInt8) : prefixRangeEnd (b :: bs) =
    match prefixRangeEnd bs with
    | some e => some (b :: e)
    | none => if b < 0xff then some [b + 1] else none := by
  unfold prefixRangeEnd
  rw [reverse_cons, raiseLast_append]
  cases raiseLast bs.reverse with
  | some e => simp
  | none =>
    simp only [Option.map_none]
    split_ifs <;> rfl

theorem byte_le_max (b : UInt8) : b ≤ 0xff := by
  rw [UInt8.le_iff_toNat_le]
  exact Nat.le_of_lt_succ b.toNat_lt

theorem lt_succ_iff {b c : UInt8} (hb : b < 0xff) : c < b + 1 ↔ c ≤ b := by
  have hmax : b.toNat < 255 := by simpa [UInt8.lt_iff_toNat_lt] using hb
  rw [UInt8.lt_iff_toNat_lt, UInt8.le_iff_toNat_le, UInt8.toNat_add, UInt8.toNat_one,
    Nat.mod_eq_of_lt (by omega)]
  omega

/-- Nothing but extensions comes after bytes that cannot be raised. -/
theorem le_iff_prefix_of_max {p k : List UInt8} (hp : prefixRangeEnd p = none) :
    p ≤ k ↔ p <+: k := by
  induction p generalizing k with
  | nil => exact ⟨fun _ => nil_prefix, fun _ => not_lt.mp (not_lt_nil k)⟩
  | cons b bs ih =>
    rw [prefixRangeEnd_cons] at hp
    cases hend : prefixRangeEnd bs with
    | some e =>
      rw [hend] at hp
      cases hp
    | none =>
      rw [hend] at hp
      dsimp only at hp
      split_ifs at hp with hb
      cases k with
      | nil => simp
      | cons c k =>
        rw [Lib.cons_le_cons_iff, cons_prefix_cons, ih hend]
        refine or_iff_right fun hbc => hb (lt_of_lt_of_le hbc (byte_le_max c))

/-- The byte strings from a prefix up to its end are those with the prefix. -/
theorem between_iff {p e k : List UInt8} (he : prefixRangeEnd p = some e) :
    p ≤ k ∧ k < e ↔ p <+: k := by
  induction p generalizing e k with
  | nil => cases he
  | cons b bs ih =>
    rw [prefixRangeEnd_cons] at he
    cases k with
    | nil => simp
    | cons c k =>
      rw [Lib.cons_le_cons_iff, cons_prefix_cons]
      cases hend : prefixRangeEnd bs with
      | some e' =>
        rw [hend] at he
        obtain rfl := Option.some.inj he
        rw [cons_lt_cons_iff, ← ih hend]
        constructor
        · rintro ⟨hbc | ⟨rfl, hle⟩, hcb | ⟨hcb, hlt⟩⟩
          · exact absurd hbc (lt_asymm hcb)
          · exact absurd hbc (hcb ▸ lt_irrefl _)
          · exact absurd hcb (lt_irrefl _)
          · exact ⟨rfl, hle, hlt⟩
        · rintro ⟨rfl, hle, hlt⟩
          exact ⟨.inr ⟨rfl, hle⟩, .inr ⟨rfl, hlt⟩⟩
      | none =>
        rw [hend] at he
        dsimp only at he
        split_ifs at he with hb
        obtain rfl := Option.some.inj he
        rw [cons_lt_cons_iff, lt_succ_iff hb, ← le_iff_prefix_of_max hend]
        constructor
        · rintro ⟨hbc | ⟨rfl, hle⟩, hcb | ⟨-, hlt⟩⟩
          · exact absurd hbc (not_lt.mpr hcb)
          · exact absurd hlt (not_lt_nil k)
          · exact ⟨rfl, hle⟩
          · exact absurd hlt (not_lt_nil k)
        · rintro ⟨rfl, hle⟩
          exact ⟨.inr ⟨rfl, hle⟩, .inl le_rfl⟩

theorem prefixRangeEnd_partition (pk : String) :
    ∃ e, prefixRangeEnd (partitionPrefix pk) = some e := by
  unfold partitionPrefix
  induction utf8 pk with
  | nil => exact ⟨_, rfl⟩
  | cons b bs ih =>
    obtain ⟨e, he⟩ := ih
    exact ⟨b :: e, by rw [cons_append, prefixRangeEnd_cons, he]⟩

theorem prefixRangeEnd_append {p : List UInt8} (q : List UInt8) (h : ∃ e, prefixRangeEnd p = some e) :
    ∃ e, prefixRangeEnd (p ++ q) = some e := by
  induction p with
  | nil =>
    obtain ⟨e, he⟩ := h
    cases he
  | cons b bs ih =>
    rw [cons_append, prefixRangeEnd_cons]
    cases hrest : prefixRangeEnd (bs ++ q) with
    | some e => exact ⟨_, rfl⟩
    | none =>
      have hbs : prefixRangeEnd bs = none := by
        by_contra hne
        obtain ⟨e, he⟩ := ih (Option.ne_none_iff_exists'.mp hne)
        rw [hrest] at he
        cases he
      rw [prefixRangeEnd_cons, hbs] at h
      dsimp only at h ⊢
      split_ifs at h ⊢
      · exact ⟨_, rfl⟩
      · exact h

theorem append_le_append_iff {p a b : List UInt8} : p ++ a ≤ p ++ b ↔ a ≤ b := by
  induction p with
  | nil => rfl
  | cons c p ih =>
    rw [cons_append, cons_append, Lib.cons_le_cons_iff, ih]
    simp

/-! ## Partition keys apart -/

/-- No partition key is the other followed by a zero byte and more. -/
def Apart (pk pk' : String) : Prop :=
  ¬partitionPrefix pk <+: utf8 pk' ∧ ¬partitionPrefix pk' <+: utf8 pk

variable {pk pk' sk : String}

/-- A flat key belongs to one of several partitions apart. -/
theorem eq_of_partitionPrefix (h : Apart pk pk')
    (hp : partitionPrefix pk <+: flatKey pk' sk) : pk = pk' := by
  have hflat : utf8 pk' <+: flatKey pk' sk := prefix_append _ _
  have hown : partitionPrefix pk' <+: flatKey pk' sk := by
    rw [flatKey_eq]
    exact prefix_append _ _
  have hpk : utf8 pk <+: flatKey pk' sk := (prefix_append _ _).trans hp
  rcases lt_trichotomy (utf8 pk).length (utf8 pk').length with hlt | heq | hgt
  · refine absurd (prefix_of_prefix_length_le hp hflat ?_) h.1
    rw [partitionPrefix, length_append, length_singleton]
    omega
  · exact utf8_inj.mp ((prefix_of_prefix_length_le hpk hflat heq.le).eq_of_length heq)
  · refine absurd (prefix_of_prefix_length_le hown hpk ?_) h.2
    rw [partitionPrefix, length_append, length_singleton]
    omega

/-- Flat keys of partitions apart are faithful. -/
theorem flatKey_inj_of_apart {sk' : String} (h : Apart pk pk')
    (heq : flatKey pk sk = flatKey pk' sk') : pk = pk' ∧ sk = sk' := by
  have hp : partitionPrefix pk <+: flatKey pk' sk' := by
    rw [← heq, flatKey_eq]
    exact prefix_append _ _
  obtain rfl := eq_of_partitionPrefix h hp
  refine ⟨rfl, ?_⟩
  rw [flatKey_eq, flatKey_eq] at heq
  exact utf8_inj.mp (append_cancel_left heq)

/-- Partition keys without a zero byte lie apart. -/
theorem apart_of_zero_free (h : 0 ∉ utf8 pk) (h' : 0 ∉ utf8 pk') : Apart pk pk' := by
  have hzero : ∀ pk : String, (0 : UInt8) ∈ partitionPrefix pk := by simp [partitionPrefix]
  exact ⟨fun hp => h' (hp.subset (hzero pk)), fun hp => h (hp.subset (hzero pk'))⟩

end Depot.Redb
