import Mathlib.Data.List.Basic
import Mathlib.Tactic.SplitIfs

/-!
# Last bytes of UTF-8 encodings

The encoding of a character as its first bytes and its last one, and what raising the last byte
of an encoded string leaves.

Results:
* `encode_succ`: the encodings of two characters next to each other differ in the last byte.
* `last_of_isValidUTF8`: what the last byte of a valid encoding can be.
* `fromUTF8?_encode`, `isValidUTF8_append`: decoding what has been encoded.
-/

namespace Lib

open List
open String (fromUTF8? utf8EncodeChar)

/-! ## First bytes and last byte -/

/-- The bytes of the encoding of a character before the last one; `v` is its code. -/
def firstBytes (v : ℕ) : List UInt8 :=
  if v ≤ 0x7f then []
  else if v ≤ 0x7ff then [UInt8.ofNat (v / 64 % 0x20 + 0xc0)]
  else if v ≤ 0xffff then
    [UInt8.ofNat (v / 4096 % 0x10 + 0xe0), UInt8.ofNat (v / 64 % 0x40 + 0x80)]
  else
    [UInt8.ofNat (v / 262144 % 0x8 + 0xf0), UInt8.ofNat (v / 4096 % 0x40 + 0x80),
      UInt8.ofNat (v / 64 % 0x40 + 0x80)]

/-- The last byte of the encoding of a character. -/
def lastByte (v : ℕ) : ℕ := if v ≤ 0x7f then v else v % 0x40 + 0x80

theorem utf8EncodeChar_eq (c : Char) :
    utf8EncodeChar c = firstBytes c.toNat ++ [UInt8.ofNat (lastByte c.toNat)] := by
  show utf8EncodeChar c = firstBytes c.val.toNat ++ [UInt8.ofNat (lastByte c.val.toNat)]
  unfold utf8EncodeChar firstBytes lastByte
  dsimp only
  split_ifs <;> rfl

theorem lastByte_lt (v : ℕ) : lastByte v < 0xc0 := by
  unfold lastByte
  split_ifs <;> omega

/-- The characters next to each other whose encodings differ in the last byte only. -/
theorem encode_succ {v : ℕ} (h : ¬(v = 0x7f ∨ 0x80 ≤ v ∧ v % 64 = 63)) :
    firstBytes (v + 1) = firstBytes v ∧ lastByte (v + 1) = lastByte v + 1 := by
  have h1 : 0x80 ≤ v → (v + 1) / 64 = v / 64 := by omega
  have h2 : 0x80 ≤ v → (v + 1) / 4096 = v / 4096 := by omega
  have h3 : 0x80 ≤ v → (v + 1) / 262144 = v / 262144 := by omega
  constructor
  · unfold firstBytes
    by_cases hv : 0x80 ≤ v
    · rw [h1 hv, h2 hv, h3 hv]
      split_ifs <;> first | rfl | omega
    · rw [if_pos (by omega), if_pos (by omega)]
  · unfold lastByte
    split_ifs <;> omega

/-! ## Decoding -/

theorem fromUTF8?_encode (l : List Char) :
    fromUTF8? (l.flatMap utf8EncodeChar).toByteArray = some (String.ofList l) := by
  have hvalid : (l.flatMap utf8EncodeChar).toByteArray.IsValidUTF8 := ⟨l, rfl⟩
  unfold fromUTF8?
  rw [dif_pos hvalid]
  refine congrArg some (String.toByteArray_inj.mp ?_)
  rw [String.toByteArray_ofList]
  rfl

theorem isValidUTF8_append (l : List Char) (bs : List UInt8) :
    (l.flatMap utf8EncodeChar ++ bs).toByteArray.IsValidUTF8 ↔ bs.toByteArray.IsValidUTF8 := by
  induction l with
  | nil => rfl
  | cons c l ih =>
    rw [flatMap_cons, append_assoc, toByteArray_append, ← utf8Encode_singleton,
      ByteArray.isValidUTF8_utf8Encode_singleton_append_iff, ih]

/-- The last byte of a valid encoding is not the first one of a longer encoding, and a single
    byte is not a continuation byte. -/
theorem last_of_isValidUTF8 {bs : List UInt8} {n : ℕ} (hn : n < 256)
    (h : (bs ++ [UInt8.ofNat n]).toByteArray.IsValidUTF8) : n < 0xc0 ∧ (bs = [] → n ≤ 0x7f) := by
  obtain ⟨m, hm⟩ := h
  have hbytes : bs ++ [UInt8.ofNat n] = m.flatMap utf8EncodeChar :=
    toByteArray_inj.mp hm
  rcases eq_nil_or_concat m with rfl | ⟨m', d, rfl⟩
  · cases bs <;> cases hbytes
  · rw [concat_eq_append, flatMap_append, flatMap_singleton, utf8EncodeChar_eq,
      ← append_assoc] at hbytes
    obtain ⟨hfront, hlast⟩ := append_inj' hbytes rfl
    have hlt := lastByte_lt d.toNat
    have hnat := congrArg UInt8.toNat (singleton_inj.mp hlast)
    rw [UInt8.toNat_ofNat_of_lt' hn, UInt8.toNat_ofNat_of_lt' (show lastByte d.toNat < 256 by omega)]
      at hnat
    refine ⟨by omega, fun hnil => ?_⟩
    rw [hnil] at hfront
    have hnone := (append_eq_nil_iff.mp hfront.symm).2
    unfold firstBytes at hnone
    unfold lastByte at hnat
    split_ifs at hnone hnat
    omega

end Lib
