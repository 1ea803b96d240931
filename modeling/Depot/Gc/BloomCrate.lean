import Depot.Lib.Contribute
import Mathlib.Data.List.GetD
import Mathlib.Data.Nat.Digits.Lemmas

/-!
# The crate `bloomfilter`

What the blob reaper relies on of the crate (`blob_reaper/bloom.rs`, lines 5–16): its API as a
parameter, and what it documents about it as hypotheses. A filter is serialized to a header,
which is its parameters, and its bitmap; `set` and `check` work on the bits that the parameters
and the item determine.

Results:
* `BloomCrate.Contract`: the documented behaviour.
* `orAll_or_of_mem`: a union has the bits of each of its parts.
* `PlainBloom.contract`: filters with the layout of the crate and a plain hash function.
-/

namespace Depot

open Lib List

/-! ## The crate -/

/-- The crate `bloomfilter`: filters `F` of byte strings. -/
structure BloomCrate (F : Type) where
  asSlice : F → List UInt8
  len : F → ℕ
  numberOfHashFunctions : F → ℕ
  seed : F → List UInt8
  fromBytes : List UInt8 → Except String F
  clear : F → F
  set : F → List UInt8 → F
  check : F → List UInt8 → Bool

/-- Byte `i`, or no bits. -/
def byteAt (bytes : List UInt8) (i : ℕ) : UInt8 := bytes.getD i 0

namespace BloomCrate

variable {F : Type} (c : BloomCrate F)

/-- The parameters of a filter: the number of its bits, the number of hash functions, the
    seed. -/
def params (f : F) : ℕ × ℕ × List UInt8 := (c.len f, c.numberOfHashFunctions f, c.seed f)

/-- What the crate documents. The serialized form is a header, which is the parameters and has
    the same length for all filters, and the bitmap; `mask` says which bits of which byte of
    the bitmap belong to an item. -/
structure Contract (headerSize : ℕ) (mask : ℕ × ℕ × List UInt8 → List UInt8 → ℕ → UInt8) :
    Prop where
  length_slice : ∀ f, (c.asSlice f).length = headerSize + c.len f / 8
  header_iff : ∀ f g, (c.asSlice f).take headerSize = (c.asSlice g).take headerSize ↔
    c.params f = c.params g
  from_bytes : ∀ f bytes, bytes.take headerSize = (c.asSlice f).take headerSize →
    bytes.length = (c.asSlice f).length → ∃ g, c.fromBytes bytes = .ok g ∧ c.asSlice g = bytes
  clear_slice : ∀ f, c.asSlice (c.clear f) =
    (c.asSlice f).take headerSize ++ replicate (c.len f / 8) 0
  set_params : ∀ f item, c.params (c.set f item) = c.params f
  set_byte : ∀ f item i, byteAt (c.asSlice (c.set f item)) (headerSize + i) =
    byteAt (c.asSlice f) (headerSize + i) ||| mask (c.params f) item i
  check_iff : ∀ f item, c.check f item = true ↔ ∀ i,
    byteAt (c.asSlice f) (headerSize + i) ||| mask (c.params f) item i =
      byteAt (c.asSlice f) (headerSize + i)

end BloomCrate

/-! ## Bytes -/

theorem byteAt_drop (bytes : List UInt8) (n i : ℕ) :
    byteAt (bytes.drop n) i = byteAt bytes (n + i) := by
  unfold byteAt
  rw [getD_eq_getElem?_getD, getD_eq_getElem?_getD, getElem?_drop]

variable {n i : ℕ}

theorem byteAt_append_right {a : List UInt8} (b : List UInt8) (i : ℕ)
    (hn : a.length = n) : byteAt (a ++ b) (n + i) = byteAt b i := by
  unfold byteAt
  rw [getD_append_right _ _ _ _ (by omega), hn, Nat.add_sub_cancel_left]

theorem byteAt_of_length_le {bytes : List UInt8} (h : bytes.length ≤ i) : byteAt bytes i = 0 := by
  unfold byteAt
  rw [getD_eq_default _ _ h]

variable {a b : List UInt8}

theorem byteAt_zipWith_or (h : a.length = b.length) (i : ℕ) :
    byteAt (zipWith (· ||| ·) a b) i = byteAt a i ||| byteAt b i := by
  by_cases hi : i < a.length
  · unfold byteAt
    rw [getD_eq_getElem _ _ (by simp; omega), getD_eq_getElem _ _ hi,
      getD_eq_getElem _ _ (by omega), getElem_zipWith]
  · rw [byteAt_of_length_le (by simp; omega), byteAt_of_length_le (by omega),
      byteAt_of_length_le (by omega), UInt8.or_zero]

theorem byteAt_map_range (cells : ℕ → UInt8) (n i : ℕ) :
    byteAt ((List.range n).map cells) i = if i < n then cells i else 0 := by
  split_ifs with hi
  · unfold byteAt
    rw [getD_eq_getElem _ _ (by simpa using hi)]
    simp
  · exact byteAt_of_length_le (by simp; omega)

/-- Byte strings of the same length with the same first part and the same other bytes. -/
theorem eq_of_bytes (hlen : a.length = b.length)
    (htake : a.take n = b.take n) (hbytes : ∀ i, byteAt a (n + i) = byteAt b (n + i)) : a = b := by
  have hdrop : a.drop n = b.drop n := by
    refine ext_getElem (by simp [hlen]) fun i hi hi' => ?_
    have h := hbytes i
    rw [← byteAt_drop, ← byteAt_drop] at h
    unfold byteAt at h
    rwa [getD_eq_getElem _ _ hi, getD_eq_getElem _ _ hi'] at h
  rw [← take_append_drop n a, htake, hdrop, take_append_drop]


/-! ## Sums of bytes -/

theorem sums_or : Sums (fun a b : UInt8 => a ||| b) 0 where
  assoc := UInt8.or_assoc
  comm := UInt8.or_comm
  zero_add := fun _ => UInt8.zero_or

/-- The union of some bytes. -/
def orAll {ι : Type} (m : ι → UInt8) (xs : List ι) : UInt8 :=
  sumUp (fun a b : UInt8 => a ||| b) 0 m xs

@[simp] theorem orAll_cons {ι : Type} (m : ι → UInt8) (x : ι) (xs : List ι) :
    orAll m (x :: xs) = m x ||| orAll m xs := rfl

theorem orAll_zip (i a n : ℕ) (bytes : List UInt8) :
    orAll (fun e : ℕ × UInt8 => if e.1 = i then e.2 else 0) ((range' a n).zip bytes) =
      if a ≤ i ∧ i < a + n then byteAt bytes (i - a) else 0 := by
  induction n generalizing a bytes with
  | zero =>
    rw [if_neg (by omega)]
    rfl
  | succ n ih =>
    cases bytes with
    | nil =>
      rw [byteAt_of_length_le (Nat.zero_le _), ite_self]
      rfl
    | cons b bytes =>
      rw [range'_succ, zip_cons_cons, orAll_cons, ih]
      dsimp only
      by_cases hi : a = i
      · rw [if_pos hi, if_neg (by omega), if_pos (by omega), UInt8.or_zero, hi, Nat.sub_self]
        rfl
      · rw [if_neg hi, UInt8.zero_or]
        by_cases hlt : a + 1 ≤ i ∧ i < a + 1 + n
        · rw [if_pos hlt, if_pos (by omega), show i - a = (i - (a + 1)) + 1 by omega]
          rfl
        · rw [if_neg hlt, if_neg (by omega)]

theorem orAll_filter {ι : Type} (p : ι → Prop) [DecidablePred p] (m : ι → UInt8) (xs : List ι) :
    orAll (fun x => if p x then m x else 0) xs = orAll m (xs.filter fun x => p x) := by
  induction xs with
  | nil => rfl
  | cons x xs ih =>
    rw [orAll_cons, ih]
    by_cases hx : p x
    · rw [if_pos hx, filter_cons_of_pos (by simpa using hx), orAll_cons]
    · rw [if_neg hx, filter_cons_of_neg (by simpa using hx), UInt8.zero_or]

/-- A union has the bits of each of its parts. -/
theorem orAll_or_of_mem {ι : Type} {m : ι → UInt8} {xs : List ι} {x : ι} (hx : x ∈ xs) :
    orAll m xs ||| m x = orAll m xs := by
  induction xs with
  | nil => cases hx
  | cons y ys ih =>
    rw [orAll_cons]
    rcases mem_cons.mp hx with rfl | hx
    · rw [UInt8.or_comm, ← UInt8.or_assoc, UInt8.or_self]
    · rw [UInt8.or_assoc, ih hx]

/-! ## A crate of this kind -/

/-- A number in little-endian bytes. -/
def leNat (bytes : List UInt8) : ℕ := Nat.ofDigits 256 (bytes.map UInt8.toNat)

theorem leNat_inj (hlen : a.length = b.length) (h : leNat a = leNat b) : a = b := by
  have hlt : ∀ bytes : List UInt8, ∀ n ∈ bytes.map UInt8.toNat, n < 256 := by
    intro bytes n hn
    obtain ⟨b, -, rfl⟩ := mem_map.mp hn
    exact b.toNat_lt
  have hmap := Nat.ofDigits_inj_of_len_eq (by decide) (by simp [hlen]) (hlt a) (hlt b) h
  exact map_injective_iff.mpr (fun _ _ => UInt8.toNat_inj.mp) hmap

namespace PlainBloom

/-- A serialized filter: version 1, the number of bits in 8 bytes, the number of hash functions
    in 4, the seed in 32, and a bitmap that is not empty. -/
def WellFormed (bytes : List UInt8) : Prop :=
  45 < bytes.length ∧ (bytes.take 45).head? = some 1 ∧
    leNat (((bytes.take 45).drop 1).take 8) = 8 * (bytes.length - 45)

instance (bytes : List UInt8) : Decidable (WellFormed bytes) :=
  inferInstanceAs (Decidable (_ ∧ _ ∧ _))

/-- A filter is what it is serialized to. -/
abbrev Filter : Type := { bytes : List UInt8 // WellFormed bytes }

theorem wellFormed_of_take (htake : a.take 45 = b.take 45)
    (hlen : a.length = b.length) (h : WellFormed b) : WellFormed a := by
  unfold WellFormed at h ⊢
  rw [htake, hlen]
  exact h

/-- The filter with the same parameters and another bitmap. -/
def withBitmap (f : Filter) (m : ℕ → UInt8) : Filter :=
  ⟨f.1.take 45 ++ (List.range (f.1.length - 45)).map m, by
    have hlen := f.2.1
    refine wellFormed_of_take (take_left' (by simp; omega)) ?_ f.2
    simp only [length_append, length_take, length_map, length_range]
    omega⟩

/-- The number of bits, the number of hash functions and the seed of a header. -/
def paramsOf (header : List UInt8) : ℕ × ℕ × List UInt8 :=
  (leNat ((header.drop 1).take 8), leNat ((header.drop 9).take 4), header.drop 13)

/-- The bit of an item for hash function `j`. -/
def position (p : ℕ × ℕ × List UInt8) (item : List UInt8) (j : ℕ) : ℕ :=
  (item ++ p.2.2).foldl (fun h b => h * 31 + b.toNat) (7 + j) % p.1

/-- The bits of an item in byte `i`. -/
def mask (p : ℕ × ℕ × List UInt8) (item : List UInt8) (i : ℕ) : UInt8 :=
  orAll (fun j => if position p item j / 8 = i then 1 <<< UInt8.ofNat (position p item j % 8)
    else 0) (List.range p.2.1)

/-- A Bloom filter with the layout of the crate and a plain hash function. -/
def crate : BloomCrate Filter where
  asSlice f := f.1
  len f := (paramsOf (f.1.take 45)).1
  numberOfHashFunctions f := (paramsOf (f.1.take 45)).2.1
  seed f := (paramsOf (f.1.take 45)).2.2
  fromBytes bytes := if h : WellFormed bytes then .ok ⟨bytes, h⟩ else .error "Invalid size"
  clear f := withBitmap f fun _ => 0
  set f item := withBitmap f fun i =>
    byteAt f.1 (45 + i) ||| mask (paramsOf (f.1.take 45)) item i
  check f item := (List.range (f.1.length - 45)).all fun i =>
    byteAt f.1 (45 + i) ||| mask (paramsOf (f.1.take 45)) item i == byteAt f.1 (45 + i)

theorem len_eq (f : Filter) : crate.len f = 8 * (f.1.length - 45) := f.2.2.2

theorem take_withBitmap (f : Filter) (m : ℕ → UInt8) :
    (withBitmap f m).1.take 45 = f.1.take 45 := by
  have hlen := f.2.1
  exact take_left' (by simp; omega)

theorem byteAt_withBitmap (f : Filter) (m : ℕ → UInt8) (i : ℕ) :
    byteAt (withBitmap f m).1 (45 + i) = if i < f.1.length - 45 then m i else 0 := by
  have hlen := f.2.1
  unfold withBitmap
  rw [byteAt_append_right _ _ (by simp; omega), byteAt_map_range]

/-- There are no bits behind the end of the bitmap. -/
theorem mask_eq_zero (f : Filter) (item : List UInt8) (hi : f.1.length - 45 ≤ i) :
    mask (paramsOf (f.1.take 45)) item i = 0 := by
  have hlen := f.2.1
  have hbits : (paramsOf (f.1.take 45)).1 = 8 * (f.1.length - 45) := len_eq f
  unfold mask
  induction List.range (paramsOf (f.1.take 45)).2.1 with
  | nil => rfl
  | cons j js ih =>
    have hpos : position (paramsOf (f.1.take 45)) item j < 8 * (f.1.length - 45) := by
      unfold position
      rw [hbits]
      exact Nat.mod_lt _ (by omega)
    rw [orAll_cons, ih, if_neg (by omega), UInt8.or_zero]

theorem paramsOf_inj {f g : Filter}
    (h : paramsOf (f.1.take 45) = paramsOf (g.1.take 45)) : f.1.take 45 = g.1.take 45 := by
  have hsplit : ∀ f : Filter, f.1.take 45 = 1 :: (((f.1.take 45).drop 1).take 8 ++
      (((f.1.take 45).drop 9).take 4 ++ (f.1.take 45).drop 13)) := by
    intro f
    obtain ⟨hlen, hhead, -⟩ := f.2
    generalize f.1.take 45 = header at hhead ⊢
    cases header with
    | nil => cases hhead
    | cons b rest =>
      obtain rfl := Option.some.inj hhead
      have hrest : rest = rest.take 8 ++ ((rest.drop 8).take 4 ++ rest.drop 12) := by
        rw [show rest.drop 12 = (rest.drop 8).drop 4 by rw [drop_drop],
          take_append_drop, take_append_drop]
      exact congrArg _ hrest
  have hf := f.2.1
  have hg := g.2.1
  obtain ⟨hbits, hrest⟩ := Prod.mk.inj h
  obtain ⟨hk, hseed⟩ := Prod.mk.inj hrest
  rw [hsplit f, hsplit g, leNat_inj (by simp; omega) hbits, leNat_inj (by simp; omega) hk, hseed]

theorem contract : crate.Contract 45 mask where
  length_slice f := by
    have hlen := f.2.1
    rw [len_eq, Nat.mul_div_cancel_left _ (by decide)]
    show f.1.length = _
    omega
  header_iff f g := ⟨fun h => congrArg paramsOf h, fun h => paramsOf_inj h⟩
  from_bytes f bytes htake hlen := ⟨⟨bytes, wellFormed_of_take htake hlen f.2⟩,
    dif_pos (wellFormed_of_take htake hlen f.2), rfl⟩
  clear_slice f := by
    rw [len_eq, Nat.mul_div_cancel_left _ (by decide)]
    show f.1.take 45 ++ (List.range _).map (fun _ => (0 : UInt8)) = _
    rw [map_const', length_range]
    rfl
  set_params f item := congrArg paramsOf (take_withBitmap f _)
  set_byte f item i := by
    show byteAt (withBitmap f _).1 (45 + i) = byteAt f.1 (45 + i) |||
      mask (paramsOf (f.1.take 45)) item i
    rw [byteAt_withBitmap]
    split_ifs with hi
    · rfl
    · rw [mask_eq_zero f item (by omega), byteAt_of_length_le (by omega), UInt8.or_zero]
  check_iff f item := by
    show (List.range _).all _ = true ↔ ∀ i, byteAt f.1 (45 + i) |||
      mask (paramsOf (f.1.take 45)) item i = byteAt f.1 (45 + i)
    simp only [all_eq_true, List.mem_range, beq_iff_eq]
    refine ⟨fun h i => ?_, fun h i _ => h i⟩
    by_cases hi : i < f.1.length - 45
    · exact h i hi
    · rw [mask_eq_zero f item (by omega), UInt8.or_zero]

/-- An empty filter of 16 bits and two hash functions. -/
def template (seed : UInt8) : Filter :=
  ⟨1 :: 16 :: replicate 7 0 ++ 2 :: replicate 3 0 ++ replicate 32 seed ++ [0, 0],
    by simp, rfl, by simp [leNat, Nat.ofDigits]⟩

end PlainBloom

end Depot
