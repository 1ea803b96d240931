import Depot.Core.Async
import Depot.Gc.BloomCrate
import Mathlib.Logic.Function.Basic

/-!
# Merging Bloom filters

Models of `blob_reaper/bloom.rs` and of the way the blob reaper uses it (`gc_pass.rs`, lines
261–466): shard tasks build filters of their own, and each of them is folded into one shared
accumulator, a byte at a time and with all the others at it too.

Results:
* `orFrom_adds`: what one fold adds to a byte of the accumulator, and when it is refused.
* `unionAll_spec`: the bytes of the sequential union.
* `bloom_accumulation`: the accumulator, after any interleaving of folds.

**Deviation.** The crate `bloomfilter` is a parameter, with what it documents as hypotheses:
the serialized form, and that `set` and `check` work on the bits that the parameters of the
filter determine. The cells of the accumulator are the shared state, and the accumulator itself
is its header and the number of its cells. A relaxed `fetch_or` is one step on one cell; each cell
is only ever changed by such steps until the accumulator is taken apart, after every fold has
returned.
-/

namespace Depot

open Lib List

/-! ## The functions of `bloom.rs` -/

/-- `bloom_err` (lines 24–26). -/
def bloomErr (context e : String) : DepotError :=
  .internal ("bloom filter " ++ context ++ ": " ++ e)

/-- `slice::get(..n)`. -/
def getTo (bytes : List UInt8) (n : ℕ) : Option (List UInt8) :=
  if n ≤ bytes.length then some (bytes.take n) else none

section

variable {F : Type} (c : BloomCrate F)

/-- `header_len` (lines 31–35). -/
def headerLen (filter : F) : ℕ :=
  let total := (c.asSlice filter).length
  let bitmapBytes := c.len filter / 8
  total - bitmapBytes

/-- `bloom_empty_like` (lines 40–48). -/
def bloomEmptyLike (template : F) : Except DepotError F := do
  let b ← (c.fromBytes (c.asSlice template)).mapError (bloomErr "clone")
  pure (c.clear b)

/-- `bloom_union` (lines 57–72); the result is the new `target`. -/
def bloomUnion (target source : F) : Except DepotError F :=
  let h := headerLen c target
  let merged := c.asSlice target
  let src := c.asSlice source
  if getTo merged h ≠ getTo src h ∨ merged.length ≠ src.length then
    .error (bloomErr "union" "filter parameter mismatch")
  else
    let merged := merged.take h ++ zipWith (· ||| ·) (merged.drop h) (src.drop h)
    (c.fromBytes merged).mapError (bloomErr "union")

/-- The accumulator (lines 84–87): its header, and how many cells it has. -/
structure BloomAccumulator where
  header : List UInt8
  bits : ℕ

/-- `BloomAccumulator::empty_like` (lines 91–99). -/
def BloomAccumulator.emptyLike (template : F) : BloomAccumulator :=
  let h := headerLen c template
  let serialized := c.asSlice template
  let header := (getTo serialized h).getD []
  let payloadLen := serialized.length - h
  ⟨header, payloadLen⟩

abbrev Cells : Type := ℕ → UInt8

/-- The cells of a new accumulator. -/
def Cells.zero : Cells := fun _ => 0

/-- What is done to the cells: a `fetch_or` on one of them, and taking the first `n` out. -/
inductive AtomicOp where
  | fetchOr (i : ℕ) (bits : UInt8)
  | intoInner (n : ℕ)

/-- The replies. -/
abbrev AtomicOp.Reply : AtomicOp → Type
  | .fetchOr _ _ => UInt8
  | .intoInner _ => List UInt8

/-- An operation on the cells; none of them fails. -/
def AtomicOp.exec : (o : AtomicOp) → Bool → Cells → Option (Cells × AtomicOp.Reply o)
  | .fetchOr i bits, _, cells => some (Function.update cells i (cells i ||| bits), cells i)
  | .intoInner n, _, cells => some (cells, (List.range n).map cells)

/-- Every operation returns. -/
def AtomicOp.returns : Cells → AtomicOp → Bool → Prop := fun _ _ _ => True

/-- Functions on an accumulator. -/
abbrev OnCells (α : Type) : Type 1 := Fallible DepotError AtomicOp AtomicOp.Reply α

/-- One round of the loop of `or_from` (lines 119–126). -/
def orCell (dst : ℕ) (s : UInt8) : OnCells Unit :=
  if s ≠ 0 then do
    let _ ← Fallible.issue (AtomicOp.fetchOr dst s)
    pure ()
  else pure ()

/-- `BloomAccumulator::or_from` (lines 112–128). -/
def BloomAccumulator.orFrom (acc : BloomAccumulator) (source : F) : OnCells Unit := do
  let src := c.asSlice source
  if getTo src acc.header.length ≠ some acc.header ∨
      src.length ≠ acc.header.length + acc.bits then
    throw (bloomErr "accumulate" "filter parameter mismatch")
  else
    Fallible.each (fun e : ℕ × UInt8 => orCell e.1 e.2)
      ((List.range acc.bits).zip (src.drop acc.header.length))

/-- `BloomAccumulator::finalize` (lines 132–137). -/
def BloomAccumulator.finalize (acc : BloomAccumulator) : OnCells F := do
  let cells ← Fallible.issue (AtomicOp.intoInner acc.bits)
  let bytes := acc.header ++ cells
  Fallible.ofExcept ((c.fromBytes bytes).mapError (bloomErr "finalize"))

/-! ## Their use -/

/-- The filter of a shard task: its blob ids, put into an empty filter like the template. -/
def shardFilter (template : F) (ids : List (List UInt8)) : Except DepotError F := do
  let localBf ← bloomEmptyLike c template
  pure (ids.foldl c.set localBf)

/-- Filters folded into an accumulator by as many tasks, then the result of each of the folds and
    the finalised filter. -/
def foldAll (acc : BloomAccumulator) (sources : List F) :
    OnCells (List (Except DepotError Unit) × F) := do
  let results ← Fallible.join (sources.map fun source =>
    Fallible.capture (acc.orFrom c source))
  let combined ← acc.finalize c
  pure (results, combined)

/-- The filters merged one after the other into an empty one like the template. -/
def unionAll (template : F) (sources : List F) : Except DepotError F := do
  let target ← bloomEmptyLike c template
  sources.foldlM (bloomUnion c) target

end

open AtomicOp BloomAccumulator PlainBloom

theorem getTo_of_le {bytes : List UInt8} {n : ℕ} (h : n ≤ bytes.length) :
    getTo bytes n = some (bytes.take n) := if_pos h

/-! ## One fold -/

/-- What an operation adds to cell `i`. -/
def AtomicOp.part (i : ℕ) : AtomicOp → UInt8
  | .fetchOr j bits => if j = i then bits else 0
  | .intoInner _ => 0

theorem AtomicOp.exec_part (i : ℕ) (o : AtomicOp) (cells : Cells) (b : Bool) (cells' : Cells)
    (r : AtomicOp.Reply o) (_ : returns cells o b) (h : o.exec b cells = some (cells', r)) :
    cells' i = cells i ||| o.part i := by
  cases o with
  | fetchOr j bits =>
    obtain ⟨rfl, -⟩ := some_mk_inj h
    show Function.update cells j (cells j ||| bits) i = cells i ||| if j = i then bits else 0
    by_cases hj : j = i
    · rw [if_pos hj, hj, Function.update_self]
    · rw [if_neg hj, Function.update_of_ne (Ne.symm hj), UInt8.or_zero]
  | intoInner n =>
    obtain ⟨rfl, -⟩ := some_mk_inj h
    exact UInt8.or_zero.symm

/-- What a function on the accumulator adds to cell `i`, and how it ends. -/
abbrev AddsToCell {α : Type} (i : ℕ) (r : Except DepotError α) (p : OnCells α) (m : UInt8) : Prop :=
  Fallible.Adds (fun a b : UInt8 => a ||| b) 0 (AtomicOp.part i) (· = r) p m

theorem orCell_adds (i dst : ℕ) (s : UInt8) :
    AddsToCell i (.ok ()) (orCell dst s) (if dst = i then s else 0) := by
  unfold orCell
  by_cases hs : s ≠ 0
  · rw [if_pos hs]
    exact ⟨0, UInt8.or_zero.symm, fun _ => ⟨rfl, rfl⟩⟩
  · rw [if_neg hs, not_not.mp hs, ite_self]
    exact Fallible.adds_pure

variable {acc : BloomAccumulator}

section

variable {F : Type} {c : BloomCrate F} {f g template : F}

/-- The accumulator takes the filter. -/
def BloomAccumulator.Accepts (c : BloomCrate F) (acc : BloomAccumulator) (source : F) : Prop :=
  getTo (c.asSlice source) acc.header.length = some acc.header ∧
    (c.asSlice source).length = acc.header.length + acc.bits

/-- What a filter of other parameters is refused with. -/
def parameterMismatch : DepotError := bloomErr "accumulate" "filter parameter mismatch"

theorem orFrom_of_not_accepts {source : F} (h : ¬acc.Accepts c source) :
    acc.orFrom c source = throw parameterMismatch := by
  unfold orFrom
  exact if_pos (by unfold BloomAccumulator.Accepts at h; tauto)

theorem orFrom_adds {source : F} (h : acc.Accepts c source) (i : ℕ) :
    AddsToCell i (.ok ()) (acc.orFrom c source)
      (if i < acc.bits then byteAt (c.asSlice source) (acc.header.length + i) else 0) := by
  obtain ⟨hheader, hlen⟩ := h
  unfold orFrom
  dsimp only
  rw [if_neg (by rw [hheader, hlen]; simp)]
  have hsum := orAll_zip i 0 acc.bits ((c.asSlice source).drop acc.header.length)
  rw [byteAt_drop, Nat.sub_zero, Nat.zero_add, ← range_eq_range'] at hsum
  have hi : (0 ≤ i ∧ i < acc.bits) = (i < acc.bits) := by simp
  rw [if_congr (iff_of_eq hi) rfl rfl] at hsum
  rw [← hsum]
  exact Fallible.Adds.each sums_or fun e _ => orCell_adds i e.1 e.2

/-! ## Accumulator and filters of one template -/

variable {headerSize : ℕ} {mask : ℕ × ℕ × List UInt8 → List UInt8 → ℕ → UInt8}

namespace BloomCrate.Contract

section

variable (hc : c.Contract headerSize mask)

include hc

theorem headerLen_eq (f : F) : headerLen c f = headerSize := by
  unfold headerLen
  dsimp only
  rw [hc.length_slice, Nat.add_sub_cancel]

theorem le_length (f : F) : headerSize ≤ (c.asSlice f).length := by
  rw [hc.length_slice]
  exact Nat.le_add_right _ _

theorem length_eq (h : c.params f = c.params g) : (c.asSlice f).length = (c.asSlice g).length := by
  have hlen : c.len f = c.len g := congrArg Prod.fst h
  rw [hc.length_slice, hc.length_slice, hlen]

theorem emptyLike_eq (template : F) : emptyLike c template =
      ⟨(c.asSlice template).take headerSize, c.len template / 8⟩ := by
  unfold emptyLike
  dsimp only
  rw [hc.headerLen_eq, getTo_of_le (hc.le_length template), hc.length_slice,
    Nat.add_sub_cancel_left]
  rfl

theorem length_header (f : F) : ((c.asSlice f).take headerSize).length = headerSize := by
  rw [length_take, min_eq_left (hc.le_length f)]

/-- Exactly the filters with the parameters of the template are taken. -/
theorem accepts_iff (template source : F) : (emptyLike c template).Accepts c source ↔
      c.params source = c.params template := by
  rw [hc.emptyLike_eq]
  unfold BloomAccumulator.Accepts
  dsimp only
  rw [hc.length_header, getTo_of_le (hc.le_length source), Option.some_inj, hc.header_iff]
  refine and_iff_left_of_imp fun h => ?_
  rw [hc.length_eq h, hc.length_slice]

theorem bloomEmptyLike_spec (template : F) :
    ∃ b, bloomEmptyLike c template = .ok b ∧ c.params b = c.params template ∧
      ∀ i, byteAt (c.asSlice b) (headerSize + i) = 0 := by
  obtain ⟨g, hg, hslice⟩ := hc.from_bytes template _ rfl rfl
  have hparams : c.params g = c.params template := by rw [← hc.header_iff, hslice]
  refine ⟨c.clear g, ?_, ?_, fun i => ?_⟩
  · unfold bloomEmptyLike
    rw [hg]
    rfl
  · rw [← hparams, ← hc.header_iff, hc.clear_slice, take_left' (hc.length_header g)]
  · rw [hc.clear_slice, byteAt_append_right _ _ (hc.length_header g)]
    unfold byteAt
    rw [getD_eq_getElem?_getD, getElem?_replicate]
    split_ifs <;> rfl

/-- One step of the sequential union. -/
theorem bloomUnion_spec {target source : F} (h : c.params source = c.params target) :
    ∃ g, bloomUnion c target source = .ok g ∧ c.params g = c.params target ∧
      ∀ i, byteAt (c.asSlice g) (headerSize + i) = byteAt (c.asSlice target) (headerSize + i) |||
          byteAt (c.asSlice source) (headerSize + i) := by
  have hheader := (hc.header_iff source target).mpr h
  have hlen := hc.length_eq h
  have hdrop : ((c.asSlice target).drop headerSize).length =
      ((c.asSlice source).drop headerSize).length := by
    rw [length_drop, length_drop, hlen]
  have htake : ((c.asSlice target).take headerSize ++ zipWith (· ||| ·)
      ((c.asSlice target).drop headerSize) ((c.asSlice source).drop headerSize)).take headerSize =
        (c.asSlice target).take headerSize := take_left' (hc.length_header target)
  obtain ⟨g, hg, hslice⟩ := hc.from_bytes target _ htake (by
    have := hc.le_length target
    simp only [length_append, length_zipWith, length_take, length_drop]
    omega)
  refine ⟨g, ?_, ?_, fun i => ?_⟩
  · unfold bloomUnion
    dsimp only
    rw [hc.headerLen_eq, getTo_of_le (hc.le_length target), getTo_of_le (hc.le_length source),
      hheader, hlen, if_neg (by simp), ← hheader]
    rw [hheader, hg]
    rfl
  · rw [← hc.header_iff, hslice, htake]
  · rw [hslice, byteAt_append_right _ _ (hc.length_header target), byteAt_zipWith_or hdrop,
      byteAt_drop, byteAt_drop]

theorem bloomUnion_error {target source : F} (h : c.params source ≠ c.params target) :
    bloomUnion c target source = .error (bloomErr "union" "filter parameter mismatch") := by
  unfold bloomUnion
  dsimp only
  rw [hc.headerLen_eq, getTo_of_le (hc.le_length target), getTo_of_le (hc.le_length source)]
  refine if_pos (.inl fun heq => h ?_)
  rw [← hc.header_iff]
  exact (Option.some.inj heq).symm

/-- The bytes of the sequential union. -/
theorem unionAll_spec {sources : List F} (h : ∀ s ∈ sources, c.params s = c.params template) :
    ∃ u, unionAll c template sources = .ok u ∧ c.params u = c.params template ∧
      ∀ i, byteAt (c.asSlice u) (headerSize + i) =
        orAll (fun s => byteAt (c.asSlice s) (headerSize + i)) sources := by
  obtain ⟨b, hb, hparams, hbytes⟩ := hc.bloomEmptyLike_spec template
  have hfold : ∀ (sources : List F) (t : F), c.params t = c.params template →
      (∀ s ∈ sources, c.params s = c.params template) →
      ∃ u, sources.foldlM (bloomUnion c) t = .ok u ∧ c.params u = c.params template ∧
        ∀ i, byteAt (c.asSlice u) (headerSize + i) = byteAt (c.asSlice t) (headerSize + i) |||
          orAll (fun s => byteAt (c.asSlice s) (headerSize + i)) sources := by
    intro sources
    induction sources with
    | nil => exact fun t ht _ => ⟨t, rfl, ht, fun i => UInt8.or_zero.symm⟩
    | cons s sources ih =>
      intro t ht hs
      obtain ⟨g, hg, hgparams, hgbytes⟩ :=
        hc.bloomUnion_spec ((hs s mem_cons_self).trans ht.symm)
      obtain ⟨u, hu, huparams, hubytes⟩ := ih g (hgparams.trans ht) fun s' hs' =>
        hs s' (mem_cons_of_mem s hs')
      refine ⟨u, ?_, huparams, fun i => ?_⟩
      · rw [foldlM_cons, hg]
        exact hu
      · rw [hubytes, hgbytes, orAll_cons, UInt8.or_assoc]
  obtain ⟨u, hu, huparams, hubytes⟩ := hfold sources b hparams h
  refine ⟨u, ?_, huparams, fun i => ?_⟩
  · unfold unionAll
    rw [hb]
    exact hu
  · rw [hubytes, hbytes, UInt8.zero_or]

/-- A filter answers for what has been put into it. -/
theorem check_set_self (f : F) (item : List UInt8) : c.check (c.set f item) item = true := by
  rw [hc.check_iff]
  intro i
  rw [hc.set_params, hc.set_byte, UInt8.or_assoc, UInt8.or_self]

/-- A filter with the bits of another one answers for everything that this one answers for. -/
theorem check_of_bits {item : List UInt8}
    (hparams : c.params g = c.params f) (hbytes : ∀ i, byteAt (c.asSlice g) (headerSize + i) |||
      byteAt (c.asSlice f) (headerSize + i) = byteAt (c.asSlice g) (headerSize + i))
    (h : c.check f item = true) : c.check g item = true := by
  rw [hc.check_iff] at h ⊢
  intro i
  calc byteAt (c.asSlice g) (headerSize + i) ||| mask (c.params g) item i
      = byteAt (c.asSlice g) (headerSize + i) |||
          (byteAt (c.asSlice f) (headerSize + i) ||| mask (c.params f) item i) := by
        rw [← UInt8.or_assoc, hbytes, hparams]
    _ = byteAt (c.asSlice g) (headerSize + i) := by rw [h, hbytes]

theorem check_set {item : List UInt8}
    (other : List UInt8) (h : c.check f item = true) : c.check (c.set f other) item = true := by
  refine hc.check_of_bits (hc.set_params f other) (fun i => ?_) h
  rw [hc.set_byte, UInt8.or_assoc, UInt8.or_comm (mask _ _ _), ← UInt8.or_assoc, UInt8.or_self]

/-- The filter of a shard has the parameters of the template and answers for all its ids. -/
theorem shardFilter_spec {s : F}
    {ids : List (List UInt8)} (h : shardFilter c template ids = .ok s) :
    c.params s = c.params template ∧ ∀ id ∈ ids, c.check s id = true := by
  obtain ⟨b, hb, hparams, -⟩ := hc.bloomEmptyLike_spec template
  unfold shardFilter at h
  rw [hb] at h
  obtain rfl := Except.ok.inj h
  have hfold : ∀ (ids : List (List UInt8)) (f : F), c.params (ids.foldl c.set f) = c.params f ∧
      ∀ id, c.check f id = true ∨ id ∈ ids → c.check (ids.foldl c.set f) id = true := by
    intro ids
    induction ids with
    | nil => exact fun f => ⟨rfl, fun id hid => by simpa using hid⟩
    | cons x ids ih =>
      intro f
      obtain ⟨hp, hcheck⟩ := ih (c.set f x)
      refine ⟨hp.trans (hc.set_params f x), fun id hid => hcheck id ?_⟩
      rcases hid with hid | hid
      · exact .inl (hc.check_set x hid)
      · rcases mem_cons.mp hid with rfl | hid
        · exact .inl (hc.check_set_self f id)
        · exact .inr hid
  obtain ⟨hp, hcheck⟩ := hfold ids b
  exact ⟨hp.trans hparams, fun id hid => hcheck id (.inr hid)⟩

end

/-! ## Any interleaving of folds -/

/-- How the fold of a filter ends. -/
def foldResult (c : BloomCrate F) (template source : F) : Except DepotError Unit :=
  if c.params source = c.params template then .ok () else .error parameterMismatch

theorem foldAll_adds (hc : c.Contract headerSize mask) (template : F) (sources : List F) (i : ℕ) :
    AddsToCell i (.ok (sources.map (foldResult c template)))
      (Fallible.join (sources.map fun source =>
        Fallible.capture ((emptyLike c template).orFrom c source)))
      (if i < c.len template / 8 then
        orAll (fun s => byteAt (c.asSlice s) (headerSize + i))
          (sources.filter fun s => c.params s = c.params template) else 0) := by
  have hone : ∀ s ∈ sources, AddsToCell i (.ok (foldResult c template s))
      (Fallible.capture ((emptyLike c template).orFrom c s))
      (if c.params s = c.params template then
        if i < c.len template / 8 then byteAt (c.asSlice s) (headerSize + i) else 0
      else 0) := by
    intro s _
    refine Fallible.Adds.capture ?_
    unfold foldResult
    by_cases hs : c.params s = c.params template
    · have h := orFrom_adds ((hc.accepts_iff template s).mpr hs) i
      rw [hc.emptyLike_eq, hc.length_header] at h
      rw [if_pos hs, if_pos hs, hc.emptyLike_eq]
      exact h
    · rw [if_neg hs, if_neg hs, orFrom_of_not_accepts (mt (hc.accepts_iff template s).mp hs)]
      exact Fallible.adds_throw
  have hjoin := Fallible.Adds.join sums_or hone
  have hsum : ∀ i, orAll (fun s => if c.params s = c.params template then
      if i < c.len template / 8 then byteAt (c.asSlice s) (headerSize + i) else 0 else 0) sources =
        if i < c.len template / 8 then orAll (fun s => byteAt (c.asSlice s) (headerSize + i))
          (sources.filter fun s => c.params s = c.params template) else 0 := by
    intro i
    rw [orAll_filter]
    split_ifs
    · rfl
    · induction sources.filter fun s => c.params s = c.params template with
      | nil => rfl
      | cons s ss ih => rw [orAll_cons, ih, UInt8.or_zero]
  rw [← hsum i]
  exact hjoin

/-- The finalised filter: the header of the template and what the folds have added up to. -/
theorem foldAll_spec (hc : c.Contract headerSize mask) {sources : List F}
    {r : Except DepotError (List (Except DepotError Unit) × F)} {cells' : Cells}
    (h : Yields AtomicOp.exec returns
      (foldAll c (emptyLike c template) sources) Cells.zero r cells') :
    ∃ f, r = .ok (sources.map (foldResult c template), f) ∧
      c.asSlice f = (c.asSlice template).take headerSize ++
        (List.range (c.len template / 8)).map fun i =>
          orAll (fun s => byteAt (c.asSlice s) (headerSize + i))
            (sources.filter fun s => c.params s = c.params template) := by
  have hjoined : ∀ r1 cells1, Yields AtomicOp.exec returns (Fallible.join (sources.map
      fun source => Fallible.capture ((emptyLike c template).orFrom c source)))
        Cells.zero r1 cells1 → r1 = .ok (sources.map (foldResult c template)) ∧
          ∀ i, cells1 i = if i < c.len template / 8 then
            orAll (fun s => byteAt (c.asSlice s) (headerSize + i))
              (sources.filter fun s => c.params s = c.params template) else 0 := by
    intro r1 cells1 h
    have hcell := fun i =>
      (hc.foldAll_adds template sources i).yields sums_or (exec_part i) h
    refine ⟨(hcell 0).2, fun i => ?_⟩
    rw [(hcell i).1]
    exact UInt8.zero_or
  unfold foldAll at h
  rcases yields_bind h with ⟨e, -, hjoin⟩ | ⟨results, cells1, hjoin, hrest⟩
  · cases (hjoined _ _ hjoin).1
  obtain ⟨hresults, hcells⟩ := hjoined _ _ hjoin
  obtain rfl := Except.ok.inj hresults
  have hmap : (List.range (c.len template / 8)).map cells1 =
      (List.range (c.len template / 8)).map fun i =>
        orAll (fun s => byteAt (c.asSlice s) (headerSize + i))
          (sources.filter fun s => c.params s = c.params template) := by
    refine map_congr_left fun i hi => ?_
    rw [hcells, if_pos (List.mem_range.mp hi)]
  obtain ⟨f, hf, hslice⟩ := hc.from_bytes template ((c.asSlice template).take headerSize ++
    (List.range (c.len template / 8)).map cells1) (take_left' (hc.length_header template)) (by
      rw [length_append, hc.length_header, length_map, length_range,
        hc.length_slice])
  have hfinal : ∀ r2 cells2, Yields AtomicOp.exec returns
      ((emptyLike c template).finalize c) cells1 r2 cells2 → r2 = .ok f := by
    intro r2 cells2 h
    rw [hc.emptyLike_eq] at h
    unfold finalize at h
    rcases yields_bind h with ⟨e, -, hissue⟩ | ⟨taken, cells3, hissue, hrest⟩
    · obtain ⟨_, _, _, _, he⟩ := yields_issue hissue
      cases he
    · obtain ⟨_, taken', _, hx, he⟩ := yields_issue hissue
      obtain ⟨-, rfl⟩ := some_mk_inj hx
      obtain rfl := Except.ok.inj he
      dsimp only at hrest
      rw [hf] at hrest
      exact (runs_pure hrest).1
  rcases yields_bind hrest with ⟨e, -, hfail⟩ | ⟨f', cells2, hfin, hpure⟩
  · cases hfinal _ _ hfail
  · obtain rfl := Except.ok.inj (hfinal _ _ hfin)
    obtain ⟨rfl, -⟩ := yields_pure hpure
    exact ⟨f', rfl, hslice.trans (by rw [hmap])⟩

/-- A filter with the parameters of the template and given bytes. -/
theorem eq_union (hc : c.Contract headerSize mask) {u : F} {m : ℕ → UInt8}
    (hf : c.asSlice f = (c.asSlice template).take headerSize ++
      (List.range (c.len template / 8)).map m)
    (hparams : c.params u = c.params template)
    (hu : ∀ i, byteAt (c.asSlice u) (headerSize + i) = m i) : c.asSlice f = c.asSlice u := by
  have hlen : (c.asSlice f).length = (c.asSlice u).length := by
    rw [hf, hc.length_eq hparams, length_append, hc.length_header, length_map,
      length_range, hc.length_slice]
  have htake : (c.asSlice f).take headerSize = (c.asSlice u).take headerSize := by
    rw [hf, take_left' (hc.length_header template)]
    exact ((hc.header_iff u template).mpr hparams).symm
  refine eq_of_bytes hlen htake fun i => ?_
  rw [hu]
  by_cases hi : i < c.len template / 8
  · rw [hf, byteAt_append_right _ _ (hc.length_header template), byteAt_map_range, if_pos hi]
  · have hend : (c.asSlice u).length ≤ headerSize + i := by
      rw [hc.length_eq hparams, hc.length_slice]
      omega
    rw [← hu, byteAt_of_length_le hend, byteAt_of_length_le (by rw [hlen]; exact hend)]

end BloomCrate.Contract

/-- The folds and the finalisation come to an end. -/
theorem foldAll_total (acc : BloomAccumulator) (sources : List F) :
    ∃ r cells', Yields AtomicOp.exec returns (foldAll c acc sources) Cells.zero r cells' := by
  have hop : ∀ o, (fun _ : AtomicOp => True) o → ∀ cells, ∃ b cells' r,
      returns cells o b ∧ o.exec b cells = some (cells', r) := by
    intro o _ cells
    cases o with
    | fetchOr i bits => exact ⟨true, _, _, trivial, rfl⟩
    | intoInner n => exact ⟨true, _, _, trivial, rfl⟩
  exact yields_total hop (Task.uses_any _ fun _ => trivial) Cells.zero

end

/-- **Main theorem.** Filters of any kind are folded into an accumulator of a template by as many
tasks, interleaved cell by cell in any way. The run comes to an end, and however it goes: exactly
the filters with other parameters than the template are refused; the finalised filter is, byte for
byte, the sequential union of the others; and it answers for every id that was put into one of
the shard filters. A fold that is refused leaves the cells as they are, and `bloom_union`
refuses the same filters. -/
theorem bloom_accumulation {F : Type} (c : BloomCrate F) {headerSize : ℕ}
    {mask : ℕ × ℕ × List UInt8 → List UInt8 → ℕ → UInt8} (hc : c.Contract headerSize mask)
    (template : F) (sources : List F) :
    (∃ r cells', Yields AtomicOp.exec returns
      (foldAll c (emptyLike c template) sources) Cells.zero r cells') ∧
    (∀ r cells', Yields AtomicOp.exec returns
      (foldAll c (emptyLike c template) sources) Cells.zero r cells' →
        ∃ f u, r = .ok (sources.map (fun s => if c.params s = c.params template then .ok ()
            else .error parameterMismatch), f) ∧
          unionAll c template (sources.filter fun s => c.params s = c.params template) = .ok u ∧
          c.asSlice f = c.asSlice u ∧
          ∀ ids s, s ∈ sources → shardFilter c template ids = .ok s →
            ∀ id ∈ ids, c.check f id = true) ∧
    ∀ source, c.params source ≠ c.params template →
      (∀ cells cells' r, Yields AtomicOp.exec returns
        ((emptyLike c template).orFrom c source) cells r cells' →
          r = .error parameterMismatch ∧ cells' = cells) ∧
      bloomUnion c template source = .error (bloomErr "union" "filter parameter mismatch") := by
  refine ⟨foldAll_total _ sources, fun r cells' hrun => ?_, fun source hsource => ⟨?_, ?_⟩⟩
  · obtain ⟨f, rfl, hslice⟩ := hc.foldAll_spec hrun
    have hsame : ∀ s ∈ sources.filter fun s => c.params s = c.params template,
        c.params s = c.params template := fun s hs => by simpa using (mem_filter.mp hs).2
    obtain ⟨u, hu, huparams, hubytes⟩ := hc.unionAll_spec hsame
    have hfu : c.asSlice f = c.asSlice u := hc.eq_union hslice huparams hubytes
    have hfparams : c.params f = c.params template := by
      rw [← huparams, ← hc.header_iff, hfu]
    refine ⟨f, u, rfl, hu, hfu, fun ids s hs hshard id hid => ?_⟩
    obtain ⟨hsparams, hcheck⟩ := hc.shardFilter_spec hshard
    refine hc.check_of_bits (hfparams.trans hsparams.symm) (fun i => ?_) (hcheck id hid)
    rw [hfu, hubytes]
    exact orAll_or_of_mem (mem_filter.mpr ⟨hs, by simpa using hsparams⟩)
  · intro cells cells' r h
    rw [orFrom_of_not_accepts (mt (hc.accepts_iff template source).mp hsource)] at h
    exact yields_throw h
  · exact hc.bloomUnion_error hsource

/-- The filter of a shard of `PlainBloom.crate`. -/
def PlainBloom.shard (ids : List (List UInt8)) : PlainBloom.Filter :=
  ids.foldl crate.set (crate.clear (PlainBloom.template 3))

theorem PlainBloom.shardFilter_shard (ids : List (List UInt8)) :
    shardFilter crate (PlainBloom.template 3) ids = .ok (PlainBloom.shard ids) := by
  have hread : crate.fromBytes (crate.asSlice (PlainBloom.template 3)) =
      .ok (PlainBloom.template 3) := by
    have hwell := (PlainBloom.template 3).2
    unfold crate
    dsimp only
    rw [dif_pos hwell]
  unfold shardFilter bloomEmptyLike
  rw [hread]
  rfl

theorem bloom_accumulation_two_shards : ∃ f cells', Yields AtomicOp.exec returns
        (foldAll crate
          (emptyLike crate (PlainBloom.template 3))
          [PlainBloom.shard [[97], [98]], PlainBloom.template 4, PlainBloom.shard [[99]]])
        Cells.zero (.ok ([.ok (), .error parameterMismatch, .ok ()], f)) cells' ∧
      crate.check f [97] = true ∧ crate.check f [98] = true ∧
        crate.check f [99] = true := by
  obtain ⟨⟨r, cells', hrun⟩, hall, -⟩ := bloom_accumulation crate contract
    (PlainBloom.template 3)
    [PlainBloom.shard [[97], [98]], PlainBloom.template 4, PlainBloom.shard [[99]]]
  obtain ⟨f, u, rfl, -, -, hcheck⟩ := hall r cells' hrun
  have hparams : ∀ ids, crate.params (PlainBloom.shard ids) =
      crate.params (PlainBloom.template 3) := fun ids =>
    (contract.shardFilter_spec (shardFilter_shard ids)).1
  have hother : crate.params (PlainBloom.template 4) ≠
      crate.params (PlainBloom.template 3) := by decide
  rw [map_cons, map_cons, map_cons, if_pos (hparams _), if_pos (hparams _), if_neg hother] at hrun
  have hfirst := hcheck _ _ (by simp) (shardFilter_shard [[97], [98]])
  have hlast := hcheck _ _ (by simp) (shardFilter_shard [[99]])
  exact ⟨f, cells', hrun, hfirst _ (by simp), hfirst _ (by simp), hlast _ (by simp)⟩

end Depot
