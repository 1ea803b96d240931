import Depot.Lib.Merge
import Depot.Service.Scan
import Mathlib.Algebra.Order.BigOperators.Group.List

/-!
# Pagination across shards

The k-way merge over the shards of a sorted table, and the cursors of its pages
(`core/src/service/pagination.rs`), over a store that does not change.

Results:
* `ShardStream.ensureBuffered_rest`, `ShardStream.ensureBuffered_ready`: fetching
  a batch loses nothing, and goes on until there is an entry or none is left.
* `kWayMerge_eq`: the merge returns the entries after the cursor that are not
  skipped, in ascending order, one more than the limit if there are so many.
* `decodeCursor_encodeCursor`: a cursor decodes to the path it was made from.
-/

namespace Depot

open Lib List

/-! ## Text -/

/-- Text functions that are not in the repository: Unicode's lower case and the
    standard Base64 alphabet. -/
structure Text where
  toLowercase : String → String
  base64Encode : ByteArray → String
  base64Decode : String → Option ByteArray
  decode_encode : ∀ data, base64Decode (base64Encode data) = some data

/-- How many bytes follow a lead byte of UTF-8, and the bounds on the first of
    them. -/
def utf8Lead (b : UInt8) : Option (ℕ × UInt8 × UInt8) :=
  if b < 0x80 then some (0, 0x80, 0xbf)
  else if b < 0xc2 then none
  else if b < 0xe0 then some (1, 0x80, 0xbf)
  else if b = 0xe0 then some (2, 0xa0, 0xbf)
  else if b = 0xed then some (2, 0x80, 0x9f)
  else if b < 0xf0 then some (2, 0x80, 0xbf)
  else if b = 0xf0 then some (3, 0x90, 0xbf)
  else if b < 0xf4 then some (3, 0x80, 0xbf)
  else if b = 0xf4 then some (3, 0x80, 0x8f)
  else none

/-- The continuation bytes that follow a lead byte, at most `n` of them. -/
def utf8Follow : ℕ → UInt8 → UInt8 → Bytes → Bytes
  | 0, _, _, _ => []
  | _, _, _, [] => []
  | n + 1, lo, hi, b :: bs => if lo ≤ b ∧ b ≤ hi then b :: utf8Follow n 0x80 0xbf bs else []

/-- The characters of a byte string; each maximal part of an ill-formed sequence
    becomes U+FFFD. -/
def utf8Lossy : ℕ → Bytes → List Char
  | 0, _ => []
  | _, [] => []
  | fuel + 1, b :: bs =>
      match utf8Lead b with
      | none => Char.ofNat 0xfffd :: utf8Lossy fuel bs
      | some (n, lo, hi) =>
          let follow := utf8Follow n lo hi bs
          let c := if follow.length = n then
              Char.ofNat (follow.foldl (fun code b => code * 64 + b.toNat % 64)
                (if n = 0 then b.toNat else b.toNat % 2 ^ (6 - n)))
            else Char.ofNat 0xfffd
          c :: utf8Lossy fuel (bs.drop follow.length)

/-- `String::from_utf8_lossy`. -/
def fromUtf8Lossy (data : ByteArray) : String :=
  (String.fromUTF8? data).getD (String.ofList (utf8Lossy data.size data.data.toList))

/-- `decode_cursor` (lines 222–232). -/
def decodeCursor (t : Text) (cursor : Option String) : Option String :=
  cursor.map fun c => fromUtf8Lossy ((t.base64Decode c).getD ByteArray.empty)

/-- The cursor that names a path (line 239). -/
def encodeCursor (t : Text) (key : String) : String := t.base64Encode key.toUTF8

theorem fromUtf8Lossy_toUTF8 (s : String) : fromUtf8Lossy s.toUTF8 = s := by
  have h : String.fromUTF8? s.toUTF8 = some s := by
    simp only [String.fromUTF8?, String.toUTF8_eq_toByteArray, dif_pos s.isValidUTF8]
    rfl
  rw [fromUtf8Lossy, h, Option.getD_some]

/-- A cursor decodes to the path it was made from. -/
theorem decodeCursor_encodeCursor (t : Text) (key : String) :
    decodeCursor t (some (encodeCursor t key)) = some key := by
  rw [decodeCursor, encodeCursor, Option.map_some, t.decode_encode, Option.getD_some,
    fromUtf8Lossy_toUTF8]

/-! ## Pages -/

/-- `Pagination`. -/
structure Pagination where
  cursor : Option String := none
  offset : ℕ := 0
  limit : ℕ := 1000

/-- `PaginatedResult`. -/
structure PaginatedResult (α : Type) where
  items : List α
  nextCursor : Option String
  deriving DecidableEq

/-- `paginate_results` (lines 234–242). -/
def paginateResults {α : Type} (t : Text) (items : List (String × α)) (limit : ℕ) :
    PaginatedResult (String × α) where
  items := items.take limit
  nextCursor := (items[limit - 1]?.filter fun _ => decide (limit < items.length)).map fun e =>
    encodeCursor t e.1

/-! ## Streams of shards -/

/-- `ShardStream`. -/
structure ShardStream where
  part : Part
  skPrefix : String
  skEnd : Option String
  buffer : List (String × Value)
  bufIdx : ℕ
  nextStart : String
  exhausted : Bool
  filter : Option String
  batchSize : ℕ

namespace ShardStream

/-- `ShardStream::new` (lines 34–54). -/
def new (part : Part) (skPrefix scanStart : String) (filter : Option String) (batchSize : ℕ) :
    ShardStream where
  part := part
  skPrefix := skPrefix
  skEnd := prefixEnd skPrefix
  buffer := []
  bufIdx := 0
  nextStart := scanStart
  exhausted := false
  filter := filter
  batchSize := batchSize

/-- `path.contains(query)` in lower case, if there is a query (lines 86–91). -/
def keeps (t : Text) (filter : Option String) (sk : String) : Bool :=
  filter.all fun query => decide (query.toList <:+: (t.toLowercase sk).toList)

/-- One round of the loop in `ensure_buffered` (lines 64–97). -/
def fetch (t : Text) (w : World) (s : ShardStream) : ShardStream :=
  let result := w.scanRange s.part s.nextStart s.skEnd s.batchSize
  let own := result.items.takeWhile fun e => hasPrefix s.skPrefix e.1
  { s with
    nextStart := match result.items.getLast? with
      | some last => cursorAfter last.1
      | none => s.nextStart
    buffer := own.filter fun e => keeps t s.filter e.1
    bufIdx := 0
    exhausted := result.done || decide (own.length ≠ result.items.length) }

/-- The loop of `ensure_buffered` (lines 58–100). -/
def ensureFrom (t : Text) (w : World) : ℕ → ShardStream → ShardStream
  | 0, s => s
  | fuel + 1, s =>
      if s.buffer.length ≤ s.bufIdx ∧ s.exhausted = false then ensureFrom t w fuel (s.fetch t w)
      else s

/-- `ensure_buffered`. No shard has more batches than entries. -/
def ensureBuffered (t : Text) (w : World) (s : ShardStream) : ShardStream :=
  ensureFrom t w ((w.kv s.part).entries.length + 1) s

/-- `peek` (lines 102–110). -/
def peek (s : ShardStream) : Option (String × Value) := s.buffer[s.bufIdx]?

/-- `advance` (lines 112–114). -/
def advance (s : ShardStream) : ShardStream := { s with bufIdx := s.bufIdx + 1 }

/-- The streams as the merge uses them: every move is followed by a fetch. -/
def source (t : Text) (w : World) : Source ShardStream String Value where
  peek := peek
  next s := s.advance.ensureBuffered t w

/-! ### What is left in a stream -/

/-- A stream that reads the part of a shard with its prefix. -/
structure Ok (s : ShardStream) : Prop where
  skEnd : s.skEnd = prefixEnd s.skPrefix
  start : s.skPrefix ≤ s.nextStart
  batch : 0 < s.batchSize

/-- The entries that a stream has not delivered yet. -/
def rest (t : Text) (w : World) (s : ShardStream) : List (String × Value) :=
  s.buffer.drop s.bufIdx ++
    if s.exhausted then []
    else (w.matching s.part s.skPrefix s.nextStart).filter fun e => keeps t s.filter e.1

variable {t : Text} {w : World} {s : ShardStream}

theorem Ok.fetch (h : s.Ok) : (s.fetch t w).Ok := by
  refine ⟨h.skEnd, ?_, h.batch⟩
  simp only [ShardStream.fetch, World.scanRange_items]
  split
  · rename_i last hlast
    have hmem := World.mem_entriesFrom.mp (mem_of_mem_take (mem_of_getLast? hlast))
    exact h.start.trans (hmem.2.1.trans (cursorAfter_le_iff.mp le_rfl).le)
  · exact h.start

theorem fetch_exhausted : (s.fetch t w).exhausted = true ↔
    (w.scanRange s.part s.nextStart s.skEnd s.batchSize).done = true ∨
      ((w.scanRange s.part s.nextStart s.skEnd s.batchSize).items.takeWhile fun e =>
        hasPrefix s.skPrefix e.1).length ≠
      (w.scanRange s.part s.nextStart s.skEnd s.batchSize).items.length := by
  rw [fetch, Bool.or_eq_true, decide_eq_true_eq]

/-- A batch moves entries from the shard to the buffer. -/
theorem rest_fetch (h : s.Ok) (hidx : s.buffer.length ≤ s.bufIdx) (hex : s.exhausted = false) :
    (s.fetch t w).rest t w = s.rest t w := by
  obtain ⟨hlast, hnext⟩ := @World.matching_batch w s.part _ _ _ h.start h.batch
  rw [← h.skEnd] at hlast hnext
  rw [rest, rest, hex, drop_of_length_le hidx, nil_append, if_neg Bool.false_ne_true]
  show (s.fetch t w).buffer ++ _ = _
  cases hend : (s.fetch t w).exhausted with
  | true =>
    rw [if_pos rfl, append_nil, hlast (fetch_exhausted.mp hend).symm]
    rfl
  | false =>
    have hmore := mt fetch_exhausted.mpr (Bool.eq_false_iff.mp hend)
    push Not at hmore
    obtain ⟨last, hl, _, hmatch, _⟩ := hnext hmore.2 (Bool.eq_false_of_not_eq_true hmore.1)
    rw [if_neg Bool.false_ne_true, hmatch, filter_append]
    simp only [fetch, hl]

theorem Ok.ensureFrom (h : s.Ok) (fuel : ℕ) : (s.ensureFrom t w fuel).Ok := by
  induction fuel generalizing s with
  | zero => exact h
  | succ fuel ih =>
    rw [ShardStream.ensureFrom]
    split_ifs with hc
    · exact ih h.fetch
    · exact h

theorem rest_ensureFrom (h : s.Ok) (fuel : ℕ) : (s.ensureFrom t w fuel).rest t w = s.rest t w := by
  induction fuel generalizing s with
  | zero => rfl
  | succ fuel ih =>
    rw [ensureFrom]
    split_ifs with hc
    · rw [ih h.fetch, rest_fetch h hc.1 hc.2]
    · rfl

/-- A batch that is not the last one leaves fewer entries in the shard. -/
theorem fetch_shrinks (h : s.Ok) (hex : (s.fetch t w).exhausted = false) :
    (w.entriesFrom s.part (s.fetch t w).nextStart s.skEnd).length <
      (w.entriesFrom s.part s.nextStart s.skEnd).length := by
  obtain ⟨_, hnext⟩ := @World.matching_batch w s.part _ _ _ h.start h.batch
  rw [← h.skEnd] at hnext
  have hmore := mt fetch_exhausted.mpr (Bool.eq_false_iff.mp hex)
  push Not at hmore
  obtain ⟨last, hl, _, _, hlt⟩ := hnext hmore.2 (Bool.eq_false_of_not_eq_true hmore.1)
  simp only [fetch, hl]
  exact hlt

/-- The fuel suffices: there is an entry in the buffer, or none is left. -/
theorem ensureFrom_ready (h : s.Ok) {fuel : ℕ}
    (hf : (w.entriesFrom s.part s.nextStart s.skEnd).length < fuel) :
    (s.ensureFrom t w fuel).bufIdx < (s.ensureFrom t w fuel).buffer.length ∨
      (s.ensureFrom t w fuel).exhausted = true := by
  induction fuel generalizing s with
  | zero => omega
  | succ fuel ih =>
    rw [ensureFrom]
    split_ifs with hc
    · cases hex : (s.fetch t w).exhausted with
      | false =>
        have hlt := fetch_shrinks h hex
        exact ih h.fetch (show (w.entriesFrom s.part (s.fetch t w).nextStart s.skEnd).length < fuel
          by omega)
      | true =>
        cases fuel with
        | zero => exact .inr hex
        | succ fuel =>
          rw [ensureFrom, if_neg (by simp [hex])]
          exact .inr hex
    · cases hex : s.exhausted with
      | true => exact .inr rfl
      | false => exact .inl (not_le.mp fun hle => hc ⟨hle, hex⟩)

theorem Ok.ensureBuffered (h : s.Ok) : (s.ensureBuffered t w).Ok := h.ensureFrom _

theorem ensureBuffered_rest (h : s.Ok) : (s.ensureBuffered t w).rest t w = s.rest t w :=
  rest_ensureFrom h _

theorem ensureBuffered_ready (h : s.Ok) :
    (s.ensureBuffered t w).bufIdx < (s.ensureBuffered t w).buffer.length ∨
      (s.ensureBuffered t w).exhausted = true :=
  ensureFrom_ready h (Nat.lt_succ_of_le World.length_entriesFrom_le)

/-- The streams in which the next entry has been fetched. -/
def Ready (s : ShardStream) : Prop :=
  s.Ok ∧ (s.bufIdx < s.buffer.length ∨ s.exhausted = true)

theorem Ok.ready (h : s.Ok) : (s.ensureBuffered t w).Ready :=
  ⟨h.ensureBuffered, ensureBuffered_ready h⟩

theorem Ok.advance (h : s.Ok) : s.advance.Ok := ⟨h.skEnd, h.start, h.batch⟩

theorem rest_advance (h : s.Ready) : s.advance.rest t w = (s.rest t w).tail := by
  rw [rest, rest]
  show s.buffer.drop (s.bufIdx + 1) ++ (if s.exhausted then [] else _) = _
  rcases h.2 with hidx | hex
  · rw [drop_eq_getElem_cons hidx]
    rfl
  · rw [hex, if_pos rfl, if_pos rfl, append_nil, append_nil, tail_drop]

theorem peek_eq (h : s.Ready) : s.peek = (s.rest t w).head? := by
  rw [peek, rest]
  rcases h.2 with hidx | hex
  · rw [drop_eq_getElem_cons hidx, getElem?_eq_getElem hidx]
    rfl
  · rw [hex, if_pos rfl, append_nil, head?_drop]

theorem length_rest_le : (s.rest t w).length ≤ s.buffer.length + (w.kv s.part).entries.length := by
  have hmatch : ((w.matching s.part s.skPrefix s.nextStart).filter fun e =>
      keeps t s.filter e.1).length ≤ (w.kv s.part).entries.length :=
    (length_filter_le _ _).trans ((length_filter_le _ _).trans
      World.length_entriesFrom_le)
  rw [rest, length_append, length_drop]
  split_ifs
  · rw [length_nil]
    omega
  · omega

/-- A shard stream delivers what is left of its shard. -/
def spec (t : Text) (w : World) : (source t w).Spec where
  ready := Ready
  rest := rest t w
  peek_eq _ h := peek_eq h
  next_ready _ h := h.1.advance.ready
  rest_next _ h := (ensureBuffered_rest h.1.advance).trans (rest_advance h)

end ShardStream

/-! ## The merge -/

section Merge

variable {α : Type} (t : Text) (w : World) (as? : Value → Option α)

/-- The entries after the cursor, if there is one (lines 197–202). -/
def afterCursor (cursorPath : Option String) (path : String) : Bool :=
  !cursorPath.any fun cp => decide (path ≤ cp)

/-- The loop of `k_way_merge` (lines 172–217). -/
def mergeLoop (cursorPath : Option String) (skip limit : ℕ) :
    ℕ → Front ShardStream String → ℕ → List (String × α) →
      Except DepotError (List (String × α))
  | 0, _, _, results => .ok results
  | fuel + 1, f, skipped, results =>
      match f.pop (ShardStream.source t w) with
      | none => .ok results
      | some (e, f) =>
          if !afterCursor cursorPath e.1 then
            mergeLoop cursorPath skip limit fuel f skipped results
          else if skipped < skip then
            mergeLoop cursorPath skip limit fuel f (skipped + 1) results
          else
            match as? e.2 with
            | none => .error (.storage false)
            | some record =>
                let results := results ++ [(e.1, record)]
                if limit < results.length then .ok results
                else mergeLoop cursorPath skip limit fuel f skipped results

/-- `k_way_merge` (lines 143–220). No merge has more rounds than the shards have
    entries. -/
def kWayMerge (streams : List ShardStream) (cursorPath : Option String) (skip limit : ℕ) :
    Except DepotError (List (String × α)) :=
  let streams := streams.map fun s => s.ensureBuffered t w
  let rounds := streams.map fun s => s.buffer.length + (w.kv s.part).entries.length
  mergeLoop t w as? cursorPath skip limit (rounds.sum + 1)
    (Front.start (ShardStream.source t w) streams) 0 []

/-- A decoded entry. -/
def listed (e : String × Value) : Option (String × α) := (as? e.2).map fun a => (e.1, a)

variable {t w as?} {cursorPath : Option String} {skip limit : ℕ}

theorem mergeLoop_eq {fuel : ℕ} {f : Front ShardStream String} {L : List (String × Value)}
    (h : f.Merges (ShardStream.spec t w) L) (hd : ∀ e ∈ L, (as? e.2).isSome = true)
    (hf : L.length < fuel) {skipped : ℕ} {results : List (String × α)}
    (hr : results.length ≤ limit) : mergeLoop t w as? cursorPath skip limit fuel f skipped results =
      .ok (results ++ (((L.filter fun e => afterCursor cursorPath e.1).drop
        (skip - skipped)).take (limit + 1 - results.length)).filterMap (listed as?)) := by
  induction fuel generalizing f L skipped results with
  | zero => omega
  | succ fuel ih =>
    rw [mergeLoop]
    rcases Front.pop_merges h with ⟨rfl, hp⟩ | ⟨e, L', f', rfl, hp, hm⟩
    · rw [hp]
      simp
    · have hd' : ∀ e ∈ L', (as? e.2).isSome = true := fun e he => hd e (mem_cons_of_mem _ he)
      have hf' : L'.length < fuel := by
        rw [length_cons] at hf
        omega
      rw [hp]
      dsimp only
      by_cases hc : afterCursor cursorPath e.1 = true
      · rw [filter_cons_of_pos (p := fun e : String × Value => afterCursor cursorPath e.1) hc]
        rw [if_neg (by simp [hc])]
        by_cases hs : skipped < skip
        · rw [if_pos hs, ih hm hd' hf' hr]
          have hdrop : skip - skipped = skip - (skipped + 1) + 1 := by omega
          rw [hdrop, drop_succ_cons]
        · have hdrop : skip - skipped = 0 := by omega
          have htake : limit + 1 - results.length = limit - results.length + 1 := by omega
          obtain ⟨a, ha⟩ := Option.isSome_iff_exists.mp (hd e mem_cons_self)
          have hl : listed as? e = some (e.1, a) := by rw [listed, ha, Option.map_some]
          rw [if_neg hs, ha, hdrop, htake, drop_zero, take_succ_cons, filterMap_cons_some hl]
          dsimp only
          split_ifs with hlim
          · have hzero : limit - results.length = 0 := by
              rw [length_append, length_singleton] at hlim
              omega
            rw [hzero, take_zero, filterMap_nil]
          · have hlen : (results ++ [(e.1, a)]).length = results.length + 1 := by simp
            rw [ih hm hd' hf' (by omega), hdrop, hlen, drop_zero, append_assoc,
              singleton_append]
            congr 5
            omega
      · rw [filter_cons_of_neg (p := fun e : String × Value => afterCursor cursorPath e.1) hc]
        rw [if_pos (by simp [hc]), ih hm hd' hf' hr]

/-- **Main theorem.** The merge of streams that together hold the entries `L`
    returns, in ascending order, those after the cursor that are not skipped, and
    at most one more than the limit. -/
theorem kWayMerge_eq {streams : List ShardStream} (hok : ∀ s ∈ streams, s.Ok)
    (hs : ∀ s ∈ streams, (s.rest t w).Pairwise fun a b => a.1 < b.1)
    {L : List (String × Value)} (hp : L.Perm (streams.map fun s => s.rest t w).flatten)
    (ha : L.Pairwise fun a b => a.1 < b.1) (hd : ∀ e ∈ L, (as? e.2).isSome = true) :
    kWayMerge t w as? streams cursorPath skip limit =
      .ok ((((L.filter fun e => afterCursor cursorPath e.1).drop skip).take
        (limit + 1)).filterMap (listed as?)) := by
  have hrest : (streams.map fun s => s.ensureBuffered t w).map (ShardStream.rest t w) =
      streams.map fun s => s.rest t w := by
    rw [map_map]
    exact map_congr_left fun s hin => ShardStream.ensureBuffered_rest (hok s hin)
  have hmerges : (Front.start (ShardStream.source t w)
      (streams.map fun s => s.ensureBuffered t w)).Merges (ShardStream.spec t w) L := by
    refine Front.start_merges _ ?_ ?_ (hrest ▸ hp) ha
    · intro s hin
      obtain ⟨s', hin', rfl⟩ := mem_map.mp hin
      exact (hok s' hin').ready
    · intro s hin
      obtain ⟨s', hin', rfl⟩ := mem_map.mp hin
      show (ShardStream.rest t w (s'.ensureBuffered t w)).Pairwise _
      rw [ShardStream.ensureBuffered_rest (hok s' hin')]
      exact hs s' hin'
  have hfuel : L.length ≤ ((streams.map fun s => s.ensureBuffered t w).map fun s =>
      s.buffer.length + (w.kv s.part).entries.length).sum := by
    rw [hp.length_eq, ← hrest, length_flatten, map_map]
    refine sum_le_sum fun s _ => ?_
    exact ShardStream.length_rest_le
  have h := @mergeLoop_eq α t w as? cursorPath skip limit _ _ L hmerges hd
    (Nat.lt_succ_of_le hfuel) 0 [] (Nat.zero_le _)
  rwa [nil_append, length_nil, Nat.sub_zero, Nat.sub_zero] at h

end Merge

end Depot
