import Depot.Core.World
import Depot.Lib.Terminates

/-!
# Direct reads of a blob file

The loop of `FileBlobStore::get` (`blob/file/src/file_blob.rs`, lines 200–226) and a
`DirectReader` that is read to its end (`direct_io.rs`, lines 218–296). The file may change
between reads, and a read may give less than it is asked for, nothing or an error.

Results:
* `offsetOf_ends_iff`: the reads come to an end unless they stall.
* `directReads_iff`: so do both loops, with the bytes of the file or an error.

**A read that gives nothing does not end the loops.** With a file that was cut after its size was
taken they read for ever.
-/

namespace Depot

open Lib List

/-- An error of a read. -/
inductive ReadError
  | io (code : ℕ)
  | other (text : String)
  | internal (text : String)
  deriving DecidableEq

/-- `round_up_align`, `round_up`. -/
def roundUpAlign (n : ℕ) : ℕ := (n + 4095) / 4096 * 4096

/-- `buf.get(lo..hi)`. -/
def slice (buf : Bytes) (lo hi : ℕ) (e : ReadError) : Except ReadError Bytes :=
  if lo ≤ hi ∧ hi ≤ buf.length then .ok ((buf.drop lo).take (hi - lo)) else .error e

/-- A file, and a pool of buffers of `ioSize` bytes. -/
structure DirectFile (ioSize : ℕ) where
  /-- The content at each read. -/
  content : ℕ → Bytes
  /-- Each read fails, or gives at most so many bytes. -/
  answer : ℕ → Except ℕ ℕ
  /-- The buffer for each read, with what it was used for before. -/
  buffer : ℕ → Bytes
  sized : ∀ k, (buffer k).length = ioSize

variable {ioSize : ℕ} (f : DirectFile ioSize) (size : ℕ)

namespace DirectFile

/-- `AlignedBufPool::get`. -/
def poolGet (k : ℕ) : Except ReadError Bytes :=
  if ioSize = 0 then .error (.other "failed to allocate aligned buf") else .ok (f.buffer k)

/-- `read_at`. -/
def readAt (k len offset : ℕ) : Except ReadError Bytes :=
  match f.answer k with
  | .error code => .error (.io code)
  | .ok n => .ok (((f.content k).drop offset).take (min n len))

/-- A read of both loops: the buffer, and how many bytes were read. -/
def readBuf (k offset : ℕ) (tooSmall : ReadError) : Except ReadError (Bytes × ℕ) := do
  let buf ← f.poolGet k
  let dest ← slice buf 0 (roundUpAlign (min (size - offset) ioSize)) tooSmall
  let data ← f.readAt k dest.length offset
  pure (data ++ buf.drop data.length, data.length)

end DirectFile

/-! ## The loop of `get` -/

/-- The variables of the loop, and the number of reads so far. -/
structure GetLoop where
  reads : ℕ := 0
  offset : ℕ := 0
  result : Bytes

/-- The body of the loop in `get`. -/
def getBody (s : GetLoop) : Except ReadError GetLoop := do
  let (buf, n) ← f.readBuf size s.reads s.offset (.internal "get: read buf slice OOB")
  let valid := min n (size - s.offset)
  let src ← slice buf 0 valid (.internal "get: src slice OOB")
  let _ ← slice s.result s.offset (s.offset + valid) (.internal "get: result slice OOB")
  pure ⟨s.reads + 1, s.offset + valid, World.overwrite s.result s.offset src⟩

/-- A turn of the loop in `get`. -/
def getTurn (s : GetLoop) : GetLoop ⊕ Except ReadError Bytes :=
  if s.offset < size then
    match getBody f size s with
    | .ok s' => .inl s'
    | .error e => .inr (.error e)
  else .inr (.ok s.result)

/-- The variables before the loop. -/
def GetLoop.new : GetLoop := { result := List.replicate size 0 }

/-! ## The reader -/

/-- `DirectReader`; a read that is in flight is waited for. -/
structure DirectReader where
  reads : ℕ := 0
  fileOffset : ℕ := 0
  buf : Bytes
  bufPos : ℕ := 0
  bufLen : ℕ := 0
  done : Bool

def DirectReader.new (buf : Bytes) : DirectReader := { buf := buf, done := size = 0 }

/-- A turn of the loop in `poll_read`, for a destination with room for `room` bytes. -/
def DirectReader.pollTurn (room : ℕ) (r : DirectReader) :
    DirectReader ⊕ Except ReadError (DirectReader × Bytes) :=
  if r.done then .inr (.ok (r, []))
  else if r.bufPos < r.bufLen then
    match slice r.buf r.bufPos r.bufLen (.other "buf slice OOB") with
    | .error e => .inr (.error e)
    | .ok avail => .inr (.ok ({ r with bufPos := r.bufPos + min avail.length room },
        avail.take (min avail.length room)))
  else if size ≤ r.fileOffset then .inr (.ok ({ r with done := true }, []))
  else
    match f.readBuf size r.reads r.fileOffset (.other "buf too small") with
    | .error e => .inr (.error e)
    | .ok (buf, n) =>
      let valid := min n (size - r.fileOffset)
      .inl ⟨r.reads + 1, r.fileOffset + valid, buf, 0, valid, false⟩

/-- The reader, the number of polls that are over and what they gave. -/
structure ReadToEnd where
  reader : DirectReader
  polls : ℕ := 0
  out : Bytes := []

/-- A turn of `read_to_end`, whose `i`-th poll has room for `room i + 1` bytes: it reads until a
    poll gives nothing. -/
def readToEndTurn (room : ℕ → ℕ) (s : ReadToEnd) : ReadToEnd ⊕ Except ReadError Bytes :=
  match s.reader.pollTurn f size (room s.polls + 1) with
  | .inl r => .inl { s with reader := r }
  | .inr (.error e) => .inr (.error e)
  | .inr (.ok (r, data)) =>
    if data = [] then .inr (.ok s.out) else .inl ⟨r, s.polls + 1, s.out ++ data⟩

/-! ## What reads are for -/

/-- Each byte is the one that the file had at its position when it was read. -/
def DirectFile.Mirrors (bytes : Bytes) : Prop :=
  ∀ p < bytes.length, ∃ k, p < (f.content k).length ∧ bytes[p]? = (f.content k)[p]?

/-- A loop returns, with `size` bytes of the file or with an error. -/
def ReadsAll {σ : Type} (turn : σ → σ ⊕ Except ReadError Bytes) (s : σ) : Prop :=
  (∃ r, Halts turn s r) ∧
    ∀ bytes, Halts turn s (.ok bytes) → bytes.length = size ∧ f.Mirrors bytes

/-- The offset of a read, if the reads before it went through and have left something to read. -/
def DirectFile.offsetOf : ℕ → Option ℕ
  | 0 => some 0
  | k + 1 => (offsetOf k).bind fun offset =>
    if offset < size then
      match f.readBuf size k offset (.other "") with
      | .ok (_, n) => some (offset + min n (size - offset))
      | .error _ => none
    else none

/-- From some read on, before the end, every read gives nothing. -/
def DirectFile.Stalled : Prop :=
  ∃ k offset, f.offsetOf size k = some offset ∧ offset < size ∧
    ∀ k' ≥ k, ∃ buf, f.readBuf size k' offset (.other "") = .ok (buf, 0)

/-- The reads are over: one has failed, or nothing is left to read. -/
def DirectFile.Ends (k : ℕ) : Prop := f.offsetOf size k = none ∨ f.offsetOf size k = some size

variable {f size} {k offset n : ℕ} {buf bytes : Bytes} {e e' : ReadError}

/-! ## One read -/

theorem slice_ok {lo hi : ℕ} (hlo : lo ≤ hi) (hhi : hi ≤ buf.length) :
    slice buf lo hi e = .ok ((buf.drop lo).take (hi - lo)) := if_pos ⟨hlo, hhi⟩

/-- What a read that goes through leaves in the buffer. -/
theorem readBuf_ok (e' : ReadError) (h : f.readBuf size k offset e = .ok (buf, n)) :
    n ≤ buf.length ∧ n ≤ ((f.content k).drop offset).length ∧
      buf.take n = ((f.content k).drop offset).take n ∧
      f.readBuf size k offset e' = .ok (buf, n) := by
  unfold DirectFile.readBuf at h ⊢
  cases hpool : f.poolGet k with
  | error => simp [hpool, bind, Except.bind] at h
  | ok b =>
    simp only [hpool, bind, Except.bind] at h ⊢
    by_cases hlen : roundUpAlign (min (size - offset) ioSize) ≤ b.length
    · rw [slice_ok (Nat.zero_le _) hlen] at h ⊢
      unfold DirectFile.readAt at h ⊢
      cases hanswer : f.answer k with
      | error => simp [hanswer] at h
      | ok m =>
        simp only [hanswer, pure, Except.pure, Except.ok.injEq, Prod.mk.injEq] at h ⊢
        obtain ⟨rfl, rfl⟩ := h
        refine ⟨by simp, length_take_le' _ _, ?_, rfl, rfl⟩
        rw [take_left]
        exact take_eq_take_iff.mpr (by simp only [length_take]; omega)
    · rw [slice, if_neg fun h => hlen h.2] at h
      cases h

theorem offsetOf_next (hk : f.offsetOf size k = some offset) (hlt : offset < size)
    (h : f.readBuf size k offset e = .ok (buf, n)) :
    f.offsetOf size (k + 1) = some (offset + min n (size - offset)) := by
  rw [DirectFile.offsetOf, hk, Option.bind_some, if_pos hlt, (readBuf_ok _ h).2.2.2]

theorem offsetOf_failed (hk : f.offsetOf size k = some offset)
    (h : f.readBuf size k offset e = .error e') : f.offsetOf size (k + 1) = none := by
  rw [DirectFile.offsetOf, hk, Option.bind_some]
  cases hread : f.readBuf size k offset (.other "") with
  | error e => simp
  | ok p =>
    rw [(readBuf_ok _ hread).2.2.2] at h
    cases h

/-- A read adds the next bytes of the file. -/
theorem DirectFile.Mirrors.append (hm : f.Mirrors bytes)
    (h : f.readBuf size k bytes.length e = .ok (buf, n)) (m : ℕ) :
    f.Mirrors (bytes ++ buf.take (min n m)) := by
  intro p hp
  by_cases hlt : p < bytes.length
  · rw [getElem?_append_left hlt]
    exact hm p hlt
  · obtain ⟨hbuf, hdrop, htake, -⟩ := readBuf_ok e h
    have hpn : p - bytes.length < n := by
      rw [length_append, length_take] at hp
      omega
    refine ⟨k, by rw [length_drop] at hdrop; omega, ?_⟩
    have hget := congrArg (·[p - bytes.length]?) htake
    simp only [getElem?_take_of_lt hpn, getElem?_drop] at hget
    rw [getElem?_append_right (by omega), getElem?_take_of_lt (by
      rw [length_append, length_take] at hp; omega), hget]
    congr 1
    omega

/-! ## Both loops -/

/-- What a turn does in state `s`: it hands out bytes that were read, reads, fails or returns
    all bytes. -/
inductive TurnOf {σ : Type} (f : DirectFile ioSize) (size : ℕ) (I : σ → Prop)
    (reads left : σ → ℕ) (s : σ) : σ ⊕ Except ReadError Bytes → Prop
  | serve {s' : σ} : I s' → reads s' = reads s → left s' < left s → TurnOf f size I reads left s (.inl s')
  | read {s' : σ} : I s' → reads s' = reads s + 1 → ¬f.Ends size (reads s) →
      TurnOf f size I reads left s (.inl s')
  | fail {e : ReadError} : f.offsetOf size (reads s + 1) = none →
      TurnOf f size I reads left s (.inr (.error e))
  | last {bytes : Bytes} : f.offsetOf size (reads s) = some size → bytes.length = size →
      f.Mirrors bytes → TurnOf f size I reads left s (.inr (.ok bytes))

/-- A loop of such turns reads all when its reads come to an end. -/
theorem readsAll_iff {σ : Type} {I : σ → Prop} {reads left : σ → ℕ}
    {turn : σ → σ ⊕ Except ReadError Bytes}
    (hturn : ∀ s, I s → TurnOf f size I reads left s (turn s)) {s : σ} (hs : I s) :
    ReadsAll f size turn s ↔ ∃ k ≥ reads s, f.Ends size k := by
  constructor
  · rintro ⟨⟨r, hr⟩, -⟩
    induction hr with
    | @last s r hlast =>
      have h := hturn s hs
      rw [hlast] at h
      cases h with
      | fail hnone => exact ⟨_, Nat.le_succ _, .inl hnone⟩
      | last hall => exact ⟨_, le_rfl, .inr hall⟩
    | @next s s' r hnext _ ih =>
      have h := hturn s hs
      rw [hnext] at h
      cases h with
      | serve hs' hreads => exact hreads ▸ ih hs'
      | read hs' hreads =>
        obtain ⟨k, hk, hend⟩ := ih hs'
        exact ⟨k, by omega, hend⟩
  · rintro ⟨k, hk, hend⟩
    refine ⟨?_, fun bytes hr => ?_⟩
    · induction hm : k - reads s using Nat.strong_induction_on generalizing s with
      | _ m ihm =>
        induction hl : left s using Nat.strong_induction_on generalizing s with
        | _ l ihl =>
          have h := hturn s hs
          cases hout : turn s with
          | inr r => exact ⟨r, .last hout⟩
          | inl s' =>
            rw [hout] at h
            cases h with
            | serve hs' hreads hleft =>
              obtain ⟨r, hr⟩ := ihl _ (hl ▸ hleft) hs' (by omega) (by omega) rfl
              exact ⟨r, .next hout hr⟩
            | read hs' hreads hmore =>
              have hne : reads s ≠ k := fun h => hmore (h ▸ hend)
              obtain ⟨r, hr⟩ := ihm _ (by omega) hs' (by omega) rfl
              exact ⟨r, .next hout hr⟩
    · generalize hout : (Except.ok bytes : Except ReadError Bytes) = r at hr
      clear hk
      induction hr with
      | @last s r hlast =>
        have h := hturn s hs
        rw [hlast, ← hout] at h
        cases h with
        | last _ hlen hm => exact ⟨hlen, hm⟩
      | @next s s' r hnext _ ih =>
        have h := hturn s hs
        rw [hnext] at h
        cases h with
        | serve hs' | read hs' => exact ih hs' hout

/-! ## The loop of `get` -/

/-- The invariant of the loop in `get`. -/
structure GetInv (f : DirectFile ioSize) (size : ℕ) (s : GetLoop) : Prop where
  offset : f.offsetOf size s.reads = some s.offset
  le : s.offset ≤ size
  length : s.result.length = size
  mirrors : f.Mirrors (s.result.take s.offset)

theorem ends_iff (h : f.offsetOf size k = some offset) : f.Ends size k ↔ offset = size := by
  simp [DirectFile.Ends, h]

theorem getTurn_of {s : GetLoop} (hs : GetInv f size s) :
    TurnOf f size (GetInv f size) GetLoop.reads (fun _ => 0) s (getTurn f size s) := by
  unfold getTurn
  split_ifs with hlt
  · have hle := hs.le
    have hlen := hs.length
    have htake : (s.result.take s.offset).length = s.offset := by
      rw [length_take]
      omega
    cases hread : f.readBuf size s.reads s.offset (.internal "get: read buf slice OOB") with
    | error e =>
      simp only [getBody, hread, bind, Except.bind]
      exact .fail (offsetOf_failed hs.offset hread)
    | ok p =>
      obtain ⟨buf, n⟩ := p
      have hbuf := (readBuf_ok (.other "") hread).1
      have hbody : getBody f size s = .ok ⟨s.reads + 1, s.offset + min n (size - s.offset),
          World.overwrite s.result s.offset (buf.take (min n (size - s.offset)))⟩ := by
        simp only [getBody, hread, bind, Except.bind]
        rw [slice_ok (Nat.zero_le _) (by omega), slice_ok (by omega) (by omega)]
        rfl
      have hsrc : (buf.take (min n (size - s.offset))).length = min n (size - s.offset) := by
        rw [length_take]
        omega
      have hover : World.overwrite s.result s.offset (buf.take (min n (size - s.offset))) =
          s.result.take s.offset ++ buf.take (min n (size - s.offset)) ++
            s.result.drop (s.offset + min n (size - s.offset)) := by
        rw [World.overwrite, Nat.sub_eq_zero_of_le (by omega), hsrc]
        simp
      rw [hbody]
      refine .read ⟨offsetOf_next hs.offset hlt hread, ?_, ?_, ?_⟩ rfl fun hend =>
        hlt.ne ((ends_iff hs.offset).mp hend)
      · dsimp only
        omega
      · dsimp only
        rw [hover, length_append, length_append, length_drop, htake, hsrc]
        omega
      · dsimp only
        rw [hover, take_left' (by rw [length_append, htake, hsrc])]
        exact hs.mirrors.append (htake.symm ▸ hread) _
  · obtain hsize : s.offset = size := by have := hs.le; omega
    have hm := hs.mirrors
    rw [hsize, take_of_length_le hs.length.le] at hm
    exact .last (hs.offset.trans (congrArg some hsize)) hs.length hm

/-! ## The reader -/

/-- The invariant of the reads through a reader. -/
structure ReaderInv (f : DirectFile ioSize) (size : ℕ) (s : ReadToEnd) : Prop where
  offset : f.offsetOf size s.reader.reads = some s.reader.fileOffset
  le : s.reader.fileOffset ≤ size
  pos : s.reader.bufPos ≤ s.reader.bufLen
  len : s.reader.bufLen ≤ s.reader.buf.length
  mirrors : f.Mirrors (s.out ++
    (s.reader.buf.drop s.reader.bufPos).take (s.reader.bufLen - s.reader.bufPos))
  total : s.out.length + (s.reader.bufLen - s.reader.bufPos) = s.reader.fileOffset
  done : s.reader.done = true → size = 0

theorem readToEndTurn_of {room : ℕ → ℕ} {s : ReadToEnd} (hs : ReaderInv f size s) :
    TurnOf f size (ReaderInv f size) (·.reader.reads) (fun s => s.reader.bufLen - s.reader.bufPos) s
      (readToEndTurn f size room s) := by
  obtain ⟨⟨reads, fileOffset, buf, bufPos, bufLen, done⟩, polls, out⟩ := s
  obtain ⟨hoffset, hle, hpos, hlen, hm, htotal, hdone⟩ := hs
  dsimp only at hoffset hle hpos hlen hm htotal hdone
  have hlast : fileOffset = size → bufLen - bufPos = 0 →
      TurnOf f size (ReaderInv f size) (·.reader.reads)
        (fun s => s.reader.bufLen - s.reader.bufPos)
        ⟨⟨reads, fileOffset, buf, bufPos, bufLen, done⟩, polls, out⟩ (.inr (.ok out)) := by
    intro hsize hzero
    rw [hzero, take_zero, append_nil] at hm
    exact .last (hoffset.trans (congrArg some hsize)) (by omega) hm
  unfold readToEndTurn DirectReader.pollTurn
  split_ifs with hd hserve hover
  · have hzero := hdone hd
    exact hlast (by omega) (by omega)
  · rw [slice_ok hpos hlen]
    dsimp only
    have havail : ((buf.drop bufPos).take (bufLen - bufPos)).length = bufLen - bufPos := by
      rw [length_take, length_drop]
      omega
    rw [havail, take_take, min_assoc, min_comm (room polls + 1), ← min_assoc, min_self]
    have hserve' : bufPos < bufLen := hserve
    generalize hroom : min (bufLen - bufPos) (room polls + 1) = m
    have hsplit : bufLen - bufPos = m + (bufLen - (bufPos + m)) := by omega
    have hne : (buf.drop bufPos).take m ≠ [] :=
      ne_nil_of_length_pos (by rw [length_take, length_drop]; omega)
    rw [if_neg hne]
    refine .serve ⟨hoffset, hle, ?_, hlen, ?_, ?_, hdone⟩ rfl ?_
    · dsimp only
      omega
    · rw [hsplit, take_add, drop_drop, ← append_assoc] at hm
      exact hm
    · dsimp only
      rw [length_append, length_take, length_drop]
      omega
    · dsimp only
      omega
  · exact hlast (le_antisymm hle hover) (Nat.sub_eq_zero_of_le (not_lt.mp hserve))
  · have hzero : bufLen - bufPos = 0 := Nat.sub_eq_zero_of_le (not_lt.mp hserve)
    have hlt : fileOffset < size := not_le.mp hover
    rw [hzero, take_zero, append_nil] at hm
    cases hread : f.readBuf size reads fileOffset (.other "buf too small") with
    | error e => exact .fail (offsetOf_failed hoffset hread)
    | ok p =>
      obtain ⟨buf', n⟩ := p
      have hbuf := (readBuf_ok (.other "") hread).1
      obtain rfl : fileOffset = out.length := by omega
      refine .read ⟨offsetOf_next hoffset hlt hread, ?_, Nat.zero_le _, ?_, ?_, ?_, nofun⟩ rfl
        fun hend => hlt.ne ((ends_iff hoffset).mp hend)
      · dsimp only
        omega
      · dsimp only
        omega
      · exact hm.append hread _
      · dsimp only
        omega

/-! ## When reads stall -/

theorem offsetOf_le {k' : ℕ} (h : f.offsetOf size k = some offset) (hk : k' ≤ k) :
    ∃ offset' ≤ offset, f.offsetOf size k' = some offset' := by
  induction k generalizing offset with
  | zero => exact ⟨offset, le_rfl, by rwa [Nat.le_zero.mp hk]⟩
  | succ k ih =>
    rcases Nat.le_succ_iff.mp hk with hk | rfl
    · obtain ⟨o, ho, h⟩ := Option.bind_eq_some_iff.mp h
      split_ifs at h
      split at h
      · obtain ⟨o', ho', h'⟩ := ih ho hk
        exact ⟨o', ho'.trans (by rw [← Option.some.inj h]; omega), h'⟩
      · cases h
    · exact ⟨offset, le_rfl, h⟩

theorem offsetOf_le_size (h : f.offsetOf size k = some offset) : offset ≤ size := by
  cases k with
  | zero => exact (Option.some.inj h) ▸ Nat.zero_le _
  | succ k =>
    obtain ⟨o, -, h⟩ := Option.bind_eq_some_iff.mp h
    split_ifs at h
    split at h
    · rw [← Option.some.inj h]
      omega
    · cases h

/-- The reads come to an end unless they stall. -/
theorem offsetOf_ends_iff : (∃ k, f.Ends size k) ↔ ¬f.Stalled size := by
  constructor
  · rintro ⟨k, hk⟩ ⟨K, offset, hK, hlt, hempty⟩
    have hstay : ∀ m, f.offsetOf size (K + m) = some offset := by
      intro m
      induction m with
      | zero => exact hK
      | succ m ih =>
        obtain ⟨buf, hread⟩ := hempty (K + m) (Nat.le_add_right _ _)
        rw [← Nat.add_assoc, offsetOf_next ih hlt hread, Nat.zero_min, Nat.add_zero]
    obtain ⟨o, ho, h⟩ := offsetOf_le ((Nat.add_comm K k) ▸ hstay k) (Nat.le_add_right k K)
    exact (ho.trans_lt hlt).ne ((ends_iff h).mp hk)
  · intro hstall
    by_contra! hends
    have hsome : ∀ k, ∃ o, f.offsetOf size k = some o := fun k =>
      Option.ne_none_iff_exists'.mp fun h => hends k (.inl h)
    choose o ho using hsome
    have hlt : ∀ k, o k < size := fun k =>
      lt_of_le_of_ne (offsetOf_le_size (ho k)) fun h => hends k (.inr (h ▸ ho k))
    -- by induction on what is left to read: either the offset grows, or the reads stall
    suffices ∀ d K, size - o K = d → f.Stalled size from hstall (this _ 0 rfl)
    intro d
    induction d using Nat.strong_induction_on with
    | _ d ih =>
      intro K hK
      by_cases hgrow : ∃ k ≥ K, o k ≠ o K
      · obtain ⟨k, hk, hne⟩ := hgrow
        obtain ⟨o', hle, ho'⟩ := offsetOf_le (ho k) hk
        obtain rfl : o K = o' := Option.some.inj ((ho K).symm.trans ho')
        have hK' := hlt K
        exact ih (size - o k) (by omega) k rfl
      · refine ⟨K, o K, ho K, hlt K, fun k hk => ?_⟩
        have hstay : ∀ k ≥ K, o k = o K := fun k hk => by_contra fun h => hgrow ⟨k, hk, h⟩
        cases hread : f.readBuf size k (o K) (.other "") with
        | error e =>
          have hnone := offsetOf_failed (hstay k hk ▸ ho k) hread
          rw [ho] at hnone
          cases hnone
        | ok p =>
          obtain ⟨buf, n⟩ := p
          have hnext := offsetOf_next (hstay k hk ▸ ho k) (hlt K) hread
          rw [ho, hstay (k + 1) (by omega)] at hnext
          have hzero := Option.some.inj hnext
          have hK' := hlt K
          obtain rfl : n = 0 := by omega
          exact ⟨buf, rfl⟩

/-- **Main theorem.** Both loops end, with all bytes of the file or an error, exactly when the reads
    do not stall. -/
theorem directReads_iff (f : DirectFile ioSize) (size : ℕ) (room : ℕ → ℕ) (spare : Bytes) :
    ReadsAll f size (getTurn f size) (.new size) ∧
      ReadsAll f size (readToEndTurn f size room) { reader := .new size spare } ↔
    ¬f.Stalled size := by
  have hget : GetInv f size (.new size) :=
    ⟨rfl, Nat.zero_le _, length_replicate, fun p hp => by simp [GetLoop.new] at hp⟩
  have hreader : ReaderInv f size { reader := .new size spare } :=
    ⟨rfl, Nat.zero_le _, le_rfl, Nat.zero_le _, fun p hp => by simp [DirectReader.new] at hp,
      rfl, of_decide_eq_true⟩
  rw [readsAll_iff (fun s => getTurn_of) hget, readsAll_iff (fun s => readToEndTurn_of) hreader,
    ← offsetOf_ends_iff]
  simp [GetLoop.new, DirectReader.new]

/-- A file that was cut after its size was taken. -/
def DirectFile.cut : DirectFile 4096 where
  content _ := []
  answer _ := .ok 4096
  buffer _ := List.replicate 4096 0
  sized _ := length_replicate

/-- Its reads go on for ever. -/
theorem cut_never_read : ¬∀ (ioSize : ℕ) (f : DirectFile ioSize) (size : ℕ) (room : ℕ → ℕ)
    (spare : Bytes), ReadsAll f size (getTurn f size) (.new size) ∧
      ReadsAll f size (readToEndTurn f size room) { reader := .new size spare } := by
  intro hall
  refine (directReads_iff DirectFile.cut 1 id []).mp (hall _ _ _ _ _)
    ⟨0, 0, rfl, one_pos, fun k _ => ⟨DirectFile.cut.buffer k, ?_⟩⟩
  have hlen : roundUpAlign (min (1 - 0) 4096) ≤ (DirectFile.cut.buffer k).length :=
    (DirectFile.cut.sized k).ge
  unfold DirectFile.readBuf DirectFile.poolGet
  simp only [OfNat.ofNat_ne_zero, if_false, bind, Except.bind]
  rw [slice_ok (Nat.zero_le _) hlen]
  simp only [DirectFile.readAt, DirectFile.cut, drop_nil, take_nil]
  rfl

end Depot
