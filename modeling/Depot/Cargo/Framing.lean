import Depot.Cargo.Index

/-!
# The frame of a publish

The body of a publish arrives in pieces and is put together (`dynamic_body_limit` of
`server/src/server/infra/middleware.rs`, `body_to_bytes` of `core/src/api_helpers.rs`). Its parts
are then cut out at offsets that are computed from two lengths in the body
(`handle_publish` of `format/cargo/src/api.rs`, lines 365–430). Additions of 64 bits that overflow
and ranges outside of the body would end the handler; they are explicit here.

**Deviation from the wire format.** What follows the crate is ignored.

Results:
* `bodyToBytes_data`: the pieces into which a body is split do not matter.
* `framePublish_ok`, `framePublish_error`: the bodies that are accepted, and no addition or range
  fails on any body.
* `receivePublish_exact`: what a publish stores.
-/

namespace Depot

open Lib Redb List

/-! ## The body -/

/-- A frame of a request body: data, trailers, or an error of the connection. -/
inductive BodyFrame where
  | data (bytes : Bytes)
  | trailers
  | failed (msg : String)

/-- `body_to_bytes` of a `LimitedBody`. -/
def bodyToBytes (remaining : ℕ) : List BodyFrame → Except DepotError Bytes
  | [] => .ok []
  | .failed msg :: _ => .error (.badRequest ("failed to read body: " ++ msg))
  | .trailers :: frames => bodyToBytes remaining frames
  | .data bytes :: frames =>
      if bytes.length > remaining then
        .error (.badRequest ("failed to read body: " ++ "request body exceeds size limit"))
      else (bodyToBytes (remaining - bytes.length) frames).map (bytes ++ ·)

/-- Whatever the pieces are, a body within the limit is put together. -/
theorem bodyToBytes_data (remaining : ℕ) (pieces : List Bytes)
    (h : pieces.flatten.length ≤ remaining) :
    bodyToBytes remaining (pieces.map .data) = .ok pieces.flatten := by
  induction pieces generalizing remaining with
  | nil => rfl
  | cons bytes pieces ih =>
    rw [flatten_cons, length_append] at h
    rw [map_cons, bodyToBytes, if_neg (by omega), ih _ (by omega)]
    rfl

/-! ## The parts -/

/-- An addition of 64 bits. -/
def addUsize (a b : ℕ) : Option ℕ := if a + b < 2 ^ 64 then some (a + b) else none

/-- `&buf[a..b]`. -/
def sliceOf (buf : Bytes) (a b : ℕ) : Option Bytes :=
  if a ≤ b ∧ b ≤ buf.length then some ((buf.drop a).take (b - a)) else none

/-- `u32::from_le_bytes` of the four bytes at an offset. -/
def lengthAt (buf : Bytes) (offset : ℕ) : Option ℕ := do
  let stop ← addUsize offset 4
  let bytes ← sliceOf buf offset stop
  return Redb.leNat bytes

/-- The metadata and the crate in a body (lines 365–430). -/
def framePublish (x : CargoExt) (buf : Bytes) :
    Option (Except DepotError (PublishMeta × Bytes)) := do
  if buf.length < 4 then return .error (.badRequest "request body too short")
  let jsonLen ← lengthAt buf 0
  let offset ← addUsize 4 jsonLen
  if buf.length < offset then
    return .error (.badRequest "request body too short for metadata")
  let jsonBytes ← sliceOf buf 4 offset
  match x.decode jsonBytes with
  | none => return .error (.badRequest "invalid metadata JSON")
  | some m =>
      let start ← addUsize offset 4
      if buf.length < start then
        return .error (.badRequest "request body too short for crate length")
      let crateLen ← lengthAt buf offset
      let stop ← addUsize start crateLen
      if buf.length < stop then
        return .error (.badRequest ("request body too short for crate data: expected " ++
          toString crateLen ++ " bytes, got " ++ toString (buf.length - start)))
      let crateBytes ← sliceOf buf start stop
      return .ok (m, crateBytes)

/-- A publish whose body arrives in frames; nothing is the end of the handler by an addition or a
    range that fails. -/
def receivePublish (x : CargoExt) (s : CargoRepo) (now : DateTime) (limit : ℕ)
    (frames : List BodyFrame) (stored : Bool) :
    Option (CargoRepo × Except DepotError CrateEvent) :=
  match bodyToBytes limit frames with
  | .error e => some (s, .error e)
  | .ok buf => (framePublish x buf).map fun
    | .error e => (s, .error e)
    | .ok (m, data) =>
        if stored then
          (commitCrate x s now (m.versionMeta x data) data,
            .ok (.published m.name m.vers data))
        else (s, .error (.storage false))

/-! ## Framed bodies -/

/-- The length of the metadata, the metadata, the length of the crate, the crate, and a rest. -/
structure PublishFrame (x : CargoExt) (buf : Bytes) (m : PublishMeta) (data rest : Bytes) :
    Prop where
  framed : ∃ json, buf = leBytes 4 json.length ++ (json ++ (leBytes 4 data.length ++
    (data ++ rest))) ∧ json.length < 2 ^ 32 ∧ x.decode json = some m
  length : data.length < 2 ^ 32

theorem leNat_lt (bytes : Bytes) : Redb.leNat bytes < 256 ^ bytes.length := by
  induction bytes with
  | nil => exact Nat.one_pos
  | cons b bytes ih =>
    have hb : b.toNat < 256 := UInt8.toNat_lt b
    rw [Redb.leNat, length_cons, Nat.pow_succ]
    omega

/-- The bytes of a number that is made of bytes. -/
theorem leBytes_leNat (bytes : Bytes) : leBytes bytes.length (Redb.leNat bytes) = bytes := by
  induction bytes with
  | nil => rfl
  | cons b bytes ih =>
    have hb : b.toNat < 256 := UInt8.toNat_lt b
    have hdiv : (b.toNat + 256 * Redb.leNat bytes) / 256 = Redb.leNat bytes := by omega
    have hlow : UInt8.ofNat (b.toNat + 256 * Redb.leNat bytes) = b := by
      apply UInt8.toNat_inj.mp
      rw [UInt8.toNat_ofNat']
      omega
    rw [Redb.leNat, length_cons, leBytes, hdiv, ih, hlow]

/-- A sum of a few lengths does not overflow. -/
theorem addUsize_eq {a b : ℕ} (h : a + b < 2 ^ 64) : addUsize a b = some (a + b) := if_pos h

theorem sliceOf_append (front mid rest : Bytes) :
    sliceOf (front ++ (mid ++ rest)) front.length (front.length + mid.length) = some mid := by
  rw [sliceOf, if_pos ⟨by omega, by simp⟩, drop_left, Nat.add_sub_cancel_left,
    take_left]

theorem lengthAt_append (front rest : Bytes) {n : ℕ} (hn : n < 2 ^ 32)
    (hfront : front.length + 4 < 2 ^ 64) :
    lengthAt (front ++ (leBytes 4 n ++ rest)) front.length = some n := by
  have hslice := sliceOf_append front (leBytes 4 n) rest
  rw [length_leBytes] at hslice
  rw [lengthAt, addUsize_eq hfront]
  show (sliceOf _ _ _).bind _ = _
  rw [hslice]
  show some (Redb.leNat (leBytes 4 n)) = some n
  rw [leNat_leBytes, Nat.mod_eq_of_lt (by omega)]

/-- Four bytes are those of a length. -/
theorem exists_length {buf : Bytes} (h : 4 ≤ buf.length) :
    ∃ n rest, buf = leBytes 4 n ++ rest ∧ n < 2 ^ 32 := by
  have hlen : (buf.take 4).length = 4 := by simpa using h
  refine ⟨Redb.leNat (buf.take 4), buf.drop 4, ?_, ?_⟩
  · have hbytes := leBytes_leNat (buf.take 4)
    rw [hlen] at hbytes
    rw [hbytes, take_append_drop]
  · have hlt := leNat_lt (buf.take 4)
    rw [hlen] at hlt
    omega

/-! ## What is accepted -/

section

variable {x : CargoExt} {buf : Bytes}

/-- A body is read up to its metadata. -/
theorem framePublish_json {json rest : Bytes} (hjson : json.length < 2 ^ 32)
    (hbuf : buf = leBytes 4 json.length ++ (json ++ rest)) :
    ¬buf.length < 4 ∧ lengthAt buf 0 = some json.length ∧
      addUsize 4 json.length = some (4 + json.length) ∧ ¬buf.length < 4 + json.length ∧
        sliceOf buf 4 (4 + json.length) = some json := by
  have hlength : lengthAt buf 0 = some json.length := by
    rw [hbuf]
    exact lengthAt_append [] _ hjson (by simp)
  have hslice := sliceOf_append (leBytes 4 json.length) json rest
  rw [length_leBytes, ← hbuf] at hslice
  refine ⟨?_, hlength, addUsize_eq (by omega), ?_, hslice⟩
  · rw [hbuf, length_append, length_leBytes]
    omega
  · rw [hbuf, length_append, length_append, length_leBytes]
    omega

/-- A framed body is accepted. -/
theorem framePublish_ok {m : PublishMeta} {data rest : Bytes}
    (h : PublishFrame x buf m data rest) : framePublish x buf = some (.ok (m, data)) := by
  obtain ⟨⟨json, hbuf, hjson, hdecode⟩, hdata⟩ := h
  obtain ⟨h1, h2, h3, h4, h5⟩ := framePublish_json hjson hbuf
  have hfront : (leBytes 4 json.length ++ json).length = 4 + json.length := by simp
  have hlength : lengthAt buf (4 + json.length) = some data.length := by
    have happend := lengthAt_append (leBytes 4 json.length ++ json) (data ++ rest) hdata (by omega)
    rwa [hfront, append_assoc, ← hbuf] at happend
  have hslice : sliceOf buf (4 + json.length + 4) (4 + json.length + 4 + data.length) =
      some data := by
    have happend := sliceOf_append (leBytes 4 json.length ++ (json ++ leBytes 4 data.length))
      data rest
    have hall : (leBytes 4 json.length ++ (json ++ leBytes 4 data.length)).length =
        4 + json.length + 4 := by simp [Nat.add_assoc]
    rw [hall] at happend
    simpa [hbuf] using happend
  have hlen : buf.length = 4 + json.length + 4 + data.length + rest.length := by
    rw [hbuf]
    simp only [length_append, length_leBytes]
    omega
  have h6 : ¬buf.length < 4 + json.length + 4 := by omega
  have h7 : ¬buf.length < 4 + json.length + 4 + data.length := by omega
  simp [framePublish, h1, h2, h3, h4, h5, hdecode, hlength, hslice, h6, h7,
    addUsize_eq (a := 4 + json.length) (b := 4) (by omega),
    addUsize_eq (a := 4 + json.length + 4) (b := data.length) (by omega)]

/-- Every other body is refused with an error. -/
theorem framePublish_error (h : ¬∃ m data rest, PublishFrame x buf m data rest) :
    ∃ e, framePublish x buf = some (.error e) := by
  by_cases h1 : buf.length < 4
  · exact ⟨_, by rw [framePublish, if_pos h1]; rfl⟩
  obtain ⟨n, tail, hbuf, hn⟩ := exists_length (Nat.not_lt.mp h1)
  by_cases hshort : tail.length < n
  · have h2 : lengthAt buf 0 = some n := by
      rw [hbuf]
      exact lengthAt_append [] _ hn (by simp)
    have h4 : buf.length < 4 + n := by
      rw [hbuf, length_append, length_leBytes]
      omega
    exact ⟨_, by simp [framePublish, h1, h2, h4, addUsize_eq (a := 4) (b := n) (by omega)]; rfl⟩
  obtain ⟨json, rest, rfl, rfl⟩ : ∃ json rest, tail = json ++ rest ∧ json.length = n :=
    ⟨tail.take n, tail.drop n, (take_append_drop n tail).symm, by simp; omega⟩
  obtain ⟨-, h2, h3, h4, h5⟩ := framePublish_json hn hbuf
  cases hdecode : x.decode json with
  | none => exact ⟨_, by simp [framePublish, h1, h2, h3, h4, h5, hdecode]; rfl⟩
  | some m =>
    have h6 : addUsize (4 + json.length) 4 = some (4 + json.length + 4) := addUsize_eq (by omega)
    by_cases h7 : buf.length < 4 + json.length + 4
    · exact ⟨_, by simp [framePublish, h1, h2, h3, h4, h5, h6, h7, hdecode]; rfl⟩
    have hrest : 4 ≤ rest.length := by
      rw [hbuf, length_append, length_append, length_leBytes] at h7
      omega
    obtain ⟨k, tail, rfl, hk⟩ := exists_length hrest
    have hfront : (leBytes 4 json.length ++ json).length = 4 + json.length := by simp
    have h8 : lengthAt buf (4 + json.length) = some k := by
      have happend := lengthAt_append (leBytes 4 json.length ++ json) tail hk (by omega)
      rwa [hfront, append_assoc, ← hbuf] at happend
    by_cases h9 : buf.length < 4 + json.length + 4 + k
    · exact ⟨_, by simp [framePublish, h1, h2, h3, h4, h5, h6, h7, h8, h9, hdecode,
        addUsize_eq (a := 4 + json.length + 4) (b := k) (by omega)]; rfl⟩
    -- Nothing is missing, so the body is framed.
    have hlen : k ≤ tail.length := by
      rw [hbuf] at h9
      simp only [length_append, length_leBytes] at h9
      omega
    have hk' : (tail.take k).length = k := by simpa using hlen
    refine absurd ⟨m, tail.take k, tail.drop k, ⟨json, ?_, hn, hdecode⟩, by omega⟩ h
    rw [take_append_drop, hk', hbuf]

end

/-- Exactly the crate is stored: a download returns its bytes, the record tells their number and
    their hashes, and all other records are as before. -/
structure CrateStored (x : CargoExt) (s s' : CargoRepo) (m : PublishMeta) (data : Bytes) :
    Prop where
  download : hostedCrate x s' m.name m.vers = .crateFile data
  record : ∃ r v, s'.artifacts.get (crateSk x m.name m.vers) = some r ∧
    r.record.size = data.length ∧ r.record.contentHash = some (x.blake3 data) ∧
    r.cargo = some v ∧ v.cksum = x.sha256 data
  others : ∀ k ≠ crateSk x m.name m.vers, s'.artifacts.get k = s.artifacts.get k

/-- What a publish does with the frames of its body. -/
structure PublishExact (x : CargoExt) (s : CargoRepo) (now : DateTime) (limit : ℕ)
    (frames : List BodyFrame) (stored : Bool) : Prop where
  pieces : ∀ pieces : List Bytes, frames = pieces.map .data → pieces.flatten.length ≤ limit →
    bodyToBytes limit frames = .ok pieces.flatten
  accepted : ∀ buf m data rest, bodyToBytes limit frames = .ok buf →
    PublishFrame x buf m data rest → if stored then
      ∃ s', receivePublish x s now limit frames stored =
        some (s', .ok (.published m.name m.vers data)) ∧ CrateStored x s s' m data
    else ∃ e, receivePublish x s now limit frames stored = some (s, .error e)
  refused : (¬∃ buf m data rest, bodyToBytes limit frames = .ok buf ∧
      PublishFrame x buf m data rest) →
    ∃ e, receivePublish x s now limit frames stored = some (s, .error e)

theorem crateStored_commitCrate (x : CargoExt) (s : CargoRepo) (now : DateTime) (m : PublishMeta)
    (data : Bytes) :
    CrateStored x s (commitCrate x s now (m.versionMeta x data) data) m data where
  download := by
    rw [hostedCrate, commitCrate, PublishMeta.versionMeta, SortedMap.get_insert_self]
    rfl
  record := ⟨_, _, SortedMap.get_insert_self .., rfl, rfl, rfl, rfl⟩
  others k hk := by
    rw [commitCrate, SortedMap.get_insert]
    exact if_neg hk

/-- **Main theorem.** A body is accepted if and only if it starts with a frame, and then exactly
    the crate is stored; nothing is stored otherwise, and no addition or range fails. -/
theorem receivePublish_exact (x : CargoExt) (s : CargoRepo) (now : DateTime) (limit : ℕ)
    (frames : List BodyFrame) (stored : Bool) : PublishExact x s now limit frames stored := by
  refine ⟨?_, fun buf m data rest hbody hframe => ?_, fun hnone => ?_⟩
  · rintro pieces rfl hlimit
    exact bodyToBytes_data limit pieces hlimit
  · have hrun : receivePublish x s now limit frames stored =
        some (if stored then (commitCrate x s now (m.versionMeta x data) data,
            .ok (.published m.name m.vers data))
          else (s, .error (.storage false))) := by
      rw [receivePublish, hbody]
      simp only [framePublish_ok hframe, Option.map_some]
    split_ifs with hstored
    · rw [hrun, if_pos hstored]
      exact ⟨_, rfl, crateStored_commitCrate x s now m data⟩
    · rw [hrun, if_neg hstored]
      exact ⟨_, rfl⟩
  · rw [receivePublish]
    cases hbody : bodyToBytes limit frames with
    | error e => exact ⟨e, rfl⟩
    | ok buf =>
      have hunframed : ¬∃ m data rest, PublishFrame x buf m data rest := by
        rintro ⟨m, data, rest, hframe⟩
        exact hnone ⟨buf, m, data, rest, hbody, hframe⟩
      obtain ⟨e, he⟩ := framePublish_error hunframed
      exact ⟨e, by simp only [he, Option.map_some]⟩

/-- A frame of two bytes of metadata and a crate of one byte, and a byte behind it. -/
def surplusBody : Bytes := [2, 0, 0, 0, 123, 125, 1, 0, 0, 0, 7, 9]

/-- Functions of the other packages that decode an empty object. -/
def CargoExt.braces : CargoExt :=
  { CargoExt.sample with
    decode := fun data => if data = [123, 125] then some { name := "foo", vers := "1.0.0" } else none }

/-- The byte behind the frame is no reason to refuse the body. -/
theorem surplus_accepted : ¬∀ (x : CargoExt) (s : CargoRepo) (now : DateTime) (limit : ℕ)
    (frames : List BodyFrame) (stored : Bool),
    (¬∃ buf m data, bodyToBytes limit frames = .ok buf ∧ PublishFrame x buf m data []) →
      ∃ e, receivePublish x s now limit frames stored = some (s, .error e) := by
  intro hall
  have hframe : PublishFrame .braces surplusBody { name := "foo", vers := "1.0.0" } [7] [9] :=
    ⟨⟨[123, 125], by decide +kernel, by decide, rfl⟩, by decide⟩
  have hunframed : ¬∃ buf m data, bodyToBytes 100 [.data surplusBody] = .ok buf ∧
      PublishFrame .braces buf m data [] := by
    rintro ⟨buf, m, data, hbody, hexact⟩
    obtain rfl : surplusBody = buf := Except.ok.inj hbody
    have hparts := framePublish_ok hexact
    rw [framePublish_ok hframe] at hparts
    obtain ⟨-, rfl⟩ := Prod.mk.inj (Except.ok.inj (Option.some.inj hparts))
    obtain ⟨json, hbuf, hjson, -⟩ := hexact.framed
    have htotal : 12 = 4 + (json.length + (4 + (1 + 0))) := by
      have hlength := congrArg List.length hbuf
      rw [length_append, length_append, length_append, length_append,
        length_leBytes, length_leBytes] at hlength
      exact hlength
    have hfirst : 2 = json.length % 256 ^ 4 := by
      have hnumber := congrArg (fun bytes => Redb.leNat (bytes.take 4)) hbuf
      simp only [take_left' (length_leBytes 4 json.length), leNat_leBytes] at hnumber
      exact hnumber
    omega
  obtain ⟨e, he⟩ := hall .braces {} 0 100 [.data surplusBody] true hunframed
  have hbody : bodyToBytes 100 [.data surplusBody] = .ok surplusBody := rfl
  rw [receivePublish, hbody] at he
  simp [framePublish_ok hframe] at he

end Depot
