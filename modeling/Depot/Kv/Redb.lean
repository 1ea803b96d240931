import Depot.Lib.Versioned
import Mathlib.Algebra.Group.Nat.Defs
import Mathlib.Logic.Function.Basic

/-!
# The embedded key-value backend

`kv/redb/src/redb_kv.rs` keeps each value in an envelope: a format byte, the
version as eight little-endian bytes, the payload. All writes go through one
writer task, which executes queued operations in batches of one transaction.

Results:
* `unwrapEnvelope_wrapEnvelope`: the envelope round trip.
* `execute_cell`: what one write operation can do to one key.
* `untouched_of_version`: seeing a version again means that nothing was
  written in between.
-/

namespace Depot.Redb

open Lib
open Function (update)
open CellOp (versionOf)

/-- A byte string. -/
abbrev Bytes := List UInt8

/-! ## Envelopes -/

/-- `ENVELOPE_V1`. -/
def envelopeV1 : UInt8 := 1

/-- `ENVELOPE_HEADER_SIZE`. -/
def envelopeHeaderSize : ℕ := 9

/-- The `k` low bytes of `n`, least significant first. -/
def leBytes : ℕ → ℕ → Bytes
  | 0, _ => []
  | k + 1, n => UInt8.ofNat n :: leBytes k (n / 256)

/-- The number with these bytes, least significant first. -/
def leNat : Bytes → ℕ
  | [] => 0
  | b :: bs => b.toNat + 256 * leNat bs

@[simp] theorem length_leBytes (k n : ℕ) : (leBytes k n).length = k := by
  induction k generalizing n with
  | zero => rfl
  | succ k ih => simp [leBytes, ih]

theorem leNat_leBytes (k n : ℕ) : leNat (leBytes k n) = n % 256 ^ k := by
  induction k generalizing n with
  | zero => simp [leBytes, leNat, Nat.mod_one]
  | succ k ih =>
    have hpow : 256 ^ (k + 1) = 256 * 256 ^ k := Nat.pow_succ'
    rw [leBytes, leNat, ih, UInt8.toNat_ofNat', hpow]
    exact Nat.mod_mul.symm

/-- `wrap_envelope`. -/
def wrapEnvelope (version : UInt64) (payload : Bytes) : Bytes :=
  envelopeV1 :: (leBytes 8 version.toNat ++ payload)

/-- `unwrap_envelope`: the payload and the version; bytes without an envelope
    count as version 0. -/
def unwrapEnvelope (raw : Bytes) : Bytes × UInt64 :=
  if envelopeHeaderSize ≤ raw.length ∧ raw.head? = some envelopeV1 then
    (raw.drop envelopeHeaderSize, UInt64.ofNat (leNat ((raw.drop 1).take 8)))
  else (raw, 0)

/-- `read_version`. -/
def readVersion (raw : Bytes) : UInt64 := (unwrapEnvelope raw).2

theorem unwrapEnvelope_wrapEnvelope (version : UInt64) (payload : Bytes) :
    unwrapEnvelope (wrapEnvelope version payload) = (payload, version) := by
  have hlen : envelopeHeaderSize ≤ (wrapEnvelope version payload).length := by
    simp [wrapEnvelope, envelopeHeaderSize]
  have htake : ((wrapEnvelope version payload).drop 1).take 8 = leBytes 8 version.toNat := by
    simp [wrapEnvelope]
  have hdrop : (wrapEnvelope version payload).drop envelopeHeaderSize = payload := by
    simp [wrapEnvelope, envelopeHeaderSize]
  have hlt : version.toNat < 256 ^ 8 := version.toNat_lt
  rw [unwrapEnvelope, if_pos ⟨hlen, rfl⟩, htake, hdrop, leNat_leBytes, Nat.mod_eq_of_lt hlt,
    UInt64.ofNat_toNat]

/-! ## Write operations -/

/-- `WriteOp`, over the keys of all tables. -/
inductive WriteOp (K : Type) where
  | put (key : K) (value : Bytes)
  | putIfVersion (key : K) (value : Bytes) (expectedVersion : Option UInt64)
  | delete (key : K)
  | deleteReturning (key : K)
  | deleteIfVersion (key : K) (expectedVersion : UInt64)
  | deleteBatch (keys : List K)
  | putBatch (entries : List (K × Bytes))

/-- `OpResult`. -/
inductive OpResult where
  | unit
  | bool (b : Bool)
  | bools (bs : List Bool)
  | optBytes (b : Option Bytes)
  deriving DecidableEq

/-- The stored bytes of every key. -/
abbrev State (K : Type) := K → Option Bytes

variable {K : Type} [DecidableEq K]

/-- The write of `Put` (lines 264–284): read the version, add one, wrap. The
    addition wraps around in a release build. -/
def putKey (s : State K) (key : K) (value : Bytes) : State K :=
  let currentVersion := ((s key).map readVersion).getD 0
  update s key (some (wrapEnvelope (currentVersion + 1) value))

/-- The condition of `PutIfVersion` (lines 303–308). -/
def versionMatches (expected : Option UInt64) (current : Option UInt64) : Bool :=
  match expected, current with
  | none, none => true
  | none, some _ => false
  | some exp, some act => exp == act
  | some _, none => false

/-- One operation inside a transaction (lines 263–412). An access to a table
    that fails ends its own operation without effect; a batch operation that
    fails in the middle is the operation cut off there. -/
def execute (s : State K) : WriteOp K → State K × OpResult
  | .put key value => (putKey s key value, .unit)
  | .putIfVersion key value expectedVersion =>
      let currentVersion := (s key).map readVersion
      if !versionMatches expectedVersion currentVersion then (s, .bool false)
      else
        let newVersion := expectedVersion.getD 0 + 1
        (update s key (some (wrapEnvelope newVersion value)), .bool true)
  | .delete key => (update s key none, .bool (s key).isSome)
  | .deleteReturning key =>
      (update s key none, .optBytes ((s key).map fun raw => (unwrapEnvelope raw).1))
  | .deleteIfVersion key expectedVersion =>
      let currentVersion := (s key).map readVersion
      if currentVersion ≠ some expectedVersion then (s, .bool false)
      else (update s key none, .bool (s key).isSome)
  | .deleteBatch keys =>
      let (s', existed) := keys.foldl (fun (acc : State K × List Bool) key =>
        (update acc.1 key none, acc.2 ++ [(acc.1 key).isSome])) (s, [])
      (s', .bools existed)
  | .putBatch entries =>
      (entries.foldl (fun acc e => putKey acc e.1 e.2) s, .unit)

/-- `get_versioned` (lines 590–611). -/
def getVersioned (s : State K) (key : K) : Option (Bytes × UInt64) := (s key).map unwrapEnvelope

/-- The state after one operation. -/
def stepOp (s : State K) (op : WriteOp K) : State K := (execute s op).1

/-! ## What an operation does to a key -/

/-- A put or a delete of `key` takes effect. -/
def touches (op : WriteOp K) (s : State K) (key : K) : Bool :=
  match op with
  | .put k _ => k = key
  | .putIfVersion k _ expected => k = key && versionMatches expected ((s k).map readVersion)
  | .delete k => k = key && (s k).isSome
  | .deleteReturning k => k = key && (s k).isSome
  | .deleteIfVersion k expected => k = key && (s k).map readVersion = some expected
  | .deleteBatch keys => key ∈ keys && (s key).isSome
  | .putBatch entries => key ∈ entries.map Prod.fst

def WriteOp.isDelete : WriteOp K → Bool
  | .put _ _ => false
  | .putIfVersion _ _ _ => false
  | .delete _ => true
  | .deleteReturning _ => true
  | .deleteIfVersion _ _ => true
  | .deleteBatch _ => true
  | .putBatch _ => false

/-- How many puts of `key` the operation contains. -/
def WriteOp.puts (key : K) : WriteOp K → ℕ
  | .put k _ => if k = key then 1 else 0
  | .putIfVersion k _ _ => if k = key then 1 else 0
  | .putBatch entries => (entries.map Prod.fst).count key
  | _ => 0

/-- The cell a client sees. -/
def cell (key : K) (s : State K) : Option (Versioned Bytes) :=
  (s key).map fun raw => ⟨(readVersion raw).toNat, (unwrapEnvelope raw).1⟩

/-- No delete of `key` takes effect, and a put of it that does has a version left for it. -/
def Keeps (key : K) (s : State K) (op : WriteOp K) : Prop :=
  ¬ (op.isDelete = true ∧ touches op s key = true) ∧
    (touches op s key = true → versionOf (cell key s) + op.puts key < 2 ^ 64)

omit [DecidableEq K] in
theorem versionOf_cell (key : K) (s : State K) :
    versionOf (cell key s) = (((s key).map readVersion).getD 0).toNat := by
  rw [versionOf, cell]
  cases s key with
  | none => rfl
  | some raw => rfl

omit [DecidableEq K] in
theorem cell_version_lt (key : K) (s : State K) : versionOf (cell key s) < 2 ^ 64 := by
  rw [versionOf_cell]
  exact UInt64.toNat_lt _

variable {s : State K} {key : K}

theorem cell_wrap {version : UInt64} {value : Bytes} :
    cell key (update s key (some (wrapEnvelope version value))) = some ⟨version.toNat, value⟩ := by
  simp [cell, readVersion, unwrapEnvelope_wrapEnvelope]

theorem cell_update_ne {k : K} (h : key ≠ k) (v : Option Bytes) :
    cell key (update s k v) = cell key s := by
  rw [cell, cell, Function.update_of_ne h]

theorem putKey_cell {k : K} (value : Bytes)
    (hfit : versionOf (cell key s) + (if k = key then 1 else 0) < 2 ^ 64) :
    (k ≠ key ∧ cell key (putKey s k value) = cell key s) ∨
      (k = key ∧ cell key (putKey s k value) =
        some ⟨versionOf (cell key s) + 1, value⟩) := by
  by_cases hk : k = key
  · subst hk
    refine .inr ⟨rfl, ?_⟩
    rw [if_pos rfl, versionOf_cell] at hfit
    rw [putKey, cell_wrap, versionOf_cell, UInt64.toNat_add, UInt64.toNat_one,
      Nat.mod_eq_of_lt hfit]
  · exact .inl ⟨hk, cell_update_ne (Ne.symm hk) _⟩

theorem putBatch_cell (entries : List (K × Bytes)) :
    ∀ {s : State K}, versionOf (cell key s) + (entries.map Prod.fst).count key < 2 ^ 64 →
      (key ∉ entries.map Prod.fst ∧
        cell key (entries.foldl (fun acc e => putKey acc e.1 e.2) s) = cell key s) ∨
      Rises (cell key s) (cell key (entries.foldl (fun acc e => putKey acc e.1 e.2) s)) := by
  induction entries with
  | nil => intro s _; exact .inl ⟨by simp, rfl⟩
  | cons e es ih =>
    intro s hfit
    rw [List.map_cons, List.count_cons] at hfit
    simp only [beq_iff_eq] at hfit
    rcases putKey_cell e.2 (show versionOf (cell key s) +
      (if e.1 = key then 1 else 0) < 2 ^ 64 by omega) with ⟨hne, hsame⟩ | ⟨rfl, hput⟩
    · rw [if_neg hne] at hfit
      rcases ih (s := putKey s e.1 e.2) (by rw [hsame]; omega) with ⟨hnot, heq⟩ | hrise
      · exact .inl ⟨by simpa [Ne.symm hne] using hnot, heq.trans hsame⟩
      · exact .inr (hsame ▸ hrise)
    · rw [if_pos rfl] at hfit
      have hstep : Rises (cell e.1 s) (cell e.1 (putKey s e.1 e.2)) :=
        ⟨_, hput, Nat.lt_succ_self _⟩
      rcases ih (s := putKey s e.1 e.2) (by rw [hput]; simp [versionOf] at hfit ⊢; omega)
        with ⟨_, heq⟩ | hrise
      · exact .inr (heq.symm ▸ hstep)
      · exact .inr (hstep.trans hrise)

theorem deleteBatch_fst (keys : List K) (acc : State K × List Bool) :
    (keys.foldl (fun (acc : State K × List Bool) key =>
      (update acc.1 key none, acc.2 ++ [(acc.1 key).isSome])) acc).1 =
      keys.foldl (fun s key => update s key none) acc.1 := by
  induction keys generalizing acc with
  | nil => rfl
  | cons k ks ih => exact ih _

theorem deleteKeys_apply (key : K) (keys : List K) (s : State K) :
    keys.foldl (fun s k => update s k none) s key =
      if key ∈ keys then none else s key := by
  induction keys generalizing s with
  | nil => simp
  | cons k ks ih =>
    rw [List.foldl_cons, ih]
    by_cases h1 : key ∈ ks
    · simp [h1]
    · by_cases h2 : key = k
      · subst h2; simp
      · simp [h1, h2]

variable {op : WriteOp K}

/-- The bytes at `key` stay unless a delete of `key` takes effect. -/
theorem delete_apply (hd : op.isDelete = true)
    (ht : touches op s key = false) : stepOp s op key = s key := by
  cases op with
  | put | putIfVersion | putBatch => cases hd
  | delete k | deleteReturning k =>
    by_cases hk : key = k
    · subst hk; simpa [touches, stepOp, execute] using (Eq.symm (by simpa [touches] using ht))
    · simp [stepOp, execute, hk]
  | deleteIfVersion k e =>
    by_cases hk : key = k
    · subst hk
      have hne : (s key).map readVersion ≠ some e := by simpa [touches] using ht
      simp [stepOp, execute, hne]
    · simp only [stepOp, execute]
      split_ifs
      · rfl
      · simp [hk]
  | deleteBatch ks =>
    have h1 : stepOp s (.deleteBatch ks) = ks.foldl (fun s k => update s k none) s :=
      deleteBatch_fst ks (s, [])
    rw [h1, deleteKeys_apply]
    split_ifs with hk
    · exact (by simpa [touches, hk] using ht : s key = none).symm
    · rfl

/-- **What one operation can do to a key.** When no delete of `key` takes effect
    and no version overflows, the operation leaves `key` untouched or raises its
    version. -/
theorem execute_cell (h : Keeps key s op) :
    (touches op s key = false ∧ cell key (stepOp s op) = cell key s) ∨
      Rises (cell key s) (cell key (stepOp s op)) := by
  obtain ⟨hdel, hfit⟩ := h
  by_cases hd : op.isDelete = true
  · have ht : touches op s key = false := by simpa [hd] using hdel
    exact .inl ⟨ht, by rw [cell, cell, delete_apply hd ht]⟩
  · cases op with
    | put k v =>
      by_cases hk : k = key
      · subst hk
        rcases putKey_cell v (hfit (decide_eq_true rfl)) with ⟨hne, -⟩ | ⟨-, hput⟩
        · exact absurd rfl hne
        · exact .inr ⟨_, hput, Nat.lt_succ_self _⟩
      · exact .inl ⟨by simp [touches, hk], cell_update_ne (Ne.symm hk) _⟩
    | putIfVersion k v e =>
      by_cases hm : versionMatches e ((s k).map readVersion) = true
      · have hstep : stepOp s (.putIfVersion k v e) =
            update s k (some (wrapEnvelope (e.getD 0 + 1) v)) := by
          simp [stepOp, execute, hm]
        by_cases hk : key = k
        · subst hk
          have hver : e.getD 0 = ((s key).map readVersion).getD 0 := by
            cases e with
            | none => cases hs : s key with
              | none => rfl
              | some raw => simp [versionMatches, hs] at hm
            | some n => cases hs : s key with
              | none => simp [versionMatches, hs] at hm
              | some raw => simpa [versionMatches, hs] using hm
          have hfit' : versionOf (cell key s) + 1 < 2 ^ 64 := by
            simpa [touches, hm, WriteOp.puts] using hfit
          refine .inr ⟨_, by rw [hstep, cell_wrap], ?_⟩
          rw [versionOf_cell] at hfit' ⊢
          rw [hver, UInt64.toNat_add, UInt64.toNat_one, Nat.mod_eq_of_lt hfit']
          exact Nat.lt_succ_self _
        · exact .inl ⟨by simp [touches, Ne.symm hk], by rw [hstep, cell_update_ne hk]⟩
      · exact .inl ⟨by simp [touches, hm], by simp [stepOp, execute, hm]⟩
    | putBatch es =>
      have hfit' : versionOf (cell key s) + (es.map Prod.fst).count key < 2 ^ 64 := by
        by_cases hmem : key ∈ es.map Prod.fst
        · exact hfit (decide_eq_true hmem)
        · rw [List.count_eq_zero.mpr hmem]
          exact cell_version_lt key s
      rcases putBatch_cell es hfit' with ⟨hnot, hsame⟩ | hrise
      · exact .inl ⟨by simpa [touches] using hnot, hsame⟩
      · exact .inr hrise
    | delete k => exact absurd rfl hd
    | deleteReturning k => exact absurd rfl hd
    | deleteIfVersion k e => exact absurd rfl hd
    | deleteBatch ks => exact absurd rfl hd

/-! ## Conditional operations and observations -/

/-- `op` is a conditional put or delete of `key` at version `v`. -/
def WriteOp.Expects (key : K) (v : UInt64) : WriteOp K → Prop
  | .putIfVersion k _ expected => k = key ∧ expected = some v
  | .deleteIfVersion k expected => k = key ∧ expected = v
  | _ => False

omit [DecidableEq K] in
theorem getVersioned_cell {s : State K} {key : K} {value : Bytes} {v : UInt64}
    (h : getVersioned s key = some (value, v)) : cell key s = some ⟨v.toNat, value⟩ := by
  rw [getVersioned, Option.map_eq_some_iff] at h
  obtain ⟨raw, hraw, hun⟩ := h
  simp [cell, hraw, readVersion, hun]

/-- A conditional operation succeeds only at the version it expects. -/
theorem version_of_success {v : UInt64}
    (he : op.Expects key v) (hs : (execute s op).2 = .bool true) :
    ∃ value, getVersioned s key = some (value, v) := by
  suffices h : (s key).map readVersion = some v by
    rw [Option.map_eq_some_iff] at h
    obtain ⟨raw, hraw, hv⟩ := h
    exact ⟨(unwrapEnvelope raw).1, by rw [getVersioned, hraw, ← hv]; rfl⟩
  cases op with
  | putIfVersion k val expected =>
    obtain ⟨rfl, rfl⟩ := he
    simp only [execute] at hs
    split_ifs at hs with hm
    · simp at hs
    · cases hk : s k with
      | none => simp [versionMatches, hk] at hm
      | some raw =>
        have hv : v = readVersion raw := by simpa [versionMatches, hk] using hm
        rw [Option.map_some, hv]
  | deleteIfVersion k expected =>
    obtain ⟨rfl, rfl⟩ := he
    simp only [execute] at hs
    split_ifs at hs with hm
    · simp at hs
    · exact not_not.mp hm
  | put k val => exact he.elim
  | delete k => exact he.elim
  | deleteReturning k => exact he.elim
  | deleteBatch ks => exact he.elim
  | putBatch es => exact he.elim

/-- Seeing version `v` of `key` again means that it still has the same value
    and that nothing touched it, as long as no delete of it took effect. -/
theorem untouched_of_version {value value' : Bytes} {v : UInt64}
    {ops : List (WriteOp K)} (hget : getVersioned s key = some (value, v))
    (hkeep : Along stepOp (Keeps key) s ops)
    (hget' : getVersioned (runOps stepOp s ops) key = some (value', v)) :
    value' = value ∧ Along stepOp (fun s op => touches op s key = false) s ops :=
  same_of_version (hkeep.mono fun _ _ h => execute_cell h)
    (getVersioned_cell hget) (getVersioned_cell hget')

end Depot.Redb
