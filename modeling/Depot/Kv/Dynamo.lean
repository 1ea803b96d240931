import Depot.Lib.Versioned
import Mathlib.Algebra.Group.Nat.Defs
import Mathlib.Logic.Function.Basic

/-!
# The DynamoDB backend

`kv/dynamo/src/lib.rs` stores each value as an item with attributes `V` (the
payload) and `VER` (a number), and leaves atomicity to the service: an update
expression adds one to `VER`, conditional requests carry a condition
expression. An expression on an attribute the item lacks is false, `ADD` to a
missing number starts from zero.

Results:
* `execute_cell`: what one request can do to one key.
* `untouched_of_version`: seeing a version again means that nothing was
  written in between.
-/

namespace Depot.Dynamo

open Lib
open Function (update)
open Option (bind_some getD_some map_some)

/-- A binary attribute. -/
abbrev Bytes := List UInt8

/-- The attributes of an item besides its key. Every request of this backend
    that creates an item sets `V`. -/
structure Item where
  v : Bytes
  ver : Option ℕ
  deriving DecidableEq

/-- The items of all tables. -/
abbrev State (K : Type) := K → Option Item

/-- `n.parse::<u64>().ok()` of a number attribute. -/
def parseU64 (n : ℕ) : Option ℕ := if n < 2 ^ 64 then some n else none

/-- `extract_value_versioned` (lines 222–234). -/
def extractValueVersioned (item : Item) : Bytes × UInt64 :=
  (item.v, UInt64.ofNat ((item.ver.bind parseU64).getD 0))

/-- The write requests. The batch operations of this backend issue them one by
    one. -/
inductive Request (K : Type) where
  | put (key : K) (value : Bytes)
  | putIfVersion (key : K) (value : Bytes) (expectedVersion : Option UInt64)
  | delete (key : K)
  | deleteIfVersion (key : K) (expectedVersion : UInt64)
  | deleteReturning (key : K)

/-- What a request returns. -/
inductive Reply where
  | unit
  | bool (b : Bool)
  | optBytes (b : Option Bytes)
  deriving DecidableEq

variable {K : Type} [DecidableEq K]

/-- One request (lines 304–456). A request the service answers with another
    error than a failed condition has no effect. -/
def execute (s : State K) : Request K → State K × Reply
  | .put key value =>
      -- `SET V = :v ADD VER :one`
      let ver := ((s key).bind Item.ver).getD 0 + 1
      (update s key (some ⟨value, some ver⟩), .unit)
  | .putIfVersion key value expectedVersion =>
      let newVersion := expectedVersion.getD 0 + 1
      let holds :=
        match expectedVersion with
        | none => (s key).isNone
        | some v => decide ((s key).bind Item.ver = some v.toNat)
      if holds then
        (update s key (some ⟨value, some newVersion.toNat⟩), .bool true)
      else (s, .bool false)
  | .delete key => (update s key none, .bool (s key).isSome)
  | .deleteIfVersion key expectedVersion =>
      if (s key).bind Item.ver = some expectedVersion.toNat then
        (update s key none, .bool true)
      else (s, .bool false)
  | .deleteReturning key => (update s key none, .optBytes ((s key).map Item.v))

/-- `get_versioned` (lines 282–302), a consistent read. -/
def getVersioned (s : State K) (key : K) : Option (Bytes × UInt64) :=
  (s key).map extractValueVersioned

/-- The state after one request. -/
def stepOp (s : State K) (op : Request K) : State K := (execute s op).1

/-! ## What a request does to a key -/

/-- A put or a delete of `key` takes effect. -/
def touches (op : Request K) (s : State K) (key : K) : Bool :=
  match op with
  | .put k _ => k = key
  | .putIfVersion k _ none => k = key && (s k).isNone
  | .putIfVersion k _ (some v) => k = key && (s k).bind Item.ver = some v.toNat
  | .delete k => k = key && (s k).isSome
  | .deleteIfVersion k v => k = key && (s k).bind Item.ver = some v.toNat
  | .deleteReturning k => k = key && (s k).isSome

def Request.isDelete : Request K → Bool
  | .put _ _ => false
  | .putIfVersion _ _ _ => false
  | .delete _ => true
  | .deleteIfVersion _ _ => true
  | .deleteReturning _ => true

/-- No delete of `key` takes effect, and its version stays a `u64` after a put that does. -/
def Keeps (key : K) (s : State K) (op : Request K) : Prop :=
  ¬ (op.isDelete = true ∧ touches op s key = true) ∧
    (touches op s key = true → ((s key).bind Item.ver).getD 0 + 1 < 2 ^ 64)

/-- The cell a client sees. -/
def cell (key : K) (s : State K) : Option (Versioned Bytes) :=
  (s key).map fun item => ⟨(extractValueVersioned item).2.toNat, item.v⟩

omit [DecidableEq K] in
/-- A number that fits is read back as it is. -/
theorem versionOf_cell (key : K) (s : State K) (h : ((s key).bind Item.ver).getD 0 < 2 ^ 64) :
    CellOp.versionOf (cell key s) = ((s key).bind Item.ver).getD 0 := by
  rw [CellOp.versionOf, cell]
  cases hs : s key with
  | none => rfl
  | some item =>
    rw [hs, bind_some] at h
    cases hv : item.ver with
    | none => simp [extractValueVersioned, hv]
    | some n =>
      rw [hv, getD_some] at h
      simp only [extractValueVersioned, hv, parseU64, map_some, getD_some, bind_some, if_pos h]
      exact UInt64.toNat_ofNat_of_lt' h

theorem cell_update (s : State K) (key : K) (v : Bytes) {n : ℕ} (h : n < 2 ^ 64) :
    cell key (update s key (some ⟨v, some n⟩)) = some ⟨n, v⟩ := by
  simp only [cell, Function.update_self, map_some, extractValueVersioned,
    bind_some, parseU64, if_pos h, getD_some]
  rw [UInt64.toNat_ofNat_of_lt' h]

variable {s : State K}

variable {key : K}

theorem cell_update_ne {k : K} (h : key ≠ k) (i : Option Item) :
    cell key (update s k i) = cell key s := by
  rw [cell, cell, Function.update_of_ne h]

variable {op : Request K}

theorem delete_apply (hd : op.isDelete = true)
    (ht : touches op s key = false) : stepOp s op key = s key := by
  cases op with
  | put | putIfVersion => cases hd
  | delete k | deleteReturning k =>
    by_cases hk : key = k
    · subst hk
      simpa [stepOp, execute] using (by simpa [touches] using ht : s key = none).symm
    · simp [stepOp, execute, hk]
  | deleteIfVersion k v =>
    simp only [stepOp, execute]
    split_ifs with hm
    · have hk : key ≠ k := by
        rintro rfl
        simp [touches, hm] at ht
      simp [hk]
    · rfl

/-- **What one request can do to a key.** When no delete of `key` takes effect
    and its version stays a `u64`, the request leaves `key` untouched or raises
    its version. -/
theorem execute_cell (h : Keeps key s op) :
    (touches op s key = false ∧ cell key (stepOp s op) = cell key s) ∨
      Rises (cell key s) (cell key (stepOp s op)) := by
  obtain ⟨hdel, hfit⟩ := h
  by_cases hd : op.isDelete = true
  · have ht : touches op s key = false := by simpa [hd] using hdel
    exact .inl ⟨ht, by rw [cell, cell, delete_apply hd ht]⟩
  cases op with
  | put k v =>
    by_cases hk : key = k
    · subst hk
      have hlt := hfit (decide_eq_true rfl)
      refine .inr ⟨_, cell_update s key v hlt, ?_⟩
      rw [versionOf_cell key s (by omega)]
      exact Nat.lt_succ_self _
    · exact .inl ⟨by simp [touches, Ne.symm hk], cell_update_ne hk _⟩
  | putIfVersion k v e =>
    by_cases hk : key = k
    · subst hk
      cases e with
      | none =>
        by_cases hs : (s key).isNone = true
        · refine .inr ⟨⟨1, v⟩, ?_, ?_⟩
          · simpa [stepOp, execute, hs] using cell_update s key v (n := 1) (by decide)
          · rw [cell, Option.isNone_iff_eq_none.mp hs]
            exact Nat.zero_lt_one
        · exact .inl ⟨by simp [touches, hs], by simp [stepOp, execute, hs]⟩
      | some n =>
        by_cases hs : (s key).bind Item.ver = some n.toNat
        · have hlt := hfit (by simp [touches, hs])
          have hver := versionOf_cell key s (by omega)
          rw [hs, getD_some] at hlt hver
          have hsucc : (n + 1).toNat = n.toNat + 1 := by
            rw [UInt64.toNat_add, UInt64.toNat_one, Nat.mod_eq_of_lt hlt]
          refine .inr ⟨⟨n.toNat + 1, v⟩, ?_, by rw [hver]; exact Nat.lt_succ_self _⟩
          simpa [stepOp, execute, hs, hsucc] using cell_update s key v hlt
        · exact .inl ⟨by simp [touches, hs], by simp [stepOp, execute, hs]⟩
    · refine .inl ⟨by cases e <;> simp [touches, Ne.symm hk], ?_⟩
      cases e <;> simp only [stepOp, execute] <;> split_ifs <;>
        first | exact cell_update_ne hk _ | rfl
  | delete k => exact absurd rfl hd
  | deleteReturning k => exact absurd rfl hd
  | deleteIfVersion k e => exact absurd rfl hd

/-! ## Conditional requests and observations -/

/-- `op` is a conditional put or delete of `key` at version `v`. -/
def Request.Expects (key : K) (v : UInt64) : Request K → Prop
  | .putIfVersion k _ expected => k = key ∧ expected = some v
  | .deleteIfVersion k expected => k = key ∧ expected = v
  | _ => False

omit [DecidableEq K] in
theorem getVersioned_cell {s : State K} {key : K} {value : Bytes} {v : UInt64}
    (h : getVersioned s key = some (value, v)) : cell key s = some ⟨v.toNat, value⟩ := by
  rw [getVersioned, Option.map_eq_some_iff] at h
  obtain ⟨item, hitem, hex⟩ := h
  have h1 : item.v = value := congrArg Prod.fst hex
  simp [cell, hitem, hex, h1]

/-- A conditional request succeeds only at the version it expects. -/
theorem version_of_success {v : UInt64}
    (he : op.Expects key v) (hs : (execute s op).2 = .bool true) :
    ∃ value, getVersioned s key = some (value, v) := by
  suffices h : (s key).bind Item.ver = some v.toNat by
    rw [Option.bind_eq_some_iff] at h
    obtain ⟨item, hitem, hver⟩ := h
    refine ⟨item.v, ?_⟩
    simp [getVersioned, hitem, extractValueVersioned, hver, parseU64, v.toNat_lt]
  cases op with
  | putIfVersion k val expected =>
    obtain ⟨rfl, rfl⟩ := he
    simp only [execute] at hs
    split_ifs at hs with hm
    · simpa using hm
    · simp at hs
  | deleteIfVersion k expected =>
    obtain ⟨rfl, rfl⟩ := he
    simp only [execute] at hs
    split_ifs at hs with hm
    · exact hm
    · simp at hs
  | put k val => exact he.elim
  | delete k => exact he.elim
  | deleteReturning k => exact he.elim

/-- Seeing version `v` of `key` again means that it still has the same value
    and that nothing touched it, as long as no delete of it took effect. -/
theorem untouched_of_version {value value' : Bytes} {v : UInt64}
    {ops : List (Request K)} (hget : getVersioned s key = some (value, v))
    (hkeep : Along stepOp (Keeps key) s ops)
    (hget' : getVersioned (runOps stepOp s ops) key = some (value', v)) :
    value' = value ∧ Along stepOp (fun s op => touches op s key = false) s ops :=
  same_of_version (hkeep.mono fun _ _ h => execute_cell h)
    (getVersioned_cell hget) (getVersioned_cell hget')

end Depot.Dynamo
