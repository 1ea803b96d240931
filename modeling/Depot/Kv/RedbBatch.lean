import Depot.Kv.Redb
import Mathlib.Tactic.SplitIfs

/-!
# Failing accesses in a batch of writes

`execute_batch` (`kv/redb/src/redb_kv.rs`, lines 236–449) with everything that can fail in it:
the transaction cannot be begun or committed, a table cannot be opened, a read or a write of a
key returns an error. The storage engine is not part of the repository: which accesses fail is an
input, and one that fails changes nothing.

A `DeleteBatch` or a `PutBatch` that fails stops where it is, and what it has written before is
committed with the other operations of the transaction, although its caller receives an error;
so it is with the default of the trait, which goes through the keys one by one.

Results:
* `executeBatch_one_by_one`: a batch does what its operations do one by one.
* `executeOp_error`: which operations leave something behind when they fail.
-/

namespace Depot.Redb

open Lib List
open Function (update)

/-! ## Operations with failing accesses -/

/-- The accesses of an operation that fail, and their messages: opening the table, and for each
    key in the order of the operation its read and its write. -/
structure Faults where
  openTable : Option String := none
  get : ℕ → Option String := fun _ => none
  write : ℕ → Option String := fun _ => none

/-- `OpResult` (lines 451–456). -/
inductive OpReply where
  | unit (r : Except String Unit)
  | bool (r : Except String Bool)
  | bools (r : Except String (List Bool))
  | optBytes (r : Except String (Option Bytes))

def OpReply.IsError : OpReply → Prop
  | .unit r => ∃ e, r = .error e
  | .bool r => ∃ e, r = .error e
  | .bools r => ∃ e, r = .error e
  | .optBytes r => ∃ e, r = .error e

variable {K : Type}

/-- The error of an operation, in the type of its reply (`open_table!`, `send_errors`). -/
def WriteOp.errorReply (e : String) : WriteOp K → OpReply
  | .put _ _ => .unit (.error e)
  | .putIfVersion _ _ _ => .bool (.error e)
  | .delete _ => .bool (.error e)
  | .deleteReturning _ => .optBytes (.error e)
  | .deleteIfVersion _ _ => .bool (.error e)
  | .deleteBatch _ => .bools (.error e)
  | .putBatch _ => .unit (.error e)

/-- The reply that is sent for a result (lines 420–446): none if their types differ. -/
def WriteOp.replyWith : WriteOp K → OpReply → Option OpReply
  | .put _ _, .unit r => some (.unit r)
  | .putIfVersion _ _ _, .bool r => some (.bool r)
  | .delete _, .bool r => some (.bool r)
  | .deleteIfVersion _ _, .bool r => some (.bool r)
  | .deleteReturning _, .optBytes r => some (.optBytes r)
  | .deleteBatch _, .bools r => some (.bools r)
  | .putBatch _, .unit r => some (.unit r)
  | _, _ => none

/-- A loop over the keys of an operation that breaks at the first error; `i` counts the keys. -/
def untilError {σ α : Type} (step : ℕ → σ → α → Except String σ) :
    ℕ → List α → σ → σ × Option String
  | _, [], s => (s, none)
  | i, a :: as, s =>
      match step i s a with
      | .error e => (s, some e)
      | .ok s' => untilError step (i + 1) as s'

variable [DecidableEq K]

/-- A key of `DeleteBatch` (lines 366–373). -/
def deleteOne (f : Faults) (i : ℕ) (s : State K × List Bool) (key : K) :
    Except String (State K × List Bool) :=
  match f.write i with
  | some e => .error e
  | none => .ok (update s.1 key none, s.2 ++ [(s.1 key).isSome])

/-- The write of `Put`, and an entry of `PutBatch` (lines 264–284, 383–399). -/
def putOne (f : Faults) (i : ℕ) (s : State K) (e : K × Bytes) : Except String (State K) :=
  match f.get i with
  | some err => .error err
  | none =>
    match f.write i with
    | some err => .error err
    | none => .ok (putKey s e.1 e.2)

/-- One operation inside a transaction (lines 260–412). -/
def executeOp (f : Faults) (s : State K) (op : WriteOp K) : State K × OpReply :=
  match f.openTable with
  | some e => (s, op.errorReply e)
  | none =>
    match op with
    | .put key value =>
        match putOne f 0 s (key, value) with
        | .error e => (s, .unit (.error e))
        | .ok s' => (s', .unit (.ok ()))
    | .putIfVersion key value expectedVersion =>
        match f.get 0 with
        | some e => (s, .bool (.error e))
        | none =>
          let currentVersion := (s key).map readVersion
          if !versionMatches expectedVersion currentVersion then (s, .bool (.ok false))
          else
            let newVersion := expectedVersion.getD 0 + 1
            match f.write 0 with
            | some e => (s, .bool (.error e))
            | none =>
                (update s key (some (wrapEnvelope newVersion value)), .bool (.ok true))
    | .delete key =>
        match f.write 0 with
        | some e => (s, .bool (.error e))
        | none => (update s key none, .bool (.ok (s key).isSome))
    | .deleteReturning key =>
        match f.write 0 with
        | some e => (s, .optBytes (.error e))
        | none =>
            (update s key none,
              .optBytes (.ok ((s key).map fun raw => (unwrapEnvelope raw).1)))
    | .deleteIfVersion key expectedVersion =>
        match f.get 0 with
        | some e => (s, .bool (.error e))
        | none =>
          let currentVersion := (s key).map readVersion
          if currentVersion ≠ some expectedVersion then (s, .bool (.ok false))
          else
            match f.write 0 with
            | some e => (s, .bool (.error e))
            | none => (update s key none, .bool (.ok (s key).isSome))
    | .deleteBatch keys =>
        match untilError (deleteOne f) 0 keys (s, []) with
        | ((s', _), some e) => (s', .bools (.error e))
        | ((s', existed), none) => (s', .bools (.ok existed))
    | .putBatch entries =>
        match untilError (putOne f) 0 entries s with
        | (s', some e) => (s', .unit (.error e))
        | (s', none) => (s', .unit (.ok ()))

/-- The loop over the batch (lines 260–414): the state of the transaction and the results. -/
def executeOps (s : State K) : List (WriteOp K × Faults) → State K × List OpReply
  | [] => (s, [])
  | (op, f) :: ops =>
      let (s', r) := executeOp f s op
      let (s'', rs) := executeOps s' ops
      (s'', r :: rs)

/-- `execute_batch` (lines 236–449): the committed state and what is sent to each caller. -/
def executeTxn (s : State K) (begin commit : Option String) (batch : List (WriteOp K × Faults)) :
    State K × List (Option OpReply) :=
  match begin with
  | some e => (s, batch.map fun op => some (op.1.errorReply e))
  | none =>
      let (s', results) := executeOps s batch
      match commit with
      | some e => (s, batch.map fun op => some (op.1.errorReply e))
      | none => (s', (batch.zip results).map fun p => p.1.1.replyWith p.2)

/-- The operations one by one, each in a transaction of its own. -/
def oneByOne (s : State K) : List (WriteOp K × Faults) → State K × List (Option OpReply)
  | [] => (s, [])
  | op :: ops =>
      let (s', r) := executeTxn s none none [op]
      let (s'', rs) := oneByOne s' ops
      (s'', r ++ rs)

/-! ## What batching is for -/

/-- Batching is transparent and atomic: the committed state and the replies are those of the
    operations one by one, an operation that replies with an error leaves the state of the
    transaction as it was, and if the transaction is not begun or not committed every caller
    receives an error and nothing is changed. -/
structure BatchAtomic (s : State K) (begin commit : Option String)
    (batch : List (WriteOp K × Faults)) : Prop where
  transparent : begin = none → commit = none → executeTxn s begin commit batch = oneByOne s batch
  errors : begin = none → commit = none → ∀ before op f after, batch = before ++ (op, f) :: after →
    (executeOp f (oneByOne s before).1 op).2.IsError →
      (oneByOne s (before ++ [(op, f)])).1 = (oneByOne s before).1
  aborted : begin ≠ none ∨ commit ≠ none → (executeTxn s begin commit batch).1 = s ∧
    (executeTxn s begin commit batch).2.length = batch.length ∧
      ∀ r ∈ (executeTxn s begin commit batch).2, ∃ reply, r = some reply ∧ reply.IsError

/-- An operation on many keys that fails after a write of its own that has changed something. -/
def FailsHalfway (f : Faults) (s : State K) : WriteOp K → Prop
  | .deleteBatch keys => f.openTable = none ∧ ∃ front key back, keys = front ++ key :: back ∧
      (∀ j < front.length, f.write j = none) ∧ f.write front.length ≠ none ∧
        ∃ k ∈ front, (s k).isSome
  | .putBatch entries => f.openTable = none ∧ ∃ front e back, entries = front ++ e :: back ∧
      (∀ j < front.length, f.get j = none ∧ f.write j = none) ∧
        (f.get front.length ≠ none ∨ f.write front.length ≠ none) ∧ front ≠ []
  | _ => False

/-- A vector of entries has fewer than `2 ^ 64` of them. -/
def WriteOp.Fits : WriteOp K → Prop
  | .putBatch entries => entries.length < 2 ^ 64
  | _ => True

/-- How many keys an operation goes through. -/
def WriteOp.keyCount : WriteOp K → ℕ
  | .deleteBatch keys => keys.length
  | .putBatch entries => entries.length
  | _ => 1

/-- An access that the operation makes for its key number `j` fails. -/
def WriteOp.FaultAt (f : Faults) (j : ℕ) : WriteOp K → Prop
  | .delete _ | .deleteReturning _ | .deleteBatch _ => f.write j ≠ none
  | _ => f.get j ≠ none ∨ f.write j ≠ none

/-- The first access that fails is for key number `n`, or is the one that opens the table. -/
def WriteOp.FailsAt (f : Faults) (op : WriteOp K) (n : ℕ) : Prop :=
  (f.openTable ≠ none ∧ n = 0) ∨
    (f.openTable = none ∧ n < op.keyCount ∧ op.FaultAt f n ∧ ∀ j < n, ¬op.FaultAt f j)

/-- The state after the writes of the first `n` keys of an operation on many keys; the others
    write nothing before they fail. -/
def WriteOp.firstKeys (n : ℕ) (s : State K) : WriteOp K → State K
  | .deleteBatch keys => stepOp s (.deleteBatch (keys.take n))
  | .putBatch entries => stepOp s (.putBatch (entries.take n))
  | _ => s

/-- Batching is transparent, and atomic but for the operations on many keys: one that replies
    with an error leaves the writes of the keys before the one at which it fails, and so the state
    as it was unless one of these has changed something. -/
structure BatchCommits (s : State K) (begin commit : Option String)
    (batch : List (WriteOp K × Faults)) : Prop where
  transparent : begin = none → commit = none → executeTxn s begin commit batch = oneByOne s batch
  errors : begin = none → commit = none → ∀ before op f after, batch = before ++ (op, f) :: after →
    (executeOp f (oneByOne s before).1 op).2.IsError →
      ∃ n, op.FailsAt f n ∧
        (oneByOne s (before ++ [(op, f)])).1 = op.firstKeys n (oneByOne s before).1
  unchanged : begin = none → commit = none →
    ∀ before op f after, batch = before ++ (op, f) :: after → op.Fits →
      (executeOp f (oneByOne s before).1 op).2.IsError →
        ((oneByOne s (before ++ [(op, f)])).1 = (oneByOne s before).1 ↔
          ¬FailsHalfway f (oneByOne s before).1 op)
  aborted : begin ≠ none ∨ commit ≠ none → (executeTxn s begin commit batch).1 = s ∧
    (executeTxn s begin commit batch).2.length = batch.length ∧
      ∀ r ∈ (executeTxn s begin commit batch).2, ∃ reply, r = some reply ∧ reply.IsError

variable {i : ℕ}

/-! ## The loops over the keys -/

section

variable {σ α : Type} {step : ℕ → σ → α → Except String σ}

theorem untilError_append (i : ℕ) (xs ys : List α) (s : σ) :
    untilError step i (xs ++ ys) s =
      match untilError step i xs s with
      | (s', some e) => (s', some e)
      | (s', none) => untilError step (i + xs.length) ys s' := by
  induction xs generalizing i s with
  | nil => rfl
  | cons x xs ih =>
    rw [cons_append, untilError, untilError]
    cases step i s x with
    | error e => rfl
    | ok s' =>
      simp only [ih, length_cons]
      rw [Nat.add_right_comm, Nat.add_assoc]

/-- Where a loop has broken off. -/
theorem untilError_some {as : List α} {s s' : σ} {e : String}
    (h : untilError step i as s = (s', some e)) : ∃ front a back, as = front ++ a :: back ∧
      untilError step i front s = (s', none) ∧ step (i + front.length) s' a = .error e := by
  induction as generalizing i s with
  | nil => cases h
  | cons a as ih =>
    rw [untilError] at h
    cases hstep : step i s a with
    | error e' =>
      rw [hstep] at h
      obtain ⟨rfl, he⟩ := Prod.mk.inj h
      obtain rfl := Option.some.inj he
      exact ⟨[], a, as, rfl, rfl, hstep⟩
    | ok s1 =>
      rw [hstep] at h
      obtain ⟨front, b, back, rfl, hfront, hb⟩ := ih h
      refine ⟨a :: front, b, back, rfl, ?_, ?_⟩
      · rw [untilError, hstep]
        exact hfront
      · rw [length_cons, ← Nat.add_assoc, Nat.add_right_comm]
        exact hb

end

variable {f : Faults} {s s' : State K} {op : WriteOp K}

variable {keys : List K}

theorem untilError_deleteOne {acc acc' : State K × List Bool}
    (h : untilError (deleteOne f) i keys acc = (acc', none)) :
    (∀ j < keys.length, f.write (i + j) = none) ∧
      ∀ k, acc'.1 k = if k ∈ keys then none else acc.1 k := by
  induction keys generalizing i acc with
  | nil =>
    obtain ⟨rfl, -⟩ := Prod.mk.inj h
    simp
  | cons key keys ih =>
    rw [untilError, deleteOne] at h
    cases hw : f.write i with
    | some e =>
      rw [hw] at h
      cases h
    | none =>
      rw [hw] at h
      obtain ⟨hnone, hkeys⟩ := ih h
      refine ⟨fun j hj => ?_, fun k => ?_⟩
      · cases j with
        | zero => exact hw
        | succ j =>
          rw [show i + (j + 1) = i + 1 + j by omega]
          exact hnone j (Nat.lt_of_succ_lt_succ hj)
      · rw [hkeys k]
        by_cases hk : k = key
        · subst hk
          simp
        · simp [hk]

theorem untilError_deleteOne_of (h : ∀ j < keys.length, f.write (i + j) = none)
    (acc : State K × List Bool) : ∃ acc', untilError (deleteOne f) i keys acc = (acc', none) := by
  induction keys generalizing i acc with
  | nil => exact ⟨acc, rfl⟩
  | cons key keys ih =>
    have hw : f.write i = none := h 0 (Nat.succ_pos _)
    rw [untilError, deleteOne, hw]
    refine ih (fun j hj => ?_) _
    rw [show i + 1 + j = i + (j + 1) by omega]
    exact h (j + 1) (Nat.succ_lt_succ hj)

variable {entries : List (K × Bytes)}

theorem untilError_putOne (h : untilError (putOne f) i entries s = (s', none)) :
    (∀ j < entries.length, f.get (i + j) = none ∧ f.write (i + j) = none) ∧
      s' = entries.foldl (fun acc e => putKey acc e.1 e.2) s := by
  induction entries generalizing i s with
  | nil =>
    obtain ⟨rfl, -⟩ := Prod.mk.inj h
    simp
  | cons e entries ih =>
    rw [untilError, putOne] at h
    cases hg : f.get i with
    | some err =>
      rw [hg] at h
      cases h
    | none =>
      rw [hg] at h
      cases hw : f.write i with
      | some err =>
        rw [hw] at h
        cases h
      | none =>
        rw [hw] at h
        obtain ⟨hnone, hs'⟩ := ih h
        refine ⟨fun j hj => ?_, hs'⟩
        cases j with
        | zero => exact ⟨hg, hw⟩
        | succ j =>
          rw [show i + (j + 1) = i + 1 + j by omega]
          exact hnone j (Nat.lt_of_succ_lt_succ hj)

theorem untilError_putOne_of
    (h : ∀ j < entries.length, f.get (i + j) = none ∧ f.write (i + j) = none) (s : State K) :
    untilError (putOne f) i entries s =
      (entries.foldl (fun acc e => putKey acc e.1 e.2) s, none) := by
  induction entries generalizing i s with
  | nil => rfl
  | cons e entries ih =>
    obtain ⟨hg, hw⟩ := h 0 (Nat.succ_pos _)
    rw [Nat.add_zero] at hg hw
    rw [untilError, putOne, hg, hw]
    refine ih (fun j hj => ?_) _
    rw [show i + 1 + j = i + (j + 1) by omega]
    exact h (j + 1) (Nat.succ_lt_succ hj)

/-- Each put of a key raises its version by one. -/
theorem version_puts (key : K) (entries : List (K × Bytes)) (s : State K) :
    ((entries.foldl (fun acc e => putKey acc e.1 e.2) s key).map readVersion).getD 0 =
      ((s key).map readVersion).getD 0 + UInt64.ofNat ((entries.map Prod.fst).count key) := by
  induction entries generalizing s with
  | nil =>
    rw [map_nil, count_nil]
    exact (UInt64.add_zero _).symm
  | cons e entries ih =>
    rw [foldl_cons, ih, map_cons, count_cons, putKey]
    by_cases hk : e.1 = key
    · subst hk
      rw [Function.update_self, Option.map_some, Option.getD_some, readVersion,
        unwrapEnvelope_wrapEnvelope, beq_self_eq_true, if_pos rfl, UInt64.ofNat_add,
        UInt64.add_assoc, UInt64.add_comm 1]
      rfl
    · rw [Function.update_of_ne (Ne.symm hk), if_neg (by simpa using hk), Nat.add_zero]

/-- Puts change the state. -/
theorem puts_ne (hne : entries ≠ []) (hlen : entries.length < 2 ^ 64)
    (s : State K) : entries.foldl (fun acc e => putKey acc e.1 e.2) s ≠ s := by
  obtain ⟨e, rest, rfl⟩ := exists_cons_of_ne_nil hne
  intro heq
  have hversion := version_puts e.1 (e :: rest) s
  rw [heq] at hversion
  have hpos : 0 < ((e :: rest).map Prod.fst).count e.1 :=
    count_pos_iff.mpr mem_cons_self
  have hle : ((e :: rest).map Prod.fst).count e.1 ≤ (e :: rest).length := by
    rw [← length_map (f := Prod.fst)]
    exact count_le_length
  have hnat := congrArg UInt64.toNat hversion
  rw [UInt64.toNat_add, UInt64.toNat_ofNat_of_lt' (Nat.lt_of_le_of_lt hle hlen)] at hnat
  have hlt := UInt64.toNat_lt (((s e.1).map readVersion).getD 0)
  omega

/-! ## One operation -/

omit [DecidableEq K] in
theorem isError_errorReply (op : WriteOp K) (e : String) : (op.errorReply e).IsError := by
  cases op <;> exact ⟨e, rfl⟩

omit [DecidableEq K] in
/-- The reply to an operation has its type. -/
theorem replyWith_errorReply (op : WriteOp K) (e : String) :
    op.replyWith (op.errorReply e) = some (op.errorReply e) := by cases op <;> rfl

theorem replyWith_executeOp (f : Faults) (s : State K) (op : WriteOp K) :
    op.replyWith (executeOp f s op).2 = some (executeOp f s op).2 := by
  unfold executeOp
  cases f.openTable with
  | some e => exact replyWith_errorReply op e
  | none =>
    cases op with
    | put key value => dsimp only; split <;> rfl
    | putIfVersion key value expected =>
      dsimp only
      split
      · rfl
      · split
        · rfl
        · split <;> rfl
    | delete key => dsimp only; split <;> rfl
    | deleteReturning key => dsimp only; split <;> rfl
    | deleteIfVersion key expected =>
      dsimp only
      split
      · rfl
      · split
        · rfl
        · split <;> rfl
    | deleteBatch keys => dsimp only; split <;> rfl
    | putBatch entries => dsimp only; split <;> rfl

/-- Where a batch of deletes has broken off. -/
theorem deleteBatch_cut (herr : (executeOp f s (.deleteBatch keys)).2.IsError) :
    (f.openTable ≠ none ∧ (executeOp f s (.deleteBatch keys)).1 = s) ∨
      ∃ front key back, keys = front ++ key :: back ∧
        (∀ k, (executeOp f s (.deleteBatch keys)).1 k = if k ∈ front then none else s k) ∧
        f.openTable = none ∧ (∀ j < front.length, f.write j = none) ∧
          f.write front.length ≠ none := by
  unfold executeOp at herr ⊢
  cases hopen : f.openTable with
  | some e => exact .inl ⟨nofun, rfl⟩
  | none =>
    rw [hopen] at herr
    dsimp only at herr ⊢
    cases hrun : untilError (deleteOne f) 0 keys (s, []) with
    | mk acc' e =>
      cases e with
      | none =>
        rw [hrun] at herr
        obtain ⟨e, he⟩ := herr
        cases he
      | some e =>
        obtain ⟨front, key, back, rfl, hfront, hkey⟩ := untilError_some hrun
        obtain ⟨hnone, hkeys⟩ := untilError_deleteOne hfront
        simp only [Nat.zero_add] at hnone
        refine .inr ⟨front, key, back, rfl, hkeys, rfl, hnone, fun hw => ?_⟩
        rw [deleteOne, Nat.zero_add, hw] at hkey
        cases hkey

/-- Where a batch of puts has broken off. -/
theorem putBatch_cut (herr : (executeOp f s (.putBatch entries)).2.IsError) :
    (f.openTable ≠ none ∧ (executeOp f s (.putBatch entries)).1 = s) ∨
      ∃ front e back, entries = front ++ e :: back ∧
        (executeOp f s (.putBatch entries)).1 = front.foldl (fun acc e => putKey acc e.1 e.2) s ∧
        f.openTable = none ∧ (∀ j < front.length, f.get j = none ∧ f.write j = none) ∧
          (f.get front.length ≠ none ∨ f.write front.length ≠ none) := by
  unfold executeOp at herr ⊢
  cases hopen : f.openTable with
  | some e => exact .inl ⟨nofun, rfl⟩
  | none =>
    rw [hopen] at herr
    dsimp only at herr ⊢
    cases hrun : untilError (putOne f) 0 entries s with
    | mk s' e =>
      cases e with
      | none =>
        rw [hrun] at herr
        obtain ⟨e, he⟩ := herr
        cases he
      | some e =>
        obtain ⟨front, entry, back, rfl, hfront, hentry⟩ := untilError_some hrun
        obtain ⟨hnone, hputs⟩ := untilError_putOne hfront
        simp only [Nat.zero_add] at hnone
        refine .inr ⟨front, entry, back, rfl, hputs, rfl, hnone, ?_⟩
        by_contra hnot
        obtain ⟨hg, hw⟩ := not_or.mp hnot
        rw [putOne, Nat.zero_add, not_not.mp hg, not_not.mp hw] at hentry
        cases hentry

/-- The first failing access is where it is. -/
theorem length_eq_of_first_fault {p : ℕ → Prop} {m n : ℕ} (hm : ∀ j < m, ¬p j) (hpm : p m)
    (hn : ∀ j < n, ¬p j) (hpn : p n) : m = n := by
  rcases Nat.lt_trichotomy m n with hlt | heq | hlt
  · exact absurd hpm (hn m hlt)
  · exact heq
  · exact absurd hpn (hm n hlt)

/-- The batch deletes that leave something behind when they fail. -/
theorem deleteBatch_error (herr : (executeOp f s (.deleteBatch keys)).2.IsError) :
    (executeOp f s (.deleteBatch keys)).1 = s ↔ ¬FailsHalfway f s (.deleteBatch keys) := by
  rcases deleteBatch_cut herr with ⟨hopen, hsame⟩ | ⟨front, key, back, hsplit, hkeys, hopen,
    hnone, hfails⟩
  · exact iff_of_true hsame fun h => hopen h.1
  · constructor
    · rintro hsame ⟨-, front', key', back', heq, hnone', hfails', k, hk, hsome⟩
      have hlen : front'.length = front.length :=
        length_eq_of_first_fault (p := fun j => f.write j ≠ none)
          (fun j hj => not_not.mpr (hnone' j hj)) hfails'
          (fun j hj => not_not.mpr (hnone j hj)) hfails
      obtain ⟨rfl, -⟩ := append_inj (heq.symm.trans hsplit) hlen
      have hgone := hkeys k
      rw [if_pos hk, hsame] at hgone
      rw [hgone] at hsome
      cases hsome
    · intro hnot
      funext k
      rw [hkeys k]
      split_ifs with hk
      · by_contra hne
        refine hnot ⟨hopen, front, key, back, hsplit, hnone, hfails, k, hk, ?_⟩
        exact Option.isSome_iff_ne_none.mpr fun h => hne h.symm
      · rfl

/-- The batch puts that leave something behind when they fail. -/
theorem putBatch_error (hfits : entries.length < 2 ^ 64)
    (herr : (executeOp f s (.putBatch entries)).2.IsError) :
    (executeOp f s (.putBatch entries)).1 = s ↔ ¬FailsHalfway f s (.putBatch entries) := by
  rcases putBatch_cut herr with ⟨hopen, hsame⟩ | ⟨front, e, back, hsplit, hputs, hopen,
    hnone, hfails⟩
  · exact iff_of_true hsame fun h => hopen h.1
  · constructor
    · rintro hsame ⟨-, front', e', back', heq, hnone', hfails', hne⟩
      have hlen : front'.length = front.length :=
        length_eq_of_first_fault (p := fun j => f.get j ≠ none ∨ f.write j ≠ none)
          (fun j hj h => h.elim (fun h => h (hnone' j hj).1) fun h => h (hnone' j hj).2) hfails'
          (fun j hj h => h.elim (fun h => h (hnone j hj).1) fun h => h (hnone j hj).2) hfails
      obtain ⟨rfl, -⟩ := append_inj (heq.symm.trans hsplit) hlen
      refine puts_ne hne ?_ s (hputs.symm.trans hsame)
      rw [hsplit, length_append] at hfits
      omega
    · intro hnot
      have hnil : front = [] := by
        by_contra hne
        exact hnot ⟨hopen, front, e, back, hsplit, hnone, hfails, hne⟩
      subst hnil
      exact hputs

theorem not_isError_bool {b : Bool} : ¬(OpReply.bool (.ok b)).IsError := by
  rintro ⟨e, he⟩
  cases he

/-- An operation on one key that replies with an error has written nothing, and one of its
    accesses has failed. -/
theorem executeOp_error_one (hdel : ∀ keys, op ≠ .deleteBatch keys)
    (hput : ∀ entries, op ≠ .putBatch entries) (herr : (executeOp f s op).2.IsError) :
    (executeOp f s op).1 = s ∧ op.FailsAt f 0 := by
  unfold executeOp at herr ⊢
  cases hopen : f.openTable with
  | some e => exact ⟨rfl, .inl ⟨by rw [hopen]; exact Option.some_ne_none e, rfl⟩⟩
  | none =>
    rw [hopen] at herr
    have hat : op.FaultAt f 0 → op.FailsAt f 0 := by
      refine fun hfault => .inr ⟨hopen, ?_, hfault, fun j hj => absurd hj (Nat.not_lt_zero j)⟩
      cases op with
      | deleteBatch keys => exact absurd rfl (hdel keys)
      | putBatch entries => exact absurd rfl (hput entries)
      | _ => exact Nat.one_pos
    cases op with
    | deleteBatch keys => exact absurd rfl (hdel keys)
    | putBatch entries => exact absurd rfl (hput entries)
    | putIfVersion key value expected | deleteIfVersion key expected =>
      dsimp only at herr ⊢
      cases hg : f.get 0 with
      | some e => exact ⟨rfl, hat (.inl (by rw [hg]; exact Option.some_ne_none e))⟩
      | none =>
        rw [hg] at herr
        dsimp only at herr ⊢
        split_ifs at herr ⊢
        · exact absurd herr not_isError_bool
        · cases hw : f.write 0 with
          | some e => exact ⟨rfl, hat (.inr (by rw [hw]; exact Option.some_ne_none e))⟩
          | none =>
            rw [hw] at herr
            exact absurd herr not_isError_bool
    | put key value =>
      dsimp only at herr ⊢
      unfold putOne at herr ⊢
      cases hg : f.get 0 with
      | some e => exact ⟨rfl, hat (.inl (by rw [hg]; exact Option.some_ne_none e))⟩
      | none =>
        cases hw : f.write 0 with
        | some e => exact ⟨rfl, hat (.inr (by rw [hw]; exact Option.some_ne_none e))⟩
        | none =>
          rw [hg, hw] at herr
          obtain ⟨e, he⟩ := herr
          cases he
    | _ =>
      dsimp only at herr ⊢
      cases hw : f.write 0 with
      | some e => exact ⟨rfl, hat (by rw [WriteOp.FaultAt, hw]; exact Option.some_ne_none e)⟩
      | none =>
        rw [hw] at herr
        obtain ⟨e, he⟩ := herr
        cases he

/-- An operation that replies with an error has left the state as it was, unless it is one on
    many keys that has changed something before. -/
theorem executeOp_error (hfits : op.Fits) (herr : (executeOp f s op).2.IsError) :
    (executeOp f s op).1 = s ↔ ¬FailsHalfway f s op := by
  cases op with
  | deleteBatch keys => exact deleteBatch_error herr
  | putBatch entries => exact putBatch_error hfits herr
  | _ => exact iff_of_true (executeOp_error_one (fun _ h => by cases h) (fun _ h => by cases h) herr).1 id

/-- An operation that replies with an error has done the writes of the keys before the one with
    the first failing access. -/
theorem executeOp_firstKeys (herr : (executeOp f s op).2.IsError) :
    ∃ n, op.FailsAt f n ∧ (executeOp f s op).1 = op.firstKeys n s := by
  cases op with
  | deleteBatch keys =>
    rcases deleteBatch_cut herr with ⟨hopen, hsame⟩ | ⟨front, key, back, rfl, hkeys, hopen,
      hnone, hfails⟩
    · exact ⟨0, .inl ⟨hopen, rfl⟩, hsame⟩
    · refine ⟨front.length, .inr ⟨hopen, by simp [WriteOp.keyCount], hfails,
        fun j hj => not_not.mpr (hnone j hj)⟩, ?_⟩
      have hstep : WriteOp.firstKeys front.length s (.deleteBatch (front ++ key :: back)) =
          front.foldl (fun s k => update s k none) s := by
        unfold WriteOp.firstKeys
        dsimp only
        rw [take_left']
        · exact deleteBatch_fst front (s, [])
        · rfl
      rw [hstep]
      funext k
      rw [hkeys k, deleteKeys_apply]
  | putBatch entries =>
    rcases putBatch_cut herr with ⟨hopen, hsame⟩ | ⟨front, e, back, rfl, hputs, hopen,
      hnone, hfails⟩
    · exact ⟨0, .inl ⟨hopen, rfl⟩, hsame⟩
    · refine ⟨front.length, .inr ⟨hopen, by simp [WriteOp.keyCount], hfails, fun j hj h =>
        h.elim (fun h => h (hnone j hj).1) fun h => h (hnone j hj).2⟩, hputs.trans ?_⟩
      unfold WriteOp.firstKeys
      dsimp only
      rw [take_left' rfl]
      rfl
  | _ =>
    obtain ⟨hsame, hfails⟩ := executeOp_error_one (fun _ h => by cases h) (fun _ h => by cases h) herr
    exact ⟨0, hfails, hsame⟩

/-- What fails halfway replies with an error. -/
theorem FailsHalfway.isError (h : FailsHalfway f s op) : (executeOp f s op).2.IsError := by
  cases op with
  | deleteBatch keys =>
    obtain ⟨hopen, front, key, back, rfl, hnone, hfails, -⟩ := h
    obtain ⟨e, he⟩ := Option.ne_none_iff_exists'.mp hfails
    obtain ⟨acc', hfront⟩ := untilError_deleteOne_of (f := f) (i := 0)
      (by simpa only [Nat.zero_add] using hnone) (s, [])
    have hrun : untilError (deleteOne f) 0 (front ++ key :: back) (s, []) = (acc', some e) := by
      rw [untilError_append, hfront]
      dsimp only
      rw [untilError, deleteOne, Nat.zero_add, he]
    unfold executeOp
    rw [hopen]
    dsimp only
    rw [hrun]
    exact ⟨e, rfl⟩
  | putBatch entries =>
    obtain ⟨hopen, front, entry, back, rfl, hnone, hfails, -⟩ := h
    have hfront := untilError_putOne_of (f := f) (i := 0)
      (by simpa only [Nat.zero_add] using hnone) s
    have hentry : ∀ s', ∃ e, putOne f (0 + front.length) s' entry = .error e := by
      intro s'
      rw [Nat.zero_add, putOne]
      cases hg : f.get front.length with
      | some e => exact ⟨e, rfl⟩
      | none =>
        obtain ⟨e, he⟩ := Option.ne_none_iff_exists'.mp (hfails.resolve_left fun h => h hg)
        exact ⟨e, by rw [he]⟩
    obtain ⟨e, he⟩ := hentry (front.foldl (fun acc e => putKey acc e.1 e.2) s)
    have hrun : untilError (putOne f) 0 (front ++ entry :: back) s =
        (front.foldl (fun acc e => putKey acc e.1 e.2) s, some e) := by
      rw [untilError_append, hfront]
      dsimp only
      rw [untilError, he]
    unfold executeOp
    rw [hopen]
    dsimp only
    rw [hrun]
    exact ⟨e, rfl⟩
  | _ => exact h.elim

/-! ## One by one -/

theorem oneByOne_cons (s : State K) (op : WriteOp K) (f : Faults) (ops : List (WriteOp K × Faults)) :
    oneByOne s ((op, f) :: ops) = ((oneByOne (executeOp f s op).1 ops).1,
      some (executeOp f s op).2 :: (oneByOne (executeOp f s op).1 ops).2) := by
  have hone : executeTxn s none none [(op, f)] =
      ((executeOp f s op).1, [some (executeOp f s op).2]) := by
    rw [← replyWith_executeOp]
    rfl
  rw [oneByOne, hone]
  rfl

/-- A batch does what its operations do one by one. -/
theorem executeBatch_one_by_one (s : State K) (batch : List (WriteOp K × Faults)) :
    executeTxn s none none batch = oneByOne s batch := by
  induction batch generalizing s with
  | nil => rfl
  | cons p batch ih =>
    obtain ⟨op, f⟩ := p
    rw [oneByOne_cons, ← ih, ← replyWith_executeOp]
    rfl

theorem oneByOne_append (s : State K) (before : List (WriteOp K × Faults)) (op : WriteOp K)
    (f : Faults) : (oneByOne s (before ++ [(op, f)])).1 =
      (executeOp f (oneByOne s before).1 op).1 := by
  induction before generalizing s with
  | nil =>
    rw [nil_append, oneByOne_cons]
    rfl
  | cons p before ih =>
    obtain ⟨op', f'⟩ := p
    rw [cons_append, oneByOne_cons, oneByOne_cons, ih]

/-- A transaction that is not begun or not committed. -/
theorem executeTxn_aborted {begin commit : Option String} (h : begin ≠ none ∨ commit ≠ none)
    (s : State K) (batch : List (WriteOp K × Faults)) : ∃ e, executeTxn s begin commit batch =
      (s, batch.map fun op => some (op.1.errorReply e)) := by
  cases begin with
  | some e => exact ⟨e, rfl⟩
  | none =>
    obtain ⟨e, he⟩ := Option.ne_none_iff_exists'.mp (h.resolve_left fun h => h rfl)
    exact ⟨e, by rw [he]; rfl⟩

/-- **Main theorem.** For every batch, every state and every pattern of failing accesses, the
    committed state and the replies are those of the operations one by one, an operation that
    fails leaves at most the writes of its first keys, and nothing is changed if the transaction
    is not begun or not committed. -/
theorem batch_commits (s : State K) (begin commit : Option String)
    (batch : List (WriteOp K × Faults)) : BatchCommits s begin commit batch := by
  refine ⟨?_, fun _ _ before op f after _ herr => ?_, fun _ _ before op f after _ hfits herr => ?_,
    fun habort => ?_⟩
  · rintro rfl rfl
    exact executeBatch_one_by_one s batch
  · rw [oneByOne_append]
    exact executeOp_firstKeys herr
  · rw [oneByOne_append]
    exact executeOp_error hfits herr
  · obtain ⟨e, he⟩ := executeTxn_aborted habort s batch
    rw [he]
    refine ⟨rfl, length_map _, fun r hr => ?_⟩
    obtain ⟨p, -, rfl⟩ := mem_map.mp hr
    exact ⟨_, rfl, isError_errorReply p.1 e⟩

/-! ## A batch that fails halfway -/

def secondWriteFails : Faults where
  write i := if i = 1 then some "value too large" else none

/-- **Counterexample.** A put of two entries whose second value is refused commits the first one
    and answers with an error. -/
theorem half_put_is_committed : ¬BatchAtomic (fun _ : ℕ => none) none none
      [(.putBatch [(0, []), (1, [])], secondWriteFails)] := by
  intro h
  have hhalf : FailsHalfway secondWriteFails (fun _ : ℕ => none)
      (.putBatch [(0, []), (1, [])]) := by
    refine ⟨rfl, [(0, [])], (1, []), [], rfl, fun j hj => ?_, .inr (by decide), by simp⟩
    have hzero : j = 0 := Nat.lt_one_iff.mp hj
    subst hzero
    exact ⟨rfl, rfl⟩
  have hsame := h.errors rfl rfl [] _ _ [] rfl hhalf.isError
  have hkey := congrFun hsame 0
  cases hkey

end Depot.Redb
