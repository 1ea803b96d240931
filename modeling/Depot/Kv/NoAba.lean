import Depot.Kv.Redb
import Depot.Kv.Dynamo

/-!
# Optimistic concurrency without ABA

Leases, upload sessions, directory counters and artifact records are all
updated by reading a value with its version and writing it back on the
condition that the version is still the same. That is sound for a key as long
as no delete of it takes effect: the version lives in the stored value, so a
key that is deleted and created again starts over.

Results:
* `noAba`: in both backends, without a delete of the key in between, a
  conditional write or delete that succeeds has missed nothing, and a version
  is never shown with two values.
* `aba_after_delete`: a delete and a put in between bring the version back.
-/

namespace Depot

open Lib

variable {K : Type} [DecidableEq K]

/-- A read of `key` in `s`, the operations `ops` of all clients and then a
    conditional operation: nothing slips through in between. -/
def Redb.NoAba (key : K) (s : Redb.State K) (ops : List (Redb.WriteOp K)) : Prop :=
  ∀ value v, Redb.getVersioned s key = some (value, v) →
    (∀ op : Redb.WriteOp K, op.Expects key v →
      (Redb.execute (runOps Redb.stepOp s ops) op).2 = .bool true →
      Along Redb.stepOp (fun s op => Redb.touches op s key = false) s ops) ∧
    ∀ value', Redb.getVersioned (runOps Redb.stepOp s ops) key = some (value', v) →
      value' = value

/-- The same for the requests of the DynamoDB backend. -/
def Dynamo.NoAba (key : K) (s : Dynamo.State K) (ops : List (Dynamo.Request K)) : Prop :=
  ∀ value v, Dynamo.getVersioned s key = some (value, v) →
    (∀ op : Dynamo.Request K, op.Expects key v →
      (Dynamo.execute (runOps Dynamo.stepOp s ops) op).2 = .bool true →
      Along Dynamo.stepOp (fun s op => Dynamo.touches op s key = false) s ops) ∧
    ∀ value', Dynamo.getVersioned (runOps Dynamo.stepOp s ops) key = some (value', v) →
      value' = value

/-- **Main theorem.** In every run in which no delete of the key takes effect
    (and its version stays a `u64`), both backends exclude ABA. -/
theorem noAba (key : K) :
    (∀ (s : Redb.State K) (ops : List (Redb.WriteOp K)),
      Along Redb.stepOp (Redb.Keeps key) s ops → Redb.NoAba key s ops) ∧
    (∀ (s : Dynamo.State K) (ops : List (Dynamo.Request K)),
      Along Dynamo.stepOp (Dynamo.Keeps key) s ops → Dynamo.NoAba key s ops) := by
  constructor
  · intro s ops hkeep value v hget
    refine ⟨fun op hop hsucc => ?_, fun value' hget' => ?_⟩
    · obtain ⟨value', hget'⟩ := Redb.version_of_success hop hsucc
      exact (Redb.untouched_of_version hget hkeep hget').2
    · exact (Redb.untouched_of_version hget hkeep hget').1
  · intro s ops hkeep value v hget
    refine ⟨fun op hop hsucc => ?_, fun value' hget' => ?_⟩
    · obtain ⟨value', hget'⟩ := Dynamo.version_of_success hop hsucc
      exact (Dynamo.untouched_of_version hget hkeep hget').2
    · exact (Dynamo.untouched_of_version hget hkeep hget').1

/-- A key that holds `[1]`, in the embedded backend. -/
def redbSample : Redb.State Unit := Redb.stepOp (fun _ => none) (.put () [1])

/-- A key that holds `[1]`, in the DynamoDB backend. -/
def dynamoSample : Dynamo.State Unit := Dynamo.stepOp (fun _ => none) (.put () [1])

/-- Two puts without a delete. -/
theorem noAba_puts : Redb.NoAba () redbSample [.put () [2], .putIfVersion () [3] (some 2)] ∧
      Dynamo.NoAba () dynamoSample [.put () [2], .putIfVersion () [3] (some 2)] :=
  ⟨(noAba ()).1 _ _ ⟨⟨by decide, by decide⟩, ⟨by decide, by decide⟩, trivial⟩,
    (noAba ()).2 _ _ ⟨⟨by decide, by decide⟩, ⟨by decide, by decide⟩, trivial⟩⟩

/-- **ABA.** A client reads `[1]` at version 1; another one deletes the key and
    puts `[2]`. The key then shows `[2]` at version 1, and the first client's
    conditional put goes through, in both backends. -/
theorem aba_after_delete :
    (Redb.getVersioned redbSample () = some ([1], 1) ∧
      Redb.getVersioned (runOps Redb.stepOp redbSample [.delete (), .put () [2]]) () =
        some ([2], 1) ∧
      (Redb.execute (runOps Redb.stepOp redbSample [.delete (), .put () [2]])
        (.putIfVersion () [3] (some 1))).2 = .bool true ∧
      ¬ Redb.NoAba () redbSample [.delete (), .put () [2]]) ∧
    (Dynamo.getVersioned dynamoSample () = some ([1], 1) ∧
      Dynamo.getVersioned (runOps Dynamo.stepOp dynamoSample [.delete (), .put () [2]]) () =
        some ([2], 1) ∧
      (Dynamo.execute (runOps Dynamo.stepOp dynamoSample [.delete (), .put () [2]])
        (.putIfVersion () [3] (some 1))).2 = .bool true ∧
      ¬ Dynamo.NoAba () dynamoSample [.delete (), .put () [2]]) := by
  refine ⟨⟨by decide, by decide, by decide, fun h => ?_⟩,
    ⟨by decide, by decide, by decide, fun h => ?_⟩⟩
  · exact absurd ((h [1] 1 (by decide)).2 [2] (by decide)) (by decide)
  · exact absurd ((h [1] 1 (by decide)).2 [2] (by decide)) (by decide)

end Depot
