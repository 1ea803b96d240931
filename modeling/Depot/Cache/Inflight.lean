import Depot.Lib.RelyGuarantee
import Depot.Lib.SortedMap
import Mathlib.Data.String.Basic

/-!
# Single flight

The map of upstream fetches in flight (`core/src/inflight.rs`): the first request
for a key gets a guard, the others a notifier to wait on; dropping the guard
removes the key and wakes those who wait. The map is sharded, each shard an
atomically replaced snapshot with a lock for its writers.

Results:
* `InflightState.setShard_shards`: a write of a shard leaves the others as they are.
-/

namespace Depot

open Lib

/-! ## Operations -/

/-- Identifies a `Notify`. -/
abbrev NotifyId := ℕ

/-- `InflightGuard`. -/
structure InflightGuard where
  key : String
  notify : NotifyId
  deriving DecidableEq

/-- What a write of a shard means for the guards. -/
inductive GuardEvent where
  | claimed (g : InflightGuard)
  | released (g : InflightGuard)

/-- The atomic operations: on the snapshot and the lock of a shard, and on the
    notifiers. `notified` creates the future that `await` waits for; the reply is
    the number of notifications so far. -/
inductive InflightOp where
  | load (shard : ℕ)
  | lock (shard : ℕ)
  | unlock (shard : ℕ)
  | store (shard : ℕ) (data : SortedMap String NotifyId) (e : GuardEvent)
  | newNotify
  | notifyWaiters (n : NotifyId)
  | notified (key : String) (n : NotifyId)
  | await (n : NotifyId) (seen : ℕ)

/-- Replies. -/
def InflightOp.Reply : InflightOp → Type
  | .load _ => SortedMap String NotifyId
  | .newNotify => NotifyId
  | .notified .. => ℕ
  | _ => Unit

/-! ## The state -/

/-- `Shard`, with the task that holds the lock. -/
structure Shard where
  data : SortedMap String NotifyId := SortedMap.empty
  holder : Option ℕ := none

/-- A task that waits for a key: its notifier, and the notifications before it
    began to wait. -/
structure Waiter where
  task : ℕ
  key : String
  notify : NotifyId
  seen : ℕ
  deriving DecidableEq

/-- The shards and the notifiers, with the task that has made each of them; the
    guards whose key is still to be removed, those that are still to wake their
    waiters, and the tasks that wait. -/
structure InflightState where
  shards : ℕ → Shard := fun _ => {}
  notifies : ℕ := 0
  maker : NotifyId → ℕ := fun _ => 0
  calls : NotifyId → ℕ := fun _ => 0
  guards : List InflightGuard := []
  dropping : List InflightGuard := []
  waiting : List Waiter := []

namespace InflightState

/-- Replace the shard with a number. -/
def setShard (s : InflightState) (shard : ℕ) (d : Shard) : InflightState :=
  { s with shards := Function.update s.shards shard d }

theorem setShard_shards (s : InflightState) (shard shard' : ℕ) (d : Shard) :
    (s.setShard shard d).shards shard' = if shard' = shard then d else s.shards shard' :=
  Function.update_apply _ _ _ _

/-- What a write of a shard does to the guards. -/
def noteGuard (s : InflightState) : GuardEvent → InflightState
  | .claimed g => { s with guards := s.guards ++ [g] }
  | .released g => { s with guards := s.guards.erase g, dropping := s.dropping ++ [g] }

/-- What an operation of task `i` does. The lock and `await` have to wait:
    `notify_waiters` wakes the futures that exist when it is called. -/
def exec (i : ℕ) (o : InflightOp) (s : InflightState) : Option (InflightState × o.Reply) :=
  match o with
  | .load shard => some (s, (s.shards shard).data)
  | .lock shard =>
      if (s.shards shard).holder = none then
        some (s.setShard shard { s.shards shard with holder := some i }, ())
      else none
  | .unlock shard => some (s.setShard shard { s.shards shard with holder := none }, ())
  | .store shard data e =>
      some ((s.setShard shard { s.shards shard with data := data }).noteGuard e, ())
  | .newNotify =>
      some ({ s with
        notifies := s.notifies + 1
        maker := Function.update s.maker s.notifies i }, s.notifies)
  | .notifyWaiters n =>
      some ({ s with
        calls := Function.update s.calls n (s.calls n + 1)
        dropping := s.dropping.filter (·.notify ≠ n) }, ())
  | .notified key n => some ({ s with waiting := s.waiting ++ [⟨i, key, n, s.calls n⟩] }, s.calls n)
  | .await n seen =>
      if s.calls n = seen then none
      else some ({ s with waiting := s.waiting.filter fun w => ¬(w.task = i ∧ w.notify = n) }, ())

end InflightState

/-! ## The functions -/

/-- `SHARD_COUNT`. -/
def inflightShardCount : ℕ := 64

/-- A function over the map. -/
abbrev InflightTask := Task InflightOp InflightOp.Reply

/-- `shard.data.load()`. -/
def loadShard (shard : ℕ) : InflightTask (SortedMap String NotifyId) :=
  Task.call (InflightOp.load shard)

/-- `shard.write.lock()`. -/
def lockShard (shard : ℕ) : InflightTask Unit := Task.call (InflightOp.lock shard)

/-- The end of the scope of the lock. -/
def unlockShard (shard : ℕ) : InflightTask Unit := Task.call (InflightOp.unlock shard)

/-- `shard.data.store(Arc::new(new))`. -/
def storeShard (shard : ℕ) (data : SortedMap String NotifyId) (e : GuardEvent) :
    InflightTask Unit := Task.call (InflightOp.store shard data e)

/-- `Arc::new(Notify::new())`. -/
def newNotify : InflightTask NotifyId := Task.call InflightOp.newNotify

/-- `notify.notify_waiters()`. -/
def notifyWaiters (n : NotifyId) : InflightTask Unit := Task.call (InflightOp.notifyWaiters n)

/-- `notify.notified()`, by a request for the key. -/
def notified (key : String) (n : NotifyId) : InflightTask ℕ := Task.call (InflightOp.notified key n)

/-- `.await` of that future. -/
def awaitFuture (n : NotifyId) (seen : ℕ) : InflightTask Unit := Task.call (InflightOp.await n seen)

section

variable (hash : String → ℕ)

/-- `shard` (lines 58–63): the index of the shard of a key. -/
def inflightShard (key : String) : Option ℕ :=
  (List.range inflightShardCount)[hash key % inflightShardCount]?

/-- The slow path of `try_claim` (lines 86–100). -/
def claimLocked (shard : ℕ) (key : String) : InflightTask (Except NotifyId InflightGuard) := do
  lockShard shard
  let snapshot ← loadShard shard
  match snapshot.get key with
  | some notify => do
      unlockShard shard
      pure (.error notify)
  | none => do
      let notify ← newNotify
      storeShard shard (snapshot.insert key notify) (.claimed ⟨key, notify⟩)
      unlockShard shard
      pure (.ok ⟨key, notify⟩)

/-- `try_claim` (lines 71–101). -/
def tryClaim (key : String) : InflightTask (Except NotifyId InflightGuard) :=
  match inflightShard hash key with
  | none => do
      let notify ← newNotify
      pure (.error notify)
  | some shard => do
      let snapshot ← loadShard shard
      match snapshot.get key with
      | some notify => pure (.error notify)
      | none => claimLocked shard key

/-- `InflightGuard::drop` (lines 127–138). -/
def dropGuard (g : InflightGuard) : InflightTask Unit :=
  match inflightShard hash g.key with
  | some shard => do
      lockShard shard
      let snapshot ← loadShard shard
      storeShard shard (snapshot.erase g.key) (.released g)
      unlockShard shard
      notifyWaiters g.notify
  | none => notifyWaiters g.notify

/-- `notify.notified().await`. -/
def awaitNotified (key : String) (n : NotifyId) : InflightTask Unit := do
  let seen ← notified key n
  awaitFuture n seen

/-- A request for a key: it claims the key and drops the guard at some time, or waits
    and, as the caches of some formats do, tries again; `rounds` bounds how often. -/
def inflightRequest (key : String) : ℕ → InflightTask Unit
  | 0 => pure ()
  | rounds + 1 => do
      match ← tryClaim hash key with
      | .ok guard => dropGuard hash guard
      | .error notify => do
          awaitNotified key notify
          inflightRequest key rounds

end

/-- A request: its key, and how often it claims it. -/
structure InflightJob where
  key : String
  rounds : ℕ
  deriving DecidableEq

/-- Any number of requests. -/
def inflightSystem (hash : String → ℕ) :
    System InflightOp InflightOp.Reply InflightState InflightJob Empty where
  exec i _ o _ s := s.exec i o
  code j := inflightRequest hash j.key j.rounds
  env e _ := nomatch e
  leave _ s := s

/-- The condition on a run: nobody begins to wait for a notification that has been
    given already. -/
def inflightRules : Rules InflightOp InflightState InflightJob Empty where
  op _ _ s o _ :=
    match o with
    | .notified _ n => decide (s.calls n = 0)
    | _ => true
  spawn _ _ _ := true
  env _ _ _ := true

/-! ## What must hold -/

/-- The map has a key, with its notifier. -/
def InflightState.Holds (s : InflightState) (key : String) (n : NotifyId) : Prop :=
  ∃ shard, (s.shards shard).data.get key = some n

/-- A task waits that has not been notified since it began to. -/
def InflightState.Suspended (s : InflightState) (w : Waiter) : Prop :=
  w ∈ s.waiting ∧ s.calls w.notify = w.seen

/-- A key has one guard at most until that removes it; the map holds the keys of these
    guards; and who is suspended waits for a guard that has not woken its waiters. -/
structure SingleFlight (s : InflightState) : Prop where
  one : ∀ g ∈ s.guards, ∀ g' ∈ s.guards, g.key = g'.key → g = g'
  distinct : s.guards.Nodup
  exact : ∀ key n, s.Holds key n ↔ ⟨key, n⟩ ∈ s.guards
  awake : ∀ w, s.Suspended w → ⟨w.key, w.notify⟩ ∈ s.guards ++ s.dropping

end Depot
