import Depot.Events.Apply
import Depot.Events.Readers

/-!
# The event bus, the materializer and a client

The steps in which an event reaches a client of the event stream: the change of a record and its
publication (`server/src/server/infra/event_bus.rs`, lines 369–380), the materializer
(`server/src/server/worker/materializer.rs`, lines 38–139 and 310–386) and the stream
(`server/src/server/infra/event_stream.rs`, lines 53–97).

A change is made and published in three steps: the record is written, a number is drawn, and the
event is sent. The materializer reads the tables of a model one after the other. The stream loads
the model, and subscribes once the client has taken the snapshot.

What had been sent when the client loaded its snapshot is recorded, which the code does not do.

**Deviation.** A table is read in one step, and has its records in the order in which they were
made. A change has the effect on the tables that the event which announces it has on the model.
The statistics that a build finds are arbitrary. The channel keeps its history; a receiver gets
none of what the ring of the channel has dropped. A record whose change no event announces is not
modelled.
-/

namespace Depot.Events

open Lib

/-! ## The bus -/

/-- How far a change has been announced. -/
inductive Announced where
  | written
  | numbered (seq : ℕ)
  | sent
  deriving DecidableEq

/-- A change of a record, with the event that announces it. -/
structure Announcement where
  event : ModelEvent
  stage : Announced := .written
  deriving DecidableEq

/-- An event in the channel, with the index of its change. -/
structure Sent where
  id : ℕ
  envelope : Envelope
  deriving DecidableEq

/-- `EventBus` (lines 346–349) with the records and their changes. -/
structure Bus where
  /-- The records, as a model shows them. -/
  kv : MaterializedModel
  changes : List Announcement := []
  seq : ℕ := 0
  sent : List Sent := []

/-- The steps of those who change records. -/
inductive BusAction where
  | write (event : ModelEvent)
  | number (id : ℕ)
  | send (id : ℕ) (now : DateTime)

/-- A record is written; then `publish` (lines 369–380) draws a number and sends. -/
def Bus.step (b : Bus) : BusAction → Bus
  | .write event =>
      { b with kv := applyEvent b.kv event, changes := b.changes ++ [{ event := event }] }
  | .number id =>
      match b.changes[id]? with
      | some ⟨event, .written⟩ =>
          { b with changes := b.changes.set id ⟨event, .numbered b.seq⟩, seq := b.seq + 1 }
      | _ => b
  | .send id now =>
      match b.changes[id]? with
      | some ⟨event, .numbered n⟩ =>
          { b with
            changes := b.changes.set id ⟨event, .sent⟩
            sent := b.sent ++
              [⟨id, { seq := n, timestamp := now, topic := event.topic, event := event }⟩] }
      | _ => b

/-- What a receiver finds. -/
inductive Arrival where
  | item (x : Sent)
  | lagged (pos : ℕ)
  | empty
  deriving DecidableEq

/-- `Receiver::recv` at a position of the channel: what the ring has dropped is skipped. -/
def Bus.receive (b : Bus) (capacity pos : ℕ) : Arrival :=
  if pos + capacity < b.sent.length then .lagged (b.sent.length - capacity)
  else
    match b.sent[pos]? with
    | some x => .item x
    | none => .empty

/-! ## The materializer -/

/-- Where the materializer is (lines 38–139). -/
inductive Phase where
  | off
  /-- `build_full_model`: the tables that are left, and the model so far. -/
  | building (startup : Bool) (left : List Topic) (built : MaterializedModel)
  /-- `drain_buffered`. -/
  | draining (batch : List Sent)
  | waiting
  /-- After the first event of a batch. -/
  | collecting (batch : List Sent)
  | stopped

/-- The materializer with the model that is shown. -/
structure Materializer where
  phase : Phase := .off
  pos : ℕ := 0
  model : MaterializedModel

/-- What a build finds besides the records. -/
structure Found where
  /-- `get_repo_stats`, where it does not fail. -/
  repoStats : String → Option RepoStats
  /-- `get_store_stats`, where there are any and they can be read: blobs and bytes. -/
  storeStats : String → Option (ℕ × ℕ)
  /-- The tasks can be listed. -/
  tasks : Bool

/-- The steps of the materializer. -/
inductive WorkerAction where
  | start
  | build (found : Found)
  | fail
  | receive
  | deadline
  | cancel

/-- `COALESCE_BATCH_LIMIT`. -/
def coalesceBatchLimit : ℕ := 64

/-- The tables in the order in which they are read (lines 315–353). -/
def tableOrder : List Topic := [.repos, .stores, .tasks, .users, .roles, .settings]

/-- `ADMIN_ENTITY_CAP` (`core/src/service/scan.rs`, line 24), and the bound of `list_tasks`. -/
def adminEntityCap : ℕ := 10000

/-- The repositories of a build (lines 315–325). Statistics that cannot be read are zero. -/
def Found.repos (found : Found) (repos : List RepoResponse) : List RepoResponse :=
  (repos.take adminEntityCap).map fun r => r.withStats ((found.repoStats r.name).getD {})

/-- The stores of a build (lines 337–345). -/
def Found.stores (found : Found) (stores : List StoreResponse) : List StoreResponse :=
  (stores.take adminEntityCap).map fun s =>
    { s with blobCount := (found.storeStats s.name).map Prod.fst
             totalBytes := (found.storeStats s.name).map Prod.snd }

/-- The tasks of a build (lines 347–350). `TaskManager::list` turns a failure into no tasks. -/
def Found.taskList (found : Found) (tasks : List TaskInfo) : List TaskInfo :=
  if found.tasks then (tasks.take adminEntityCap).map fun t => { t with log := [] } else []

/-- One table of a build. -/
def copyTable (found : Found) (t : Topic) (source m : MaterializedModel) : MaterializedModel :=
  match t with
  | .repos => { m with pub.repos := found.repos source.pub.repos }
  | .stores => { m with pub.stores := found.stores source.pub.stores }
  | .tasks => { m with pub.tasks := found.taskList source.pub.tasks }
  | .users => { m with admin.users := source.admin.users.take adminEntityCap }
  | .roles => { m with admin.roles := source.admin.roles.take adminEntityCap }
  | .settings => { m with pub.settings := source.pub.settings }
  | .health => m

/-- The start of `build_full_model`. -/
def Bus.startBuild (b : Bus) (startup : Bool) : Phase :=
  .building startup tableOrder { pub := { health := b.kv.pub.health } }

/-- `apply_batch`, and back to the loop. -/
def Materializer.applied (m : Materializer) (batch : List Sent) : Materializer :=
  { m with
    phase := .waiting
    model := applyBatch m.model (batch.map Sent.envelope) }

/-- `build_full_model` (lines 310–369) and what follows it: `model.store` at the start and in
    `resync` (lines 371–386). -/
def Materializer.build (m : Materializer) (b : Bus) (found : Found) : Materializer :=
  match m.phase with
  | .building startup (t :: left) built =>
      { m with phase := .building startup left (copyTable found t b.kv built) }
  | .building startup [] built =>
      { m with phase := if startup then .draining [] else .waiting, model := built }
  | _ => m

/-- A failed build is tried again at the start (lines 64–71), and given up in `resync`. -/
def Materializer.fail (m : Materializer) (b : Bus) : Materializer :=
  match m.phase with
  | .building true .. => { m with phase := b.startBuild true }
  | .building false .. => { m with phase := .waiting }
  | _ => m

/-- The loops around `rx.recv` and `rx.try_recv` (lines 84–128 and 144–152). A batch that is cut
    off by a lag is dropped; a lag in `drain_buffered` only ends it. -/
def Materializer.receive (m : Materializer) (capacity : ℕ) (b : Bus) : Materializer :=
  match m.phase with
  | .waiting =>
      match b.receive capacity m.pos with
      | .item x => { m with phase := .collecting [x], pos := m.pos + 1 }
      | .lagged pos => { m with phase := b.startBuild false, pos := pos }
      | .empty => m
  | .collecting batch =>
      if batch.length < coalesceBatchLimit then
        match b.receive capacity m.pos with
        | .item x => { m with phase := .collecting (batch ++ [x]), pos := m.pos + 1 }
        | .lagged pos => { m with phase := b.startBuild false, pos := pos }
        | .empty => m
      else m
  | .draining batch =>
      match b.receive capacity m.pos with
      | .item x => { m with phase := .draining (batch ++ [x]), pos := m.pos + 1 }
      | .lagged pos => { m.applied batch with pos := pos }
      | .empty => m.applied batch
  | _ => m

/-- `run_model_materializer`. -/
def Materializer.step (m : Materializer) (capacity : ℕ) (b : Bus) : WorkerAction → Materializer
  | .start =>
      match m.phase with
      | .off => { m with phase := b.startBuild true, pos := b.sent.length }
      | _ => m
  | .build found => m.build b found
  | .fail => m.fail b
  | .receive => m.receive capacity b
  | .deadline =>
      -- the deadline or a full batch
      match m.phase with
      | .collecting batch => m.applied batch
      | _ => m
  | .cancel =>
      match m.phase with
      | .off => m
      | .building false .. => m
      | .draining _ => m
      | _ => { m with phase := .stopped }

/-! ## The client -/

/-- A client of the stream: its snapshot, its receiver and the deltas that it was sent. -/
structure Client where
  snapshot : Option ModelSnapshot := none
  /-- What had been sent when the snapshot was loaded. -/
  before : ℕ := 0
  pos : Option ℕ := none
  deltas : List Sent := []
  resync : Option Envelope := none

/-- The steps of the stream. -/
inductive ClientAction where
  | load
  | subscribe
  | receive (now : DateTime)

/-- The parameters of a stream: the capacity of the channel, whether the user is an
    administrator, and the query. -/
structure StreamConfig where
  capacity : ℕ
  admin : Bool
  raw : Option String

def StreamConfig.topics (cfg : StreamConfig) : List Topic := parseTopics cfg.raw cfg.admin

/-- The loop of the stream (lines 62–95). -/
def Client.receive (c : Client) (cfg : StreamConfig) (b : Bus) (now : DateTime) : Client :=
  match c.pos, c.resync with
  | some pos, none =>
      match b.receive cfg.capacity pos with
      | .item x =>
          if x.envelope.topic ∈ cfg.topics then
            { c with pos := some (pos + 1), deltas := c.deltas ++ [x] }
          else { c with pos := some (pos + 1) }
      | .lagged _ =>
          { c with
            resync := some { seq := b.seq, timestamp := now, topic := .health, event := .resync } }
      | .empty => c
  | _, _ => c

/-- `event_stream` (lines 53–97). -/
def Client.step (c : Client) (cfg : StreamConfig) (b : Bus) (m : Materializer) :
    ClientAction → Client
  | .load =>
      match c.snapshot with
      | none =>
          { c with snapshot := some (m.model.toSnapshot cfg.admin), before := b.sent.length }
      | some _ => c
  | .subscribe =>
      match c.snapshot, c.pos with
      | some _, none => { c with pos := some b.sent.length }
      | _, _ => c
  | .receive now => c.receive cfg b now

/-! ## The whole -/

/-- The bus, the materializer and the client. -/
structure Hub where
  bus : Bus
  materializer : Materializer
  client : Client := {}

/-- The steps of all of them. -/
inductive Action where
  | bus (a : BusAction)
  | worker (a : WorkerAction)
  | client (a : ClientAction)

/-- One step. -/
def Hub.step (cfg : StreamConfig) (s : Hub) : Action → Hub
  | .bus a => { s with bus := s.bus.step a }
  | .worker a => { s with materializer := s.materializer.step cfg.capacity s.bus a }
  | .client a => { s with client := s.client.step cfg s.bus s.materializer a }

/-- The server before it starts its materializer (`MaterializedModel::empty`). -/
def Hub.start (kv : MaterializedModel) : Hub :=
  { bus := { kv := kv }
    materializer := { model := { pub := { health := kv.pub.health } } } }

end Depot.Events
