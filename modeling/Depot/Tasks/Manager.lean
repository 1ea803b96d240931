import Depot.Core.World
import Depot.Lib.Pool

/-!
# Background tasks

The task manager (`server/src/server/infra/task.rs`) over the task records of the
key-value store (`core/src/service/task.rs`), and the sweep that reaps tasks
(`server/src/server/worker/cleanup.rs`).

All functions read a record and write it back; only the progress bridge checks that
the record has not changed in between.
-/

namespace Depot

open Lib
open Function (update)

/-! ## Records (`core/src/task.rs`) -/

/-- `TaskStatus`. -/
inductive TaskStatus where
  | pending | running | completed | failed | cancelled
  deriving DecidableEq

/-- The task has ended. -/
def TaskStatus.terminal : TaskStatus → Bool
  | .pending | .running => false
  | .completed | .failed | .cancelled => true

/-- `TaskKind`. -/
inductive TaskKind where
  | check
  | blobGc
  | repoClean (repo : String)
  | rebuildDirEntries
  | bulkDelete (repo pathPrefix : String)
  | repoClone (source target : String)
  deriving DecidableEq

/-- `TaskProgress`. -/
structure TaskProgress where
  totalRepos : ℕ := 0
  completedRepos : ℕ := 0
  totalBlobs : ℕ := 0
  checkedBlobs : ℕ := 0
  failedBlobs : ℕ := 0
  bytesRead : ℕ := 0
  totalBytes : ℕ := 0
  totalArtifacts : ℕ := 0
  checkedArtifacts : ℕ := 0
  phase : String := ""
  deriving DecidableEq

/-- `CheckFinding`. -/
structure CheckFinding where
  repo : Option String
  path : String
  expectedHash : String
  actualHash : Option String
  error : Option String
  fixed : Bool := false
  deriving DecidableEq

/-- `CheckResult`. -/
structure CheckResult where
  totalBlobs : ℕ := 0
  passed : ℕ := 0
  mismatched : ℕ := 0
  missing : ℕ := 0
  errors : ℕ := 0
  findings : List CheckFinding := []
  bytesRead : ℕ := 0
  dryRun : Bool := false
  fixed : ℕ := 0
  deriving DecidableEq

/-- `GcResult`. -/
structure GcResult where
  drainedRepos : ℕ := 0
  cleanedUploadSessions : ℕ := 0
  scannedArtifacts : ℕ := 0
  expiredArtifacts : ℕ := 0
  dockerDeleted : ℕ := 0
  scannedBlobs : ℕ := 0
  deletedDedupRefs : ℕ := 0
  orphanedBlobsDeleted : ℕ := 0
  orphanedBlobBytesDeleted : ℕ := 0
  elapsedNs : ℕ := 0
  dryRun : Bool := false
  deriving DecidableEq

/-- `RepoCleanResult`. -/
structure RepoCleanResult where
  repo : String
  scannedArtifacts : ℕ := 0
  expiredArtifacts : ℕ := 0
  dockerDeleted : ℕ := 0
  elapsedNs : ℕ := 0
  deriving DecidableEq

/-- `RebuildDirEntriesResult`. -/
structure RebuildDirEntriesResult where
  repos : ℕ := 0
  entriesUpdated : ℕ := 0
  storesUpdated : ℕ := 0
  elapsedNs : ℕ := 0
  deriving DecidableEq

/-- `BulkDeleteResult`. -/
structure BulkDeleteResult where
  repo : String
  pathPrefix : String
  deletedArtifacts : ℕ := 0
  deletedBytes : ℕ := 0
  elapsedNs : ℕ := 0
  deriving DecidableEq

/-- `RepoCloneResult`. -/
structure RepoCloneResult where
  source : String
  target : String
  copiedArtifacts : ℕ := 0
  copiedEntries : ℕ := 0
  elapsedNs : ℕ := 0
  deriving DecidableEq

/-- `TaskResult`. -/
inductive TaskResult where
  | check (r : CheckResult)
  | blobGc (r : GcResult)
  | repoClean (r : RepoCleanResult)
  | rebuildDirEntries (r : RebuildDirEntriesResult)
  | bulkDelete (r : BulkDeleteResult)
  | repoClone (r : RepoCloneResult)
  deriving DecidableEq

/-- `TaskRecord`. -/
structure TaskRecord where
  id : String
  kind : TaskKind
  status : TaskStatus
  createdAt : DateTime
  startedAt : Option DateTime := none
  completedAt : Option DateTime := none
  updatedAt : DateTime
  progress : TaskProgress := {}
  result : Option TaskResult := none
  error : Option String := none
  summary : String := ""
  ownerInstanceId : String
  deleting : Bool := false
  eventSeq : ℕ := 0
  deriving DecidableEq

/-- `TaskEventRecord`. -/
structure TaskEventRecord where
  taskId : String
  seq : ℕ
  timestamp : DateTime
  message : String
  deriving DecidableEq

/-! ## Operations -/

/-- What an instance holds in memory for a task: the last progress, the cancellation
    token and the counter of events. -/
structure TaskRuntime where
  progress : TaskProgress := {}
  cancelled : Bool := false
  eventSeq : ℕ := 0

/-- The atomic operations: the clock, the tables of tasks and of their events, the
    instances that are live, and what an instance holds in memory under its lock. -/
inductive TaskOp where
  | stop
  | now
  | uuid
  | read (id : String)
  | write (id : String) (c : CellOp TaskRecord)
  | list (limit : ℕ)
  | putEvent (e : TaskEventRecord)
  | scanEvents (id : String) (limit : ℕ)
  | deleteEvents (id : String) (seqs : List ℕ)
  | liveInstances
  | own (inst id : String)
  | disown (inst id : String)
  | cancel (inst id : String)
  | nextSeq (inst id : String)
  | sendProgress (id : String) (progress : TaskProgress)
  | runtime (id : String)

/-- Replies; where the outer `Option` is `none`, the store has failed. -/
def TaskOp.Reply : TaskOp → Type
  | .stop => Empty
  | .now => DateTime
  | .uuid => String
  | .read _ => Option (Option (Versioned TaskRecord))
  | .write .. => Option Bool
  | .list _ => Option (List TaskRecord)
  | .putEvent _ => Option Bool
  | .scanEvents .. => Option (List ℕ × Bool)
  | .deleteEvents .. => Option Unit
  | .liveInstances => Option (List String)
  | .own .. => Unit
  | .disown .. => Option TaskRuntime
  | .cancel .. => Bool
  | .nextSeq .. => Option ℕ
  | .sendProgress .. => Unit
  | .runtime _ => TaskRuntime

/-! ## The state -/

/-- The shared state, with what each call has read last of each record, the call that
    has drawn an identifier, and the statuses that were persisted for each task, `none`
    for a deletion. -/
structure TaskState where
  now : DateTime := 0
  drawn : ℕ := 0
  tasks : SortedMap String (Versioned TaskRecord) := SortedMap.empty
  events : String → SortedMap ℕ TaskEventRecord := fun _ => SortedMap.empty
  live : List String := []
  owned : String → String → Bool := fun _ _ => false
  runtime : String → TaskRuntime := fun _ => {}
  seen : ℕ → String → Option (Versioned TaskRecord) := fun _ _ => none
  maker : String → Option ℕ := fun _ => none
  history : String → List (Option TaskStatus) := fun _ => []

namespace TaskState

/-- A record is written or deleted. -/
def write (s : TaskState) (id : String) (c : CellOp TaskRecord) : TaskState :=
  if c.enabled (s.tasks.get id) then
    let cell := c.written (s.tasks.get id)
    { s with
      tasks := s.tasks.assign id cell
      history := update s.history id
        (s.history id ++ [cell.map fun v => v.value.status]) }
  else s

/-- Set what an instance holds for a task. -/
def setOwned (s : TaskState) (inst id : String) (b : Bool) : TaskState :=
  { s with owned := update s.owned inst (update (s.owned inst) id b) }

/-- Set what is held in memory for a task. -/
def setRuntime (s : TaskState) (id : String) (r : TaskRuntime) : TaskState :=
  { s with runtime := update s.runtime id r }

/-- Replace the log of a task. -/
def setEvents (s : TaskState) (id : String) (m : SortedMap ℕ TaskEventRecord) : TaskState :=
  { s with events := update s.events id m }

/-- Remember what a call has read. -/
def setSeen (s : TaskState) (i : ℕ) (cells : String → Option (Versioned TaskRecord)) :
    TaskState :=
  { s with seen := update s.seen i cells }

/-- What an operation of call `i` does; `ok` says whether the store lets it succeed. -/
def exec (x : Ext) (i : ℕ) (o : TaskOp) (ok : Bool) (s : TaskState) :
    Option (TaskState × o.Reply) :=
  match o with
  | .stop => none
  | .now => some (s, s.now)
  | .uuid =>
      some ({ s with
        drawn := s.drawn + 1
        maker := update s.maker (x.uuid s.drawn) (some i) }, x.uuid s.drawn)
  | .read id =>
      some (if ok then
          (s.setSeen i (update (s.seen i) id (s.tasks.get id)), some (s.tasks.get id))
        else (s, none))
  | .write id c =>
      some (if ok then (s.write id c, some (c.enabled (s.tasks.get id))) else (s, none))
  | .list limit =>
      some (if ok then
          (s.setSeen i (fun id => s.tasks.get id), some ((s.tasks.entries.take limit).map fun e => e.2.value))
        else (s, none))
  | .putEvent e =>
      some (if ok then
          if ((s.events e.taskId).get e.seq).isSome then (s, some false)
          else (s.setEvents e.taskId ((s.events e.taskId).insert e.seq e), some true)
        else (s, none))
  | .scanEvents id limit =>
      let seqs := (s.events id).entries.map Prod.fst
      some (s, if ok then some (seqs.take limit, decide (seqs.length ≤ limit)) else none)
  | .deleteEvents id seqs =>
      some (if ok then
          (s.setEvents id (seqs.foldl SortedMap.erase (s.events id)), some ())
        else (s, none))
  | .liveInstances => some (s, if ok then some s.live else none)
  | .own inst id => some ((s.setOwned inst id true).setRuntime id {}, ())
  | .disown inst id =>
      some (if s.owned inst id then
          ((s.setOwned inst id false).setRuntime id { s.runtime id with cancelled := true },
            some (s.runtime id))
        else (s, none))
  | .cancel inst id =>
      some (if s.owned inst id then
          (s.setRuntime id { s.runtime id with cancelled := true }, true)
        else (s, false))
  | .nextSeq inst id =>
      some (if s.owned inst id then
          (s.setRuntime id { s.runtime id with eventSeq := (s.runtime id).eventSeq + 1 },
            some (s.runtime id).eventSeq)
        else (s, none))
  | .sendProgress id progress =>
      some (s.setRuntime id { s.runtime id with progress := progress }, ())
  | .runtime id => some (s, s.runtime id)

end TaskState

/-! ## The functions -/

/-- A function of the manager. -/
abbrev TaskAsync := Task TaskOp TaskOp.Reply

/-- `Utc::now()`. -/
def taskNow : TaskAsync DateTime := Task.call TaskOp.now

/-- A read of a record with its version; a failure counts as no record. -/
def readTask (id : String) : TaskAsync (Option (Versioned TaskRecord)) := do
  let r : Option (Option (Versioned TaskRecord)) ← Task.call (TaskOp.read id)
  pure (r.getD none)

/-- `get_record` (lines 148–156). -/
def getRecord (id : String) : TaskAsync (Option TaskRecord) := do
  let c ← readTask id
  pure (c.map Versioned.value)

/-- `put_record` (lines 142–146). -/
def putRecord (record : TaskRecord) : TaskAsync Unit := do
  let _ ← Task.call (TaskOp.write record.id (.put record))
  pure ()

/-- `create` (lines 160–205). -/
def createTask (inst : String) (kind : TaskKind) : TaskAsync Unit := do
  let id : String ← Task.call TaskOp.uuid
  let now ← taskNow
  putRecord
    { id := id
      kind := kind
      status := .pending
      createdAt := now
      updatedAt := now
      ownerInstanceId := inst }
  let _ ← Task.call (TaskOp.own inst id)
  pure ()

/-- `mark_running` (lines 209–216); the bridge it spawns is a call of its own. -/
def markRunning (id : String) : TaskAsync Unit := do
  match ← getRecord id with
  | none => pure ()
  | some record => do
      let startedAt ← taskNow
      let updatedAt ← taskNow
      putRecord { record with status := .running, startedAt := some startedAt, updatedAt := updatedAt }

/-- One tick of the progress bridge (lines 237–268). -/
def bridgeTick (id : String) : TaskAsync Unit := do
  let before : TaskRuntime ← Task.call (TaskOp.runtime id)
  match ← readTask id with
  | none => pure ()
  | some c =>
      if c.value.status.terminal then pure ()
      else do
        let now ← taskNow
        let after : TaskRuntime ← Task.call (TaskOp.runtime id)
        let record := { c.value with
          progress := before.progress
          updatedAt := now
          eventSeq := after.eventSeq }
        let _ ← Task.call (TaskOp.write record.id (.putIf record (some c.version)))
        pure ()

/-- The progress bridge (lines 230–277): it ends when the task is cancelled or, as the
    environment decides, its sender is gone; `ticks` bounds how often it writes. -/
def progressBridge (id : String) : ℕ → TaskAsync Unit
  | 0 => pure ()
  | ticks + 1 => do
      let r : TaskRuntime ← Task.call (TaskOp.runtime id)
      if r.cancelled then pure ()
      else do
        bridgeTick id
        let r : TaskRuntime ← Task.call (TaskOp.runtime id)
        if r.cancelled then pure () else progressBridge id ticks

/-- `mark_terminal` (lines 300–329). -/
def markTerminal (inst id : String) (status : TaskStatus) (result : Option TaskResult)
    (error : Option String) : TaskAsync Unit := do
  match ← getRecord id with
  | none => pure ()
  | some record => do
      let completedAt ← taskNow
      let updatedAt ← taskNow
      let record := { record with
        status := status
        completedAt := some completedAt
        updatedAt := updatedAt
        result := result
        error := error }
      let held : Option TaskRuntime ← Task.call (TaskOp.disown inst id)
      match held with
      | some r => putRecord { record with progress := r.progress, eventSeq := r.eventSeq }
      | none => putRecord record

/-- `mark_completed` (lines 282–285). -/
def markCompleted (inst id : String) (result : TaskResult) : TaskAsync Unit :=
  markTerminal inst id .completed (some result) none

/-- `mark_failed` (lines 288–291). -/
def markFailed (inst id error : String) : TaskAsync Unit :=
  markTerminal inst id .failed none (some error)

/-- `mark_cancelled` (lines 294–297). -/
def markCancelled (inst id : String) : TaskAsync Unit := markTerminal inst id .cancelled none none

/-- `cancel` (lines 333–340). -/
def cancelTask (inst id : String) : TaskAsync Bool := Task.call (TaskOp.cancel inst id)

/-- `append_log` (lines 345–359). -/
def appendLog (inst id message : String) : TaskAsync Unit := do
  let seq : Option ℕ ← Task.call (TaskOp.nextSeq inst id)
  match seq with
  | none => pure ()
  | some seq => do
      let now ← taskNow
      let _ ← Task.call (TaskOp.putEvent ⟨id, seq, now, message⟩)
      pure ()

/-- `update_summary` (lines 362–369). -/
def updateSummary (id summary : String) : TaskAsync Unit := do
  match ← getRecord id with
  | none => pure ()
  | some record => do
      let now ← taskNow
      putRecord { record with summary := summary, updatedAt := now }

/-- `drain_task_events` (lines 148–177): whether it went through; `fuel` bounds the
    number of batches. -/
def drainTaskEvents (id : String) : ℕ → TaskAsync Bool
  | 0 => .op .stop fun e => nomatch e
  | fuel + 1 => do
      let page : Option (List ℕ × Bool) ← Task.call (TaskOp.scanEvents id 1000)
      match page with
      | none => pure false
      | some (seqs, done) =>
          if seqs = [] then pure true
          else do
            let deleted : Option Unit ← Task.call (TaskOp.deleteEvents id seqs)
            if deleted.isNone then pure false
            else if done then pure true
            else drainTaskEvents id fuel

/-- `delete_task_summary` (lines 90–93). -/
def deleteTaskSummary (id : String) : TaskAsync (Option Bool) :=
  Task.call (TaskOp.write id .remove)

/-- `delete` (lines 423–458). -/
def deleteTask (fuel : ℕ) (inst id : String) : TaskAsync Bool := do
  match ← getRecord id with
  | none => pure false
  | some record => do
      let now ← taskNow
      putRecord { record with deleting := true, updatedAt := now }
      let _ ← cancelTask inst id
      let _ ← drainTaskEvents id fuel
      let deleted ← deleteTaskSummary id
      pure deleted.isSome

/-- What `reap_tasks` does with a task (lines 122–175). -/
def reapTask (fuel : ℕ) (retentionSecs : ℤ) (live : List String) (now : DateTime)
    (task : TaskRecord) : TaskAsync Unit :=
  if task.deleting then do
    if ← drainTaskEvents task.id fuel then
      let _ ← deleteTaskSummary task.id
      pure ()
  else if live ≠ [] ∧ task.status.terminal = false ∧ task.ownerInstanceId ≠ "" ∧
      task.ownerInstanceId ∉ live then
    putRecord { task with
      status := .failed
      completedAt := some now
      updatedAt := now
      error := some ("owner instance " ++ task.ownerInstanceId ++ " is no longer live") }
  else if task.status.terminal then
    match task.completedAt with
    | some completedAt =>
        if retentionSecs ≤ (now - completedAt).tdiv secondNs then
          putRecord { task with deleting := true, updatedAt := now }
        else pure ()
    | none => pure ()
  else pure ()

/-- `reap_tasks` (lines 103–176); `retentionSecs` is the setting as an `i64`. -/
def reapTasks (fuel : ℕ) (retentionSecs : ℤ) : TaskAsync Unit := do
  let tasks : Option (List TaskRecord) ← Task.call (TaskOp.list 10000)
  match tasks with
  | none => pure ()
  | some tasks => do
      let live : Option (List String) ← Task.call TaskOp.liveInstances
      let now ← taskNow
      Task.forEach tasks (reapTask fuel retentionSecs (live.getD []) now)

/-! ## The system -/

/-- A call of the manager, the progress bridge of a task, or a sweep. -/
inductive TaskJob where
  | create (inst : String) (kind : TaskKind)
  | markRunning (id : String)
  | progressBridge (id : String) (ticks : ℕ)
  | sendProgress (id : String) (progress : TaskProgress)
  | markCompleted (inst id : String) (result : TaskResult)
  | markFailed (inst id error : String)
  | markCancelled (inst id : String)
  | cancel (inst id : String)
  | appendLog (inst id message : String)
  | updateSummary (id summary : String)
  | delete (fuel : ℕ) (inst id : String)
  | reap (fuel : ℕ) (retentionSecs : ℤ)
  deriving DecidableEq

/-- The function that a job calls. -/
def TaskJob.code : TaskJob → TaskAsync Unit
  | create inst kind => createTask inst kind
  | markRunning id => Depot.markRunning id
  | progressBridge id ticks => Depot.progressBridge id ticks
  | sendProgress id progress => Task.call (TaskOp.sendProgress id progress)
  | markCompleted inst id result => Depot.markCompleted inst id result
  | markFailed inst id error => Depot.markFailed inst id error
  | markCancelled inst id => Depot.markCancelled inst id
  | cancel inst id => do
      let _ ← cancelTask inst id
      pure ()
  | appendLog inst id message => Depot.appendLog inst id message
  | updateSummary id summary => Depot.updateSummary id summary
  | delete fuel inst id => do
      let _ ← deleteTask fuel inst id
      pure ()
  | reap fuel retentionSecs => reapTasks fuel retentionSecs

/-- The environment: time passes, instances come and go. -/
inductive TaskEnv where
  | tick (d : ℕ)
  | live (instances : List String)
  deriving DecidableEq

/-- Any number of calls, on any number of instances. -/
def taskSystem (x : Ext) : System TaskOp TaskOp.Reply TaskState TaskJob TaskEnv where
  exec i _ o ok s := s.exec x i o ok
  code := TaskJob.code
  env e s :=
    match e with
    | .tick d => some { s with now := s.now + d }
    | .live instances => some { s with live := instances }
  leave _ s := s

end Depot
