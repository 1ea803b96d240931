import Depot.Tasks.Lifecycle

/-!
# The tail of a task log

The state scanner (`server/worker/state_scanner.rs`, lines 231–316) beside the task manager: what
it publishes of the log of a task, in any order of the operations of both.

A pass lists the records of the tasks and then looks at one after the other, so calls of the task
manager come between. What it publishes of a task is the part of the log behind the entries that
it takes for published; how many these are it keeps for itself, as the count in the record that it
has looked at last.

Results:
* `TailState.careful`: a test that implies the condition, for runs that are computed.
* `Tailed.scanRecord`: what a pass makes of one record.
* `task_log_once`: when every entry is published once.
* `entry_left_out`: an entry between two passes that is not.

**The scanner takes the number of entries for the number of the last one.** What it has seen is a
count, and it goes on after the entry with that number, so the next entry is left out.
-/

namespace Depot

open Lib List
open Function (update)

/-! ## The scanner -/

/-- `TaskLogEntry`. -/
structure TaskLogEntry where
  timestamp : DateTime
  message : String
  deriving DecidableEq

/-- The line of the log that an entry stands for. -/
def TaskEventRecord.logEntry (e : TaskEventRecord) : TaskLogEntry := ⟨e.timestamp, e.message⟩

/-- The events about tasks, with the log that they carry. -/
inductive TaskNotice
  | created (id : String) (log : List TaskLogEntry)
  | updated (id : String) (log : List TaskLogEntry)
  | deleted (id : String)

/-- `TaskDigest`. -/
structure TaskDigest where
  status : TaskStatus
  updatedAt : DateTime
  eventSeq : ℕ
  deriving DecidableEq

/-- The digest of a record. -/
def TaskDigest.of (record : TaskRecord) : TaskDigest :=
  ⟨record.status, record.updatedAt, record.eventSeq⟩

/-- What `ScannerState` holds of the tasks, the records that a pass has yet to look at, and the
    events. -/
structure TaskScanner where
  taskDigests : SortedMap String TaskDigest := .empty
  taskEventSeq : String → Option ℕ := fun _ => none
  left : Option (List TaskRecord) := none
  seen : List String := []
  published : List TaskNotice := []

/-- `TASK_EVENT_TAIL_BATCH`. -/
def taskEventTailBatch : ℕ := 1000

/-- `list_task_events_since` (`core/src/service/task.rs`, lines 120–142). -/
def listTaskEventsSince (s : TaskState) (id : String) (fromSeq limit : ℕ) : List TaskEventRecord :=
  ((s.events id).page fromSeq none limit).1.map Prod.snd

/-- The first entry that is read (lines 293–297). -/
def tailStart (lastSeenSeq : ℕ) : ℕ := if lastSeenSeq = 0 then 0 else lastSeenSeq + 1

/-- The log in `build_task_info` (lines 286–316); `ok` says whether the events can be listed. -/
def taskInfoLog (s : TaskState) (ok : Bool) (record : TaskRecord) (lastSeenSeq : ℕ) :
    List TaskLogEntry :=
  if lastSeenSeq < record.eventSeq then
    if ok then
      (listTaskEventsSince s record.id (tailStart lastSeenSeq) taskEventTailBatch).map
        TaskEventRecord.logEntry
    else []
  else []

/-- An event is published, and the record is noted. -/
def TaskScanner.publish (sc : TaskScanner) (record : TaskRecord) (notice : TaskNotice) :
    TaskScanner :=
  { sc with
    published := sc.published ++ [notice]
    taskDigests := sc.taskDigests.insert record.id (.of record)
    taskEventSeq := update sc.taskEventSeq record.id (some record.eventSeq) }

/-- One record of `scan_tasks` (lines 239–267). -/
def scanRecord (s : TaskState) (ok : Bool) (sc : TaskScanner) (record : TaskRecord) :
    TaskScanner :=
  if record.deleting then sc
  else
    let sc := { sc with seen := record.id :: sc.seen }
    match sc.taskDigests.get record.id with
    | none => sc.publish record (.created record.id (taskInfoLog s ok record 0))
    | some prev =>
        if prev = .of record then sc
        else sc.publish record (.updated record.id
          (taskInfoLog s ok record ((sc.taskEventSeq record.id).getD 0)))

/-- A task that is gone. -/
def TaskScanner.drop (sc : TaskScanner) (id : String) : TaskScanner :=
  { sc with
    published := sc.published ++ [.deleted id]
    taskDigests := sc.taskDigests.erase id
    taskEventSeq := update sc.taskEventSeq id none }

/-- The end of `scan_tasks` (lines 269–279). -/
def scanDeleted (sc : TaskScanner) : TaskScanner :=
  ((sc.taskDigests.entries.map Prod.fst).filter (· ∉ sc.seen)).foldl .drop { sc with left := none }

/-! ## The system -/

/-- The calls of the task manager, and the scanner. -/
structure TailState where
  pool : Pool TaskOp TaskOp.Reply TaskState TaskJob
  scanner : TaskScanner := {}

/-- An event of the task manager, or the scanner lists the tasks, looks at the next record, or
    ends a pass. -/
inductive TailEvent
  | task (e : Event TaskJob TaskEnv)
  | list (ok : Bool)
  | record (ok : Bool)
  | finish

/-- One event; what is not possible changes nothing. -/
def tailStep (x : Ext) (s : TailState) : TailEvent → TailState
  | .task e => { s with pool := (s.pool.apply (taskSystem x) .free e).getD s.pool }
  | .list ok =>
      if s.scanner.left.isNone ∧ ok then
        { s with scanner := { s.scanner with
            left := some ((s.pool.shared.tasks.entries.take 10000).map fun e => e.2.value)
            seen := [] } }
      else s
  | .record ok =>
      match s.scanner.left with
      | some (record :: rest) =>
          { s with scanner :=
              scanRecord s.pool.shared ok { s.scanner with left := some rest } record }
      | _ => s
  | .finish =>
      match s.scanner.left with
      | some [] => { s with scanner := scanDeleted s.scanner }
      | _ => s

variable {x : Ext} {id : String}

/-! ## What is published -/

/-- The entries of a task in an event. -/
def TaskNotice.log (id : String) : TaskNotice → List TaskLogEntry
  | .created id' log | .updated id' log => if id' = id then log else []
  | .deleted _ => []

/-- The entries of a task that have been published. -/
def TaskScanner.delivered (sc : TaskScanner) (id : String) : List TaskLogEntry :=
  sc.published.flatMap (TaskNotice.log id)

/-- The count that the scanner goes on from. -/
def TaskScanner.lastSeen (sc : TaskScanner) (id : String) : ℕ :=
  if (sc.taskDigests.get id).isSome then (sc.taskEventSeq id).getD 0 else 0

/-- What has been published are the first entries of the log, each once and in order, and all that
    were counted. -/
def Tailed (s : TaskState) (sc : TaskScanner) (id : String) : Prop :=
  ∃ k, sc.lastSeen id ≤ k ∧ (sc.delivered id).map some =
    (range k).map fun i => ((s.events id).get i).map TaskEventRecord.logEntry

/-- From `start` on the entries up to `stop` are stored, and no others unless a batch is full. -/
structure StoredUpTo (m : SortedMap ℕ TaskEventRecord) (start stop : ℕ) : Prop where
  stored : ∀ i, start ≤ i → i < stop → (m.get i).isSome = true
  batch : stop ≤ start + taskEventTailBatch
  rest : stop < start + taskEventTailBatch → ∀ i, stop ≤ i → m.get i = none

/-- If the count of a record has risen, the entries can be listed, those before the first one that
    is read have been published, and those that are counted are stored and fit into a batch. -/
def TailsOn (s : TaskState) (sc : TaskScanner) (ok : Bool) (record : TaskRecord) : Prop :=
  sc.lastSeen record.id < record.eventSeq → ok = true ∧
    (sc.delivered record.id).length = tailStart (sc.lastSeen record.id) ∧
      ∃ stop, record.eventSeq ≤ stop ∧
        StoredUpTo (s.events record.id) (tailStart (sc.lastSeen record.id)) stop

/-- An entry that is stored stays as it is, and a record is met as above. -/
def TailCareful (x : Ext) (id : String) (s : TailState) : TailEvent → Prop
  | .task e => ∀ i v, (s.pool.shared.events id).get i = some v →
      ((tailStep x s (.task e)).pool.shared.events id).get i = some v
  | .record ok => ∀ record rest, s.scanner.left = some (record :: rest) → record.id = id →
      record.deleting = false → TailsOn s.pool.shared s.scanner ok record
  | _ => True

/-- `TailCareful`, with as many entries as are stored for the last one. -/
def TailState.careful (x : Ext) (id : String) (s : TailState) : TailEvent → Bool
  | .task e => (s.pool.shared.events id).entries.all fun v =>
      decide (((tailStep x s (.task e)).pool.shared.events id).get v.1 = some v.2)
  | .record ok =>
      let m := s.pool.shared.events id
      let start := tailStart (s.scanner.lastSeen id)
      s.scanner.left.all fun records => records.head?.all fun record =>
        decide (s.scanner.lastSeen id < record.eventSeq → ok = true ∧
          (s.scanner.delivered id).length = start ∧ record.eventSeq ≤ m.entries.length ∧
            m.entries.length ≤ start + taskEventTailBatch ∧
              m.entries.map Prod.fst = range m.entries.length)
  | _ => true

theorem careful_sound {x : Ext} {id : String} {s : TailState} {e : TailEvent}
    (h : s.careful x id e = true) : TailCareful x id s e := by
  cases e with
  | task e =>
    intro i v hget
    exact of_decide_eq_true (all_eq_true.mp h (i, v) (SortedMap.mem_entries_iff.mpr hget))
  | record ok =>
    intro record rest hleft hid _ hlt
    subst hid
    simp only [TailState.careful, hleft, Option.all_some, head?_cons, decide_eq_true_eq] at h
    obtain ⟨hok, hlen, hcount, hbatch, hkeys⟩ := h hlt
    have hkey : ∀ i, ((s.pool.shared.events record.id).get i).isSome = true ↔
        i < (s.pool.shared.events record.id).entries.length := by
      intro i
      rw [← mem_range, ← hkeys, mem_map]
      constructor
      · intro hsome
        obtain ⟨v, hv⟩ := Option.isSome_iff_exists.mp hsome
        exact ⟨(i, v), SortedMap.mem_entries_iff.mpr hv, rfl⟩
      · rintro ⟨⟨j, v⟩, hmem, rfl⟩
        rw [SortedMap.mem_entries_iff.mp hmem]
        rfl
    refine ⟨hok, hlen, _, hcount, ⟨fun i _ hi => (hkey i).mpr hi, hbatch, fun _ i hi => ?_⟩⟩
    rw [← Option.not_isSome_iff_eq_none, hkey]
    exact Nat.not_lt.mpr hi
  | _ => trivial

/-! ## What is listed -/

variable {m : SortedMap ℕ TaskEventRecord} {start stop : ℕ}

theorem range_of_get {v : TaskEventRecord} (h : m.get start = some v) :
    m.range start none = (start, v) :: m.range (start + 1) none := by
  refine eq_of_mem_iff_of_sorted (m.range_sorted _ _)
    (pairwise_cons.mpr ⟨fun e he => (SortedMap.mem_range.mp he).2.1, m.range_sorted _ _⟩)
    fun e => ?_
  rw [mem_cons, SortedMap.mem_range, SortedMap.mem_range, SortedMap.mem_entries_iff]
  constructor
  · rintro ⟨he, hle, hstop⟩
    rcases hle.eq_or_lt with rfl | hlt
    · exact .inl (Prod.ext rfl (Option.some.inj (he.symm.trans h)))
    · exact .inr ⟨he, hlt, hstop⟩
  · rintro (rfl | ⟨he, hle, hstop⟩)
    · exact ⟨h, le_rfl, nofun⟩
    · exact ⟨he, by omega, hstop⟩

/-- The entries that are stored without a gap come first. -/
theorem map_range_take (n r : ℕ)
    (h : ∀ i, start ≤ i → i < start + n → (m.get i).isSome = true) :
    ((m.range start none).take (n + r)).map (fun e => some e.2) =
      (range' start n).map m.get ++ ((m.range (start + n) none).take r).map fun e => some e.2 := by
  induction n generalizing start with
  | zero => rw [Nat.zero_add]; rfl
  | succ n ih =>
    obtain ⟨v, hv⟩ := Option.isSome_iff_exists.mp (h start le_rfl (by omega))
    have hrest := @ih (start + 1) fun i hle hlt => h i (by omega) (by omega)
    rw [range_of_get hv, Nat.add_right_comm, take_succ_cons, map_cons, hrest, range'_succ, map_cons,
      hv, cons_append, Nat.add_assoc start, Nat.add_comm 1]

theorem StoredUpTo.listed {s : TaskState} (h : StoredUpTo (s.events id) start stop)
    (hle : start ≤ stop) : (listTaskEventsSince s id start taskEventTailBatch).map some =
      (range' start (stop - start)).map (s.events id).get := by
  obtain ⟨r, hr⟩ : ∃ r, taskEventTailBatch = stop - start + r :=
    ⟨taskEventTailBatch - (stop - start), by have := h.batch; omega⟩
  have hrest : ((s.events id).range (start + (stop - start)) none).take r = [] := by
    rcases Nat.eq_zero_or_pos r with rfl | hpos
    · exact take_zero
    · refine take_eq_nil_iff.mpr (.inr (eq_nil_iff_forall_not_mem.mpr fun e he => ?_))
      obtain ⟨hmem, hstart, -⟩ := SortedMap.mem_range.mp he
      have hnone := h.rest (by omega) e.1 (by omega)
      rw [SortedMap.mem_entries_iff.mp hmem] at hnone
      cases hnone
  have hall := @map_range_take (s.events id) start (stop - start) r fun i hi hlt =>
    h.stored i hi (by omega)
  rw [hrest, ← hr, map_nil, append_nil] at hall
  rw [← hall, listTaskEventsSince, map_map]
  rfl

/-! ## A pass -/

variable {s : TaskState} {sc : TaskScanner} {record : TaskRecord} {ok : Bool}

/-- A record is published: the tail that is read goes on where the published entries end. -/
theorem Tailed.publish (h : Tailed s sc id) {notice : TaskNotice}
    (hlog : notice.log id =
      if record.id = id then taskInfoLog s ok record (sc.lastSeen id) else [])
    (hc : record.id = id → TailsOn s sc ok record) :
    Tailed s (sc.publish record notice) id := by
  obtain ⟨k, hseen, hdelivered⟩ := h
  have hnew : (sc.publish record notice).delivered id = sc.delivered id ++ notice.log id := by
    rw [TaskScanner.delivered, TaskScanner.publish, flatMap_append, flatMap_singleton]
    rfl
  rw [Tailed, hnew, hlog]
  by_cases hid : record.id = id
  · subst hid
    have hcount : (sc.publish record notice).lastSeen record.id = record.eventSeq := by
      simp [TaskScanner.lastSeen, TaskScanner.publish]
    rw [hcount, if_pos rfl, taskInfoLog]
    by_cases hlt : sc.lastSeen record.id < record.eventSeq
    · obtain ⟨rfl, hlen, stop, hstop, hstored⟩ := hc rfl hlt
      have hk : k = (sc.delivered record.id).length := by
        simpa using (congrArg length hdelivered).symm
      have hle : tailStart (sc.lastSeen record.id) ≤ stop := by
        unfold tailStart
        split_ifs <;> omega
      have hlisted := congrArg (map (Option.map TaskEventRecord.logEntry)) (hstored.listed hle)
      rw [map_map, map_map] at hlisted
      refine ⟨stop, hstop, ?_⟩
      rw [if_pos hlt, if_pos rfl, map_append, hdelivered, hk, hlen, map_map, range_eq_range',
        range_eq_range', ← Nat.add_sub_of_le hle, ← range'_append_1, map_append, Nat.zero_add]
      exact congrArg _ hlisted
    · rw [if_neg hlt, append_nil]
      exact ⟨k, by omega, hdelivered⟩
  · have hcount : (sc.publish record notice).lastSeen id = sc.lastSeen id := by
      simp [TaskScanner.lastSeen, TaskScanner.publish, SortedMap.get_insert, Ne.symm hid]
    rw [hcount, if_neg hid, append_nil]
    exact ⟨k, hseen, hdelivered⟩

/-- One record of a pass. -/
theorem Tailed.scanRecord (h : Tailed s sc id)
    (hc : record.id = id → record.deleting = false → TailsOn s sc ok record) :
    Tailed s (Depot.scanRecord s ok sc record) id := by
  unfold Depot.scanRecord
  split_ifs with hdel
  · exact h
  · have hc' := fun hid => hc hid (Bool.not_eq_true _ ▸ hdel)
    have hs : Tailed s { sc with seen := record.id :: sc.seen } id := h
    dsimp only
    cases hget : sc.taskDigests.get record.id with
    | none =>
      refine hs.publish ?_ hc'
      rw [TaskNotice.log]
      by_cases hid : record.id = id
      · subst hid
        simp [TaskScanner.lastSeen, hget]
      · simp [hid]
    | some prev =>
      dsimp only
      split_ifs
      · exact hs
      · refine hs.publish ?_ hc'
        rw [TaskNotice.log]
        by_cases hid : record.id = id
        · subst hid
          simp [TaskScanner.lastSeen, hget]
        · simp [hid]

/-- A task that is gone is counted from the start again. -/
theorem Tailed.drop (h : Tailed s sc id) (id' : String) : Tailed s (sc.drop id') id := by
  obtain ⟨k, hseen, hdelivered⟩ := h
  have hcount : (sc.drop id').lastSeen id ≤ sc.lastSeen id := by
    by_cases hid : id = id' <;> simp [TaskScanner.lastSeen, TaskScanner.drop, SortedMap.get_erase, hid]
  refine ⟨k, hcount.trans hseen, ?_⟩
  rw [← hdelivered, TaskScanner.delivered, TaskScanner.drop, flatMap_append, flatMap_singleton]
  exact congrArg _ (append_nil _)

/-- **Steps.** -/
theorem Tailed.step {s : TailState} (h : Tailed s.pool.shared s.scanner id) {e : TailEvent}
    (hc : TailCareful x id s e) :
    Tailed (tailStep x s e).pool.shared (tailStep x s e).scanner id := by
  cases e with
  | task e =>
    obtain ⟨k, hseen, hdelivered⟩ := h
    refine ⟨k, hseen, hdelivered.trans (map_congr_left fun i hi => ?_)⟩
    -- Each of the first entries has been published, so it is stored.
    cases hget : (s.pool.shared.events id).get i with
    | some v => rw [hc i v hget]
    | none =>
      have hmem := mem_map_of_mem (f := fun i =>
        ((s.pool.shared.events id).get i).map TaskEventRecord.logEntry) hi
      rw [← hdelivered, hget] at hmem
      simp at hmem
  | list ok =>
    unfold tailStep
    dsimp only
    split_ifs <;> exact h
  | record ok =>
    unfold tailStep
    dsimp only
    split
    · next record rest hleft => exact Tailed.scanRecord h (hc record rest hleft)
    · exact h
  | finish =>
    unfold tailStep
    dsimp only
    split
    · exact foldlRecOn (motive := fun sc => Tailed s.pool.shared sc id) _ _ h
        fun _ hsc id' _ => Tailed.drop hsc id'
    · exact h

/-- **Runs.** In every run that meets the condition, what is published of a log are its first
    entries, each once and in order, and all that were counted. -/
theorem task_log_once {s0 : TaskState} {es : List TailEvent}
    (h : Along (tailStep x) (TailCareful x id) { pool := .init s0 } es) :
    Tailed (runOps (tailStep x) { pool := .init s0 } es).pool.shared
      (runOps (tailStep x) { pool := .init s0 } es).scanner id :=
  h.preserves (I := fun s => Tailed s.pool.shared s.scanner id) (fun _ _ hs hc => hs.step hc)
    ⟨0, by simp [TaskScanner.lastSeen], rfl⟩

/-! ## An entry that is left out -/

/-- A pass: the tasks are listed, the only record is looked at, and the pass ends. -/
def onePass : List TailEvent := [.list true, .record true, .finish]

/-- Two entries are counted and a third one is not yet when a pass looks at the task; the fourth
    comes before the next pass. -/
def fourEntries : List TailEvent :=
  (taskRuns ++ taskAlone 2 (.appendLog "i" "u" "one") 3 ++
    taskAlone 3 (.appendLog "i" "u" "two") 3 ++ taskAlone 4 (.progressBridge "u" 1) 7 ++
    taskAlone 5 (.appendLog "i" "u" "three") 3).map .task ++ onePass ++
  (.task (.env (.tick 1)) :: (taskAlone 6 (.appendLog "i" "u" "four") 3 ++
    taskAlone 7 (.markCompleted "i" "u" (.check {})) 5).map .task) ++ onePass

/-- The first pass publishes three entries, and so the second one goes on with the fourth. -/
theorem task_log_once_pass :
    let s := runOps (tailStep .sample) { pool := .init noTasks } fourEntries
    Tailed s.pool.shared s.scanner "u" ∧
      (s.scanner.delivered "u").map TaskLogEntry.message = ["one", "two", "three", "four"] := by
  have hcareful : Along (tailStep .sample) (fun s e => s.careful .sample "u" e = true)
      { pool := .init noTasks } fourEntries := by decide +kernel
  exact ⟨task_log_once (hcareful.mono fun _ _ => careful_sound), by decide +kernel⟩

/-- The scanner looks at a task after each of its two entries has been counted. -/
theorem entry_left_out : ¬∀ es : List TailEvent,
    let s := runOps (tailStep .sample) { pool := .init noTasks } es
    Tailed s.pool.shared s.scanner "u" := by
  intro hall
  obtain ⟨k, hseen, hdelivered⟩ := hall
    ((taskRuns ++ taskAlone 2 (.appendLog "i" "u" "one") 3 ++
        taskAlone 3 (.progressBridge "u" 1) 7).map .task ++ onePass ++
      (.task (.env (.tick 1)) :: (taskAlone 4 (.appendLog "i" "u" "two") 3 ++
        taskAlone 5 (.markCompleted "i" "u" (.check {})) 5).map .task) ++ onePass)
  have hlen := congrArg length hdelivered
  rw [length_map, length_map, length_range] at hlen
  rw [← hlen] at hseen
  revert hseen
  decide +kernel

end Depot
