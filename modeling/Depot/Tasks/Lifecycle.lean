import Depot.Lib.RelyGuarantee
import Depot.Tasks.Manager

/-!
# The life of a task

Every write of a task record but that of the progress bridge is unconditional: it
writes back what was read before, whatever has happened since.

Results:
* `tasks_settled`: as long as nothing is written between the read and the write of a
  call, and no ended task is marked again, the end of a task is final and a deleted
  record stays away.
* `deleted_task_returns`: what happens else.
-/

namespace Depot

open Lib List
open Option (some.inj)
open Function (update update_apply update_of_ne update_self)

/-! ## The condition on a run -/

namespace TaskJob

/-- The call creates a task. -/
def creates : TaskJob → Bool
  | create .. => true
  | _ => false

/-- The status that a call gives to a task. -/
def marks : TaskJob → Option TaskStatus
  | markRunning _ => some .running
  | markCompleted .. => some .completed
  | markFailed .. => some .failed
  | markCancelled .. => some .cancelled
  | _ => none

end TaskJob

/-- The condition on a run: an unconditional write finds the record as the call has read
    it, and no call gives another status to a task that has ended. -/
def taskRules : Rules TaskOp TaskState TaskJob TaskEnv where
  op i j s o _ :=
    match o with
    | .write id (.put _) =>
        j.creates ||
          (decide (s.tasks.get id = s.seen i id) &&
            j.marks.all fun t => (s.tasks.get id).all fun c =>
              !c.value.status.terminal || decide (c.value.status = t))
    | _ => true
  spawn _ _ _ := true
  env _ _ _ := true

/-! ## What must hold -/

/-- What may follow a persisted status: anything if the task has not ended, else the same
    or its deletion; nothing follows a deletion. -/
def TaskStatus.Allows (a b : Option TaskStatus) : Prop :=
  (a = none → b = none) ∧ ∀ t, a = some t → t.terminal = true → b = none ∨ b = some t

/-- In the order they were persisted, no status replaces a terminal one, and a deleted
    record does not come back. -/
def Settled (history : List (Option TaskStatus)) : Prop :=
  history.Pairwise TaskStatus.Allows

/-- The state before a run: no call has read anything, the identifiers to come are new,
    and the record of a task is kept under its identifier. -/
structure TasksStarted (x : Ext) (s : TaskState) : Prop where
  seen : ∀ i id, s.seen i id = none
  maker : ∀ id, s.maker id = none
  history : ∀ id, s.history id = ((s.tasks.get id).map fun c => some c.value.status).toList
  keys : ∀ id c, s.tasks.get id = some c → c.value.id = id
  fresh : ∀ n, s.drawn ≤ n → s.tasks.get (x.uuid n) = none

/-! ## The invariant -/

/-- The last persisted status is the one of the record; what a call has read is the record
    or an older version; the identifiers to come are new. -/
structure TaskInv (x : Ext) (s : TaskState) : Prop where
  settled : ∀ id, Settled (s.history id)
  current : ∀ id, (s.history id = [] ∧ s.tasks.get id = none) ∨
    ∃ before, s.history id = before ++ [(s.tasks.get id).map fun c => c.value.status]
  keys : ∀ id c, s.tasks.get id = some c → c.value.id = id
  seen : ∀ i id c, s.seen i id = some c → c.value.id = id ∧ s.history id ≠ [] ∧
    ∀ c', s.tasks.get id = some c' → c' = c ∨ c.version < c'.version
  made : ∀ id i, s.maker id = some i → ∃ n < s.drawn, id = x.uuid n
  fresh : ∀ n, s.drawn ≤ n → s.history (x.uuid n) = []

/-- What the other calls leave to call `i`: what it remembers, and the identifiers that it
    has drawn and not used. -/
structure TaskRely (i : ℕ) (s s' : TaskState) : Prop where
  seen : s'.seen i = s.seen i
  new : ∀ id, s.maker id = some i → s.history id = [] →
    s'.maker id = some i ∧ s'.history id = []

theorem TaskRely.refl (i : ℕ) (s : TaskState) : TaskRely i s s :=
  ⟨rfl, fun _ hm hh => ⟨hm, hh⟩⟩

theorem TaskRely.trans {i : ℕ} {s s' s'' : TaskState} (h : TaskRely i s s')
    (h' : TaskRely i s' s'') : TaskRely i s s'' := by
  refine ⟨h'.seen.trans h.seen, fun id hm hh => ?_⟩
  obtain ⟨hm', hh'⟩ := h.new id hm hh
  exact h'.new id hm' hh'

/-- The proof outline. -/
def taskLogic (x : Ext) : Logic TaskState TaskJob Unit where
  inv w := TaskInv x w.shared
  rely i w w' := TaskRely i w.shared w'.shared
  guar i w w' := ∀ k ≠ i, TaskRely k w.shared w'.shared
  rely_refl _ _ := TaskRely.refl _ _
  rely_trans h h' := h.trans h'

section

variable {x : Ext} {s : TaskState}

variable {id : String}

variable {c : Versioned TaskRecord}

theorem TaskInv.history_ne (h : TaskInv x s)
    (hc : s.tasks.get id = some c) : s.history id ≠ [] := by
  rcases h.current id with ⟨-, hnone⟩ | ⟨before, hh⟩
  · rw [hc] at hnone
    cases hnone
  · rw [hh]
    exact append_ne_nil_of_right_ne_nil _ (cons_ne_nil _ _)

/-- What was persisted before allows the current status. -/
theorem TaskInv.allows (h : TaskInv x s) {a : Option TaskStatus} (ha : a ∈ s.history id) :
    a = ((s.tasks.get id).map fun c => c.value.status) ∨
      TaskStatus.Allows a ((s.tasks.get id).map fun c => c.value.status) := by
  rcases h.current id with ⟨hnil, -⟩ | ⟨before, hh⟩
  · rw [hnil] at ha
    cases ha
  · have hset := h.settled id
    rw [hh] at ha hset
    rcases mem_append.mp ha with ha | ha
    · exact .inr ((pairwise_append.mp hset).2.2 a ha _ (mem_singleton_self _))
    · exact .inl (mem_singleton.mp ha)

/-! ## Writes -/

variable {o : CellOp TaskRecord}

/-- A write that goes through. -/
theorem write_enabled (he : o.enabled (s.tasks.get id) = true) : s.write id o = { s with
      tasks := s.tasks.assign id (o.written (s.tasks.get id))
      history := update s.history id
        (s.history id ++ [(o.written (s.tasks.get id)).map fun v => v.value.status]) } := by
  rw [TaskState.write, if_pos he]

/-- The invariant after a write, from what the write does to its own record. -/
theorem TaskInv.write (h : TaskInv x s) {id : String} {o : CellOp TaskRecord}
    (he : o.enabled (s.tasks.get id) = true)
    (hallows : ∀ a ∈ s.history id,
      TaskStatus.Allows a ((o.written (s.tasks.get id)).map fun v => v.value.status))
    (hkey : ∀ c, o.written (s.tasks.get id) = some c → c.value.id = id)
    (hrises : ∀ c, o.written (s.tasks.get id) = some c →
      (s.history id = [] ∧ ∀ n, s.drawn ≤ n → x.uuid n ≠ id) ∨
        ∃ c', s.tasks.get id = some c' ∧ c.version = c'.version + 1)
    (hnone : o.written (s.tasks.get id) = none → (s.tasks.get id).isSome) :
    TaskInv x (s.write id o) := by
  have hused : ∀ n, s.drawn ≤ n → x.uuid n ≠ id := by
    intro n hn hid
    cases hw : o.written (s.tasks.get id) with
    | some c =>
      rcases hrises c hw with ⟨-, hfresh⟩ | ⟨c', hc', -⟩
      · exact hfresh n hn hid
      · exact h.history_ne hc' (hid ▸ h.fresh n hn)
    | none =>
      obtain ⟨c', hc'⟩ := Option.isSome_iff_exists.mp (hnone hw)
      exact h.history_ne hc' (hid ▸ h.fresh n hn)
  rw [write_enabled he]
  exact {
    settled := fun id' => by
      show Settled (update s.history id _ id')
      rw [update_apply]
      split_ifs with hid
      · subst hid
        refine pairwise_append.mpr ⟨h.settled id', pairwise_singleton _ _, ?_⟩
        intro a ha b hb
        rw [mem_singleton.mp hb]
        exact hallows a ha
      · exact h.settled id'
    current := fun id' => by
      show (update s.history id _ id' = [] ∧ (s.tasks.assign id _).get id' = none) ∨
        ∃ before, update s.history id _ id' = before ++ [((s.tasks.assign id _).get id').map _]
      rw [update_apply, SortedMap.get_assign]
      split_ifs with hid
      · exact .inr ⟨s.history id, rfl⟩
      · exact h.current id'
    keys := fun id' c hc => by
      have hget : (s.tasks.assign id (o.written (s.tasks.get id))).get id' = some c := hc
      rw [SortedMap.get_assign] at hget
      split_ifs at hget with hid
      · rw [hid]
        exact hkey c hget
      · exact h.keys id' c hget
    seen := fun k id' c hc => by
      obtain ⟨hcid, hhist, hver⟩ := h.seen k id' c hc
      refine ⟨hcid, ?_, fun c' hc' => ?_⟩
      · show update s.history id _ id' ≠ []
        rw [update_apply]
        split_ifs
        · exact append_ne_nil_of_right_ne_nil _ (cons_ne_nil _ _)
        · exact hhist
      · have hget : (s.tasks.assign id (o.written (s.tasks.get id))).get id' = some c' := hc'
        rw [SortedMap.get_assign] at hget
        split_ifs at hget with hid
        · subst hid
          rcases hrises c' hget with ⟨hnil, -⟩ | ⟨c'', hc'', hv⟩
          · exact absurd hnil hhist
          · right
            rcases hver c'' hc'' with rfl | hlt <;> omega
        · exact hver c' hget
    made := h.made
    fresh := fun n hn => by
      show update s.history id _ (x.uuid n) = []
      rw [update_of_ne (hused n hn)]
      exact h.fresh n hn }

/-- A record is written that was there before, by a call that keeps a terminal status. -/
theorem TaskInv.rewrite (h : TaskInv x s) {r : TaskRecord}
    (hc : s.tasks.get r.id = some c) (he : o.enabled (s.tasks.get r.id) = true)
    (hw : o.written (s.tasks.get r.id) = some ⟨c.version + 1, r⟩)
    (hstatus : c.value.status.terminal = true → r.status = c.value.status) :
    TaskInv x (s.write r.id o) := by
  refine h.write he (fun a ha => ?_) (fun c' hc' => ?_) (fun c' hc' => .inr ⟨c, hc, ?_⟩)
    fun hnone => ?_
  · rw [hw]
    have hcur : a = some c.value.status ∨ TaskStatus.Allows a (some c.value.status) := by
      have hall := h.allows ha
      rwa [hc] at hall
    rcases hcur with rfl | ⟨hgone, hsame⟩
    · refine ⟨nofun, fun t ht hterm => .inr ?_⟩
      obtain rfl := some.inj ht
      exact congrArg some (hstatus hterm)
    · refine ⟨fun ha => (nomatch hgone ha), fun t ht hterm => .inr ?_⟩
      rcases hsame t ht hterm with hnone | heq
      · cases hnone
      · obtain rfl : c.value.status = t := some.inj heq
        exact congrArg some (hstatus hterm)
  · rw [hw] at hc'
    rw [← some.inj hc']
  · rw [hw] at hc'
    rw [← some.inj hc']
  · rw [hw] at hnone
    cases hnone

theorem TaskInv.create (h : TaskInv x s) {r : TaskRecord} (hnil : s.history r.id = [])
    (hold : ∀ n, s.drawn ≤ n → x.uuid n ≠ r.id) : TaskInv x (s.write r.id (.put r)) := by
  have hw : (CellOp.put r).written (s.tasks.get r.id) =
      some ⟨CellOp.versionOf (s.tasks.get r.id) + 1, r⟩ := rfl
  refine @TaskInv.write x s h r.id (.put r) rfl (fun a ha => ?_) (fun c hc => ?_)
    (fun c hc => .inl ⟨hnil, hold⟩) fun hnone => ?_
  · rw [hnil] at ha
    cases ha
  · rw [hw] at hc
    rw [← some.inj hc]
  · rw [hw] at hnone
    cases hnone

theorem TaskInv.remove (h : TaskInv x s) (id : String) : TaskInv x (s.write id .remove) := by
  by_cases he : (CellOp.remove : CellOp TaskRecord).enabled (s.tasks.get id) = true
  · have hw : (CellOp.remove : CellOp TaskRecord).written (s.tasks.get id) = none := rfl
    refine h.write he (fun a _ => ?_) (fun c hc => ?_) (fun c hc => ?_) fun _ => he
    · rw [hw]
      exact ⟨fun _ => rfl, fun _ _ _ => .inl rfl⟩
    · rw [hw] at hc
      cases hc
    · rw [hw] at hc
      cases hc
  · rw [TaskState.write, if_neg he]
    exact h

/-- A write of a record that is there does not touch identifiers that are not used yet. -/
theorem rely_write {k : ℕ}
    (hid : s.maker id = some k → s.history id ≠ []) : TaskRely k s (s.write id o) := by
  rw [TaskState.write]
  split_ifs
  · refine ⟨rfl, fun id' hm hh => ⟨hm, ?_⟩⟩
    show update s.history id _ id' = []
    have hne : id' ≠ id := fun heq => hid (heq ▸ hm) (heq ▸ hh)
    rw [update_of_ne hne]
    exact hh
  · exact TaskRely.refl k s

end

variable {pre : TaskView → Prop}

/-! ## The operations -/

section

variable {x : Ext} {i : ℕ} {j : TaskJob} {α : Type}

abbrev TaskView := View TaskState TaskJob Unit

/-- What a function does in a run that meets the condition. -/
abbrev TaskTriple (x : Ext) (i : ℕ) (j : TaskJob) {α : Type} (pre : TaskView → Prop)
    (p : TaskAsync α) (post : α → TaskView → Prop) : Prop :=
  Triple (taskSystem x) taskRules i j ((taskLogic x).contract i j) pre p post

/-- A function that returns. -/
theorem taskPure_triple {a : α} {post : α → TaskView → Prop}
    (hs : ((taskLogic x).contract i j).Stable pre) (h : ∀ w, pre w → post a w) :
    TaskTriple x i j pre (pure a) post :=
  fun w hi hw u hu hi' => h u (hs w u hi hi' hu hw)

/-- What call `i` remembers satisfies `P`. -/
def Recalls (i : ℕ) (P : (String → Option (Versioned TaskRecord)) → Prop) (w : TaskView) : Prop :=
  P (w.shared.seen i)

theorem Recalls.stable {P : (String → Option (Versioned TaskRecord)) → Prop} :
    ((taskLogic x).contract i j).Stable (Recalls i P) := by
  intro w w' _ _ hr hw
  rw [Recalls, hr.seen]
  exact hw

/-- Call `i` has drawn an identifier that is not used yet. -/
def NewTask (i : ℕ) (id : String) (w : TaskView) : Prop :=
  w.shared.maker id = some i ∧ w.shared.history id = []

variable {id : String}

theorem NewTask.stable : ((taskLogic x).contract i j).Stable (NewTask i id) :=
  fun _ _ _ _ hr hw => hr.new id hw.1 hw.2

/-- An operation on neither the records nor the identifiers. -/
def TaskOp.Quiet : TaskOp → Prop
  | .uuid | .read _ | .write .. | .list _ => False
  | _ => True

/-- What calls remember, the records and the identifiers are the same. -/
structure SameTasks (s s' : TaskState) : Prop where
  tasks : s'.tasks = s.tasks
  history : s'.history = s.history
  seen : s'.seen = s.seen
  maker : s'.maker = s.maker
  drawn : s'.drawn = s.drawn

variable {s s' : TaskState}

theorem SameTasks.inv (h : SameTasks s s') (hi : TaskInv x s) : TaskInv x s' where
  settled := h.history ▸ hi.settled
  current := by
    rw [h.history, h.tasks]
    exact hi.current
  keys := h.tasks ▸ hi.keys
  seen := by
    rw [h.history, h.tasks, h.seen]
    exact hi.seen
  made := by
    rw [h.maker, h.drawn]
    exact hi.made
  fresh := by
    rw [h.history, h.drawn]
    exact hi.fresh

theorem SameTasks.rely (h : SameTasks s s') (k : ℕ) : TaskRely k s s' where
  seen := by rw [h.seen]
  new id hm hh := by
    rw [h.maker, h.history]
    exact ⟨hm, hh⟩

theorem sameTasks_exec {o : TaskOp} (ho : o.Quiet) {ok : Bool}
    {r : o.Reply} (hx : s.exec x i o ok = some (s', r)) : SameTasks s s' := by
  cases o with
  | stop => cases hx
  | uuid | read | write | list => cases ho
  | putEvent | deleteEvents | disown | cancel | nextSeq =>
    have hexec := some.inj hx
    split_ifs at hexec <;> obtain ⟨rfl, -⟩ := Prod.mk.inj hexec <;> exact ⟨rfl, rfl, rfl, rfl, rfl⟩
  | _ =>
    obtain ⟨rfl, -⟩ := some_mk_inj hx
    exact ⟨rfl, rfl, rfl, rfl, rfl⟩

variable {p : TaskAsync α}

/-- A function that does not look at the records keeps what a call knows. -/
theorem taskQuiet_triple {P : TaskView → Prop} (hP : ((taskLogic x).contract i j).Stable P)
    (hsame : ∀ (w : TaskView) s, SameTasks w.shared s → P w → P ⟨s, w.jobs, ()⟩)
    (hp : p.Uses TaskOp.Quiet) : TaskTriple x i j P p fun _ => P := by
  refine Triple.uses hP (fun o w b s r ho hi hw _ hx => ?_) hp
  have hs := sameTasks_exec ho hx
  exact ⟨(), ⟨hs.inv hi.1, hi.2⟩, fun k _ => hs.rely k, hsame w s hs hw⟩

variable {P : (String → Option (Versioned TaskRecord)) → Prop}

theorem recalls_quiet
    (hp : p.Uses TaskOp.Quiet) : TaskTriple x i j (Recalls i P) p fun _ => Recalls i P := by
  refine taskQuiet_triple Recalls.stable (fun w s hs hw => ?_) hp
  show P (s.seen i)
  rw [hs.seen]
  exact hw

theorem newTask_quiet (hp : p.Uses TaskOp.Quiet) :
    TaskTriple x i j (NewTask i id) p fun _ => NewTask i id := by
  refine taskQuiet_triple NewTask.stable (fun w s hs hw => ?_) hp
  show s.maker id = some i ∧ s.history id = []
  rw [hs.maker, hs.history]
  exact hw

/-- A call of one quiet operation. -/
theorem uses_quiet {o : TaskOp} (ho : o.Quiet) : (Task.call o : TaskAsync o.Reply).Uses TaskOp.Quiet :=
  Task.uses_call ho

theorem TaskInv.remember (h : TaskInv x s) {cells : String → Option (Versioned TaskRecord)}
    (hcells : ∀ id c, cells id = some c → s.seen i id = some c ∨ s.tasks.get id = some c) :
    TaskInv x (s.setSeen i cells) :=
  { h with
    seen := fun k id c hc => by
      have hseen : update s.seen i cells k id = some c := hc
      rw [update_apply] at hseen
      split_ifs at hseen with hk
      · rcases hcells id c hseen with hold | hcur
        · exact h.seen i id c hold
        · refine ⟨h.keys id c hcur, h.history_ne hcur, fun c' hc' => .inl ?_⟩
          exact some.inj (hc'.symm.trans hcur)
      · exact h.seen k id c hseen }

theorem rely_setSeen {k : ℕ} (hk : k ≠ i)
    (cells : String → Option (Versioned TaskRecord)) : TaskRely k s (s.setSeen i cells) :=
  ⟨update_of_ne hk _ _, fun _ hm hh => ⟨hm, hh⟩⟩

/-- A call remembers the record that it has read. -/
theorem readTask_triple (id : String) : TaskTriple x i j (fun _ => True) (readTask id)
      (fun r => Recalls i fun seen => ∀ c, r = some c → c.value.id = id ∧ seen id = some c) := by
  have htrue : ((taskLogic x).contract i j).Stable fun _ => True := fun _ _ _ _ _ _ => trivial
  refine Triple.bind (M := fun r : Option (Option (Versioned TaskRecord)) =>
    Recalls i fun seen => ∀ c, r.getD none = some c → c.value.id = id ∧ seen id = some c)
    (Triple.call htrue (fun _ => Recalls.stable) fun w b s r hi _ _ hx => ?_) fun r =>
      taskPure_triple Recalls.stable fun _ hw => hw
  have hexec := some.inj hx
  cases b with
  | false =>
    obtain ⟨rfl, rfl⟩ := Prod.mk.inj hexec
    exact ⟨(), hi, fun k _ => TaskRely.refl k _, fun c hc => by cases hc⟩
  | true =>
    obtain ⟨rfl, rfl⟩ := Prod.mk.inj hexec
    refine ⟨(), ⟨hi.1.remember fun id' c hc => ?_, hi.2⟩, fun k hk => rely_setSeen hk _, ?_⟩
    · rw [update_apply] at hc
      split_ifs at hc with hid
      · rw [hid]
        exact .inr hc
      · exact .inl hc
    · intro c hc
      refine ⟨hi.1.keys id c hc, ?_⟩
      show update w.shared.seen i _ i id = some c
      rw [update_self, update_self]
      exact hc

theorem getRecord_triple (id : String) : TaskTriple x i j (fun _ => True) (getRecord id)
      (fun r => Recalls i fun seen => ∀ t, r = some t →
        t.id = id ∧ ∃ c, c.value = t ∧ seen id = some c) := by
  refine Triple.bind (readTask_triple id) fun c => ?_
  refine taskPure_triple Recalls.stable fun w hw t ht => ?_
  obtain ⟨c', rfl, rfl⟩ := Option.map_eq_some_iff.mp ht
  obtain ⟨hid, hseen⟩ := hw c' rfl
  exact ⟨hid, c', rfl, hseen⟩

/-- The call may write the record: it remembers the record of the task, and gives another
    status only as its mark, or to a task that had not ended. -/
def MayPut (j : TaskJob) (r : TaskRecord) (seen : String → Option (Versioned TaskRecord)) : Prop :=
  ∃ c, seen r.id = some c ∧
    ((c.value.status.terminal = true → r.status = c.value.status) ∨ j.marks = some r.status)

variable {r : TaskRecord}

theorem putRecord_triple (hj : j.creates = false) (hP : ∀ seen, P seen → MayPut j r seen) :
    TaskTriple x i j (Recalls i P) (putRecord r) fun _ => Recalls i P := by
  refine Triple.bind (M := fun _ => Recalls i P) (Triple.call Recalls.stable
    (fun _ => Recalls.stable) fun w b s _ hi hw hrule hx => ?_) fun _ =>
      taskPure_triple Recalls.stable fun _ hw => hw
  have hexec := some.inj hx
  cases b with
  | false =>
    obtain ⟨rfl, -⟩ := Prod.mk.inj hexec
    exact ⟨(), hi, fun k _ => TaskRely.refl k _, hw⟩
  | true =>
    obtain ⟨rfl, -⟩ := Prod.mk.inj hexec
    obtain ⟨c, hseen, hstatus⟩ := hP _ hw
    have hadmit : (decide (w.shared.tasks.get r.id = w.shared.seen i r.id) &&
        j.marks.all fun t => (w.shared.tasks.get r.id).all fun c =>
          !c.value.status.terminal || decide (c.value.status = t)) = true := by
      have hall : (j.creates || _) = true := hrule
      rwa [hj, Bool.false_or] at hall
    obtain ⟨hsame, hmarks⟩ := (Bool.and_eq_true _ _).mp hadmit
    have hcur : w.shared.tasks.get r.id = some c := (of_decide_eq_true hsame).trans hseen
    have hkeep : c.value.status.terminal = true → r.status = c.value.status := by
      intro hterm
      rcases hstatus with hstatus | hmark
      · exact hstatus hterm
      · rw [hmark, hcur, Option.all_some, Option.all_some, hterm, Bool.not_true,
          Bool.false_or] at hmarks
        exact (of_decide_eq_true hmarks).symm
    refine ⟨(), ⟨hi.1.rewrite (o := .put r) hcur rfl ?_ hkeep, hi.2⟩,
      fun k _ => rely_write (o := .put r) fun _ => hi.1.history_ne hcur, ?_⟩
    · rw [hcur]
      rfl
    · show P ((w.shared.write r.id (.put r)).seen i)
      rw [write_enabled rfl]
      exact hw

/-- A task that is created has a new identifier. -/
theorem putRecord_new (hrid : r.id = id) :
    TaskTriple x i j (NewTask i id) (putRecord r) fun _ _ => True := by
  subst hrid
  have htrue : ((taskLogic x).contract i j).Stable fun _ => True := fun _ _ _ _ _ _ => trivial
  refine Triple.bind (M := fun _ _ => True) (Triple.call NewTask.stable (fun _ => htrue)
    fun w b s _ hi hw _ hx => ?_) fun _ =>
      taskPure_triple htrue fun _ hw => hw
  have hexec := some.inj hx
  cases b with
  | false =>
    obtain ⟨rfl, -⟩ := Prod.mk.inj hexec
    exact ⟨(), hi, fun k _ => TaskRely.refl k _, trivial⟩
  | true =>
    obtain ⟨rfl, -⟩ := Prod.mk.inj hexec
    obtain ⟨n, hn, hid⟩ := hi.1.made _ _ hw.1
    refine ⟨(), ⟨hi.1.create hw.2 fun m hm heq => ?_, hi.2⟩,
      fun k hk => rely_write (o := .put r) fun hmk => ?_, trivial⟩
    · have hmn : m = n := x.uuid_inj (heq.trans hid)
      omega
    · rw [hw.1] at hmk
      exact absurd (some.inj hmk).symm hk

theorem deleteTaskSummary_triple (id : String) :
    TaskTriple x i j (Recalls i P) (deleteTaskSummary id) fun _ => Recalls i P := by
  refine Triple.call Recalls.stable (fun _ => Recalls.stable) fun w b s _ hi hw _ hx => ?_
  have hexec := some.inj hx
  cases b with
  | false =>
    obtain ⟨rfl, -⟩ := Prod.mk.inj hexec
    exact ⟨(), hi, fun k _ => TaskRely.refl k _, hw⟩
  | true =>
    obtain ⟨rfl, -⟩ := Prod.mk.inj hexec
    refine ⟨(), ⟨hi.1.remove id, hi.2⟩, fun k _ => ?_, ?_⟩
    · rw [TaskState.write]
      split_ifs with he
      · have hrely : TaskRely k w.shared (w.shared.write id .remove) := by
          obtain ⟨c, hc⟩ := Option.isSome_iff_exists.mp he
          exact rely_write fun _ => hi.1.history_ne hc
        rw [write_enabled he] at hrely
        exact hrely
      · exact TaskRely.refl k _
    · show P ((w.shared.write id .remove).seen i)
      rw [TaskState.write]
      split_ifs
      · exact hw
      · exact hw

variable {c : Versioned TaskRecord}

/-- A conditional write goes through only if the record is the one that was read. -/
theorem putIfUnchanged_triple (hrid : r.id = id) (hstatus : r.status = c.value.status) :
    TaskTriple x i j (Recalls i fun seen => seen id = some c)
      (Task.call (TaskOp.write id (.putIf r (some c.version)))) fun _ _ => True := by
  subst hrid
  refine Triple.call Recalls.stable (fun _ _ _ _ _ _ _ => trivial) fun w b s _ hi hw _ hx => ?_
  have hexec := some.inj hx
  cases b with
  | false =>
    obtain ⟨rfl, -⟩ := Prod.mk.inj hexec
    exact ⟨(), hi, fun k _ => TaskRely.refl k _, trivial⟩
  | true =>
    obtain ⟨rfl, -⟩ := Prod.mk.inj hexec
    by_cases he : (CellOp.putIf r (some c.version)).enabled (w.shared.tasks.get r.id) = true
    · obtain ⟨c', hc', hv⟩ := (Option.any_eq_true _ _).mp he
      have hcur : w.shared.tasks.get r.id = some c := by
        rcases (hi.1.seen i r.id c hw).2.2 c' hc' with rfl | hlt
        · exact hc'
        · rw [of_decide_eq_true hv] at hlt
          exact absurd hlt (lt_irrefl _)
      refine ⟨(), ⟨hi.1.rewrite (o := .putIf r (some c.version)) hcur he rfl fun _ => hstatus, hi.2⟩,
        fun k _ => rely_write fun _ => hi.1.history_ne hcur, trivial⟩
    · have hsame : w.shared.write r.id (.putIf r (some c.version)) = w.shared := by
        rw [TaskState.write, if_neg he]
      refine ⟨(), ?_, fun k _ => ?_, trivial⟩
      · show TaskInv x (w.shared.write _ _) ∧ _
        rw [hsame]
        exact hi
      · show TaskRely k w.shared (w.shared.write _ _)
        rw [hsame]
        exact TaskRely.refl k _

/-- A call remembers the records that it has listed. -/
theorem list_triple (limit : ℕ) : TaskTriple x i j (fun _ => True) (Task.call (TaskOp.list limit))
      (fun r => Recalls i fun seen => ∀ tasks, r = some tasks → ∀ t ∈ tasks,
        ∃ c, c.value = t ∧ seen t.id = some c) := by
  refine Triple.call (fun _ _ _ _ _ _ => trivial) (fun _ => Recalls.stable)
    fun w b s r hi _ _ hx => ?_
  have hexec := some.inj hx
  cases b with
  | false =>
    obtain ⟨rfl, rfl⟩ := Prod.mk.inj hexec
    exact ⟨(), hi, fun k _ => TaskRely.refl k _, fun tasks ht => by cases ht⟩
  | true =>
    obtain ⟨rfl, rfl⟩ := Prod.mk.inj hexec
    refine ⟨(), ⟨hi.1.remember fun id' c hc => .inr hc, hi.2⟩, fun k hk => rely_setSeen hk _, ?_⟩
    intro tasks ht t hmem
    rw [← some.inj ht] at hmem
    obtain ⟨e, he, rfl⟩ := mem_map.mp hmem
    have hget := SortedMap.mem_entries_iff.mp (mem_of_mem_take he)
    refine ⟨e.2, rfl, ?_⟩
    show update w.shared.seen i _ i e.2.value.id = some e.2
    rw [update_self, hi.1.keys _ _ hget]
    exact hget

theorem newUuid_triple :
    TaskTriple x i j (fun _ => True) (Task.call TaskOp.uuid) fun id => NewTask i id := by
  refine Triple.call (fun _ _ _ _ _ _ => trivial) (fun _ => NewTask.stable)
    fun w b s r hi _ _ hx => ?_
  obtain ⟨rfl, rfl⟩ := some_mk_inj hx
  refine ⟨(), ⟨{ hi.1 with
    made := fun id k hm => ?_
    fresh := fun n hn => hi.1.fresh n (Nat.le_of_succ_le hn) }, hi.2⟩, fun k hk => ?_, ?_⟩
  · have hmaker : update w.shared.maker (x.uuid w.shared.drawn) (some i) id = some k := hm
    rw [update_apply] at hmaker
    split_ifs at hmaker with hid
    · exact ⟨w.shared.drawn, Nat.lt_succ_self _, hid⟩
    · obtain ⟨n, hn, rfl⟩ := hi.1.made id k hmaker
      exact ⟨n, Nat.lt_succ_of_lt hn, rfl⟩
  · refine ⟨rfl, fun id hm hh => ⟨?_, hh⟩⟩
    show update w.shared.maker (x.uuid w.shared.drawn) (some i) id = some k
    have hne : id ≠ x.uuid w.shared.drawn := by
      rintro rfl
      obtain ⟨n, hn, heq⟩ := hi.1.made _ _ hm
      have heq' := x.uuid_inj heq
      omega
    rw [update_of_ne hne]
    exact hm
  · exact ⟨update_self _ _ _, hi.1.fresh _ le_rfl⟩

/-! ## The functions -/

theorem quiet_taskNow : taskNow.Uses TaskOp.Quiet := uses_quiet trivial

theorem quiet_drainTaskEvents (id : String) (fuel : ℕ) :
    (drainTaskEvents id fuel).Uses TaskOp.Quiet := by
  induction fuel with
  | zero => exact ⟨trivial, nofun⟩
  | succ fuel ih =>
    refine Task.Uses.bind (uses_quiet trivial) fun page => ?_
    cases page with
    | none => trivial
    | some page =>
      obtain ⟨seqs, done⟩ := page
      show Task.Uses TaskOp.Quiet (if seqs = [] then pure true else _)
      by_cases hs : seqs = []
      · rw [if_pos hs]
        trivial
      · rw [if_neg hs]
        refine Task.Uses.bind (uses_quiet trivial) fun deleted => ?_
        split_ifs
        · trivial
        · trivial
        · exact ih

theorem quiet_appendLog (inst id message : String) :
    (appendLog inst id message).Uses TaskOp.Quiet := by
  refine Task.Uses.bind (uses_quiet trivial) fun seq => ?_
  cases seq with
  | none => trivial
  | some seq =>
    exact Task.Uses.bind quiet_taskNow fun now =>
      Task.Uses.bind (uses_quiet trivial) fun _ => trivial

/-- Nothing is known. -/
theorem stable_anything : ((taskLogic x).contract i j).Stable fun _ => True :=
  fun _ _ _ _ _ _ => trivial

theorem true_quiet (hp : p.Uses TaskOp.Quiet) :
    TaskTriple x i j (fun _ => True) p fun _ _ => True :=
  taskQuiet_triple stable_anything (fun _ _ _ _ => trivial) hp

theorem Recalls.forget (h : TaskTriple x i j pre p fun _ => Recalls i P) :
    TaskTriple x i j pre p fun _ _ => True := Triple.weaken_post h fun _ _ _ _ => trivial

theorem createTask_triple (inst : String) (kind : TaskKind) :
    TaskTriple x i j (fun _ => True) (createTask inst kind) fun _ _ => True := by
  refine Triple.bind newUuid_triple fun id => ?_
  refine Triple.bind (newTask_quiet quiet_taskNow) fun now => ?_
  refine Triple.bind (putRecord_new rfl) fun _ => ?_
  exact Triple.bind (true_quiet (uses_quiet trivial)) fun _ =>
    taskPure_triple stable_anything fun _ _ => trivial

variable {seen : String → Option (Versioned TaskRecord)}

/-- A record that keeps its identifier and its status may be put. -/
theorem mayPut_same {t : TaskRecord} (hc : c.value = t)
    (hseen : seen t.id = some c) (hid : r.id = t.id) (hstatus : r.status = t.status) :
    MayPut j r seen := ⟨c, hid ▸ hseen, .inl fun _ => by rw [hstatus, hc]⟩

/-- A record that has been read may be put back with the mark of the call. -/
theorem putMark_triple (hj : j.creates = false) {t : TaskRecord} (hid : r.id = t.id)
    (hmark : j.marks = some r.status) :
    TaskTriple x i j (Recalls i fun seen => ∀ u, some t = some u →
      u.id = id ∧ ∃ c, c.value = u ∧ seen id = some c) (putRecord r) fun _ _ => True := by
  refine Recalls.forget (putRecord_triple hj fun seen hseen => ?_)
  obtain ⟨rfl, c, -, hc⟩ := hseen t rfl
  exact ⟨c, hid ▸ hc, .inr hmark⟩

theorem markRunning_triple (hj : j.creates = false) (hm : j.marks = some .running) (id : String) :
    TaskTriple x i j (fun _ => True) (markRunning id) fun _ _ => True := by
  refine Triple.bind (getRecord_triple id) fun r => ?_
  cases r with
  | none => exact taskPure_triple Recalls.stable fun _ _ => trivial
  | some t =>
    refine Triple.bind (recalls_quiet quiet_taskNow) fun _ => ?_
    refine Triple.bind (recalls_quiet quiet_taskNow) fun _ => ?_
    exact putMark_triple hj rfl hm

theorem bridgeTick_triple (id : String) :
    TaskTriple x i j (fun _ => True) (bridgeTick id) fun _ _ => True := by
  refine Triple.bind (true_quiet (uses_quiet trivial)) fun before => ?_
  refine Triple.bind (readTask_triple id) fun r => ?_
  cases r with
  | none => exact taskPure_triple Recalls.stable fun _ _ => trivial
  | some c =>
    dsimp only
    split_ifs
    · exact taskPure_triple Recalls.stable fun _ _ => trivial
    · refine Triple.bind (recalls_quiet quiet_taskNow) fun now => ?_
      refine Triple.bind (recalls_quiet (uses_quiet trivial)) fun after => ?_
      refine Triple.bind (M := fun _ _ => True) ?_ fun _ =>
        taskPure_triple stable_anything fun _ _ => trivial
      refine Triple.weaken_pre (putIfUnchanged_triple (c := c) rfl rfl) fun w _ hw => ?_
      obtain ⟨hid, hseen⟩ := hw c rfl
      exact hid.symm ▸ hseen

theorem progressBridge_triple (id : String) (ticks : ℕ) :
    TaskTriple x i j (fun _ => True) (progressBridge id ticks) fun _ _ => True := by
  induction ticks with
  | zero => exact taskPure_triple stable_anything fun _ _ => trivial
  | succ ticks ih =>
    refine Triple.bind (true_quiet (uses_quiet trivial)) fun r => ?_
    split_ifs
    · exact taskPure_triple stable_anything fun _ _ => trivial
    · refine Triple.bind (bridgeTick_triple id) fun _ => ?_
      refine Triple.bind (true_quiet (uses_quiet trivial)) fun r => ?_
      split_ifs
      · exact taskPure_triple stable_anything fun _ _ => trivial
      · exact ih

theorem markTerminal_triple (hj : j.creates = false) {status : TaskStatus}
    (hm : j.marks = some status) (inst id : String) (result : Option TaskResult)
    (error : Option String) :
    TaskTriple x i j (fun _ => True) (markTerminal inst id status result error)
      fun _ _ => True := by
  refine Triple.bind (getRecord_triple id) fun r => ?_
  cases r with
  | none => exact taskPure_triple Recalls.stable fun _ _ => trivial
  | some t =>
    refine Triple.bind (recalls_quiet quiet_taskNow) fun _ => ?_
    refine Triple.bind (recalls_quiet quiet_taskNow) fun _ => ?_
    refine Triple.bind (recalls_quiet (uses_quiet trivial)) fun held => ?_
    cases held with
    | none => exact putMark_triple hj rfl hm
    | some held => exact putMark_triple hj rfl hm

theorem updateSummary_triple (hj : j.creates = false) (id summary : String) :
    TaskTriple x i j (fun _ => True) (updateSummary id summary) fun _ _ => True := by
  refine Triple.bind (getRecord_triple id) fun r => ?_
  cases r with
  | none => exact taskPure_triple Recalls.stable fun _ _ => trivial
  | some t =>
    refine Triple.bind (recalls_quiet quiet_taskNow) fun _ => ?_
    refine Recalls.forget (putRecord_triple hj fun seen hseen => ?_)
    obtain ⟨rfl, c, hct, hc⟩ := hseen t rfl
    exact mayPut_same hct hc rfl rfl

theorem deleteTask_triple (hj : j.creates = false) (fuel : ℕ) (inst id : String) :
    TaskTriple x i j (fun _ => True) (deleteTask fuel inst id) fun _ _ => True := by
  refine Triple.bind (getRecord_triple id) fun r => ?_
  cases r with
  | none => exact taskPure_triple Recalls.stable fun _ _ => trivial
  | some t =>
    refine Triple.bind (recalls_quiet quiet_taskNow) fun _ => ?_
    refine Triple.bind (putRecord_triple hj fun seen hseen => ?_) fun _ => ?_
    · obtain ⟨rfl, c, hct, hc⟩ := hseen t rfl
      exact mayPut_same hct hc rfl rfl
    · refine Triple.bind (recalls_quiet (uses_quiet trivial)) fun _ => ?_
      refine Triple.bind (recalls_quiet (quiet_drainTaskEvents id fuel)) fun _ => ?_
      exact Triple.bind (deleteTaskSummary_triple id) fun _ =>
        taskPure_triple Recalls.stable fun _ _ => trivial

/-- What a sweep knows of the tasks that it has listed. -/
def Listed (tasks : List TaskRecord) (seen : String → Option (Versioned TaskRecord)) : Prop :=
  ∀ t ∈ tasks, ∃ c, c.value = t ∧ seen t.id = some c

theorem reapTask_triple (hj : j.creates = false) (fuel : ℕ) (retentionSecs : ℤ)
    (live : List String) (now : DateTime) {tasks : List TaskRecord} {t : TaskRecord}
    (ht : t ∈ tasks) :
    TaskTriple x i j (Recalls i (Listed tasks)) (reapTask fuel retentionSecs live now t)
      fun _ => Recalls i (Listed tasks) := by
  rw [reapTask]
  split_ifs with hdel horphan hterm
  · refine Triple.bind (recalls_quiet (quiet_drainTaskEvents t.id fuel)) fun drained => ?_
    cases drained with
    | false => exact taskPure_triple Recalls.stable fun _ hw => hw
    | true =>
      exact Triple.bind (deleteTaskSummary_triple t.id) fun _ =>
        taskPure_triple Recalls.stable fun _ hw => hw
  · refine putRecord_triple hj fun seen hseen => ?_
    obtain ⟨c, hct, hc⟩ := hseen t ht
    refine ⟨c, hc, .inl fun hended => ?_⟩
    rw [hct, horphan.2.1] at hended
    cases hended
  · cases t.completedAt with
    | none => exact taskPure_triple Recalls.stable fun _ hw => hw
    | some completedAt =>
      dsimp only
      split_ifs
      · refine putRecord_triple hj fun seen hseen => ?_
        obtain ⟨c, hct, hc⟩ := hseen t ht
        exact mayPut_same hct hc rfl rfl
      · exact taskPure_triple Recalls.stable fun _ hw => hw
  · exact taskPure_triple Recalls.stable fun _ hw => hw

theorem reapTasks_triple (hj : j.creates = false) (fuel : ℕ) (retentionSecs : ℤ) :
    TaskTriple x i j (fun _ => True) (reapTasks fuel retentionSecs) fun _ _ => True := by
  refine Triple.bind (list_triple 10000) fun tasks => ?_
  cases tasks with
  | none => exact taskPure_triple Recalls.stable fun _ _ => trivial
  | some tasks =>
    refine Triple.bind (recalls_quiet (uses_quiet trivial)) fun live => ?_
    refine Triple.bind (recalls_quiet quiet_taskNow) fun now => ?_
    refine Triple.consequence (Triple.forEach (I := fun _ => Recalls i (Listed tasks))
      Recalls.stable fun done t rest htasks => ?_) (fun w _ hw => hw tasks rfl)
      fun _ _ _ _ => trivial
    exact reapTask_triple hj fuel retentionSecs _ now (htasks ▸ mem_append_right _ mem_cons_self)

/-- Every call keeps to the proof outline. -/
theorem taskCode_triple (j : TaskJob) :
    TaskTriple x i j (fun _ => True) j.code fun _ _ => True := by
  cases j with
  | create inst kind => exact createTask_triple inst kind
  | markRunning id => exact markRunning_triple rfl rfl id
  | progressBridge id ticks => exact progressBridge_triple id ticks
  | sendProgress id progress => exact true_quiet (uses_quiet trivial)
  | markCompleted inst id result => exact markTerminal_triple rfl rfl inst id _ _
  | markFailed inst id error => exact markTerminal_triple rfl rfl inst id _ _
  | markCancelled inst id => exact markTerminal_triple rfl rfl inst id _ _
  | cancel inst id =>
    exact Triple.bind (true_quiet (uses_quiet trivial)) fun _ =>
      taskPure_triple stable_anything fun _ _ => trivial
  | appendLog inst id message => exact true_quiet (quiet_appendLog inst id message)
  | updateSummary id summary => exact updateSummary_triple rfl id summary
  | delete fuel inst id =>
    exact Triple.bind (deleteTask_triple rfl fuel inst id) fun _ =>
      taskPure_triple stable_anything fun _ _ => trivial
  | reap fuel retentionSecs => exact reapTasks_triple rfl fuel retentionSecs

/-- The proof outline is sound. -/
theorem taskLogic_sound : (taskLogic x).Sound (taskSystem x) taskRules where
  guar_rely h _ _ hg := hg _ h
  spawn w j hi _ := ⟨(), hi, fun _ => TaskRely.refl _ _,
    taskCode_triple j _ ⟨hi, getElem?_concat_length⟩ trivial⟩
  leave _ _ _ hi _ := ⟨(), hi, fun _ _ => TaskRely.refl _ _⟩
  env w e s hi _ hs := by
    have hsame : SameTasks w.shared s := by
      cases e <;> cases hs <;> exact ⟨rfl, rfl, rfl, rfl, rfl⟩
    exact ⟨(), hsame.inv hi, fun k => hsame.rely k⟩

end

/-! ## Results -/

theorem TasksStarted.inv {x : Ext} {s : TaskState} (h : TasksStarted x s) : TaskInv x s where
  settled id := by
    rw [h.history]
    cases s.tasks.get id with
    | none => exact List.Pairwise.nil
    | some c => exact pairwise_singleton _ _
  current id := by
    rw [h.history]
    cases s.tasks.get id with
    | none => exact .inl ⟨rfl, rfl⟩
    | some c => exact .inr ⟨[], rfl⟩
  keys := h.keys
  seen i id c hc := by
    rw [h.seen] at hc
    cases hc
  made id i hm := by
    rw [h.maker] at hm
    cases hm
  fresh n hn := by
    rw [h.history, h.fresh n hn]
    rfl

/-- **Main theorem.** In every run in which unconditional writes find the record as their
    call has read it, and ended tasks are not marked with another status: once a terminal
    status of a task has been persisted, only the same status or its deletion follow, and
    nothing follows a deletion. -/
theorem tasks_settled (x : Ext) {s : TaskState} (hs : TasksStarted x s)
    {es : List (Event TaskJob TaskEnv)} {p : Pool TaskOp TaskOp.Reply TaskState TaskJob}
    (h : (Pool.init s).run (taskSystem x) taskRules es = some p) (id : String) :
    Settled (p.shared.history id) := by
  obtain ⟨_, hinv⟩ := taskLogic_sound.run_inv (g := ()) hs.inv h
  exact hinv.settled id

/-! ## Runs -/

def noTasks : TaskState := { drawn := 1, live := ["i"] }

theorem noTasks_started : TasksStarted Ext.sample noTasks where
  seen _ _ := rfl
  maker _ := rfl
  history _ := rfl
  keys id c hc := by cases hc
  fresh _ _ := rfl

/-- A number of steps of a call. -/
def taskSteps (i n : ℕ) : List (Event TaskJob TaskEnv) := replicate n (.step i true)

/-- A call that runs by itself for `n` steps. -/
def taskAlone (i : ℕ) (j : TaskJob) (n : ℕ) : List (Event TaskJob TaskEnv) :=
  .spawn j :: taskSteps i n

def taskRuns : List (Event TaskJob TaskEnv) :=
  taskAlone 0 (.create "i" .check) 4 ++ taskAlone 1 (.markRunning "u") 4

/-- A task that is created, runs, makes progress and completes. -/
theorem tasks_settled_completed :
    ∃ p, (Pool.init noTasks).run (taskSystem Ext.sample) taskRules (taskRuns ++
        taskAlone 2 (.progressBridge "u" 1) 7 ++
        taskAlone 3 (.markCompleted "i" "u" (.check {})) 5) = some p ∧
      p.returned 3 = some (.markCompleted "i" "u" (.check {})) ∧
      p.shared.history "u" = [some .pending, some .running, some .running, some .completed] ∧
      Settled (p.shared.history "u") := by
  refine ends_in (fun p => p.returned 3 = some (.markCompleted "i" "u" (.check {})) ∧
    p.shared.history "u" = [some .pending, some .running, some .running, some .completed])
    (by decide +kernel) fun p hp hall => ?_
  exact ⟨hall.1, hall.2, tasks_settled Ext.sample noTasks_started hp "u"⟩

/-- **A deleted task returns.** The worker has read the record to mark it as cancelled when
    the task is deleted; its write brings the record back. -/
theorem deleted_task_returns :
    ∃ p, (Pool.init noTasks).run (taskSystem Ext.sample) .free (taskRuns ++
        taskAlone 2 (.markCancelled "i" "u") 1 ++ taskAlone 3 (.delete 1 "i" "u") 6 ++
        taskSteps 2 4) = some p ∧
      p.returned 3 = some (.delete 1 "i" "u") ∧
      p.shared.history "u" =
        [some .pending, some .running, some .running, none, some .cancelled] ∧
      ¬Settled (p.shared.history "u") := by
  refine ends_in (fun p => p.returned 3 = some (.delete 1 "i" "u") ∧
    p.shared.history "u" = [some .pending, some .running, some .running, none, some .cancelled])
    (by decide +kernel) fun p _ hall => ?_
  obtain ⟨hret, hhist⟩ := hall
  refine ⟨hret, hhist, fun hset => ?_⟩
  rw [hhist] at hset
  simp [Settled, TaskStatus.Allows] at hset

end Depot
