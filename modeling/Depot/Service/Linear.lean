import Depot.Lib.Answers
import Depot.Lib.Chain
import Depot.Service.Artifact

/-!
# Puts and deletes of one artifact

Any number of `put_artifact`, `delete_artifact` and `delete_artifacts_paired_batch` on one path
(`core/src/service/artifact.rs`, lines 51–256), interleaved operation by operation and any of
them failing, while the rest of the server does what it likes with the other keys.

A put is a versioned read and a conditional write. The version of a record starts again when
the record is deleted and created again, so the write can go through although the record is not
the one that was read.

Results:
* `artifactCode_follows`: what a call does to the record.
* `puts_linearise`: the records that the calls return form a chain, provided that no put writes
  over another record than the one it has read.
* `put_returns_deleted_record`: a put returns a record that a delete has returned before.
-/

namespace Depot

open Lib List
open Fallible (Follows Uses attempt uses_attempt)
open Function (forall_update_iff update)

/-! ## Calls -/

/-- A call on the path; a batch has any paths. -/
inductive ArtifactCall where
  | put (record : ArtifactRecord)
  | delete
  | deleteBatch (paths : List String)
  deriving DecidableEq

/-- What a call returns: the record it has replaced; a batch returns nothing. -/
abbrev ArtifactAnswer : Type := Except DepotError (Option (Option ArtifactRecord))

section

variable (x : Ext) (repo path : String)

/-- The function of a call, and the record that it returns. -/
def ArtifactCall.code : ArtifactCall → Async (Option (Option ArtifactRecord))
  | .put record => do
      let old ← putArtifact x repo path record
      pure (some old)
  | .delete => do
      let old ← deleteArtifact x repo path
      pure (some old)
  | .deleteBatch paths => do
      deleteArtifactsPairedBatch x repo paths
      pure none

/-- The record at the path. -/
def World.record (w : World) : Option ArtifactRecord :=
  (w.value (artifactKey x.shardOf repo path)).bind Value.artifact?

/-- What an operation that counts leaves of the record: a conditional write that has gone through,
    or a delete. -/
def leftBy (key : Key) : (o : Op) → R o → Option (Option ArtifactRecord)
  | .write k (.putIf v _), some (true, _) => if k = key then some v.artifact? else none
  | .write k .remove, some _ => if k = key then some none else none
  | _, _ => none

/-- What runs: the shared state, and what each operation on the record left, with the call that
    did it. -/
structure ArtifactState where
  world : World
  log : List (ℕ × Option ArtifactRecord) := []

/-- An operation of call `i`. -/
def artifactExec (i : ℕ) (_ : ArtifactCall) (o : Op) (b : Bool) (s : ArtifactState) :
    Option (ArtifactState × R o) :=
  (World.exec x o b s.world).map fun r =>
    (⟨r.1, s.log ++ ((leftBy (artifactKey x.shardOf repo path) o r.2).map fun a => (i, a)).toList⟩,
      r.2)

/-- The rest of the server: any change that leaves the record alone. -/
def artifactEnv (w : World) (s : ArtifactState) : Option ArtifactState :=
  if w.cell (artifactKey x.shardOf repo path) = s.world.cell (artifactKey x.shardOf repo path) then
    some { s with world := w }
  else none

/-- What a call knows: the record it has read last, the records it has replaced with what it
    left instead, whether it has deleted something that is not a record, and what it has
    answered. -/
structure CallMemory where
  seen : Option (Versioned Value) := none
  events : List (Option ArtifactRecord × Option ArtifactRecord) := []
  foreign : Bool := false
  answered : Option (ArtifactCall × ArtifactAnswer) := none

/-- The record that an operation replaces, as far as the call knows: a delete is told, a put has
    read it. -/
def CallMemory.replaced (m : CallMemory) : (o : Op) → R o → Option ArtifactRecord
  | .write _ .remove, some (_, old) => old.bind Value.artifact?
  | _, _ => m.seen.bind fun c => c.value.artifact?

/-- The reply to a write over something that is not a record. -/
def isForeign : (o : Op) → R o → Bool
  | .write _ _, some (_, some v) => v.artifact?.isNone
  | _, _ => false

/-- What a call learns from a reply. -/
def CallMemory.noteOp (m : CallMemory) : (o : Op) → R o → CallMemory
  | .read k, some cell =>
      if k = artifactKey x.shardOf repo path then { m with seen := cell } else m
  | .write k c, reply =>
      match leftBy (artifactKey x.shardOf repo path) (.write k c) reply with
      | some a => { m with
          events := m.events ++ [(m.replaced (.write k c) reply, a)]
          foreign := m.foreign || isForeign (.write k c) reply }
      | none => m
  | _, _ => m

/-- What a call remembers. -/
def CallMemory.note (j : ArtifactCall) (m : CallMemory) :
    (o : AnswerOp Op ArtifactAnswer) → AnswerOp.Reply R o → CallMemory
  | .op o, r => m.noteOp x repo path o r
  | .answer a, _ => { m with answered := some (j, a) }

/-- The calls, with the answers they have given. -/
abbrev artifactCalls : System (AnswerOp Op ArtifactAnswer) (AnswerOp.Reply R)
    (ArtifactState × List (ℕ × ArtifactAnswer)) ArtifactCall World :=
  answering (artifactExec x repo path) (fun j => (j.code x repo path).run)
    (artifactEnv x repo path)

/-- The calls, with their memories. -/
abbrev artifactSystem : System (AnswerOp Op ArtifactAnswer) (AnswerOp.Reply R)
    ((ArtifactState × List (ℕ × ArtifactAnswer)) × (ℕ → CallMemory)) ArtifactCall World :=
  (artifactCalls x repo path).withMemory (CallMemory.note x repo path)

/-- **The condition on a run.** When the conditional write of a put finds the version that the put
    has read, it finds the record that the put has read: the record has not been deleted and
    created again in between. -/
def readIsCurrent : Rules (AnswerOp Op ArtifactAnswer)
    ((ArtifactState × List (ℕ × ArtifactAnswer)) × (ℕ → CallMemory)) ArtifactCall World where
  op i _ s o b :=
    match o with
    | .op (.write k (.putIf v expected)) =>
        !b || decide (k ≠ artifactKey x.shardOf repo path) ||
          !(CellOp.putIf v expected).enabled (s.1.1.world.cell k) ||
          decide ((s.1.1.world.cell k).map Versioned.value = (s.2 i).seen.map Versioned.value)
    | _ => true
  spawn _ _ _ := true
  env _ _ _ := true

/-! ## What a call does -/

/-- What a call may ask for, given what it knows. -/
def ArtifactCall.May (j : ArtifactCall) (m : CallMemory) : Op → Prop
  | .read _ => True
  | .write k c => k = artifactKey x.shardOf repo path →
      match j with
      | .put record => m.events = [] ∧
          c = .putIf (.artifact (prepareRecord path record)) (m.seen.map Versioned.version) ∧
            ∀ cell, m.seen = some cell → cell.value.artifact?.isSome
      | .delete => m.events = [] ∧ c = .remove
      | .deleteBatch _ => c = .remove
  | _ => False

/-- How a call ends: what it returns, and what it has done to the record. -/
def ArtifactCall.Outcome (j : ArtifactCall) (a : ArtifactAnswer)
    (events : List (Option ArtifactRecord × Option ArtifactRecord)) : Prop :=
  match j, a with
  | .put record, .ok (some old) => events = [(old, some (prepareRecord path record))]
  | .delete, .ok (some old) => events = [(old, none)]
  | .put _, .error _ => events = []
  | .delete, .error _ => events = []
  | .deleteBatch _, .error _ | .deleteBatch _, .ok none => ∀ e ∈ events, e.2 = none
  | _, _ => False

/-- Nothing is asked for after the answer, which is as in `Outcome`. -/
def ArtifactCall.Allowed (j : ArtifactCall) (m : CallMemory) :
    AnswerOp Op ArtifactAnswer → Prop
  | .op o => m.answered = none ∧ j.May x repo path m o
  | .answer a => m.answered = none ∧ (m.foreign = false → j.Outcome path a m.events)

end

section

variable {x : Ext} {repo path : String} {j : ArtifactCall} {m : CallMemory}

@[simp] theorem leftBy_putIf (key : Key) (v : Value) (expected : Option ℕ) (through : Bool)
    (old : Option Value) :
    leftBy key (.write key (.putIf v expected)) (some (through, old)) =
      if through then some v.artifact? else none := by
  cases through with
  | true => exact if_pos rfl
  | false => rfl

@[simp] theorem leftBy_remove (key : Key) (through : Bool) (old : Option Value) :
    leftBy key (.write key .remove) (some (through, old)) = some none := if_pos rfl

@[simp] theorem leftBy_none (key : Key) (k : Key) (c : CellOp Value) :
    leftBy key (.write k c) none = none := by cases c <;> rfl

theorem leftBy_of_ne {key k : Key} (hk : k ≠ key) (c : CellOp Value) (r : R (.write k c)) :
    leftBy key (.write k c) r = none := by
  cases r with
  | none => exact leftBy_none key k c
  | some r =>
    obtain ⟨through, old⟩ := r
    cases c with
    | putIf v expected => cases through <;> simp [leftBy, hk]
    | remove => simp [leftBy, hk]
    | _ => rfl

@[simp] theorem callNote_read (cell : Option (Versioned Value)) :
    m.noteOp x repo path (.read (artifactKey x.shardOf repo path)) (some cell) =
      { m with seen := cell } := if_pos rfl

theorem callNote_write (k : Key) (c : CellOp Value) (r : R (.write k c)) :
    m.noteOp x repo path (.write k c) r =
      match leftBy (artifactKey x.shardOf repo path) (.write k c) r with
      | some a => { m with
          events := m.events ++ [(m.replaced (.write k c) r, a)]
          foreign := m.foreign || isForeign (.write k c) r }
      | none => m := rfl

theorem callNote_put (v : Value) (expected : Option ℕ) (old : Option Value) :
    m.noteOp x repo path (.write (artifactKey x.shardOf repo path) (.putIf v expected))
      (some (true, old)) =
        { m with
          events := m.events ++ [(m.seen.bind fun c => c.value.artifact?, v.artifact?)]
          foreign := m.foreign || old.any fun v => v.artifact?.isNone } := by
  refine (callNote_write _ _ _).trans ?_
  rw [leftBy_putIf, if_pos rfl]
  cases old <;> rfl

theorem callNote_conflict (v : Value) (expected : Option ℕ) (old : Option Value) :
    m.noteOp x repo path (.write (artifactKey x.shardOf repo path) (.putIf v expected))
      (some (false, old)) = m := rfl

theorem callNote_remove (through : Bool) (old : Option Value) :
    m.noteOp x repo path (.write (artifactKey x.shardOf repo path) .remove) (some (through, old)) =
        { m with
          events := m.events ++ [(old.bind Value.artifact?, none)]
          foreign := m.foreign || old.any fun v => v.artifact?.isNone } := by
  refine (callNote_write _ _ _).trans ?_
  rw [leftBy_remove]
  cases old <;> rfl

theorem callNote_failed (k : Key) (c : CellOp Value) :
    m.noteOp x repo path (.write k c) none = m := by
  refine (callNote_write _ _ _).trans ?_
  rw [leftBy_none]

/-- An operation is no answer. -/
theorem answered_noteOp (o : Op) (r : R o) : (m.noteOp x repo path o r).answered = m.answered := by
  unfold CallMemory.noteOp
  split
  · split_ifs <;> rfl
  · split <;> rfl
  · rfl

/-- What a function of a call keeps and leaves known, in the memory of the call. -/
abbrev CallFollows (x : Ext) (repo path : String) (j : ArtifactCall) {α : Type}
    (F : CallMemory → Prop) (p : Async α) (Q : α → CallMemory → Prop) (err : CallMemory → Prop) :
    Prop :=
  Follows (fun m o => m.answered = none ∧ j.May x repo path m o)
    (CallMemory.noteOp x repo path) F p Q err

/-- The call has not been answered, and has done this to the record. -/
structure CallMemory.Did (events : List (Option ArtifactRecord × Option ArtifactRecord))
    (m : CallMemory) : Prop where
  events : m.events = events
  answered : m.answered = none

/-- Writes to other keys teach nothing. -/
theorem follows_other {α : Type} {p : Async α}
    {F : CallMemory → Prop} (hF : ∀ m, F m → m.answered = none)
    (hp : Uses (fun o => ∃ k c, o = .write k c ∧ k ≠ artifactKey x.shardOf repo path) p) :
    CallFollows x repo path j F p (fun _ => F) F := by
  refine .of_uses (fun m o hm ho => ?_) hp
  obtain ⟨k, c, rfl, hk⟩ := ho
  refine ⟨⟨hF m hm, fun heq => absurd heq hk⟩, fun r => ?_⟩
  rw [callNote_write, leftBy_of_ne hk]

theorem treeKey_ne (x : Ext) (repo path repo' path' : String) :
    treeEntryKey x.shardOf repo' path' ≠ artifactKey x.shardOf repo path := by
  intro h
  have htable := congrArg (fun k : Key => k.part.table) h
  cases htable

/-- The entry in the tree is put or removed without a word about it. -/
theorem treeWrite_follows {α : Type} {F err : CallMemory → Prop}
    (hF : ∀ m, F m → m.answered = none) (repo' path' : String) (c : CellOp Value)
    (f : R (.write (treeEntryKey x.shardOf repo' path') c) → Option α) :
    CallFollows x repo path j F (Fallible.ignore (attempt .storage
      (.write (treeEntryKey x.shardOf repo' path') c) f)) (fun _ => F) err :=
  .ignore (follows_other hF
    (uses_attempt ⟨_, _, rfl, treeKey_ne x repo path repo' path'⟩))

/-- What a put has read. -/
def CallMemory.Seen (old : Option (ArtifactRecord × ℕ)) (m : CallMemory) : Prop :=
  m.Did [] ∧ m.seen = old.map fun e => ⟨e.2, .artifact e.1⟩

theorem getArtifactVersioned_follows : CallFollows x repo path j (CallMemory.Did [])
      (typedGetVersioned Value.artifact? (artifactKey x.shardOf repo path))
      (fun old => CallMemory.Seen old) (CallMemory.Did []) := by
  refine Follows.bind (K := fun cell m => m.Did [] ∧ m.seen = cell) ?_ fun cell => ?_
  · refine Follows.attempt (fun m hm => ⟨hm.answered, trivial⟩) ?_ ?_
    · intro m reply cell hm hreply
      obtain rfl : reply = some cell := hreply
      rw [callNote_read]
      exact ⟨⟨hm.events, hm.answered⟩, rfl⟩
    · intro m reply hm hreply
      obtain rfl : reply = none := hreply
      exact hm
  · cases cell with
    | none => exact .pure fun m hm => hm
    | some c =>
      cases hdec : c.value.artifact? with
      | none =>
        refine Follows.bind (K := fun _ _ => False) ?_ fun s => .pure fun m hm => hm.elim
        unfold decode
        rw [hdec]
        exact .throw fun m hm => hm.1
      | some record =>
        refine Follows.bind (K := fun record' m => record' = record ∧ m.Did [] ∧
          m.seen = some c) ?_ fun record' => .pure fun m hm => ?_
        · unfold decode
          rw [hdec]
          exact .pure fun m hm => ⟨rfl, hm⟩
        · obtain ⟨rfl, hdid, hseen⟩ := hm
          obtain ⟨version, value⟩ := c
          obtain rfl := Value.artifact?_eq_some.mp hdec
          exact ⟨hdid, hseen⟩

theorem putArtifactAttempts_follows (record : ArtifactRecord) (attempts : ℕ) :
    CallFollows x repo path (.put record) (CallMemory.Did [])
      (putArtifactAttempts x repo path record attempts)
      (fun old => CallMemory.Did [(old, some (prepareRecord path record))])
      (CallMemory.Did []) := by
  induction attempts with
  | zero => exact .throw fun m hm => hm
  | succ attempts ih =>
    rw [putArtifactAttempts]
    refine getArtifactVersioned_follows.bind fun old => ?_
    refine Follows.bind (K := fun written m =>
      (written = true → m.Did [(old.map Prod.fst, some (prepareRecord path record))]) ∧
        (written = false → m.Did [])) ?_ fun written => ?_
    · have hold : ∀ m : CallMemory, m.Seen old → m.seen.map Versioned.version = old.map Prod.snd ∧
            (m.seen.bind fun c => c.value.artifact?) = old.map Prod.fst := by
        intro m hm
        rw [hm.2]
        cases old <;> exact ⟨rfl, rfl⟩
      refine Follows.attempt ?_ ?_ ?_
      · intro m hm
        refine ⟨hm.1.answered, fun _ => ⟨hm.1.events, ?_, fun cell hcell => ?_⟩⟩
        · rw [(hold m hm).1]
        · rw [hm.2] at hcell
          obtain ⟨e, -, rfl⟩ := Option.map_eq_some_iff.mp hcell
          rfl
      · intro m reply written hm hreply
        cases reply with
        | none => cases hreply
        | some r =>
          obtain ⟨through, prior⟩ := r
          obtain rfl : through = written := Option.some.inj hreply
          cases through with
          | true =>
            rw [callNote_put]
            refine ⟨fun _ => ⟨?_, hm.1.answered⟩, ?_⟩
            · dsimp only
              rw [hm.1.events, (hold m hm).2]
              rfl
            · intro h
              cases h
          | false =>
            refine ⟨?_, fun _ => hm.1⟩
            intro h
            cases h
      · intro m reply hm hreply
        cases reply with
        | none =>
          rw [callNote_failed]
          exact hm.1
        | some r => cases hreply
    · cases written with
      | true =>
        have htree : CallFollows x repo path (.put record) (fun m => m.Did
            [(old.map Prod.fst, some (prepareRecord path record))])
            (upsertTreeFile x repo path (prepareRecord path record))
            (fun _ m => m.Did [(old.map Prod.fst, some (prepareRecord path record))])
            (CallMemory.Did []) := treeWrite_follows (fun m hm => hm.answered) _ _ _ _
        exact (htree.weaken (fun m hm => hm.1 rfl) (fun _ _ hm => hm) fun _ hm => hm).bind
          fun _ => .pure fun m hm => hm
      | false => exact ih.weaken (fun m hm => hm.2 rfl) (fun _ _ hm => hm) fun _ hm => hm

/-- The memory after a call that has failed, unless it has deleted something else than a
    record. -/
structure CallMemory.Left (P : List (Option ArtifactRecord × Option ArtifactRecord) → Prop)
    (m : CallMemory) : Prop where
  events : m.foreign = false → P m.events
  answered : m.answered = none

theorem CallMemory.Did.left {events : List (Option ArtifactRecord × Option ArtifactRecord)}
    {P : List (Option ArtifactRecord × Option ArtifactRecord) → Prop} (h : m.Did events)
    (hP : P events) : m.Left P := ⟨fun _ => by rw [h.events]; exact hP, h.answered⟩

theorem deleteArtifact_follows :
    CallFollows x repo path .delete (CallMemory.Did []) (deleteArtifact x repo path)
      (fun old => CallMemory.Left (· = [(old, none)])) (CallMemory.Left (· = [])) := by
  refine Follows.bind (K := fun old m => m.Left (· = [(old.bind Value.artifact?, none)]) ∧
    ∀ v, old = some v → v.artifact? = none → m.foreign = true) ?_ fun old => ?_
  · refine Follows.attempt ?_ ?_ ?_
    · exact fun m hm => ⟨hm.answered, fun _ => ⟨hm.events, rfl⟩⟩
    · intro m reply old hm hreply
      cases reply with
      | none => cases hreply
      | some r =>
        obtain ⟨through, prior⟩ := r
        obtain rfl : prior = old := Option.some.inj hreply
        rw [callNote_remove]
        refine ⟨⟨fun _ => ?_, hm.answered⟩, ?_⟩
        · dsimp only
          rw [hm.events]
          rfl
        · rintro v rfl hv
          simp [hv]
    · intro m reply hm hreply
      cases reply with
      | none =>
        rw [callNote_failed]
        exact hm.left rfl
      | some r => cases hreply
  · cases old with
    | none => exact .pure fun m hm => hm.1
    | some v =>
      have htree : CallFollows x repo path .delete
          (fun m => m.Left (· = [(v.artifact?, none)]) ∧
            ∀ v', some v = some v' → v'.artifact? = none → m.foreign = true)
          (deleteTreeFile x repo path)
          (fun _ m => m.Left (· = [(v.artifact?, none)]) ∧
            ∀ v', some v = some v' → v'.artifact? = none → m.foreign = true)
          (CallMemory.Left (· = [])) := treeWrite_follows (fun m hm => hm.1.answered) _ _ _ _
      refine htree.bind fun _ => ?_
      unfold decode
      cases hdec : v.artifact? with
      | none =>
        refine .throw fun m hm => ⟨fun hforeign => ?_, hm.1.answered⟩
        rw [hm.2 v rfl hdec] at hforeign
        cases hforeign
      | some record => exact .pure fun m hm => hm.1

/-- What a batch has done to the record: it has deleted it, any number of times. -/
structure CallMemory.Cleared (m : CallMemory) : Prop where
  events : ∀ e ∈ m.events, e.2 = none
  answered : m.answered = none

theorem kvDeleteBatch_follows (paths paths' : List String) :
    CallFollows x repo path (.deleteBatch paths) CallMemory.Cleared
      (kvDeleteBatch (paths'.map (artifactKey x.shardOf repo))) (fun _ => CallMemory.Cleared)
      CallMemory.Cleared := by
  refine .fold (fun hits k hk => ?_) []
  refine Follows.bind (K := fun _ => CallMemory.Cleared) ?_ fun hit => .pure fun m hm => hm
  by_cases hkey : k = artifactKey x.shardOf repo path
  · rw [hkey]
    have hnote : ∀ (m : CallMemory) (reply : Option (Bool × Option Value)), m.Cleared →
        CallMemory.Cleared (m.noteOp x repo path
          (.write (artifactKey x.shardOf repo path) .remove) reply) := by
      intro m reply hm
      cases reply with
      | none =>
        rw [callNote_failed]
        exact hm
      | some r =>
        rw [callNote_remove]
        refine ⟨fun e he => ?_, hm.answered⟩
        rcases mem_append.mp he with he | he
        · exact hm.events e he
        · rw [mem_singleton.mp he]
    exact .attempt (fun m hm => ⟨hm.answered, fun _ => rfl⟩)
      (fun m reply _ hm _ => hnote m reply hm) fun m reply hm _ => hnote m reply hm
  · exact follows_other (fun m hm => hm.answered) (uses_attempt ⟨k, _, rfl, hkey⟩)

theorem deleteArtifactsPairedBatch_follows (paths : List String) :
    CallFollows x repo path (.deleteBatch paths) CallMemory.Cleared
      (deleteArtifactsPairedBatch x repo paths) (fun _ => CallMemory.Cleared)
      CallMemory.Cleared := by
  unfold deleteArtifactsPairedBatch
  split_ifs
  · exact .pure fun m hm => hm
  · refine (kvDeleteBatch_follows paths paths).bind fun _ => .ignore ?_
    refine follows_other (fun m hm => hm.answered) ?_
    refine Uses.fold fun hits k hk => ?_
    obtain ⟨path', -, rfl⟩ := mem_map.mp hk
    exact (uses_attempt ⟨_, _, rfl, treeKey_ne x repo path repo path'⟩).bind
      fun hit => Fallible.uses_pure _

/-- **Calls.** How a call ends is what it has done to the record. -/
theorem artifactCode_follows (j : ArtifactCall) :
    CallFollows x repo path j (· = {}) (j.code x repo path)
      (fun a m => j.Allowed x repo path m (.answer (.ok a)))
      (fun m => ∀ e, j.Allowed x repo path m (.answer (.error e))) := by
  have hstart : ∀ m : CallMemory, m = {} → m.Did [] := fun m hm => by
    rw [hm]
    exact ⟨rfl, rfl⟩
  cases j with
  | put record =>
    have hput : CallFollows x repo path (.put record) (CallMemory.Did [])
        (putArtifact x repo path record)
        (fun old => CallMemory.Did [(old, some (prepareRecord path record))])
        (CallMemory.Did []) := by
      unfold putArtifact
      split_ifs
      · exact .throw fun m hm => hm
      · exact putArtifactAttempts_follows record _
    refine (hput.weaken hstart (fun _ _ hm => hm) fun m hm e => ?_).bind
      fun old => .pure fun m hm => ?_
    · exact ⟨hm.answered, fun _ => hm.events⟩
    · exact ⟨hm.answered, fun _ => hm.events⟩
  | delete =>
    refine (deleteArtifact_follows.weaken hstart (fun _ _ hm => hm) fun m hm e => ?_).bind
      fun old => .pure fun m hm => ?_
    · exact ⟨hm.answered, hm.events⟩
    · exact ⟨hm.answered, hm.events⟩
  | deleteBatch paths =>
    have hclear : ∀ m : CallMemory, m = {} → m.Cleared := fun m hm => by
      rw [hm]
      exact ⟨fun e he => (nomatch he), rfl⟩
    refine ((deleteArtifactsPairedBatch_follows paths).weaken hclear (fun _ _ hm => hm)
      fun m hm e => ?_).bind fun _ => .pure fun m hm => ?_
    · exact ⟨hm.answered, fun _ => hm.events⟩
    · exact ⟨hm.answered, fun _ => hm.events⟩

end

/-! ## The invariant -/

/-- The record is what the last operation left, and each call knows what it has replaced. -/
structure ArtifactInv (x : Ext) (repo path : String) (b : Option ArtifactRecord)
    (s : ArtifactState) (ms : ℕ → CallMemory) : Prop where
  artifact : ∀ c, s.world.cell (artifactKey x.shardOf repo path) = some c →
    c.value.artifact?.isSome
  current : s.world.record x repo path = lastLeft b s.log
  events : ∀ i, ((links b s.log).filter fun e => e.1 = i).map Prod.snd = (ms i).events
  foreign : ∀ i, (ms i).foreign = false
  answered : ∀ i j a, (ms i).answered = some (j, a) → j.Outcome path a (ms i).events

section

variable {x : Ext} {repo path : String} {b : Option ArtifactRecord} {s s' : ArtifactState}
variable {ms : ℕ → CallMemory} {i : ℕ} {m : CallMemory} {w : World}

theorem record_eq (w : World) : w.record x repo path =
    (w.cell (artifactKey x.shardOf repo path)).bind fun c => c.value.artifact? := by
  unfold World.record World.value
  cases w.cell (artifactKey x.shardOf repo path) <;> rfl

section

variable (h : ArtifactInv x repo path b s ms)

include h

/-- A step that leaves the record alone. -/
theorem ArtifactInv.quiet (hcell : w.cell (artifactKey x.shardOf repo path) =
      s.world.cell (artifactKey x.shardOf repo path)) :
    ArtifactInv x repo path b ⟨w, s.log⟩ ms where
  artifact c hc := h.artifact c (hcell ▸ hc)
  current := by
    rw [← h.current, record_eq, record_eq, hcell]
  events := h.events
  foreign := h.foreign
  answered := h.answered

/-- A call learns something that is not about what it has done. -/
theorem ArtifactInv.learn (hevents : m.events = (ms i).events) (hforeign : m.foreign = false)
    (hanswered : ∀ j a, m.answered = some (j, a) → j.Outcome path a m.events) :
    ArtifactInv x repo path b s (update ms i m) where
  artifact := h.artifact
  current := h.current
  events := (forall_update_iff ms fun k m =>
    ((links b s.log).filter fun e => e.1 = k).map Prod.snd = m.events).mpr
      ⟨by rw [hevents]; exact h.events i, fun k _ => h.events k⟩
  foreign := (forall_update_iff ms fun _ m => m.foreign = false).mpr
    ⟨hforeign, fun k _ => h.foreign k⟩
  answered := (forall_update_iff ms fun _ m =>
    ∀ j a, m.answered = some (j, a) → j.Outcome path a m.events).mpr
      ⟨hanswered, fun k _ => h.answered k⟩

/-- **The change.** A call replaces the record, and knows which one. -/
theorem ArtifactInv.change (hanswered : m.answered = none)
    (hforeign : m.foreign = false) {a : Option ArtifactRecord}
    (hevents : m.events = (ms i).events ++ [(s.world.record x repo path, a)])
    (hartifact : ∀ c, w.cell (artifactKey x.shardOf repo path) = some c →
      c.value.artifact?.isSome) (hrecord : w.record x repo path = a) :
    ArtifactInv x repo path b ⟨w, s.log ++ [(i, a)]⟩ (update ms i m) where
  artifact := hartifact
  current := by rw [lastLeft_append, hrecord]
  events := by
    dsimp only
    rw [links_append, ← h.current]
    refine (forall_update_iff ms fun k m => ((links b s.log ++
      [(i, s.world.record x repo path, a)]).filter fun e => e.1 = k).map Prod.snd =
        m.events).mpr ⟨?_, fun k hk => ?_⟩
    · rw [filter_append, map_append, h.events, hevents]
      simp
    · rw [filter_append, map_append, h.events]
      simp [Ne.symm hk]
  foreign := (forall_update_iff ms fun _ m => m.foreign = false).mpr
    ⟨hforeign, fun k _ => h.foreign k⟩
  answered := by
    refine (forall_update_iff ms fun _ m =>
      ∀ j a, m.answered = some (j, a) → j.Outcome path a m.events).mpr
        ⟨fun j a' ha' => ?_, fun k _ => h.answered k⟩
    rw [hanswered] at ha'
    cases ha'

/-- What is stored is a record. -/
theorem ArtifactInv.any_isNone :
    (s.world.value (artifactKey x.shardOf repo path)).any (fun v => v.artifact?.isNone) =
      false := by
  unfold World.value
  cases hcell : s.world.cell (artifactKey x.shardOf repo path) with
  | none => rfl
  | some c =>
    have hsome := h.artifact c hcell
    rw [Option.map_some, Option.any_some]
    exact Option.isNone_eq_false_iff.mpr hsome

/-- **Puts.** The conditional write of a put that is executed. -/
theorem ArtifactInv.put (hanswered : (ms i).answered = none)
    {record : ArtifactRecord} {expected : Option ℕ}
    (hen : (CellOp.putIf (Value.artifact record) expected).enabled
      (s.world.cell (artifactKey x.shardOf repo path)) = true)
    (hseen : (s.world.cell (artifactKey x.shardOf repo path)).map Versioned.value =
      (ms i).seen.map Versioned.value) :
    ArtifactInv x repo path b ⟨s.world.setCell (artifactKey x.shardOf repo path)
        ((CellOp.putIf (Value.artifact record) expected).apply
          (s.world.cell (artifactKey x.shardOf repo path))), s.log ++ [(i, some record)]⟩
      (update ms i { ms i with
        events := (ms i).events ++
          [((ms i).seen.bind fun c => c.value.artifact?, some record)] }) := by
  have hbefore : s.world.record x repo path = (ms i).seen.bind fun c => c.value.artifact? := by
    rw [record_eq]
    have hbind : ∀ c : Option (Versioned Value),
        (c.bind fun c => c.value.artifact?) = (c.map Versioned.value).bind Value.artifact? :=
      fun c => by cases c <;> rfl
    rw [hbind, hseen, ← hbind]
  refine ArtifactInv.change (m := { ms i with
    events := (ms i).events ++ [((ms i).seen.bind fun c => c.value.artifact?, some record)] })
    h hanswered (h.foreign i) ?_ (fun c hc => ?_) ?_
  · rw [hbefore]
  · rw [World.cell_setCell_self] at hc
    unfold CellOp.apply at hc
    rw [if_pos hen] at hc
    obtain rfl := Option.some.inj hc
    rfl
  · rw [record_eq, World.cell_setCell_self]
    unfold CellOp.apply
    rw [if_pos hen]
    rfl

/-- **Deletes.** -/
theorem ArtifactInv.remove (hanswered : (ms i).answered = none) :
    ArtifactInv x repo path b ⟨s.world.setCell (artifactKey x.shardOf repo path)
        ((CellOp.remove : CellOp Value).apply
          (s.world.cell (artifactKey x.shardOf repo path))), s.log ++ [(i, none)]⟩
      (update ms i { ms i with
        events := (ms i).events ++
          [((s.world.value (artifactKey x.shardOf repo path)).bind Value.artifact?, none)]
        foreign := (ms i).foreign || (s.world.value (artifactKey x.shardOf repo path)).any
          fun v => v.artifact?.isNone }) := by
  have hgone : (CellOp.remove : CellOp Value).apply
      (s.world.cell (artifactKey x.shardOf repo path)) = none := by
    cases s.world.cell (artifactKey x.shardOf repo path) <;> rfl
  rw [hgone]
  refine ArtifactInv.change (m := { ms i with
    events := (ms i).events ++
      [((s.world.value (artifactKey x.shardOf repo path)).bind Value.artifact?, none)]
    foreign := (ms i).foreign || (s.world.value (artifactKey x.shardOf repo path)).any
      fun v => v.artifact?.isNone }) h hanswered ?_ rfl (fun c hc => ?_) ?_
  · dsimp only
    rw [h.foreign i, h.any_isNone, Bool.false_or]
  · rw [World.cell_setCell_self] at hc
    cases hc
  · rw [record_eq, World.cell_setCell_self]
    rfl

/-- **Steps.** An operation of a call that keeps to its program preserves the invariant, under the
    condition on conditional writes. -/
theorem ArtifactInv.step {j : ArtifactCall} {o : Op}
    {flag : Bool} {r : R o} (hA : (ms i).answered = none ∧ j.May x repo path (ms i) o)
    (hrule : ∀ log, (readIsCurrent x repo path).op i j ((s, log), ms) (.op o) flag = true)
    (hx : artifactExec x repo path i j o flag s = some (s', r)) :
    ArtifactInv x repo path b s' (update ms i ((ms i).noteOp x repo path o r)) := by
  obtain ⟨hanswered, hmay⟩ := hA
  obtain ⟨⟨w', r'⟩, hexec, heq⟩ := Option.map_eq_some_iff.mp hx
  obtain ⟨rfl, rfl⟩ := Prod.mk.inj heq
  set key := artifactKey x.shardOf repo path
  have hquiet : ∀ w' : World, w'.cell key = s.world.cell key →
      ArtifactInv x repo path b ⟨w', s.log ++ []⟩ (update ms i (ms i)) := by
    intro w' hcell
    rw [Function.update_eq_self, append_nil]
    exact h.quiet hcell
  cases o with
  | read k =>
    obtain ⟨rfl, rfl⟩ := some_mk_inj hexec
    cases flag with
    | false => exact hquiet s.world rfl
    | true =>
      show ArtifactInv x repo path b ⟨s.world, s.log ++ []⟩ (update ms i
        (if k = key then { ms i with seen := s.world.cell k } else ms i))
      by_cases hk : k = key
      · rw [if_pos hk, append_nil]
        refine ArtifactInv.learn (m := { ms i with seen := s.world.cell k }) h rfl (h.foreign i) ?_
        exact h.answered i
      · rw [if_neg hk]
        exact hquiet s.world rfl
  | write k c =>
    cases flag with
    | false =>
      obtain ⟨rfl, rfl⟩ := some_mk_inj hexec
      rw [callNote_failed, leftBy_none]
      exact hquiet s.world rfl
    | true =>
      obtain ⟨rfl, rfl⟩ := some_mk_inj hexec
      by_cases hk : k = key
      · subst hk
        have hremove : c = .remove → ArtifactInv x repo path b
            ⟨s.world.setCell key (c.apply (s.world.cell key)),
              s.log ++ ((leftBy key (.write key c)
                (some (c.enabled (s.world.cell key), s.world.value key))).map
                  fun a => (i, a)).toList⟩
            (update ms i ((ms i).noteOp x repo path (.write key c)
              (some (c.enabled (s.world.cell key), s.world.value key)))) := by
          rintro rfl
          rw [callNote_remove, leftBy_remove]
          exact h.remove hanswered
        cases j with
        | delete => exact hremove (hmay rfl).2
        | deleteBatch paths => exact hremove (hmay rfl)
        | put record =>
          obtain ⟨-, rfl, -⟩ := hmay rfl
          have hrule' := hrule []
          cases hen : (CellOp.putIf (Value.artifact (prepareRecord path record))
              ((ms i).seen.map Versioned.version)).enabled (s.world.cell key) with
          | false =>
            rw [callNote_conflict, leftBy_putIf]
            unfold CellOp.apply
            rw [if_neg (by rw [hen]; decide)]
            exact hquiet _ (World.cell_setCell_same _ _)
          | true =>
            rw [callNote_put, leftBy_putIf, h.any_isNone, Bool.or_false]
            refine h.put hanswered hen ?_
            simpa [readIsCurrent, hen, key] using hrule'
      · rw [callNote_write, leftBy_of_ne hk]
        exact hquiet _ (World.cell_setCell_of_ne (Ne.symm hk) _)
  | _ => exact hmay.elim

theorem ArtifactInv.answer {j : ArtifactCall}
    {a : ArtifactAnswer} (hA : j.Allowed x repo path (ms i) (.answer a)) :
    ArtifactInv x repo path b s (update ms i { ms i with answered := some (j, a) }) := by
  refine ArtifactInv.learn (m := { ms i with answered := some (j, a) }) h rfl (h.foreign i) ?_
  intro j' a' heq
  obtain ⟨rfl, rfl⟩ := some_mk_inj heq
  exact hA.2 (h.foreign i)

end

theorem artifactInv_init {w0 : World} (hartifact : ∀ c,
    w0.cell (artifactKey x.shardOf repo path) = some c → c.value.artifact?.isSome) :
    ArtifactInv x repo path (w0.record x repo path) ⟨w0, []⟩ fun _ => {} where
  artifact := hartifact
  current := rfl
  events i := rfl
  foreign i := rfl
  answered i j a h := by cases h

end

/-! ## Runs -/

/-- The calls in a state. -/
abbrev ArtifactPool : Type :=
  Pool (AnswerOp Op ArtifactAnswer) (AnswerOp.Reply R)
    ((ArtifactState × List (ℕ × ArtifactAnswer)) × (ℕ → CallMemory)) ArtifactCall

/-- No call yet. -/
def ArtifactPool.init (w0 : World) : ArtifactPool := Pool.init ((⟨w0, []⟩, []), fun _ => {})

/-- The call of a task that has returned has been answered. -/
def ArtifactCall.Answered (j : ArtifactCall) (m : CallMemory) : Prop :=
  ∃ a, m.answered = some (j, a)

section

variable {x : Ext} {repo path : String} {w0 : World} {es : List (Event ArtifactCall World)}
variable {p : ArtifactPool}

theorem artifactCall_follows (j : ArtifactCall) :
    ((artifactCalls x repo path).code j).flatten.Follows (j.Allowed x repo path)
      (CallMemory.note x repo path j) (fun _ => j.Answered) {} := by
  have hcode : Prog.Follows (fun m o => m.answered = none ∧ j.May x repo path m o)
      (CallMemory.noteOp x repo path)
      (fun (a : ArtifactAnswer) m => j.Allowed x repo path m (.answer a))
      (j.code x repo path).run.flatten {} := by
    refine (artifactCode_follows j {} rfl).mono fun a m ha => ?_
    cases a with
    | ok r => exact ha
    | error e => exact ha e
  exact follows_answering (fun m o ho => ho) (fun m o r => rfl) (fun _ _ h => h)
    (fun a m => ⟨a, rfl⟩) hcode

theorem artifactPool_following : (ArtifactPool.init w0).Following (CallMemory.note x repo path)
    (fun j => j.Allowed x repo path) ArtifactCall.Answered {} :=
  Pool.following_init _

/-- The invariant of a run; the answers are those that are remembered. -/
theorem artifactRun_shared (hartifact : ∀ c,
      w0.cell (artifactKey x.shardOf repo path) = some c → c.value.artifact?.isSome)
    (hrun : (ArtifactPool.init w0).run (artifactSystem x repo path) (readIsCurrent x repo path)
      es = some p) :
    ArtifactInv x repo path (w0.record x repo path) p.shared.1.1 p.shared.2 ∧
      ∀ i j a, (p.shared.2 i).answered = some (j, a) → (i, a) ∈ p.shared.1.2 := by
  refine artifactPool_following.shared (P := fun s =>
    ArtifactInv x repo path (w0.record x repo path) s.1.1 s.2 ∧
      ∀ i j a, (s.2 i).answered = some (j, a) → (i, a) ∈ s.1.2)
    (fun j => artifactCall_follows j) ?_ (fun j s ms hP => hP) ?_
    ⟨artifactInv_init hartifact, fun i j a h => nomatch h⟩ hrun
  · rintro i j o flag ⟨s, log⟩ ms s' r ⟨hinv, hlog⟩ hA hrule hx
    cases o with
    | op o =>
      obtain ⟨y, hy, heq⟩ := Option.map_eq_some_iff.mp hx
      obtain ⟨rfl, rfl⟩ := Prod.mk.inj heq
      refine ⟨hinv.step hA (fun _ => hrule) hy, ?_⟩
      refine (forall_update_iff ms fun k m => ∀ j a, m.answered = some (j, a) →
        (k, a) ∈ log).mpr ⟨fun j' a ha => ?_, fun k _ => hlog k⟩
      exact hlog i j' a ((answered_noteOp (m := ms i) o y.2).symm.trans ha)
    | answer a =>
      obtain ⟨rfl, -⟩ := some_mk_inj hx
      refine ⟨hinv.answer hA, ?_⟩
      refine (forall_update_iff ms fun k m => ∀ j a', m.answered = some (j, a') →
        (k, a') ∈ log ++ [(i, a)]).mpr ⟨fun j' a' ha' => ?_, fun k _ j' a' ha' => ?_⟩
      · obtain ⟨rfl, rfl⟩ := some_mk_inj ha'
        exact mem_append_right _ (mem_singleton_self _)
      · exact mem_append_left _ (hlog k j' a' ha')
  · rintro w ⟨s, log⟩ ms s' ⟨hinv, hlog⟩ hs
    obtain ⟨t, ht, rfl⟩ := Option.map_eq_some_iff.mp hs
    unfold artifactEnv at ht
    split_ifs at ht with hw
    obtain rfl := Option.some.inj ht
    exact ⟨hinv.quiet hw, hlog⟩

end

/-- The size of a record; no record has none. -/
def recordSize (record : Option ArtifactRecord) : ℤ := (record.map fun r => (r.size : ℤ)).getD 0

/-- **Main theorem.** Puts, deletes and batches of deletes on a path, in any interleaving, any
operation failing, the rest of the server doing anything but to the record, and no put writing over
another record than the one it has read. The writes and deletes of the record form a chain from
the first record to the last one. Every call that has returned has been answered; a put or delete
that is answered with a record has one link in the chain and has returned the record that this
link starts from, one that has failed has none, and the links of a batch are
deletes. The changes in size along the chain add up to that from the first record to the last
one. -/
theorem puts_linearise (x : Ext) (repo path : String) (w0 : World)
    (hartifact : ∀ c, w0.cell (artifactKey x.shardOf repo path) = some c →
      c.value.artifact?.isSome) {es : List (Event ArtifactCall World)} {p : ArtifactPool}
    (hrun : (ArtifactPool.init w0).run (artifactSystem x repo path) (readIsCurrent x repo path)
      es = some p) {l : List (ℕ × Option ArtifactRecord × Option ArtifactRecord)}
    (hl : l = links (w0.record x repo path) p.shared.1.1.log) :
    p.shared.1.1.world.record x repo path = lastLeft (w0.record x repo path) p.shared.1.1.log ∧
      (∀ i j, p.returned i = some j → ∃ a, (p.shared.2 i).answered = some (j, a)) ∧
      (∀ i j a, (p.shared.2 i).answered = some (j, a) → (i, a) ∈ p.shared.1.2 ∧
        j.Outcome path a ((l.filter fun e => e.1 = i).map Prod.snd)) ∧
      (l.map fun e => recordSize e.2.2 - recordSize e.2.1).sum =
        recordSize (p.shared.1.1.world.record x repo path) -
          recordSize (w0.record x repo path) := by
  subst hl
  obtain ⟨hinv, hlog⟩ := artifactRun_shared hartifact hrun
  have hfollow := artifactPool_following.run (fun j => artifactCall_follows j) hrun
  refine ⟨hinv.current, fun i j hi => hfollow.returned hi, fun i j a ha => ⟨hlog i j a ha, ?_⟩, ?_⟩
  · rw [hinv.events i]
    exact hinv.answered i j a ha
  · rw [hinv.current]
    exact sum_links recordSize _ _

/-! ## A record that comes back -/

def recordOfSize (size : ℕ) : ArtifactRecord :=
  ⟨size, "text/plain", 0, 0, 0, "a", .raw, false, some "b", none, none⟩

/-- A store with a record of size 1. -/
def oneRecordWorld : World :=
  ({ now := 0 } : World).setCell (artifactKey Ext.sample.shardOf "r" "a")
    (some ⟨1, .artifact (recordOfSize 1)⟩)

/-- A put reads the record; it is deleted, and another put creates it again; the write of the first
    put goes through. -/
def deletedInBetween : List (Event ArtifactCall World) :=
  [.spawn (.put (recordOfSize 4)), .step 0 true, .spawn .delete] ++
    replicate 3 (.step 1 true) ++ [.spawn (.put (recordOfSize 2))] ++
    replicate 4 (.step 2 true) ++ replicate 3 (.step 0 true)

/-- The same, one after the other. -/
def oneAfterAnother : List (Event ArtifactCall World) :=
  [.spawn .delete] ++ replicate 3 (.step 0 true) ++ [.spawn (.put (recordOfSize 2))] ++
    replicate 4 (.step 1 true) ++ [.spawn (.put (recordOfSize 4))] ++
    replicate 4 (.step 2 true)

/-- What a call has answered, as a change in size. -/
def ArtifactCall.change (path : String) : ArtifactCall → ArtifactAnswer → ℤ
  | .put record, .ok (some old) => recordSize (some (prepareRecord path record)) - recordSize old
  | .delete, .ok (some old) => recordSize none - recordSize old
  | _, _ => 0

/-- The changes that calls `0` to `n - 1` have answered. -/
def answeredChanges (path : String) (n : ℕ) (ms : ℕ → CallMemory) : ℤ :=
  ((List.range n).map fun i => ((ms i).answered.map fun e => e.1.change path e.2).getD 0).sum

theorem oneRecordWorld_cell : oneRecordWorld.cell (artifactKey Ext.sample.shardOf "r" "a") =
    some ⟨1, .artifact (recordOfSize 1)⟩ := World.cell_setCell_self _ _

/-- One after the other, the calls make the chain from size 1 to nothing, to 2 and to 4. -/
theorem puts_linearise_one_by_one : ∃ p,
    (ArtifactPool.init oneRecordWorld).run (artifactSystem Ext.sample "r" "a")
      (readIsCurrent Ext.sample "r" "a") oneAfterAnother = some p ∧
    p.shared.1.1.log = [(0, none), (1, some (recordOfSize 2)), (2, some (recordOfSize 4))] ∧
    p.shared.1.1.world.record Ext.sample "r" "a" = some (recordOfSize 4) := by
  refine ends_in (fun p => p.shared.1.1.log =
    [(0, none), (1, some (recordOfSize 2)), (2, some (recordOfSize 4))]) (by decide +kernel)
    fun p hp hlog => ⟨hlog, ?_⟩
  rw [(puts_linearise Ext.sample "r" "a" oneRecordWorld (fun c hc => by
    rw [oneRecordWorld_cell] at hc
    obtain rfl := Option.some.inj hc
    rfl) hp rfl).1, hlog]
  rfl

/-- **Counterexample.** A record of size 1 is deleted, a put creates one of size 2 and another put
    replaces that by one of size 4. All succeed, and both the delete and the last
    put return the record of size 1. -/
theorem put_returns_deleted_record : ∃ p,
    (ArtifactPool.init oneRecordWorld).run (artifactSystem Ext.sample "r" "a") .free
      deletedInBetween = some p ∧
    p.shared.1.2 = [(1, .ok (some (some (recordOfSize 1)))), (2, .ok (some none)),
      (0, .ok (some (some (recordOfSize 1))))] ∧
    p.shared.1.1.log = [(1, none), (2, some (recordOfSize 2)), (0, some (recordOfSize 4))] ∧
    answeredChanges "a" 3 p.shared.2 ≠ recordSize (p.shared.1.1.world.record Ext.sample "r" "a") -
      recordSize (oneRecordWorld.record Ext.sample "r" "a") := by
  exact ends_in (fun p =>
    p.shared.1.2 = [(1, .ok (some (some (recordOfSize 1)))), (2, .ok (some none)),
      (0, .ok (some (some (recordOfSize 1))))] ∧
    p.shared.1.1.log = [(1, none), (2, some (recordOfSize 2)), (0, some (recordOfSize 4))] ∧
    answeredChanges "a" 3 p.shared.2 ≠ recordSize (p.shared.1.1.world.record Ext.sample "r" "a") -
      recordSize (oneRecordWorld.record Ext.sample "r" "a")) (by decide +kernel)
    fun _ _ hall => hall

end Depot
