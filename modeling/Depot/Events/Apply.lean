import Depot.Events.Model

/-!
# Applying events

The batches of events that the materializer applies to the model
(`server/src/server/worker/materializer.rs`, lines 142–308).

Gauges are left out.

Results:
* `sameOn_applyEvent`: an event changes the table of its topic only.
* `sameOn_applyBatch`: a batch has the effect of its events, in their order.
-/

namespace Depot.Events

open Lib KeyedList

/-! ## The source -/

/-- The topic under which an event is published. -/
def ModelEvent.topic : ModelEvent → Topic
  | .repoCreated _ | .repoUpdated _ | .repoDeleted _ | .repoStatsUpdated .. => .repos
  | .storeCreated _ | .storeUpdated _ | .storeDeleted _ | .storeStatsUpdated .. => .stores
  | .taskCreated _ | .taskUpdated _ | .taskDeleted _ => .tasks
  | .userCreated _ | .userUpdated _ | .userDeleted _ => .users
  | .roleCreated _ | .roleUpdated _ | .roleDeleted _ => .roles
  | .settingsUpdated _ => .settings
  | .resync => .health

/-- The event sets `modified_public`. -/
def ModelEvent.modifiesPublic (e : ModelEvent) : Bool := !e.topic.adminOnly && e != .resync

/-- The event sets `modified_admin`. -/
def ModelEvent.modifiesAdmin (e : ModelEvent) : Bool := e.topic.adminOnly

/-- The branches for repositories (lines 151–192). -/
def applyRepo (repos : List RepoResponse) : ModelEvent → List RepoResponse
  | .repoCreated repo => pushNew RepoResponse.name repo repos
  | .repoUpdated repo =>
      -- the statistics are kept
      modifyAt RepoResponse.name repo.name (fun existing => repo.withStats existing.stats) repos
  | .repoDeleted name => dropKey RepoResponse.name name repos
  | .repoStatsUpdated name stats =>
      modifyAt RepoResponse.name name (fun repo => repo.withStats stats) repos
  | _ => repos

/-- The branches for stores (lines 195–221). -/
def applyStore (stores : List StoreResponse) : ModelEvent → List StoreResponse
  | .storeCreated store => pushNew StoreResponse.name store stores
  | .storeUpdated store => modifyAt StoreResponse.name store.name (fun _ => store) stores
  | .storeDeleted name => dropKey StoreResponse.name name stores
  | .storeStatsUpdated name blobCount totalBytes =>
      modifyAt StoreResponse.name name
        (fun store => { store with blobCount := some blobCount, totalBytes := some totalBytes })
        stores
  | _ => stores

/-- The branches for tasks (lines 224–242). -/
def applyTask (tasks : List TaskInfo) : ModelEvent → List TaskInfo
  | .taskCreated task => pushNew TaskInfo.id task tasks
  | .taskUpdated task => upsert TaskInfo.id task tasks
  | .taskDeleted id => dropKey TaskInfo.id id tasks
  | _ => tasks

/-- The branches for users (lines 245–261). -/
def applyUser (users : List UserResponse) : ModelEvent → List UserResponse
  | .userCreated user => pushNew UserResponse.username user users
  | .userUpdated user => modifyAt UserResponse.username user.username (fun _ => user) users
  | .userDeleted username => dropKey UserResponse.username username users
  | _ => users

/-- The branches for roles (lines 264–279). -/
def applyRole (roles : List RoleResponse) : ModelEvent → List RoleResponse
  | .roleCreated role => pushNew RoleResponse.name role roles
  | .roleUpdated role => modifyAt RoleResponse.name role.name (fun _ => role) roles
  | .roleDeleted name => dropKey RoleResponse.name name roles
  | _ => roles

/-- The branch for settings (lines 282–285). -/
def applySettings (settings : Settings) : ModelEvent → Settings
  | .settingsUpdated settings => settings
  | _ => settings

/-- The body of the loop (lines 149–289), without the number. -/
def applyEvent (m : MaterializedModel) (e : ModelEvent) : MaterializedModel :=
  { pub := { m.pub with
      repos := applyRepo m.pub.repos e
      stores := applyStore m.pub.stores e
      tasks := applyTask m.pub.tasks e
      settings := applySettings m.pub.settings e }
    admin := { users := applyUser m.admin.users e, roles := applyRole m.admin.roles e } }

/-- The body of the loop with the number of the event (line 291). -/
def applyEnvelope (m : MaterializedModel) (env : Envelope) : MaterializedModel :=
  let m := applyEvent m env.event
  { m with pub.seq := env.seq }

/-- `apply_batch` (lines 142–308). A half that is not modified stays as it was, and with it the
    number. -/
def applyBatch (current : MaterializedModel) (events : List Envelope) : MaterializedModel :=
  let new := events.foldl applyEnvelope current
  { pub := if events.any fun env => env.event.modifiesPublic then new.pub else current.pub
    admin := if events.any fun env => env.event.modifiesAdmin then new.admin else current.admin }

/-! ## Tables -/

/-- The models have the same table for a topic. -/
def SameOn (t : Topic) (m m' : MaterializedModel) : Prop :=
  match t with
  | .repos => m.pub.repos = m'.pub.repos
  | .stores => m.pub.stores = m'.pub.stores
  | .tasks => m.pub.tasks = m'.pub.tasks
  | .users => m.admin.users = m'.admin.users
  | .roles => m.admin.roles = m'.admin.roles
  | .settings => m.pub.settings = m'.pub.settings
  | .health => m.pub.health = m'.pub.health

instance (t : Topic) (m m' : MaterializedModel) : Decidable (SameOn t m m') :=
  match t with
  | .repos => inferInstanceAs (Decidable (m.pub.repos = m'.pub.repos))
  | .stores => inferInstanceAs (Decidable (m.pub.stores = m'.pub.stores))
  | .tasks => inferInstanceAs (Decidable (m.pub.tasks = m'.pub.tasks))
  | .users => inferInstanceAs (Decidable (m.admin.users = m'.admin.users))
  | .roles => inferInstanceAs (Decidable (m.admin.roles = m'.admin.roles))
  | .settings => inferInstanceAs (Decidable (m.pub.settings = m'.pub.settings))
  | .health => inferInstanceAs (Decidable (m.pub.health = m'.pub.health))

theorem SameOn.refl (t : Topic) (m : MaterializedModel) : SameOn t m m := by
  cases t <;> rfl

variable {t : Topic} {m m' : MaterializedModel}

theorem SameOn.symm (h : SameOn t m m') : SameOn t m' m := by
  cases t <;> exact Eq.symm h

theorem SameOn.trans {m'' : MaterializedModel} (h : SameOn t m m')
    (h' : SameOn t m' m'') : SameOn t m m'' := by
  cases t <;> exact Eq.trans h h'

/-- An event changes the table of its topic only. -/
theorem sameOn_applyEvent {e : ModelEvent} (ht : e.topic ≠ t)
    (m : MaterializedModel) : SameOn t (applyEvent m e) m := by
  cases t <;> cases e <;> first | rfl | exact absurd rfl ht

/-- The table after an event depends on the table before it. -/
theorem SameOn.applyEvent (h : SameOn t m m')
    (e : ModelEvent) : SameOn t (applyEvent m e) (applyEvent m' e) := by
  cases t with
  | repos => exact congrArg (applyRepo · e) h
  | stores => exact congrArg (applyStore · e) h
  | tasks => exact congrArg (applyTask · e) h
  | users => exact congrArg (applyUser · e) h
  | roles => exact congrArg (applyRole · e) h
  | settings => exact congrArg (applySettings · e) h
  | health => exact h

theorem SameOn.foldl (h : SameOn t m m')
    (es : List ModelEvent) : SameOn t (es.foldl Events.applyEvent m) (es.foldl Events.applyEvent m') := by
  induction es generalizing m m' with
  | nil => exact h
  | cons e es ih => exact ih (h.applyEvent e)

/-- Events of other topics make no difference. -/
theorem sameOn_foldl_filter (t : Topic) (es : List ModelEvent) (m : MaterializedModel) :
    SameOn t (es.foldl applyEvent m) ((es.filter fun e => e.topic = t).foldl applyEvent m) := by
  induction es generalizing m with
  | nil => exact .refl t m
  | cons e es ih =>
    by_cases ht : e.topic = t
    · rw [List.filter_cons_of_pos (by simpa using ht)]
      exact ih _
    · rw [List.filter_cons_of_neg (by simpa using ht)]
      exact ((sameOn_applyEvent ht m).foldl es).trans (ih m)

/-- The number of a model is no part of its tables. -/
theorem sameOn_seq (t : Topic) (m : MaterializedModel) (seq : ℕ) :
    SameOn t { m with pub.seq := seq } m := by
  cases t <;> rfl

/-! ## Batches -/

theorem sameOn_foldl_envelope (t : Topic) (events : List Envelope) (m : MaterializedModel) :
    SameOn t (events.foldl applyEnvelope m) ((events.map Envelope.event).foldl applyEvent m) := by
  induction events generalizing m with
  | nil => exact .refl t m
  | cons env events ih =>
    have hseq : SameOn t (applyEnvelope m env) (applyEvent m env.event) := sameOn_seq t _ _
    exact (ih _).trans (hseq.foldl _)

/-- A table is the same after events of other topics. -/
theorem sameOn_foldl_of_ne {es : List ModelEvent} (ht : ∀ e ∈ es, e.topic ≠ t)
    (m : MaterializedModel) : SameOn t (es.foldl applyEvent m) m := by
  have hnil : (es.filter fun e => e.topic = t) = [] := by
    rw [List.filter_eq_nil_iff]
    intro e he
    simpa using ht e he
  have h := sameOn_foldl_filter t es m
  rwa [hnil] at h

/-- A model has the table of a topic in the half for the topic. -/
theorem SameOn.of_half
    (h : if t.adminOnly then m.admin = m'.admin else m.pub = m'.pub) : SameOn t m m' := by
  cases t with
  | users => exact congrArg AdminModel.users h
  | roles => exact congrArg AdminModel.roles h
  | repos => exact congrArg PublicModel.repos h
  | stores => exact congrArg PublicModel.stores h
  | tasks => exact congrArg PublicModel.tasks h
  | settings => exact congrArg PublicModel.settings h
  | health => exact congrArg PublicModel.health h

/-- Health does not change. -/
theorem health_foldl (events : List Envelope) (m : MaterializedModel) :
    (events.foldl applyEnvelope m).pub.health = m.pub.health := by
  induction events generalizing m with
  | nil => rfl
  | cons env events ih => exact ih _

/-- A batch has the effect of its events, in their order. -/
theorem sameOn_applyBatch (t : Topic) (m : MaterializedModel) (events : List Envelope) :
    SameOn t (applyBatch m events) ((events.map Envelope.event).foldl applyEvent m) := by
  have hall := sameOn_foldl_envelope t events m
  by_cases hnone : ∀ env ∈ events, env.event.topic ≠ t
  · have hes : ∀ e ∈ events.map Envelope.event, e.topic ≠ t := by
      intro e he
      obtain ⟨env, henv, rfl⟩ := List.mem_map.mp he
      exact hnone env henv
    -- either half has the table as it was
    have hkeep : SameOn t (events.foldl applyEnvelope m) m := hall.trans (sameOn_foldl_of_ne hes m)
    have hbatch : SameOn t (applyBatch m events) m := by
      unfold applyBatch
      dsimp only
      cases t <;> dsimp only [SameOn] at hkeep ⊢ <;> split_ifs <;> first | exact hkeep | rfl
    exact hbatch.trans (sameOn_foldl_of_ne hes m).symm
  · push Not at hnone
    obtain ⟨env, henv, htopic⟩ := hnone
    refine SameOn.trans ?_ hall
    by_cases hhealth : t = .health
    · rw [hhealth]
      have hkeep := health_foldl events m
      show (if _ then _ else _ : PublicModel).health = _
      split_ifs
      · rfl
      · exact hkeep.symm
    · apply SameOn.of_half
      unfold applyBatch
      dsimp only
      by_cases hadmin : t.adminOnly
      · have hany : (events.any fun env => env.event.modifiesAdmin) = true :=
          List.any_eq_true.mpr ⟨env, henv, by rw [ModelEvent.modifiesAdmin, htopic, hadmin]⟩
        rw [if_pos hadmin, if_pos hany]
      · have hresync : env.event ≠ .resync := by
          intro heq
          rw [heq] at htopic
          exact hhealth htopic.symm
        have hany : (events.any fun env => env.event.modifiesPublic) = true := by
          apply List.any_eq_true.mpr
          exact ⟨env, henv, by simp [ModelEvent.modifiesPublic, htopic, hadmin, hresync]⟩
        rw [if_neg hadmin, if_pos hany]

end Depot.Events
