import Depot.Events.RepoStats
import Mathlib.Algebra.Order.BigOperators.Group.List

/-!
# What readers see

The endpoints that list or stream data: the repositories
(`server/src/server/api/repositories.rs`, lines 189–217), the repositories in the form of Nexus
(`api/nexus_compat.rs`, lines 567–594), the tasks (`api/tasks.rs`, lines 302–308) and the event
stream (`infra/event_stream.rs`, lines 45–97).

What a reader may know of a state is the relation `SameFor`: it relates the states that differ
only in repositories without a grant to read for the user and, for a user who is not an
administrator, in stores, tasks, users, roles and settings.

**Deviation from the grants.** Only the list of repositories checks them. The event stream
sends every repository, store, task and setting, also to an anonymous client, and the list for
Nexus contains every repository.

Results:
* `respond_listTasks`: the list of tasks is the same in states that are the same for a user.
-/

namespace Depot.Events

open Lib List

/-! ## The state -/

/-- What a receiver of the bus gets: an event, or that it lagged behind (with the head of the
    bus and the time at which it is told). -/
inductive Received where
  | envelope (e : Envelope)
  | lagged (currentSeq : ℕ) (now : DateTime)
  deriving DecidableEq

/-- What the endpoints read: the tables, the counters of root directories, the materialized
    model, and what a receiver that subscribes now gets until it is closed. -/
structure ReadState where
  users : Accounts.UserTable := .empty
  roles : RowTable RoleRecord.name := .empty
  repos : RepoTable := .empty
  dirs : String → Option RepoStats := fun _ => none
  tasks : List TaskRecord := []
  model : MaterializedModel
  received : List Received := []

/-- The reads that fail. -/
structure Faults where
  user : Bool := false
  role : String → Bool := fun _ => false
  repos : Bool := false
  repoStats : String → Bool := fun _ => false
  tasks : Bool := false

/-- `get_user_with_roles` (`core/src/service/user.rs`, lines 72–87): a role that cannot be read is
    left out. -/
def getUserWithRoles (x : Faults) (s : ReadState) (username : String) :
    Option (UserRecord × List RoleRecord) :=
  (s.users.find username).map fun user =>
    (user, user.roles.filterMap fun n => if x.role n then none else s.roles.find n)

/-- `require_admin` (`auth/backend.rs`, lines 414–421). -/
def requireAdmin (x : Faults) (s : ReadState) (username : String) : Except AuthError Unit :=
  if x.user then .error .storage
  else
    match getUserWithRoles x s username with
    | some (user, _) => if isAdmin user then .ok () else .error .forbidden
    | none => .error .forbidden

/-! ## The endpoints -/

/-- `NexusRepoItem` (`api/nexus_compat.rs`, lines 124–130). -/
structure NexusRepoItem where
  name : String
  format : ArtifactFormat
  repoType : Config.RepoType
  url : String
  deriving DecidableEq

/-- An item of the event stream. The name and the id of an event are functions of its envelope. -/
inductive StreamItem where
  | snapshot (snapshot : ModelSnapshot)
  | delta (envelope : Envelope)
  | resync (envelope : Envelope)
  deriving DecidableEq

/-- What a client receives. -/
inductive Response where
  | error (e : AuthError)
  | unauthorized
  | repos (repos : List RepoResponse)
  | nexusRepos (items : List NexusRepoItem)
  | tasks (tasks : List TaskInfo)
  | stream (items : List StreamItem)
  deriving DecidableEq

/-- The endpoints with their parameters; the origin is computed from the headers. -/
inductive Endpoint where
  | listRepos
  | listRepositories (origin : String)
  | listTasks
  | eventStream (topics : Option String)

/-- `get_repo_stats(...).unwrap_or_default()`. -/
def shownStats (x : Faults) (s : ReadState) (c : Config.RepoConfig) : RepoStats :=
  if x.repoStats c.name then {} else getRepoStats s.repos s.dirs c

/-- The roles let the user read the repository. -/
def grantsRead (roles : List RoleRecord) (repo : String) : Bool :=
  (checkGrants roles repo .read).toBool

/-- `list_repos` (`api/repositories.rs`, lines 189–217). -/
def respondListRepos (x : Faults) (s : ReadState) (username : String) : Response :=
  if x.user then .error .storage
  else
    match getUserWithRoles x s username with
    | none => .repos []
    | some (_, roles) =>
        if x.repos then .error .storage
        else
          let authorized := (listRepos s.repos).filter fun r => grantsRead roles r.name
          .repos (authorized.map fun r => (RepoResponse.ofConfig r).withStats (shownStats x s r))

/-- `list_repositories` (`api/nexus_compat.rs`, lines 567–594). -/
def respondListRepositories (x : Faults) (origin : String) (s : ReadState) (username : String) :
    Response :=
  if username = "anonymous" then .unauthorized
  else if x.repos then .error .storage
  else
    .nexusRepos ((listRepos s.repos).map fun r =>
      { name := r.name, format := r.formatConfig.artifactFormat, repoType := repoTypeOf r.kind,
        url := origin ++ "/repository/" ++ r.name })

/-- `TaskManager::list` (`infra/task.rs`, lines 389–401). -/
def taskList (x : Faults) (s : ReadState) : List TaskInfo :=
  if x.tasks then [] else (s.tasks.filter fun r => !r.deleting).map TaskInfo.ofRecord

/-- `list_tasks` (`api/tasks.rs`, lines 302–308). -/
def respondListTasks (x : Faults) (s : ReadState) (username : String) : Response :=
  match requireAdmin x s username with
  | .ok () => .tasks (taskList x s)
  | .error e => .error e

/-- The loop of the stream (lines 62–86): it ends once the receiver has lagged. -/
def deltas (topics : List Topic) : List Received → List StreamItem
  | [] => []
  | .envelope e :: rest =>
      if e.topic ∈ topics then .delta e :: deltas topics rest else deltas topics rest
  | .lagged seq now :: _ =>
      [.resync { seq := seq, timestamp := now, topic := .health, event := .resync }]

/-- `event_stream` (lines 45–97). -/
def respondEventStream (x : Faults) (topics : Option String) (s : ReadState) (username : String) :
    Response :=
  let admin := (requireAdmin x s username).toBool
  .stream (.snapshot (s.model.toSnapshot admin) :: deltas (parseTopics topics admin) s.received)

/-- The response of an endpoint to a user. -/
def respond (x : Faults) (e : Endpoint) (username : String) (s : ReadState) : Response :=
  match e with
  | .listRepos => respondListRepos x s username
  | .listRepositories origin => respondListRepositories x origin s username
  | .listTasks => respondListTasks x s username
  | .eventStream topics => respondEventStream x topics s username

/-! ## What a user may see -/

/-- The user may read the repository. -/
def mayRead (s : ReadState) (username repo : String) : Bool :=
  match getUserWithRoles {} s username with
  | some (_, roles) => grantsRead roles repo
  | none => false

/-- The roles of the user make an admin. -/
def userIsAdmin (s : ReadState) (username : String) : Bool :=
  match getUserWithRoles {} s username with
  | some (user, _) => isAdmin user
  | none => false

/-- The repository that an event is about. -/
def ModelEvent.repo : ModelEvent → Option String
  | .repoCreated r => some r.name
  | .repoUpdated r => some r.name
  | .repoDeleted n => some n
  | .repoStatsUpdated n _ => some n
  | _ => none

/-- What is received is for the eyes of the user. -/
def mayReceive (s : ReadState) (username : String) : Received → Bool
  | .lagged .. => true
  | .envelope e =>
      match e.event.repo with
      | some n => mayRead s username n
      | none => e.event == .resync || userIsAdmin s username

/-- The states differ only in repositories that the user may not read and, when the user is not
    an administrator, in what is reserved to administrators. -/
structure SameFor (username : String) (s s' : ReadState) : Prop where
  user : getUserWithRoles {} s' username = getUserWithRoles {} s username
  repos : ∀ n, mayRead s username n → s'.repos.find n = s.repos.find n
  dirs : ∀ n, mayRead s username n → s'.dirs n = s.dirs n
  modelRepos : (s'.model.pub.repos.filter fun r => mayRead s username r.name) =
    s.model.pub.repos.filter fun r => mayRead s username r.name
  seq : s'.model.pub.seq = s.model.pub.seq
  health : s'.model.pub.health = s.model.pub.health
  received : s'.received.filter (mayReceive s username) =
    s.received.filter (mayReceive s username)
  tasks : userIsAdmin s username → s'.tasks = s.tasks
  modelStores : userIsAdmin s username → s'.model.pub.stores = s.model.pub.stores
  modelTasks : userIsAdmin s username → s'.model.pub.tasks = s.model.pub.tasks
  modelSettings : userIsAdmin s username → s'.model.pub.settings = s.model.pub.settings
  modelAdmin : userIsAdmin s username → s'.model.admin = s.model.admin

/-- Nothing is hidden from the user: an administrator with a grant to read every repository. -/
def seesAll (s : ReadState) (username : String) : Bool :=
  userIsAdmin s username && mayRead s username "*"

/-! ## Grants -/

variable {roles : List RoleRecord}

theorem grantsRead_iff {repo : String} : grantsRead roles repo ↔
      ∃ role ∈ roles, ∃ g ∈ role.capabilities, g.capability = .read ∧
        (g.repo = "*" ∨ g.repo = repo) := by
  unfold grantsRead checkGrants
  split_ifs with h
  · simpa [Except.toBool] using h
  · simpa [Except.toBool] using h

/-- A grant for every repository is one for each of them. -/
theorem grantsRead_of_star (h : grantsRead roles "*") (repo : String) : grantsRead roles repo := by
  obtain ⟨role, hrole, g, hg, hread, hstar⟩ := grantsRead_iff.mp h
  have hstar : g.repo = "*" := by simpa using hstar
  exact grantsRead_iff.mpr ⟨role, hrole, g, hg, hread, Or.inl hstar⟩

variable {username : String} {s : ReadState}

theorem mayRead_of_star (h : mayRead s username "*") (repo : String) : mayRead s username repo := by
  unfold mayRead at h ⊢
  split at h
  · exact grantsRead_of_star h repo
  · cases h

/-- The repositories that the roles name. -/
def grantedNames (roles : List RoleRecord) : List String :=
  roles.flatMap fun role => role.capabilities.map CapabilityGrant.repo

/-- A name that is longer than every name in a list. -/
def longName (names : List String) : String :=
  String.ofList (replicate ((names.map String.length).sum + 1) 'a')

theorem longName_not_mem (names : List String) : longName names ∉ names := by
  intro h
  have hle : (longName names).length ≤ (names.map String.length).sum :=
    le_sum_of_mem (mem_map_of_mem h)
  have hlen : (longName names).length = (names.map String.length).sum + 1 := by
    unfold longName
    rw [String.length_ofList, length_replicate]
  omega

/-- Without a grant for every repository some repository is hidden. -/
theorem exists_hidden (h : ¬mayRead s username "*") : ∃ repo, ¬mayRead s username repo := by
  cases hu : getUserWithRoles {} s username with
  | none => exact ⟨"", by simp [mayRead, hu]⟩
  | some p =>
    obtain ⟨user, roles⟩ := p
    refine ⟨longName (grantedNames roles), ?_⟩
    simp only [mayRead, hu] at h ⊢
    intro hread
    obtain ⟨role, hrole, g, hg, hcap, hstar | hname⟩ := grantsRead_iff.mp hread
    · exact h (grantsRead_iff.mpr ⟨role, hrole, g, hg, hcap, Or.inl hstar⟩)
    · apply longName_not_mem (grantedNames roles)
      rw [← hname]
      exact mem_flatMap.mpr ⟨role, hrole, mem_map_of_mem hg⟩

/-! ## States that are the same for a user -/

section

variable {username : String} {s s' : ReadState}

/-- Of the roles of a user, those are read whose reads do not fail. -/
theorem getUserWithRoles_eq (x : Faults) (s : ReadState) (username : String) :
    getUserWithRoles x s username = (getUserWithRoles {} s username).map fun p =>
      (p.1, p.2.filter fun r => !x.role r.name) := by
  have hfilter : ∀ names : List String,
      (names.filterMap fun n => if x.role n then none else s.roles.find n) =
        (names.filterMap s.roles.find).filter fun r => !x.role r.name := by
    intro names
    induction names with
    | nil => rfl
    | cons n names ih =>
      cases hn : s.roles.find n with
      | none => rw [filterMap_cons_none (by rw [hn, ite_self]), filterMap_cons_none hn, ih]
      | some r =>
        have hname : r.name = n := s.roles.keyed n r hn
        rw [filterMap_cons_some hn, filter_cons, hname]
        cases hx : x.role n with
        | true => rw [filterMap_cons_none (by rw [if_pos hx]), ih]; rfl
        | false => rw [filterMap_cons_some (by rw [hx]; exact hn), ih]; rfl
  unfold getUserWithRoles
  cases s.users.find username with
  | none => rfl
  | some user => exact congrArg (fun roles => some (user, roles)) (hfilter user.roles)

theorem SameFor.userWithRoles (h : SameFor username s s') (x : Faults) :
    getUserWithRoles x s' username = getUserWithRoles x s username := by
  rw [getUserWithRoles_eq x s', getUserWithRoles_eq x s, h.user]

theorem SameFor.requireAdmin (h : SameFor username s s') (x : Faults) :
    Events.requireAdmin x s' username = Events.requireAdmin x s username := by
  unfold Events.requireAdmin
  rw [h.userWithRoles]

theorem requireAdmin_toBool {x : Faults} (hx : (requireAdmin x s username).toBool) :
    userIsAdmin s username := by
  unfold requireAdmin at hx
  rw [getUserWithRoles_eq] at hx
  unfold userIsAdmin
  split_ifs at hx
  · cases hx
  · cases hu : getUserWithRoles {} s username with
    | none =>
      rw [hu] at hx
      cases hx
    | some p =>
      rw [hu] at hx
      dsimp only [Option.map_some] at hx ⊢
      split_ifs at hx with ha
      · exact ha
      · cases hx

/-- The list of tasks is the same in states that are the same for a user. -/
theorem respond_listTasks (h : SameFor username s s') (x : Faults) :
    respond x .listTasks username s' = respond x .listTasks username s := by
  show respondListTasks x s' username = respondListTasks x s username
  unfold respondListTasks
  rw [h.requireAdmin x]
  cases ha : Events.requireAdmin x s username with
  | error e => rfl
  | ok _ =>
    have hadmin : userIsAdmin s username := requireAdmin_toBool (x := x) (by rw [ha]; rfl)
    unfold taskList
    rw [h.tasks hadmin]

/-! ## Users from whom nothing is hidden -/

/-- A user who sees all receives everything. -/
theorem received_eq (h : SameFor username s s') (hall : seesAll s username) :
    s'.received = s.received := by
  obtain ⟨hadmin, hstar⟩ := Bool.and_eq_true_iff.mp hall
  have hrec : ∀ r, mayReceive s username r := by
    intro r
    cases r with
    | lagged seq now => rfl
    | envelope e =>
      show (match e.event.repo with
        | some n => mayRead s username n
        | none => e.event == .resync || userIsAdmin s username) = true
      split
      · exact mayRead_of_star hstar _
      · rw [hadmin, Bool.or_true]
  have heq := h.received
  rwa [filter_eq_self.mpr fun r _ => hrec r, filter_eq_self.mpr fun r _ => hrec r] at heq

/-- The materialized model that such a user is sent is the same. -/
theorem model_eq (h : SameFor username s s') (hall : seesAll s username) : s'.model = s.model := by
  obtain ⟨hadmin, hstar⟩ := Bool.and_eq_true_iff.mp hall
  have hrepos := h.modelRepos
  rw [filter_eq_self.mpr fun r _ => mayRead_of_star hstar r.name,
    filter_eq_self.mpr fun r _ => mayRead_of_star hstar r.name] at hrepos
  apply MaterializedModel.ext
  · exact PublicModel.ext h.seq hrepos (h.modelStores hadmin) (h.modelTasks hadmin)
      (h.modelSettings hadmin) h.health
  · exact h.modelAdmin hadmin

/-- A user who sees all gets the same responses in states that are the same for the user. -/
theorem respond_eq_of_seesAll (h : SameFor username s s') (hall : seesAll s username) (x : Faults)
    (e : Endpoint) : respond x e username s' = respond x e username s := by
  obtain ⟨_, hstar⟩ := Bool.and_eq_true_iff.mp hall
  have hrepos : s'.repos = s.repos := RowTable.ext_find fun n => h.repos n (mayRead_of_star hstar n)
  have hdirs : s'.dirs = s.dirs := by
    funext n
    exact h.dirs n (mayRead_of_star hstar n)
  have hstats : shownStats x s' = shownStats x s := by
    funext c
    unfold shownStats
    rw [hrepos, hdirs]
  cases e with
  | listRepos =>
    show respondListRepos x s' username = respondListRepos x s username
    unfold respondListRepos
    rw [h.userWithRoles, hrepos, hstats]
  | listRepositories origin =>
    show respondListRepositories x origin s' username = respondListRepositories x origin s username
    unfold respondListRepositories
    rw [hrepos]
  | listTasks => exact respond_listTasks h x
  | eventStream topics =>
    show respondEventStream x topics s' username = respondEventStream x topics s username
    unfold respondEventStream
    rw [h.requireAdmin x, model_eq h hall, received_eq h hall]

end

/-! ## What the stream shows -/

/-- The state with one more repository in the model. -/
def ReadState.showRepo (s : ReadState) (r : RepoResponse) : ReadState :=
  { s with model.pub.repos := r :: s.model.pub.repos }

/-- The state with one more store in the model. -/
def ReadState.showStore (s : ReadState) (r : StoreResponse) : ReadState :=
  { s with model.pub.stores := r :: s.model.pub.stores }

/-- A repository in the model that the user may not read makes no difference for the user. -/
theorem sameFor_showRepo {r : RepoResponse}
    (hr : ¬mayRead s username r.name) : SameFor username s (s.showRepo r) where
  user := rfl
  repos _ _ := rfl
  dirs _ _ := rfl
  modelRepos := filter_cons_of_neg hr
  seq := rfl
  health := rfl
  received := rfl
  tasks _ := rfl
  modelStores _ := rfl
  modelTasks _ := rfl
  modelSettings _ := rfl
  modelAdmin _ := rfl

/-- A store makes none for a user who is not an administrator. -/
theorem sameFor_showStore (r : StoreResponse)
    (hadmin : ¬userIsAdmin s username) : SameFor username s (s.showStore r) where
  user := rfl
  repos _ _ := rfl
  dirs _ _ := rfl
  modelRepos := rfl
  seq := rfl
  health := rfl
  received := rfl
  tasks _ := rfl
  modelStores h := absurd h hadmin
  modelTasks _ := rfl
  modelSettings _ := rfl
  modelAdmin _ := rfl

theorem snapshot_of_stream {x : Faults} {topics : Option String}
    {s' : ReadState} (h : respond x (.eventStream topics) username s' =
      respond x (.eventStream topics) username s) :
    s'.model.pub.repos = s.model.pub.repos ∧ s'.model.pub.stores = s.model.pub.stores := by
  have hitems := Response.stream.inj h
  have hsnap := StreamItem.snapshot.inj (List.cons.inj hitems).1
  exact ⟨congrArg ModelSnapshot.repos hsnap, congrArg ModelSnapshot.stores hsnap⟩

/-- **Main theorem.** From a state, all states that are the same for a user give the user the
    same responses exactly when nothing is hidden from the user: the stream shows everybody every
    repository and every store. -/
theorem responses_same_iff (username : String) (s : ReadState) :
    (∀ s', SameFor username s s' → ∀ x e, respond x e username s' = respond x e username s) ↔
      seesAll s username := by
  constructor
  · intro h
    have hshown : ∀ s', SameFor username s s' →
        s'.model.pub.repos = s.model.pub.repos ∧ s'.model.pub.stores = s.model.pub.stores :=
      fun s' hs' => snapshot_of_stream (h s' hs' {} (.eventStream none))
    unfold seesAll
    rw [Bool.and_eq_true_iff]
    constructor
    · by_contra hadmin
      have hstores := (hshown _ (sameFor_showStore
        { name := "hidden", storeType := "file", createdAt := 0 } hadmin)).2
      exact cons_ne_self _ _ hstores
    · by_contra hstar
      obtain ⟨repo, hrepo⟩ := exists_hidden hstar
      let r : RepoResponse :=
        { name := repo, repoType := .hosted, format := .raw, store := "default", createdAt := 0 }
      have hrepos := (hshown (s.showRepo r) (sameFor_showRepo hrepo)).1
      exact cons_ne_self _ _ hrepos
  · intro hall s' hs' x e
    exact respond_eq_of_seesAll hs' hall x e

/-! ## An anonymous client -/

/-- A server with a repository and its statistics, and without a grant for anybody. -/
def sampleServer (repo : String) (stats : RepoStats) : ReadState :=
  let c : Config.RepoConfig := { name := repo, store := "default" }
  { repos := RowTable.empty.put c
    dirs := fun n => if n = repo then some stats else none
    model := { pub := { repos := [(RepoResponse.ofConfig c).withStats stats]
                        health := { version := "1" } } } }

/-- **Counterexample.** Nobody has a grant. Two states with different private repositories are
    the same for an anonymous client, who sees the name and the statistics of the repository in
    the event stream. -/
theorem private_repo_streamed : ¬ ∀ (username : String) (s s' : ReadState), SameFor username s s' →
      ∀ x e, respond x e username s' = respond x e username s := by
  intro h
  have hsame : SameFor "anonymous" (sampleServer "payroll" ⟨3, 4096⟩) (sampleServer "mergers" ⟨1, 10⟩) :=
    { user := by decide
      repos := fun n hn => by cases hn
      dirs := fun n hn => by cases hn
      modelRepos := by decide
      seq := rfl
      health := rfl
      received := rfl
      tasks := fun _ => rfl
      modelStores := fun _ => rfl
      modelTasks := fun _ => rfl
      modelSettings := fun _ => rfl
      modelAdmin := fun _ => rfl }
  have hrepos := (snapshot_of_stream (h _ _ _ hsame {} (.eventStream none))).1
  revert hrepos
  decide

end Depot.Events
