import Depot.Config.Records
import Depot.Lib.KeyedList
import Depot.Tasks.Manager

/-!
# The data model of the user interface

The responses in which repositories, stores, tasks, users and roles go to clients
(`server/src/server/api/*.rs`), the events that carry their changes, and the materialized model
with its snapshots (`server/src/server/infra/event_bus.rs`). The times of users and roles are
left out.

Results:
* `parseTopics_admin`: topics for administrators are only open to them.
-/

namespace Depot.Events

open Lib Config

/-! ## Responses -/

/-- `RepoStats`. -/
structure RepoStats where
  artifactCount : ℕ := 0
  totalBytes : ℕ := 0
  deriving DecidableEq

/-- `RepoKind::repo_type` (`core/src/store/kv/records.rs`). -/
def repoTypeOf : Config.RepoKind → RepoType
  | .hosted => .hosted
  | .cache .. => .cache
  | .proxy .. => .proxy

/-- `RepoResponse` (`api/repositories.rs`, lines 81–102). -/
structure RepoResponse where
  name : String
  repoType : RepoType
  format : ArtifactFormat
  store : String
  upstreamUrl : Option String := none
  cacheTtlSecs : Option UInt64 := none
  members : Option (List String) := none
  writeMember : Option String := none
  listen : Option String := none
  cleanupMaxUnaccessedDays : Option UInt64 := none
  cleanupMaxAgeDays : Option UInt64 := none
  cleanupUntaggedManifests : Option Bool := none
  upstreamAuth : Option UpstreamAuth := none
  contentDisposition : Option ContentDisposition := none
  repodataDepth : Option UInt32 := none
  createdAt : DateTime
  artifactCount : ℕ := 0
  totalBytes : ℕ := 0
  deriving DecidableEq

namespace RepoResponse

/-- The fields of the format (lines 108–122). -/
def formatFields (r : RepoResponse) : FormatConfig → RepoResponse
  | .docker listen untagged => { r with listen := listen, cleanupUntaggedManifests := untagged }
  | .raw disposition => { r with contentDisposition := disposition }
  | .yum depth => { r with repodataDepth := depth }
  | _ => r

/-- The password is not shown (lines 134–137). -/
def maskPassword (a : UpstreamAuth) : UpstreamAuth :=
  { username := a.username, password := a.password.map fun _ => "********" }

/-- The fields of the kind (lines 124–150). -/
def kindFields (r : RepoResponse) : Config.RepoKind → RepoResponse
  | .hosted => r
  | .cache url ttl auth =>
      { r with upstreamUrl := some url, cacheTtlSecs := some ttl
               upstreamAuth := auth.map maskPassword }
  | .proxy members writeMember => { r with members := some members, writeMember := writeMember }

/-- `RepoResponse::from` (lines 104–173), without statistics. -/
def ofConfig (c : Config.RepoConfig) : RepoResponse :=
  kindFields
    (formatFields
      { name := c.name, repoType := repoTypeOf c.kind,
        format := c.formatConfig.artifactFormat, store := c.store,
        cleanupMaxUnaccessedDays := c.cleanupMaxUnaccessedDays,
        cleanupMaxAgeDays := c.cleanupMaxAgeDays, createdAt := c.createdAt } c.formatConfig) c.kind

/-- `with_stats` (lines 176–180). -/
def withStats (r : RepoResponse) (stats : RepoStats) : RepoResponse :=
  { r with artifactCount := stats.artifactCount, totalBytes := stats.totalBytes }

/-- The statistics in a response. -/
def stats (r : RepoResponse) : RepoStats := ⟨r.artifactCount, r.totalBytes⟩

end RepoResponse

/-- `StoreResponse` (`api/stores.rs`, lines 88–126). -/
structure StoreResponse where
  name : String
  storeType : String
  root : Option String := none
  sync : Option Bool := none
  ioSize : Option UInt64 := none
  directIo : Option Bool := none
  bucket : Option String := none
  endpoint : Option String := none
  region : Option String := none
  keyPrefix : Option String := none
  accessKey : Option String := none
  maxRetries : Option UInt32 := none
  connectTimeoutSecs : Option UInt64 := none
  readTimeoutSecs : Option UInt64 := none
  retryMode : Option String := none
  createdAt : DateTime
  blobCount : Option ℕ := none
  totalBytes : Option ℕ := none
  deriving DecidableEq

/-- `UserResponse` (`api/users.rs`, lines 23–43). -/
structure UserResponse where
  username : String
  roles : List String
  mustChangePassword : Bool
  deriving DecidableEq

/-- `RoleResponse` (`api/roles.rs`, lines 22–42). -/
structure RoleResponse where
  name : String
  description : String
  capabilities : List CapabilityGrant
  deriving DecidableEq

/-- `TaskLogEntry` (`infra/task.rs`). -/
structure TaskLogEntry where
  timestamp : DateTime
  message : String
  deriving DecidableEq

/-- `TaskInfo` (lines 61–77). -/
structure TaskInfo where
  id : String
  kind : TaskKind
  status : TaskStatus
  createdAt : DateTime
  startedAt : Option DateTime
  completedAt : Option DateTime
  progress : TaskProgress
  result : Option TaskResult
  error : Option String
  summary : String
  log : List TaskLogEntry := []
  deriving DecidableEq

/-- `TaskInfo::from_record` (lines 80–95); the log is empty. -/
def TaskInfo.ofRecord (r : TaskRecord) : TaskInfo :=
  { id := r.id, kind := r.kind, status := r.status, createdAt := r.createdAt,
    startedAt := r.startedAt, completedAt := r.completedAt, progress := r.progress,
    result := r.result, error := r.error, summary := r.summary }

/-- `HealthResponse` (`api/system.rs`). -/
structure HealthResponse where
  status : String := "ok"
  version : String
  deriving DecidableEq

/-! ## Events -/

/-- `Topic` (lines 33–43). -/
inductive Topic where
  | repos
  | stores
  | tasks
  | users
  | roles
  | settings
  | health
  deriving DecidableEq

/-- `ModelEvent` (lines 101–177). -/
inductive ModelEvent where
  | repoCreated (repo : RepoResponse)
  | repoUpdated (repo : RepoResponse)
  | repoDeleted (name : String)
  | repoStatsUpdated (name : String) (stats : RepoStats)
  | storeCreated (store : StoreResponse)
  | storeUpdated (store : StoreResponse)
  | storeDeleted (name : String)
  | storeStatsUpdated (name : String) (blobCount totalBytes : ℕ)
  | taskCreated (task : TaskInfo)
  | taskUpdated (task : TaskInfo)
  | taskDeleted (id : String)
  | userCreated (user : UserResponse)
  | userUpdated (user : UserResponse)
  | userDeleted (username : String)
  | roleCreated (role : RoleResponse)
  | roleUpdated (role : RoleResponse)
  | roleDeleted (name : String)
  | settingsUpdated (settings : Settings)
  | resync
  deriving DecidableEq

/-- `Envelope` (lines 184–190). -/
structure Envelope where
  seq : ℕ
  timestamp : DateTime
  topic : Topic
  event : ModelEvent
  deriving DecidableEq

/-- `public_topics` (lines 46–56). -/
def publicTopics : List Topic := [.repos, .stores, .tasks, .settings, .health]

/-- `all_topics` (lines 59–64). -/
def allTopics : List Topic := publicTopics ++ [.users, .roles]

/-- The name of a topic (lines 80–89). -/
def Topic.ofName : String → Option Topic
  | "repos" => some .repos
  | "stores" => some .stores
  | "tasks" => some .tasks
  | "users" => some .users
  | "roles" => some .roles
  | "settings" => some .settings
  | "health" => some .health
  | _ => none

/-- The topics that only administrators receive (lines 91–94). -/
def Topic.adminOnly : Topic → Bool
  | .users => true
  | .roles => true
  | _ => false

/-- `parse_topics` (lines 68–98). -/
def parseTopics (raw : Option String) (admin : Bool) : List Topic :=
  match raw.getD "" with
  | "" => if admin then allTopics else publicTopics
  | s => (s.splitOn ",").filterMap fun name =>
      (Topic.ofName (trim name)).filter fun t => admin || !t.adminOnly

/-- Topics for administrators are only open to them. -/
theorem parseTopics_admin (raw : Option String) (t : Topic) (ht : t ∈ parseTopics raw false) :
    t.adminOnly = false := by
  unfold parseTopics at ht
  split at ht
  · revert t
    decide
  · obtain ⟨_, _, ht⟩ := List.mem_filterMap.mp ht
    obtain ⟨_, ht⟩ := Option.filter_eq_some_iff.mp ht
    simpa using ht

/-! ## The materialized model -/

/-- `PublicModel` (lines 243–250). -/
@[ext]
structure PublicModel where
  seq : ℕ := 0
  repos : List RepoResponse := []
  stores : List StoreResponse := []
  tasks : List TaskInfo := []
  settings : Settings := {}
  health : HealthResponse
  deriving DecidableEq

/-- `AdminModel` (lines 254–257). -/
structure AdminModel where
  users : List UserResponse := []
  roles : List RoleResponse := []
  deriving DecidableEq

/-- `MaterializedModel` (lines 263–266). -/
@[ext]
structure MaterializedModel where
  pub : PublicModel
  admin : AdminModel := {}
  deriving DecidableEq

/-- `ModelSnapshot` (lines 224–237). -/
structure ModelSnapshot where
  seq : ℕ
  repos : List RepoResponse
  stores : List StoreResponse
  tasks : List TaskInfo
  users : Option (List UserResponse)
  roles : Option (List RoleResponse)
  settings : Settings
  health : HealthResponse
  deriving DecidableEq

/-- `to_snapshot` (lines 292–311). -/
def MaterializedModel.toSnapshot (m : MaterializedModel) (admin : Bool) : ModelSnapshot :=
  { seq := m.pub.seq, repos := m.pub.repos, stores := m.pub.stores, tasks := m.pub.tasks,
    users := if admin then some m.admin.users else none,
    roles := if admin then some m.admin.roles else none,
    settings := m.pub.settings, health := m.pub.health }

end Depot.Events
