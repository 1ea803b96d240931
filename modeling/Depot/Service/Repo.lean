import Depot.Service.Artifact
import Depot.Service.Upload

/-!
# Repository configurations

Looking up and listing repositories (`core/src/service/repo.rs`), and marking the
metadata of the proxies above a repository as stale.
-/

namespace Depot

open Lib

/-- `get_repo_raw` (lines 33–36). -/
def getRepoRaw (name : String) : Async (Option RepoConfig) :=
  typedGet Value.repo? (repoKey name)

/-- `get_repo` (lines 24–29). -/
def getRepo (name : String) : Async (Option RepoConfig) := do
  match ← getRepoRaw name with
  | some config => pure (if config.deleting then none else some config)
  | none => pure none

/-- `list_repos_raw` (lines 51–60). -/
def listReposRaw : Async (List RepoConfig) :=
  typedList Value.repo? ⟨.repos, .single⟩ adminEntityCap

/-- `list_repos` (lines 38–48). -/
def listRepos : Async (List RepoConfig) := do
  let repos ← listReposRaw
  pure (repos.filter fun r => !r.deleting)

/-- `stale_kind_for_format` (lines 137–146). -/
def staleKindForFormat : ArtifactFormat → ArtifactKind
  | .apt => .aptMetadata
  | .yum => .yumMetadata
  | .helm => .helmMetadata
  | .npm => .npmMetadata
  | _ => .raw

/-- The record of a stale flag. -/
def staleFlag (now : DateTime) (kind : ArtifactKind) : ArtifactRecord where
  size := 0
  contentType := "text/plain"
  createdAt := now
  updatedAt := now
  lastAccessedAt := now
  kind := kind
  internal := true
  blobId := none
  contentHash := none

/-- The proxies of a format that have `name` as a member (lines 76–90). -/
def proxiesOf (repos : List RepoConfig) (format : ArtifactFormat) (name : String) :
    List String :=
  repos.flatMap fun config =>
    if config.format ≠ format then []
    else
      match config.kind with
      | .proxy members _ => (members.filter (· = name)).map fun _ => config.name
      | _ => []

section

variable (x : Ext)

/-- One proxy of the breadth-first search: the visited proxies and the queue. -/
def markStale (stalePath : String) (flag : ArtifactRecord) (s : List String × List String)
    (parent : String) : Async (List String × List String) :=
  if parent ∈ s.1 then pure s
  else do
    Fallible.ignore (putArtifactIfAbsent x parent stalePath flag)
    pure (s.1 ++ [parent], s.2 ++ [parent])

/-- The levels of the breadth-first search (lines 115–131); the queue holds one
    level. -/
def staleLevels (repos : List RepoConfig) (format : ArtifactFormat) (stalePath : String)
    (flag : ArtifactRecord) : ℕ → List String → List String → Async Unit
  | 0, _, _ => pure ()
  | depth + 1, visited, queue => do
      let s ← Fallible.fold (markStale x stalePath flag)
        (queue.flatMap (proxiesOf repos format)) (visited, [])
      staleLevels repos format stalePath flag depth s.1 s.2

/-- `propagate_staleness` (lines 66–134). -/
def propagateStaleness (sourceRepo : String) (format : ArtifactFormat) (stalePath : String) :
    Async Unit := do
  let repos ← listRepos
  let now ← utcNow
  staleLevels x repos format stalePath (staleFlag now (staleKindForFormat format)) 8 []
    [sourceRepo]

end

/-! ## What the functions may change -/

variable {es : List Effect}

theorem effects_getRepo (name : String) : Effects es (getRepo name) := by
  refine (effects_typedGet _ _).bind fun c => ?_
  cases c with
  | some config => exact effects_pure _
  | none => exact effects_pure _

theorem effects_listRepos : Effects es listRepos :=
  (effects_typedList _ _ _).bind fun _ => effects_pure _

end Depot
