import Depot.Accounts.Store
import Depot.Events.Model
import Depot.Lib.RowTable

/-!
# Statistics of repositories

Listings of repositories (`core/src/service/repo.rs`, lines 24–59) and the counters that are
shown for a repository (`core/src/service/directory.rs`, lines 98–145): those of its root
directory, or, for a proxy, the sum over its members.

The members of a proxy may be proxies, and cycles are possible. The recursion is on the depth of
nested calls.
-/

namespace Depot.Events

open Lib

/-! ## Listings -/

abbrev RepoTable := RowTable Config.RepoConfig.name

/-- `get_repo` (lines 24–29). -/
def getRepo (repos : RepoTable) (name : String) : Option Config.RepoConfig :=
  (repos.find name).filter fun c => !c.deleting

/-- `list_repos_raw` (lines 50–59). -/
def listReposRaw (repos : RepoTable) : List Config.RepoConfig :=
  repos.rows.take Accounts.UserTable.adminEntityCap

/-- `list_repos` (lines 38–47). -/
def listRepos (repos : RepoTable) : List Config.RepoConfig :=
  (listReposRaw repos).filter fun c => !c.deleting

/-! ## Statistics -/

/-- The sum so far and the names that were visited. -/
structure Aggregate where
  total : RepoStats := {}
  visited : List String := []
  deriving DecidableEq

/-- One member (lines 124–142). -/
def visitMember (repos : RepoTable) (dirs : String → Option RepoStats)
    (nested : List String → Aggregate → Aggregate) (acc : Aggregate) (name : String) : Aggregate :=
  if name ∈ acc.visited then acc
  else
    let acc := { acc with visited := name :: acc.visited }
    match (getRepo repos name).map Config.RepoConfig.kind with
    | some (.proxy members _) => nested members acc
    | some _ =>
        let stats := (dirs name).getD {}
        { acc with total := ⟨acc.total.artifactCount + stats.artifactCount,
                            acc.total.totalBytes + stats.totalBytes⟩ }
    | none => acc

/-- `aggregate_proxy_stats` (lines 118–145), to a depth of nested calls. -/
def aggregateProxyStats (repos : RepoTable) (dirs : String → Option RepoStats) :
    ℕ → List String → Aggregate → Aggregate
  | 0, _, acc => acc
  | depth + 1, members, acc =>
      members.foldl (visitMember repos dirs (aggregateProxyStats repos dirs depth)) acc

/-- `get_repo_stats` (lines 98–114). -/
def getRepoStats (repos : RepoTable) (dirs : String → Option RepoStats) (c : Config.RepoConfig) :
    RepoStats :=
  match c.kind with
  | .proxy members _ =>
      (aggregateProxyStats repos dirs (repos.rows.length + 1) members {}).total
  | _ => (dirs c.name).getD {}

end Depot.Events
