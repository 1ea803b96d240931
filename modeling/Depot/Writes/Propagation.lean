import Depot.Lib.Levels
import Depot.Lib.Runs
import Depot.Writes.Components

/-!
# Propagating stale flags

A proxy over other repositories serves a merged index, and a flag in its records says that the
index is out of date. `propagate_staleness` (`core/src/service/repo.rs`, lines 66–134) raises the
flags of the proxies above a repository.

Results:
* `kv_kept`: a function that writes other tables leaves a table as it is.
* `flagged_propagateStaleness`: which flags a propagation raises.
-/

namespace Depot

open Lib

/-- What a function does by itself while every operation of the stores succeeds. -/
abbrev Completes (x : Ext) {α : Type} (q : Async α) (w : World) (r : Except DepotError α)
    (w' : World) : Prop :=
  Yields (World.exec x) (fun _ _ ok => ok = true) q w r w'

/-! ## Proxies -/

namespace World

variable (w : World)

/-- What `list_repos` returns; `none` when a value does not decode. -/
def listedRepos : Option (List RepoConfig) :=
  (((w.kv ⟨.repos, .single⟩).page "" none adminEntityCap).1.mapM fun e =>
    Value.repo? e.2.value).map fun repos => repos.filter fun r => !r.deleting

/-- A proxy of the format has `member` as a member. -/
def Merges (format : ArtifactFormat) (member proxy : String) : Prop :=
  ∃ config members writeMember, w.getRepo proxy = some config ∧ config.format = format ∧
    config.kind = .proxy members writeMember ∧ member ∈ members

/-- The index of a proxy can contain the packages of a repository: it merges the repository, or
    another proxy whose index can contain them. -/
def Above (format : ArtifactFormat) : String → String → Prop :=
  Relation.TransGen (w.Merges format)

/-- A proxy is at most eight levels above a repository, as the repositories are listed. -/
def WithinLevels (format : ArtifactFormat) (source proxy : String) : Prop :=
  ∃ repos, w.listedRepos = some repos ∧
    ∃ k, 1 ≤ k ∧ k ≤ 8 ∧ Steps (proxiesOf repos format) k source proxy

end World

/-- The flag at a path of a repository is raised. -/
def Flagged (x : Ext) (w : World) (repo path : String) : Prop :=
  (w.value (artifactKey x.shardOf repo path)).isSome

/-! ## Records that stay -/

section

variable {x : Ext} {w w' : World}

theorem execGc_kv {inst : String} {o : GcOp} {r : o.Reply}
    (h : World.execGc x w inst o = some (w', r)) : w'.kv = w.kv := by
  cases o <;> simp only [World.execGc] at h <;> (try split at h) <;> cases h <;> rfl

/-- An operation leaves the tables alone that it does not write. -/
theorem exec_kv {o : Op} {ok : Bool} {r : R o} (h : World.exec x o ok w = some (w', r))
    {part : Part} (ho : o.effect ≠ .table part.table) : w'.kv part = w.kv part := by
  cases o with
  | stop => cases h
  | gc inst o => rw [execGc_kv h]
  | blob store o =>
    cases ok <;> cases h
    · rfl
    · rw [(execBlob_frame w store o).1]
  | write k c =>
    have hpart : part ≠ k.part := by
      rintro rfl
      exact ho rfl
    cases ok <;> cases h
    · rfl
    · exact Function.update_of_ne hpart _ _
  | _ => cases h; rfl

variable {α : Type}

/-- A function that writes other tables leaves a table as it is. -/
theorem kv_kept {es : List Effect} {part : Part} (hes : Effect.table part.table ∉ es)
    {q : Async α} {r : Except DepotError α} (hq : Effects es q) (h : Completes x q w r w') :
    w'.kv part = w.kv part := by
  refine yields_uses (I := fun w w' : World => w'.kv part = w.kv part) (fun _ => rfl)
    (fun _ _ _ h h' => h'.trans h) ?_ hq h
  intro o ho w b w' r _ hx
  refine exec_kv hx fun heff => ?_
  rcases ho with hnone | hmem
  · rw [hnone] at heff
    cases heff
  · exact hes (heff ▸ hmem)

theorem flagged_congr {repo path : String}
    (h : ∀ part : Part, part.table = .artifacts → w'.kv part = w.kv part) :
    Flagged x w' repo path ↔ Flagged x w repo path := by
  unfold Flagged World.value World.cell
  rw [h _ rfl]

/-! ## Propagation -/

theorem completes_utcNow {r : Except DepotError DateTime} (h : Completes x utcNow w r w') :
    w' = w ∧ r = .ok w.now := by
  obtain ⟨b, a, -, hx, rfl⟩ := yields_issue h
  obtain ⟨rfl, rfl⟩ := some_mk_inj hx
  exact ⟨rfl, rfl⟩

/-- A flag is raised if it is not; no other record is changed. -/
theorem flagged_putArtifactIfAbsent {repo path : String} {record : ArtifactRecord}
    {r : Except DepotError Bool} (h : Completes x (putArtifactIfAbsent x repo path record) w r w')
    (proxy : String) : Flagged x w' proxy path ↔ Flagged x w proxy path ∨ proxy = repo := by
  have hput : ∀ {w1 : World} {r1 : Except DepotError Bool},
      Completes x (kvPutIfAbsent (artifactKey x.shardOf repo path)
        (.artifact (prepareRecord path record))) w r1 w1 →
      (Flagged x w1 proxy path ↔ Flagged x w proxy path ∨ proxy = repo) := by
    intro w1 r1 h1
    obtain ⟨b, a, rfl, hx, -⟩ := yields_attempt h1
    obtain ⟨rfl, -⟩ := some_mk_inj hx
    unfold Flagged World.value
    by_cases hp : proxy = repo
    · simp only [hp, or_true, iff_true]
      rw [World.cell_setCell_self, Option.isSome_map]
      cases w.cell (artifactKey x.shardOf repo path) <;> simp [CellOp.apply, CellOp.enabled,
        CellOp.written]
    · have hkey : artifactKey x.shardOf proxy path ≠ artifactKey x.shardOf repo path := by
        intro heq
        exact hp (congrArg Key.scope heq)
      simp only [hp, or_false]
      rw [World.cell_setCell_of_ne hkey]
  have htree : Effects [.table .dirEntries]
      (upsertTreeFile x repo path (prepareRecord path record)) :=
    effects_upsertTreeFile List.mem_cons_self _ _ _
  rcases yields_bind h with ⟨e, -, h1⟩ | ⟨written, w1, h1, h2⟩
  · exact hput h1
  · rw [← hput h1]
    refine flagged_congr fun part hpart => ?_
    have hafter : Effects [.table .dirEntries] (do
        if written then upsertTreeFile x repo path (prepareRecord path record)
        pure written) := by
      cases written with
      | true => exact htree.bind fun _ => effects_pure _
      | false => exact effects_pure _
    exact kv_kept (by rw [hpart]; decide) hafter h2

variable {flag : ArtifactRecord}

variable {r : Except DepotError (List String × List String)} {s : List String × List String}

/-- One proxy of the search. -/
theorem completes_markStale {path parent : String}
    (h : Completes x (markStale x path flag s parent) w r w') :
    r = .ok (visit s parent) ∧ ∀ proxy, Flagged x w' proxy path ↔
      Flagged x w proxy path ∨ proxy = parent ∧ proxy ∉ s.1 := by
  unfold markStale at h
  unfold visit
  split_ifs at h ⊢ with hvisited
  · obtain ⟨rfl, rfl⟩ := yields_pure h
    refine ⟨rfl, fun proxy => (or_iff_left ?_).symm⟩
    rintro ⟨rfl, hnot⟩
    exact hnot hvisited
  · rcases yields_bind h with ⟨e, -, h1⟩ | ⟨u, w1, h1, h2⟩
    · cases (yields_ignore h1).1
    · obtain ⟨-, r1, hput⟩ := yields_ignore h1
      obtain ⟨rfl, rfl⟩ := yields_pure h2
      refine ⟨rfl, fun proxy => (flagged_putArtifactIfAbsent hput proxy).trans ?_⟩
      refine or_congr_right ⟨fun hp => ⟨hp, hp ▸ hvisited⟩, fun hp => hp.1⟩

theorem completes_markLevel {path : String} {parents : List String}
    (h : Completes x (Fallible.fold (markStale x path flag) parents s) w r w') :
    r = .ok (parents.foldl visit s) ∧ ∀ proxy, Flagged x w' proxy path ↔
      Flagged x w proxy path ∨ proxy ∈ parents ∧ proxy ∉ s.1 := by
  induction parents generalizing s w with
  | nil =>
    obtain ⟨rfl, rfl⟩ := yields_pure h
    exact ⟨rfl, fun proxy => by simp⟩
  | cons parent parents ih =>
    rcases yields_bind h with ⟨e, -, h1⟩ | ⟨s', w1, h1, h2⟩
    · cases (completes_markStale h1).1
    · obtain ⟨hs', hfirst⟩ := completes_markStale h1
      obtain rfl := Except.ok.inj hs'
      obtain ⟨rfl, hrest⟩ := ih h2
      refine ⟨rfl, fun proxy => ?_⟩
      rw [hrest proxy, hfirst proxy, List.mem_cons, visit]
      split_ifs with hvisited
      · grind
      · simp only [List.mem_append, List.mem_singleton]
        grind

/-- The search raises the flags of what it visits. -/
theorem completes_staleLevels {repos : List RepoConfig} {format : ArtifactFormat} {path : String}
    {n : ℕ} {visited queue : List String} {r : Except DepotError Unit}
    (h : Completes x (staleLevels x repos format path flag n visited queue) w r w')
    (proxy : String) : Flagged x w' proxy path ↔ Flagged x w proxy path ∨
      proxy ∈ levels (proxiesOf repos format) n visited queue ∧ proxy ∉ visited := by
  induction n generalizing visited queue w with
  | zero =>
    obtain ⟨-, rfl⟩ := yields_pure h
    simp [levels]
  | succ n ih =>
    rcases yields_bind h with ⟨e, -, h1⟩ | ⟨s, w1, h1, h2⟩
    · cases (completes_markLevel h1).1
    · obtain ⟨hs, hlevel⟩ := completes_markLevel h1
      obtain rfl := Except.ok.inj hs
      have hmem := (mem_foldl_visit (queue.flatMap (proxiesOf repos format)) (visited, []) proxy).1
      have hsub := @levels_subset _ _ (proxiesOf repos format) n
        ((queue.flatMap (proxiesOf repos format)).foldl visit (visited, [])).1
        ((queue.flatMap (proxiesOf repos format)).foldl visit (visited, [])).2 proxy
      rw [ih h2, hlevel proxy, levels]
      grind

theorem completes_decode {as? : Value → Option α} {v : Value} {r : Except DepotError α}
    (h : Completes x (decode as? v) w r w') : w' = w ∧ r.toOption = as? v := by
  unfold decode at h
  cases hv : as? v with
  | some a =>
    rw [hv] at h
    obtain ⟨rfl, rfl⟩ := yields_pure h
    exact ⟨rfl, rfl⟩
  | none =>
    rw [hv] at h
    obtain ⟨rfl, rfl⟩ := yields_throw h
    exact ⟨rfl, rfl⟩

theorem completes_decodeItem {as? : Value → Option α} {v : Value} {acc : List α}
    {r : Except DepotError (List α)} (h : Completes x (do
      let a ← decode as? v
      pure (acc ++ [a])) w r w') : w' = w ∧ r.toOption = (as? v).map fun a => acc ++ [a] := by
  rcases yields_bind h with ⟨e, rfl, h1⟩ | ⟨a, w1, h1, h2⟩
  · obtain ⟨rfl, hv⟩ := completes_decode h1
    exact ⟨rfl, by rw [← hv]; rfl⟩
  · obtain ⟨rfl, hv⟩ := completes_decode h1
    obtain ⟨rfl, rfl⟩ := yields_pure h2
    exact ⟨rfl, by rw [← hv]; rfl⟩

/-- Decoding the items of a listing. -/
theorem completes_decodeAll {as? : Value → Option α} {items : List (String × Value)}
    {acc : List α} {r : Except DepotError (List α)}
    (h : Completes x (Fallible.fold (fun acc e => do
      let a ← decode as? e.2
      pure (acc ++ [a])) items acc) w r w') :
    w' = w ∧ r.toOption = (items.mapM fun e => as? e.2).map (acc ++ ·) := by
  induction items generalizing acc w with
  | nil =>
    obtain ⟨rfl, rfl⟩ := yields_pure h
    exact ⟨rfl, by simp [Except.toOption]⟩
  | cons e items ih =>
    rw [List.mapM_cons]
    rcases yields_bind h with ⟨err, rfl, h1⟩ | ⟨acc', w1, h1, h2⟩
    · obtain ⟨rfl, hv⟩ := completes_decodeItem h1
      have hnone : as? e.2 = none := Option.map_eq_none_iff.mp hv.symm
      exact ⟨rfl, by rw [hnone]; rfl⟩
    · obtain ⟨rfl, hv⟩ := completes_decodeItem h1
      obtain ⟨a, ha, rfl⟩ := Option.map_eq_some_iff.mp hv.symm
      obtain ⟨rfl, hr⟩ := ih h2
      refine ⟨rfl, hr.trans ?_⟩
      rw [ha]
      cases items.mapM fun e => as? e.2 <;> simp

/-- `list_repos` returns the repositories of the state. -/
theorem completes_listRepos {r : Except DepotError (List RepoConfig)}
    (h : Completes x listRepos w r w') : w' = w ∧ r.toOption = w.listedRepos := by
  have hraw : ∀ {r : Except DepotError (List RepoConfig)} {w1 : World},
      Completes x listReposRaw w r w1 → w1 = w ∧ r.toOption =
        ((w.kv ⟨.repos, .single⟩).page "" none adminEntityCap).1.mapM
          fun e => Value.repo? e.2.value := by
    intro r w1 h1
    rcases yields_bind h1 with ⟨e, -, hscan⟩ | ⟨result, w2, hscan, h2⟩
    · obtain ⟨b, a, rfl, hx, ⟨c, -, hc⟩ | ⟨hnone, -⟩⟩ := yields_attempt hscan
      · cases hc
      · obtain ⟨-, rfl⟩ := some_mk_inj hx
        cases hnone
    · obtain ⟨b, a, rfl, hx, ⟨c, hc, hr⟩ | ⟨-, e, he⟩⟩ := yields_attempt hscan
      · obtain ⟨rfl, rfl⟩ := some_mk_inj hx
        obtain rfl := Except.ok.inj hr
        obtain rfl := Option.some.inj hc
        obtain ⟨rfl, hall⟩ := completes_decodeAll h2
        refine ⟨rfl, hall.trans ?_⟩
        simp only [List.mapM_map, List.nil_append, Option.map_id']
        rfl
      · cases he
  rcases yields_bind h with ⟨e, rfl, h1⟩ | ⟨repos, w1, h1, h2⟩
  · obtain ⟨rfl, hrepos⟩ := hraw h1
    refine ⟨rfl, ?_⟩
    rw [World.listedRepos, ← hrepos]
    rfl
  · obtain ⟨rfl, hrepos⟩ := hraw h1
    obtain ⟨rfl, rfl⟩ := yields_pure h2
    refine ⟨rfl, ?_⟩
    rw [World.listedRepos, ← hrepos]
    rfl

/-- **Propagation.** The flags that are raised are those of the proxies at most eight levels
    above the source. -/
theorem flagged_propagateStaleness {source path : String} {format : ArtifactFormat}
    {r : Except DepotError Unit} (h : Completes x (propagateStaleness x source format path) w r w')
    (proxy : String) : Flagged x w' proxy path ↔
      Flagged x w proxy path ∨ w.WithinLevels format source proxy := by
  unfold World.WithinLevels
  rcases yields_bind h with ⟨e, rfl, h1⟩ | ⟨repos, w1, h1, h2⟩
  · obtain ⟨rfl, hrepos⟩ := completes_listRepos h1
    simp [← hrepos, Except.toOption]
  · obtain ⟨rfl, hrepos⟩ := completes_listRepos h1
    rcases yields_bind h2 with ⟨e, -, h3⟩ | ⟨now, w2, h3, h4⟩
    · cases (completes_utcNow h3).2
    · obtain ⟨rfl, -⟩ := completes_utcNow h3
      rw [completes_staleLevels h4 proxy, ← hrepos, mem_levels]
      simp [Except.toOption]

end

end Depot
