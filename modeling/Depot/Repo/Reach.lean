import Depot.Repo.Resolve
import Depot.Writes.Propagation

/-!
# Which proxies a propagation reaches

A read goes down from a proxy through its members (`core/src/repo/proxy.rs`); a propagation of
stale flags goes up from a repository through the proxies over it (`core/src/service/repo.rs`,
lines 66–134). Both are bounded by the constant 8, but not alike: a proxy at depth 8 still asks
its members, so that a read follows nine memberships, and a propagation stops after eight.

Results:
* `propagateStaleness_total`: a propagation comes to an end.
* `canResolve_iff`: the proxies through which a read can resolve an artifact.
* `proxies_reached_iff`: when a propagation flags all of them.
-/

namespace Depot

open Lib List
open Fallible (Uses uses_attempt)

variable {x : Ext} {w w' : World}

/-! ## Termination -/

/-- An operation that returns in every state. -/
def Returning (x : Ext) (o : Op) : Prop := ∀ w, ∃ w' r, World.exec x o true w = some (w', r)

theorem completes_total {α : Type} {q : Async α} (hq : Uses (Returning x) q) (w : World) :
    ∃ r w', Completes x q w r w' := by
  refine yields_total (fun o ho s => ?_) hq w
  obtain ⟨s', r, hx⟩ := ho s
  exact ⟨true, s', r, rfl, hx⟩

theorem returning_putArtifactIfAbsent (repo path : String) (record : ArtifactRecord) :
    Uses (Returning x) (putArtifactIfAbsent x repo path record) := by
  refine Uses.bind (uses_attempt fun w => ⟨_, _, rfl⟩) fun written => ?_
  cases written with
  | true =>
    exact (Uses.ignore (uses_attempt fun w => ⟨_, _, rfl⟩)).bind fun _ => trivial
  | false => trivial

theorem returning_listRepos : Uses (Returning x) listRepos := by
  have hdecode : ∀ v, Uses (Returning x) (decode Value.repo? v) := by
    intro v
    unfold decode
    cases Value.repo? v <;> trivial
  refine Uses.bind (Uses.bind (uses_attempt fun w => ⟨_, _, rfl⟩)
    fun result => Uses.fold fun acc e _ => ?_) fun _ => trivial
  exact (hdecode _).bind fun _ => trivial

/-- A propagation goes up a bounded number of levels, whatever the graph is. -/
theorem propagateStaleness_total (source path : String) (format : ArtifactFormat) (w : World) :
    ∃ r w', Completes x (propagateStaleness x source format path) w r w' := by
  refine completes_total ?_ w
  refine returning_listRepos.bind fun repos =>
    Uses.bind (Fallible.uses_issue fun w => ⟨_, _, rfl⟩) fun now => ?_
  suffices ∀ n visited queue, Uses (Returning x) (staleLevels x repos format path
      (staleFlag now (staleKindForFormat format)) n visited queue) from this _ _ _
  intro n
  induction n with
  | zero => exact fun _ _ => trivial
  | succ n ih =>
    intro visited queue
    refine (Uses.fold fun s parent _ => ?_).bind fun s => ih _ _
    unfold markStale
    split_ifs
    · trivial
    · exact (Uses.ignore (returning_putArtifactIfAbsent _ _ _)).bind fun _ => trivial

/-! ## Reads -/

namespace World

/-- What `get_repo` returns. -/
def readRepo (w : World) (name : String) : Except DepotError (Option RepoConfig) :=
  match w.value (repoKey name) with
  | none => .ok none
  | some v =>
      match v.repo? with
      | none => .error (.storage false)
      | some config => .ok (if config.deleting then none else some config)

/-- A read through a proxy can resolve an artifact of a repository: with some answers of the
    members, a head or a get returns a record of it. -/
def CanResolve (w : World) (source proxy : String) : Prop :=
  ∃ config members writeMember, w.getRepo proxy = some config ∧
    config.kind = .proxy members writeMember ∧
    ∃ reads : MemberReads, reads.config = w.readRepo ∧ ∃ path member record,
      member.name = source ∧
        (proxyHead reads members path = .ok (some (member, record)) ∨
          proxyGet reads config.store members path = .ok (some (member, record)))

/-- A proxy of this name has the repository as a member. -/
def MemberOf (w : World) (member proxy : String) : Prop :=
  ∃ key config members writeMember, w.getRepo key = some config ∧ config.name = proxy ∧
    config.kind = .proxy members writeMember ∧ member ∈ members

/-- The repository can be reached from the proxy. -/
def Reaches (w : World) : String → String → Prop := Relation.TransGen w.MemberOf

end World

section

variable {config : String → Except DepotError (Option RepoConfig)} {α : Type}
  {leaf : RepoConfig → Except DepotError (Option α)} {left : ℕ} {members : List String}

/-- What a search returns is in its order. -/
theorem mem_of_search {member : RepoConfig} {a : α}
    (h : searchMembers config leaf left members = .ok (some (member, a))) :
    member ∈ cutOrder config left members ∧ leaf member = .ok (some a) := by
  rw [searchMembers_eq_some] at h
  obtain ⟨c, hc, hanswer⟩ := exists_of_findSome?_eq_some h
  obtain rfl : member = c := answer_fst hanswer
  exact ⟨hc, (answer_eq_some (p := (member, a)) rfl).mp hanswer⟩

/-- A search that asks a member with an answer returns something. -/
theorem searchMembers_of_mem {member : RepoConfig} {a : α} (hm : member ∈ cutOrder config left members)
    (ha : leaf member = .ok (some a)) :
    ∃ found, searchMembers config leaf left members = .ok (some found) := by
  have hsome : ((cutOrder config left members).findSome? (answer leaf)).isSome := by
    rw [findSome?_isSome_iff]
    refine ⟨member, hm, ?_⟩
    rw [(answer_eq_some (p := (member, a)) rfl).mpr ha]
    rfl
  obtain ⟨found, hfound⟩ := Option.isSome_iff_exists.mp hsome
  exact ⟨found, (searchMembers_eq_some _ _ _ _).mpr hfound⟩

end

/-- Answers in which only one repository has artifacts. -/
def onlySource (w : World) (source : String) (r : ArtifactRecord) : MemberReads where
  config := w.readRepo
  record repo _ := .ok (if repo = source then some r else none)
  openRead _ _ := .ok true
  cacheHead c _ := .ok (if c.name = source then some r else none)
  cacheGet c _ _ := .ok (if c.name = source then some r else none)

theorem headMember_onlySource (source path : String) (r : ArtifactRecord) (c : RepoConfig) :
    (onlySource w source r).headMember path c = .ok (if c.name = source then some r else none) := by
  unfold MemberReads.headMember
  cases c.kind <;> rfl

/-- A read can resolve the artifacts of the members in the order of its searches. -/
theorem canResolve_iff {source proxy : String} : w.CanResolve source proxy ↔
    ∃ config members writeMember, w.getRepo proxy = some config ∧
      config.kind = .proxy members writeMember ∧
      ∃ member ∈ cutOrder w.readRepo (maxProxyDepth + 1) members, member.name = source := by
  refine exists₃_congr fun config members writeMember => and_congr_right fun _ =>
    and_congr_right fun _ => ⟨?_, ?_⟩
  · rintro ⟨reads, hreads, path, member, record, hname, hfound⟩
    rw [← hreads]
    rcases hfound with h | h
    · exact ⟨member, (mem_of_search h).1, hname⟩
    · exact ⟨member, (mem_of_search h).1, hname⟩
  · rintro ⟨member, hmem, hname⟩
    obtain ⟨r⟩ : Nonempty ArtifactRecord := ⟨staleFlag 0 .raw⟩
    have ha : (onlySource w source r).headMember "" member = .ok (some r) := by
      rw [headMember_onlySource, if_pos hname]
    obtain ⟨⟨found, r'⟩, hsearch⟩ := searchMembers_of_mem hmem ha
    refine ⟨onlySource w source r, rfl, "", found, r', ?_, .inl hsearch⟩
    have hfound := (mem_of_search hsearch).2
    rw [headMember_onlySource] at hfound
    by_contra hne
    rw [if_neg hne] at hfound
    cases hfound

/-! ## Both bounds -/

theorem mem_of_mapM {α β : Type} {f : α → Option β} {as : List α} {bs : List β}
    (h : as.mapM f = some bs) {b : β} (hb : b ∈ bs) : ∃ a ∈ as, f a = some b := by
  induction as generalizing bs with
  | nil =>
    obtain rfl : bs = [] := by simpa using h.symm
    cases hb
  | cons a as ih =>
    rw [mapM_cons] at h
    obtain ⟨b', hb', h⟩ := Option.bind_eq_some_iff.mp h
    obtain ⟨bs', hbs', h⟩ := Option.bind_eq_some_iff.mp h
    obtain rfl := Option.some.inj h
    rcases mem_cons.mp hb with rfl | hb
    · exact ⟨a, mem_cons_self, hb'⟩
    · obtain ⟨a', ha', hf⟩ := ih hbs' hb
      exact ⟨a', mem_cons_of_mem _ ha', hf⟩

/-- A listed repository is stored, and is not being deleted. -/
theorem getRepo_of_listed {repos : List RepoConfig} {config : RepoConfig}
    (h : w.listedRepos = some repos) (hc : config ∈ repos) : ∃ key, w.getRepo key = some config := by
  obtain ⟨all, hall, rfl⟩ := Option.map_eq_some_iff.mp h
  obtain ⟨hmem, hdel⟩ := mem_filter.mp hc
  obtain ⟨e, he, hvalue⟩ := mem_of_mapM hall hmem
  refine ⟨e.1, ?_⟩
  have hcell : w.cell (repoKey e.1) = some e.2 := (SortedMap.page_subset he).1
  rw [World.getRepo, World.repoConfig, World.value, hcell, Option.map_some, Option.bind_some,
    hvalue, Option.filter_some, if_pos hdel]

/-- A propagation raises flags above the source only. -/
theorem reaches_of_withinLevels {source proxy : String} {format : ArtifactFormat}
    (h : w.WithinLevels format source proxy) : w.Reaches source proxy := by
  obtain ⟨repos, hrepos, k, hk, -, hsteps⟩ := h
  have hstep : ∀ {a b}, b ∈ proxiesOf repos format a → w.MemberOf a b := by
    intro a b hb
    obtain ⟨config, hc, hb⟩ := mem_flatMap.mp hb
    obtain ⟨key, hkey⟩ := getRepo_of_listed hrepos hc
    split_ifs at hb with hformat
    · cases hb
    · cases hkind : config.kind with
      | proxy members writeMember =>
        rw [hkind] at hb
        obtain ⟨m, hm, rfl⟩ := mem_map.mp hb
        obtain ⟨hm, hma⟩ := mem_filter.mp hm
        exact ⟨key, config, members, writeMember, hkey, rfl, hkind, of_decide_eq_true hma ▸ hm⟩
      | _ =>
        rw [hkind] at hb
        cases hb
  induction k generalizing proxy with
  | zero => omega
  | succ k ih =>
    obtain ⟨c, hc, hb⟩ := hsteps
    cases k with
    | zero =>
      obtain rfl : source = c := hc
      exact .single (hstep hb)
    | succ k => exact .tail (ih (by omega) hc) (hstep hb)

/-- What a propagation is to do: it comes to an end, flags every proxy through which a read can
    resolve an artifact of the source, and flags no repository from which the source cannot be
    reached. -/
structure ReachesProxies (x : Ext) (w : World) (source : String) (format : ArtifactFormat)
    (path : String) : Prop where
  ends : ∃ r w', Completes x (propagateStaleness x source format path) w r w'
  flags : ∀ r w', Completes x (propagateStaleness x source format path) w r w' →
    ∀ proxy, w.CanResolve source proxy → Flagged x w' proxy path
  spares : ∀ r w', Completes x (propagateStaleness x source format path) w r w' →
    ∀ proxy, Flagged x w' proxy path → Flagged x w proxy path ∨ w.Reaches source proxy

/-- **Main theorem.** A propagation flags all proxies through which a read can resolve the source
    exactly if each of them was flagged before, or is at most eight levels above the source in
    the listed proxies of the format. -/
theorem proxies_reached_iff (x : Ext) (w : World) (source : String) (format : ArtifactFormat)
    (path : String) : ReachesProxies x w source format path ↔ ∀ proxy, w.CanResolve source proxy →
        Flagged x w proxy path ∨ w.WithinLevels format source proxy := by
  constructor
  · intro h proxy hproxy
    obtain ⟨r, w', hrun⟩ := h.ends
    exact (flagged_propagateStaleness hrun proxy).mp (h.flags r w' hrun proxy hproxy)
  · intro h
    refine ⟨propagateStaleness_total source path format w, ?_, ?_⟩
    · intro r w' hrun proxy hproxy
      exact (flagged_propagateStaleness hrun proxy).mpr (h proxy hproxy)
    · intro r w' hrun proxy hflag
      refine ((flagged_propagateStaleness hrun proxy).mp hflag).imp_right ?_
      exact reaches_of_withinLevels

/-! ## Nine proxies -/

/-- A proxy over one member. -/
def overConfig (name member : String) : RepoConfig :=
  { name := name, kind := .proxy [member] none, format := .npm, store := "s" }

/-- The hosted repository "a" under a stack of nine proxies, "b" to "j". -/
def stackRepos : List RepoConfig :=
  { name := "a", format := .npm, store := "s" } ::
    [overConfig "b" "a", overConfig "c" "b", overConfig "d" "c", overConfig "e" "d",
      overConfig "f" "e", overConfig "g" "f", overConfig "h" "g", overConfig "i" "h",
      overConfig "j" "i"]

/-- A store with these repositories. -/
def stackWorld : World :=
  stackRepos.foldl (fun w c => w.setCell (repoKey c.name) (some ⟨1, .repo c⟩)) { now := 0 }

/-- **Counterexample.** A read through "j" resolves the artifacts of "a", and a propagation from
    "a" does not flag "j". -/
theorem ninth_proxy_missed : ¬ReachesProxies Ext.sample stackWorld "a" .npm "flag" := by
  intro h
  have hresolve : stackWorld.CanResolve "a" "j" := by
    refine canResolve_iff.mpr ⟨overConfig "j" "i", ["i"], none, by decide +kernel, rfl,
      { name := "a", format := .npm, store := "s" }, by decide +kernel, rfl⟩
  obtain ⟨r, w', hrun⟩ := h.ends
  rcases (flagged_propagateStaleness hrun "j").mp (h.flags r w' hrun "j" hresolve) with
    hflag | ⟨repos, hrepos, hsteps⟩
  · have hnone : (stackWorld.value (artifactKey Ext.sample.shardOf "j" "flag")).isSome = false := by
      decide +kernel
    exact Bool.false_ne_true (hnone.symm.trans hflag)
  · have hlisted : stackWorld.listedRepos = some stackRepos := by decide +kernel
    obtain rfl := Option.some.inj (hlisted.symm.trans hrepos)
    have hlevels : "j" ∈ levels (proxiesOf stackRepos .npm) 8 [] ["a"] :=
      (mem_levels 8 "a" "j").mpr hsteps
    revert hlevels
    decide +kernel

end Depot
