import Depot.Lib.Terminates
import Depot.Repo.Drain
import Mathlib.Algebra.Order.BigOperators.Group.Finset

/-!
# The drain loop of a collection

The first phase of `gc_pass` (`blob_reaper/gc_pass.rs`, lines 80–114) lists the repositories and
drains those that are marked for deletion, until the list has none; a drain that fails is logged.

**Deviation.** A repository whose drain fails every time is listed again and again, and the phase
does not end; the cleanup worker (`cleanup.rs`, lines 78–96) drains each repository once. The
list has at most `ADMIN_ENTITY_CAP` repositories, so what lies behind that many others is not
seen. A listing that fails ends the pass with its error, and a cancellation does too; neither is
modelled, and no repository is marked while the phase goes on.

Results:
* `DrainInv.step`: what each step of the phase preserves.
* `drainsAll_of`, `DrainsAll.drains_iff_listed`: when the phase ends and has drained what it can.
-/

namespace Depot

open Lib Relation

/-! ## The table of the repositories -/

/-- The partition of the repositories. -/
def reposPart : Part := ⟨.repos, .single⟩

/-- Each entry of the table is a configuration under its own name. -/
def World.ReposNamed (w : World) : Prop :=
  ∀ name c, w.cell (repoKey name) = some c → ∃ r, c.value = .repo r ∧ r.name = name

/-- The configuration of a repository that is marked for deletion. -/
def Value.isDeleting : Value → Bool
  | .repo r => r.deleting
  | _ => false

/-- A repository is marked for deletion. -/
def World.MarkedDeleting (w : World) (name : String) : Prop :=
  ∃ c, w.cell (repoKey name) = some c ∧ c.value.isDeleting = true

/-- The repositories that are not marked. -/
def World.keptRepos (w : World) : List (String × Versioned Value) :=
  (w.kv reposPart).entries.filter fun e => !e.2.value.isDeleting

/-- A repository that is in the list once those before it that are marked are gone. -/
def World.Listed (w : World) (name : String) : Prop :=
  (w.keptRepos.filter fun e => e.1 < name).length < adminEntityCap

/-! ## The phase -/

/-- Where the phase is: about to list, about to drain a repository and then others, or at its
    end. -/
inductive DrainProgress where
  | listing
  | draining (repo : RepoConfig) (rest : List RepoConfig)
  | ended

/-- After the list (lines 96–98). -/
def DrainProgress.afterList : List RepoConfig → DrainProgress
  | [] => .ended
  | repo :: rest => .draining repo rest

/-- After a drain: the next repository of the list, or the next list. -/
def DrainProgress.afterDrain : List RepoConfig → DrainProgress
  | [] => .listing
  | repo :: rest => .draining repo rest

/-- What is left of the list. -/
def DrainProgress.todo : DrainProgress → List RepoConfig
  | .draining repo rest => repo :: rest
  | _ => []

/-- A state of the phase: the store, and how often each repository has been drained. -/
structure DrainPhase where
  world : World
  attempts : String → ℕ
  progress : DrainProgress

def DrainPhase.start (w : World) : DrainPhase := ⟨w, fun _ => 0, .listing⟩

/-- A step of the phase. `fails name k` says whether the drain of `name` fails the time it is
    called after `k` other times; a drain that fails may have deleted some of the entries. -/
inductive DrainStep (x : Ext) (fails : String → ℕ → Bool) : DrainPhase → DrainPhase → Prop
  | list {w w' : World} {attempts : String → ℕ} {repos : List RepoConfig}
      (h : Alone x listReposRaw w (.ok repos) w') :
      DrainStep x fails ⟨w, attempts, .listing⟩
        ⟨w', attempts, .afterList (repos.filter fun r => r.deleting)⟩
  | drain {w w' : World} {attempts : String → ℕ} {repo : RepoConfig} {rest : List RepoConfig}
      {fuel : ℕ} {result : Except DepotError Unit}
      (h : Alone x (drainDeletingRepo fuel repo.name) w result w')
      (hfails : fails repo.name (attempts repo.name) = true ↔ ∃ e, result = .error e) :
      DrainStep x fails ⟨w, attempts, .draining repo rest⟩
        ⟨w', Function.update attempts repo.name (attempts repo.name + 1), .afterDrain rest⟩

/-- The phase comes to its end, and at its end every repository that was marked for deletion and
    whose drain can succeed has been drained. -/
structure DrainsAll (x : Ext) (fails : String → ℕ → Bool) (w : World) : Prop where
  terminates : Terminates (DrainStep x fails) (.start w)
  moves : ∀ s, ReflTransGen (DrainStep x fails) (.start w) s →
    s.progress = .ended ∨ ∃ s', DrainStep x fails s s'
  drained : ∀ s, ReflTransGen (DrainStep x fails) (.start w) s → s.progress = .ended →
    ∀ name, w.MarkedDeleting name → (∃ k, fails name k = false) → s.world.Drained name

variable {name : String}

/-! ## The list -/

section

variable {x : Ext} {w w' : World} {α : Type}

theorem alone_decodeAll {as? : Value → Option α} {items : List (String × Value)} {acc as : List α}
    (h : Alone x (Fallible.fold (fun acc e => do
      let a ← decode as? e.2
      pure (acc ++ [a])) items acc) w (.ok as) w') :
    w' = w ∧ as.map some = acc.map some ++ items.map fun e => as? e.2 := by
  induction items generalizing acc w with
  | nil =>
    obtain ⟨hr, rfl⟩ := yields_pure h
    obtain rfl := Except.ok.inj hr
    exact ⟨rfl, by simp⟩
  | cons e items ih =>
    obtain ⟨acc', w1, hone, hrest⟩ := yields_bind_ok h
    obtain ⟨a, w2, hdec, hpure⟩ := yields_bind_ok hone
    obtain ⟨rfl, hok⟩ := alone_decode hdec
    obtain ⟨hacc, rfl⟩ := yields_pure hpure
    obtain rfl := Except.ok.inj hacc
    obtain ⟨rfl, has⟩ := ih hrest
    refine ⟨rfl, ?_⟩
    rw [has]
    simp [hok a rfl]

theorem range_all (m : SortedMap String (Versioned Value)) : m.range "" none = m.entries := by
  refine List.filter_eq_self.mpr fun e _ => ?_
  have hle : "" ≤ e.1 := le_of_hasPrefix (List.nil_prefix (l := e.1.toList))
  simp [hle]

variable {repos : List RepoConfig}

/-- The repositories of the list are those of the first entries of the table. -/
theorem alone_listReposRaw (h : Alone x listReposRaw w (.ok repos) w') : w' = w ∧ repos.map some =
      ((w.kv reposPart).entries.take adminEntityCap).map fun e => e.2.value.repo? := by
  obtain ⟨result, w1, hscan, hrest⟩ := yields_bind_ok h
  obtain ⟨rfl, hresult⟩ := alone_kvScanRange hscan
  obtain ⟨rfl, hrepos⟩ := alone_decodeAll hrest
  refine ⟨rfl, ?_⟩
  rw [hrepos, (hresult result rfl).1, List.map_nil, List.nil_append, List.map_map,
    SortedMap.page, range_all]
  rfl

theorem mem_reposPart {e : String × Versioned Value} :
    e ∈ (w.kv reposPart).entries ↔ w.cell (repoKey e.1) = some e.2 := SortedMap.mem_entries_iff

/-- In a table of configurations under their names, the list has their names. -/
theorem names_listReposRaw (hw : w.ReposNamed) (h : Alone x listReposRaw w (.ok repos) w') :
    repos.map RepoConfig.name = ((w.kv reposPart).entries.take adminEntityCap).map Prod.fst := by
  have hmap := congrArg (List.map (Option.map RepoConfig.name)) (alone_listReposRaw h).2
  rw [List.map_map, List.map_map] at hmap
  have hnames : ((w.kv reposPart).entries.take adminEntityCap).map
      (Option.map RepoConfig.name ∘ fun e => e.2.value.repo?) =
        (((w.kv reposPart).entries.take adminEntityCap).map Prod.fst).map some := by
    rw [List.map_map]
    refine List.map_congr_left fun e he => ?_
    obtain ⟨r, hr, hname⟩ := hw e.1 e.2 (mem_reposPart.mp (List.mem_of_mem_take he))
    simp [hr, hname, Value.repo?]
  rw [hnames] at hmap
  refine List.map_injective_iff.mpr (Option.some_injective String) ?_
  rw [← hmap, List.map_map]
  rfl

/-- A table of configurations can be listed. -/
theorem exists_listReposRaw (x : Ext) (hw : w.ReposNamed) :
    ∃ repos w', Alone x listReposRaw w (.ok repos) w' := by
  have hrun : Succeeds (World.exec x) listReposRaw w fun _ w' => w' = w := by
    refine (succeeds_kvScanRange reposPart "" none adminEntityCap w).bind ?_
    rintro result w1 ⟨rfl, rfl⟩
    refine Succeeds.fold (fun acc e he w2 h2 => ?_) rfl
    obtain ⟨e', he', rfl⟩ := List.mem_map.mp he
    obtain ⟨r, hr, -⟩ := hw e'.1 e'.2 (SortedMap.page_subset he').1
    have hdec : Succeeds (World.exec x) (decode Value.repo? e'.2.value) w2
        fun _ w' => w' = w1 := by
      unfold decode
      rw [show Value.repo? e'.2.value = some r by rw [hr]; rfl]
      exact Succeeds.pure h2
    exact hdec.bind fun a w3 h3 => Succeeds.pure h3
  obtain ⟨repos, w', hrun, -⟩ := alone_of_succeeds hrun
  exact ⟨repos, w', hrun⟩

theorem mem_listReposRaw (hw : w.ReposNamed)
    (h : Alone x listReposRaw w (.ok repos) w') (r : RepoConfig) :
    r ∈ repos ↔ ∃ c, (r.name, c) ∈ (w.kv reposPart).entries.take adminEntityCap ∧
      c.value = .repo r := by
  have hmem : some r ∈ repos.map some ↔ r ∈ repos := by simp
  rw [← hmem, (alone_listReposRaw h).2, List.mem_map]
  constructor
  · rintro ⟨e, he, hr⟩
    obtain ⟨r', hr', hname⟩ := hw e.1 e.2 (mem_reposPart.mp (List.mem_of_mem_take he))
    rw [hr'] at hr
    obtain rfl := Option.some.inj hr
    exact ⟨e.2, hname ▸ he, hr'⟩
  · rintro ⟨c, hc, hr⟩
    exact ⟨(r.name, c), hc, by rw [hr]; rfl⟩

/-- A repository of the list comes after few that are not marked. -/
theorem listed_of_mem_take {c : Versioned Value}
    (h : (name, c) ∈ (w.kv reposPart).entries.take adminEntityCap) : w.Listed name := by
  have hlt := (SortedMap.mem_take_iff (w.kv reposPart).sorted (List.mem_of_mem_take h)).mp h
  refine lt_of_le_of_lt ?_ hlt
  exact (List.filter_sublist.filter _).length_le

/-- If a marked repository comes after few that are not marked, the list has a marked one. -/
theorem exists_marked (h : w.MarkedDeleting name) (hlisted : w.Listed name) :
    ∃ e ∈ (w.kv reposPart).entries.take adminEntityCap, e.2.value.isDeleting = true := by
  obtain ⟨c, hc, hdel⟩ := h
  refine SortedMap.exists_mem_take (p := fun e => e.2.value.isDeleting) (w.kv reposPart).sorted
    (mem_reposPart.mpr hc : ((name, c) : String × Versioned Value) ∈ _) hdel ?_
  rw [World.Listed, World.keptRepos, List.filter_filter] at hlisted
  simpa only [Bool.and_comm] using hlisted

end

/-! ## What the steps preserve -/

/-- What holds in every state of the phase: a configuration is as it was at the start or has been
    drained, what is still there has failed so far, and what is to be drained is there. -/
structure DrainInv (fails : String → ℕ → Bool) (w : World) (s : DrainPhase) : Prop where
  cells : ∀ name, s.world.cell (repoKey name) = w.cell (repoKey name) ∨
    s.world.Drained name ∧ w.MarkedDeleting name ∧ w.Listed name ∧ ∃ k, fails name k = false
  tried : ∀ name, s.world.cell (repoKey name) ≠ none →
    ∀ k < s.attempts name, fails name k = true
  todo : ∀ r ∈ s.progress.todo, s.world.MarkedDeleting r.name ∧ w.Listed r.name
  nodup : (s.progress.todo.map RepoConfig.name).Nodup
  ended : s.progress = .ended → ∀ name, s.world.MarkedDeleting name → ¬w.Listed name

variable {world world' : World} {attempts bound : String → ℕ} {rest : List RepoConfig}

namespace DrainInv

variable {x : Ext} {fails : String → ℕ → Bool} {w : World} {s s' : DrainPhase}

theorem start : DrainInv fails w (.start w) where
  cells _ := .inl rfl
  tried _ _ k hk := absurd hk (Nat.not_lt_zero k)
  todo _ hr := nomatch hr
  nodup := List.nodup_nil
  ended h := nomatch h

section

variable (h : DrainInv fails w s)

include h

/-- What is there is as it was. -/
theorem cell_eq (hsome : s.world.cell (repoKey name) ≠ none) :
    s.world.cell (repoKey name) = w.cell (repoKey name) :=
  (h.cells name).resolve_right fun hd => hsome hd.1.1

theorem reposNamed (hw : w.ReposNamed) : s.world.ReposNamed := by
  intro name c hc
  have hsome : s.world.cell (repoKey name) ≠ none := by
    rw [hc]
    exact Option.some_ne_none c
  exact hw name c ((h.cell_eq hsome).symm.trans hc)

theorem markedDeleting (hm : s.world.MarkedDeleting name) : w.MarkedDeleting name := by
  obtain ⟨c, hc, hdel⟩ := hm
  have hsome : s.world.cell (repoKey name) ≠ none := by
    rw [hc]
    exact Option.some_ne_none c
  exact ⟨c, (h.cell_eq hsome).symm.trans hc, hdel⟩

/-- The repositories that are not marked stay. -/
theorem keptRepos : s.world.keptRepos = w.keptRepos := by
  refine eq_of_mem_iff_of_sorted (((s.world.kv reposPart).sorted).filter _)
    (((w.kv reposPart).sorted).filter _) fun e => ?_
  rw [World.keptRepos, World.keptRepos, List.mem_filter, List.mem_filter, mem_reposPart,
    mem_reposPart]
  refine and_congr_left fun hkept => ?_
  rcases h.cells e.1 with hsame | ⟨hdrained, ⟨c, hc, hdel⟩, -⟩
  · rw [hsame]
  · rw [hdrained.1, hc]
    refine ⟨nofun, fun heq => ?_⟩
    rw [← Option.some.inj heq, hdel] at hkept
    cases hkept

theorem listed (name : String) : s.world.Listed name ↔ w.Listed name := by
  rw [World.Listed, World.Listed, h.keptRepos]

theorem afterList (hw : w.ReposNamed)
    {repos : List RepoConfig} (hlist : Alone x listReposRaw s.world (.ok repos) world) :
    DrainInv fails w ⟨world, s.attempts, .afterList (repos.filter fun r => r.deleting)⟩ := by
  have hnamed := h.reposNamed hw
  obtain ⟨rfl, -⟩ := alone_listReposRaw hlist
  have htodo : (DrainProgress.afterList (repos.filter fun r => r.deleting)).todo =
      repos.filter fun r => r.deleting := by
    cases repos.filter fun r => r.deleting <;> rfl
  refine ⟨h.cells, h.tried, fun r hr => ?_, ?_, fun hended name hm hlisted => ?_⟩
  · simp only [htodo, List.mem_filter] at hr
    obtain ⟨c, hc, hvalue⟩ := (mem_listReposRaw hnamed hlist r).mp hr.1
    refine ⟨⟨c, mem_reposPart.mp (List.mem_of_mem_take hc), ?_⟩, ?_⟩
    · rw [hvalue]
      exact hr.2
    · exact (h.listed r.name).mp (listed_of_mem_take hc)
  · simp only [htodo]
    refine ((List.filter_sublist).map RepoConfig.name).nodup ?_
    rw [names_listReposRaw hnamed hlist]
    exact nodup_keys_of_sorted ((s.world.kv reposPart).sorted.sublist (List.take_sublist _ _))
  · obtain ⟨e, he, hdel⟩ := exists_marked hm ((h.listed name).mpr hlisted)
    obtain ⟨r, hr, hname⟩ := hnamed e.1 e.2 (mem_reposPart.mp (List.mem_of_mem_take he))
    have hmem : r ∈ repos.filter fun r => r.deleting := by
      rw [hr] at hdel
      refine List.mem_filter.mpr ⟨(mem_listReposRaw hnamed hlist r).mpr ⟨e.2, ?_, hr⟩, hdel⟩
      rw [hname]
      exact he
    rw [← htodo] at hmem
    have hnil : (DrainProgress.afterList (repos.filter fun r => r.deleting)).todo = [] := by
      rw [show DrainProgress.afterList (repos.filter fun r => r.deleting) = .ended from hended]
      rfl
    rw [hnil] at hmem
    cases hmem

end

theorem afterDrain {repo : RepoConfig} (h : DrainInv fails w ⟨world, attempts, .draining repo rest⟩)
    {fuel : ℕ} {result : Except DepotError Unit}
    (hrun : Alone x (drainDeletingRepo fuel repo.name) world result world')
    (hfails : fails repo.name (attempts repo.name) = true ↔ ∃ e, result = .error e) :
    DrainInv fails w ⟨world', Function.update attempts repo.name (attempts repo.name + 1),
      .afterDrain rest⟩ := by
  obtain ⟨hmarked, hlisted⟩ := h.todo repo List.mem_cons_self
  have hnodup : (repo.name :: rest.map RepoConfig.name).Nodup := h.nodup
  have hother : ∀ name ≠ repo.name, ∀ k : Key, k.OwnedBy name → world'.cell k = world.cell k :=
    fun name hne k hk => alone_drainDeletingRepo_other hne hrun hk
  have hrest : ∀ r ∈ rest, r.name ≠ repo.name := fun r hr heq =>
    (List.nodup_cons.mp hnodup).1 (heq ▸ List.mem_map_of_mem hr)
  have htodo : (DrainProgress.afterDrain rest).todo = rest := by cases rest <;> rfl
  have hdrained : ∀ name ≠ repo.name, world.Drained name → world'.Drained name := by
    refine fun name hne hd => ⟨?_, fun shard hshard sk => ⟨?_, ?_⟩⟩
    · rw [hother name hne _ (.inl rfl)]
      exact hd.1
    · rw [hother name hne _ (.inr ⟨.inl rfl, shard, rfl⟩)]
      exact (hd.2 shard hshard sk).1
    · rw [hother name hne _ (.inr ⟨.inr rfl, shard, rfl⟩)]
      exact (hd.2 shard hshard sk).2
  refine ⟨fun name => ?_, fun name hsome k hk => ?_, fun r hr => ?_, ?_, ?_⟩
  · by_cases hname : name = repo.name
    · subst hname
      cases result with
      | ok u =>
        refine .inr ⟨alone_drainDeletingRepo hrun, h.markedDeleting hmarked, hlisted,
          attempts repo.name, ?_⟩
        exact Bool.eq_false_iff.mpr fun hf => nomatch hfails.mp hf
      | error e =>
        obtain ⟨c, hc, -⟩ := hmarked
        have hsome : world.cell (repoKey repo.name) ≠ none := by
          rw [hc]
          exact Option.some_ne_none c
        exact .inl ((alone_drainDeletingRepo_error hrun).trans (h.cell_eq hsome))
    · rcases h.cells name with hsame | ⟨hd, hd'⟩
      · exact .inl ((hother name hname _ (.inl rfl)).trans hsame)
      · exact .inr ⟨hdrained name hname hd, hd'⟩
  · by_cases hname : name = repo.name
    · subst hname
      cases result with
      | ok u => exact absurd (alone_drainDeletingRepo hrun).1 hsome
      | error e =>
        have hk' : k < Function.update attempts repo.name (attempts repo.name + 1) repo.name := hk
        rw [Function.update_self] at hk'
        rcases Nat.lt_succ_iff_lt_or_eq.mp hk' with hlt | rfl
        · refine h.tried repo.name ?_ k hlt
          rw [← alone_drainDeletingRepo_error hrun]
          exact hsome
        · exact hfails.mpr ⟨e, rfl⟩
    · have hk' : k < Function.update attempts repo.name (attempts repo.name + 1) name := hk
      rw [Function.update_of_ne hname] at hk'
      refine h.tried name ?_ k hk'
      rw [← hother name hname _ (.inl rfl)]
      exact hsome
  · simp only [htodo] at hr
    obtain ⟨⟨c, hc, hdel⟩, hl⟩ := h.todo r (List.mem_cons_of_mem _ hr)
    exact ⟨⟨c, (hother r.name (hrest r hr) _ (.inl rfl)).trans hc, hdel⟩, hl⟩
  · simp only [htodo]
    exact (List.nodup_cons.mp hnodup).2
  · intro hended
    cases rest <;> cases hended

theorem step (hw : w.ReposNamed) (h : DrainInv fails w s) (hstep : DrainStep x fails s s') :
    DrainInv fails w s' := by
  cases hstep with
  | list hlist => exact h.afterList hw hlist
  | drain hrun hfails => exact h.afterDrain hrun hfails

theorem of_reaches (hw : w.ReposNamed) (h : ReflTransGen (DrainStep x fails) (.start w) s) :
    DrainInv fails w s :=
  reaches_of_step (fun _ _ hs hstep => hs.step hw hstep) start h

/-- The phase goes on until its end. -/
theorem moves (hw : w.ReposNamed) (h : DrainInv fails w s) :
    s.progress = .ended ∨ ∃ s', DrainStep x fails s s' := by
  obtain ⟨world, attempts, progress⟩ := s
  cases progress with
  | ended => exact .inl rfl
  | listing =>
    obtain ⟨repos, world', hlist⟩ := exists_listReposRaw x (h.reposNamed hw)
    exact .inr ⟨_, .list hlist⟩
  | draining repo rest =>
    cases hfails : fails repo.name (attempts repo.name) with
    | true =>
      obtain ⟨fuel, e, world', hrun⟩ := exists_drain_error x repo.name world
      exact .inr ⟨_, .drain hrun ⟨fun _ => ⟨e, rfl⟩, fun _ => hfails⟩⟩
    | false =>
      obtain ⟨fuel, world', hrun⟩ := exists_drain_ok x repo.name world
      refine .inr ⟨_, .drain hrun ⟨fun h => ?_, fun ⟨e, he⟩ => nomatch he⟩⟩
      rw [hfails] at h
      cases h

end DrainInv

/-! ## When the phase ends -/

section

variable {x : Ext} {fails : String → ℕ → Bool} {w : World}

/-- The drains that are left until each repository has been drained. -/
def DrainPhase.budget (names : Finset String) (bound : String → ℕ) (s : DrainPhase) : ℕ :=
  ∑ name ∈ names, (bound name - s.attempts name)

/-- A number that gets smaller with each step. -/
def DrainPhase.left (names : Finset String) (bound : String → ℕ) (s : DrainPhase) : ℕ :=
  match s.progress with
  | .listing => 2 * s.budget names bound + 1
  | .draining _ _ => 2 * s.budget names bound
  | .ended => 0

/-- A drain uses up one of those that are left. -/
theorem DrainInv.budget_lt {repo : RepoConfig} {progress : DrainProgress} {names : Finset String}
    (h : DrainInv fails w ⟨world, attempts, .draining repo rest⟩)
    (hnames : ∀ name, w.MarkedDeleting name → name ∈ names)
    (hbound : ∀ name, w.MarkedDeleting name → w.Listed name →
      ∃ k < bound name, fails name k = false) :
    (DrainPhase.mk world' (Function.update attempts repo.name (attempts repo.name + 1))
      progress).budget names bound <
        (DrainPhase.mk world attempts (.draining repo rest)).budget names bound := by
  obtain ⟨hmarked, hlisted⟩ := h.todo repo List.mem_cons_self
  obtain ⟨k, hk, hok⟩ := hbound repo.name (h.markedDeleting hmarked) hlisted
  have htried : attempts repo.name ≤ k := by
    by_contra hlt
    obtain ⟨c, hc, -⟩ := hmarked
    have hsome : world.cell (repoKey repo.name) ≠ none := by
      rw [hc]
      exact Option.some_ne_none c
    have hfailed := h.tried repo.name hsome k (not_le.mp hlt)
    rw [hok] at hfailed
    cases hfailed
  unfold DrainPhase.budget
  refine Finset.sum_lt_sum (fun name _ => ?_) ⟨repo.name, hnames _ (h.markedDeleting hmarked), ?_⟩
  · by_cases hname : name = repo.name
    · subst hname
      simp only [Function.update_self]
      omega
    · simp only [Function.update_of_ne hname]
      exact le_rfl
  · simp only [Function.update_self]
    omega

theorem DrainInv.left_lt {names : Finset String} {s s' : DrainPhase}
    (hnames : ∀ name, w.MarkedDeleting name → name ∈ names)
    (hbound : ∀ name, w.MarkedDeleting name → w.Listed name →
      ∃ k < bound name, fails name k = false)
    (h : DrainInv fails w s) (hstep : DrainStep x fails s s') :
    s'.left names bound < s.left names bound := by
  cases hstep with
  | @list w1 w2 attempts repos hlist =>
    obtain ⟨rfl, -⟩ := alone_listReposRaw hlist
    cases repos.filter fun r => r.deleting with
    | nil => exact Nat.succ_pos _
    | cons repo rest => exact Nat.lt_succ_self _
  | @drain w1 w2 attempts repo rest fuel result hrun hfails =>
    have hlt : (DrainPhase.mk w2 (Function.update attempts repo.name (attempts repo.name + 1))
        (.afterDrain rest)).budget names bound <
          (DrainPhase.mk w1 attempts (.draining repo rest)).budget names bound :=
      h.budget_lt hnames hbound
    cases rest with
    | nil =>
      show 2 * DrainPhase.budget names bound _ + 1 < 2 * DrainPhase.budget names bound _
      omega
    | cons repo' rest =>
      show 2 * DrainPhase.budget names bound _ < 2 * DrainPhase.budget names bound _
      omega

/-- If what is listed can be drained, the phase ends, and has drained it. -/
theorem drainsAll_of (hw : w.ReposNamed) (h : ∀ name, w.MarkedDeleting name →
    ((∃ k, fails name k = false) ↔ w.Listed name)) : DrainsAll x fails w where
  terminates := by
    have hbound : ∀ name, ∃ n, w.MarkedDeleting name → w.Listed name →
        ∃ k < n, fails name k = false := by
      intro name
      by_cases hd : w.MarkedDeleting name ∧ w.Listed name
      · obtain ⟨k, hk⟩ := (h name hd.1).mpr hd.2
        exact ⟨k + 1, fun _ _ => ⟨k, k.lt_succ_self, hk⟩⟩
      · exact ⟨0, fun hm hl => absurd ⟨hm, hl⟩ hd⟩
    choose bound hbound using hbound
    have hnames : ∀ name, w.MarkedDeleting name →
        name ∈ ((w.kv reposPart).entries.map Prod.fst).toFinset := by
      rintro name ⟨c, hc, -⟩
      rw [List.mem_toFinset]
      exact List.mem_map_of_mem (mem_reposPart.mpr hc : ((name, c) : String × _) ∈ _)
    exact terminates_of_measure (fun _ _ hs hstep => hs.step hw hstep)
      (fun _ _ hs hstep => hs.left_lt hnames hbound hstep) DrainInv.start
  moves _ hs := (DrainInv.of_reaches hw hs).moves hw
  drained s hs hended name hm hok := by
    have hinv := DrainInv.of_reaches hw hs
    rcases hinv.cells name with hsame | hd
    · obtain ⟨c, hc, hdel⟩ := hm
      exact absurd ((h name ⟨c, hc, hdel⟩).mp hok)
        (hinv.ended hended name ⟨c, hsame.trans hc, hdel⟩)
    · exact hd.1

/-- If the phase ends and has drained what can be drained, that is what is listed. -/
theorem DrainsAll.drains_iff_listed (hw : w.ReposNamed) (h : DrainsAll x fails w)
    (hm : w.MarkedDeleting name) : (∃ k, fails name k = false) ↔ w.Listed name := by
  obtain ⟨c, hc, hdel⟩ := hm
  constructor
  · intro hok
    obtain ⟨s, hs, hended⟩ := h.terminates.exists_end h.moves
    have hgone := (h.drained s hs hended name ⟨c, hc, hdel⟩ hok).1
    rcases (DrainInv.of_reaches hw hs).cells name with hsame | ⟨-, -, hlisted, -⟩
    · rw [hsame, hc] at hgone
      cases hgone
    · exact hlisted
  · intro hlisted
    by_contra hnever
    -- the repository stays, so each list has something to drain
    refine not_terminates_of_moves (I := ReflTransGen (DrainStep x fails) (.start w))
      (fun s hs => ?_) .refl h.terminates
    have hinv := DrainInv.of_reaches hw hs
    have hthere : s.world.cell (repoKey name) = w.cell (repoKey name) :=
      (hinv.cells name).resolve_right fun hd => hnever hd.2.2.2
    rcases h.moves s hs with hended | ⟨s', hstep⟩
    · exact absurd hlisted (hinv.ended hended name ⟨c, hthere.trans hc, hdel⟩)
    · exact ⟨s', hstep, hs.tail hstep⟩

/-- **Main theorem.** For every table of configurations and every pattern of failing drains, the
    phase ends without a cancellation, with every marked repository drained whose drain can
    succeed, exactly if the marked repositories whose drain can succeed are those that come into
    the list. -/
theorem drain_phase_ends_iff (x : Ext) (fails : String → ℕ → Bool) (w : World) (hw : w.ReposNamed) :
    DrainsAll x fails w ↔ ∀ name, w.MarkedDeleting name →
      ((∃ k, fails name k = false) ↔ w.Listed name) :=
  ⟨fun h _ hm => h.drains_iff_listed hw hm, drainsAll_of hw⟩

end

/-! ## A drain that fails every time -/

/-- A store with one repository, which is marked for deletion. -/
def oneMarked : World :=
  World.setCell { now := 0 } (repoKey "a")
    (some ⟨1, .repo { name := "a", store := "s", deleting := true }⟩)

theorem oneMarked_named : oneMarked.ReposNamed := by
  intro name c hc
  unfold oneMarked at hc
  rw [World.cell_setCell] at hc
  split_ifs at hc with hname
  · obtain rfl := Option.some.inj hc
    exact ⟨_, rfl, (congrArg Key.sk hname).symm⟩
  · cases hc

theorem oneMarked_marked : oneMarked.MarkedDeleting "a" :=
  ⟨_, World.cell_setCell_self (repoKey "a") _, rfl⟩

theorem oneMarked_listed : oneMarked.Listed "a" := by
  unfold World.Listed
  decide

/-- **Counterexample.** If the drain of the only repository fails every time, the phase does not
    end. -/
theorem failing_drain_never_ends : ¬DrainsAll Ext.sample (fun _ _ => true) oneMarked := by
  intro h
  obtain ⟨k, hk⟩ := (h.drains_iff_listed oneMarked_named oneMarked_marked).mpr oneMarked_listed
  cases hk

/-- A drain that fails twice and then succeeds. -/
theorem drain_phase_ends_at_third_try :
    DrainsAll Ext.sample (fun _ k => decide (k < 2)) oneMarked := by
  refine (drain_phase_ends_iff Ext.sample _ oneMarked oneMarked_named).mpr fun name hm => ?_
  obtain ⟨c, hc, -⟩ := hm
  have hname : name = "a" := by
    unfold oneMarked at hc
    rw [World.cell_setCell] at hc
    split_ifs at hc with hname
    · exact congrArg Key.sk hname
    · cases hc
  subst hname
  exact iff_of_true ⟨2, rfl⟩ oneMarked_listed

end Depot
