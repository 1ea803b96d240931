import Depot.Lib.Succeeds
import Depot.Repo.Clone
import Mathlib.Algebra.Order.BigOperators.Group.List

/-!
# Draining a repository

`drain_deleting_repo` (`core/src/service/repo.rs`, lines 319–386) by itself: what it leaves when
it succeeds, what it never touches, and that it can come to an end both ways.

Results:
* `alone_drainDeletingRepo`: what a drain that succeeds leaves.
* `alone_drainDeletingRepo_error`: a drain that fails leaves the configuration.
* `exists_drain_ok`, `exists_drain_error`: both ends are possible.
-/

namespace Depot

open Lib List
open Fallible (Uses uses_attempt)

/-! ## What a drain leaves -/

/-- Nothing of a repository is left: no configuration, no artifact and no directory entry, the
    one of its root with its statistics included. -/
def World.Drained (name : String) (w : World) : Prop :=
  w.cell (repoKey name) = none ∧ ∀ shard < numShards, ∀ sk,
    w.cell ⟨artifactShardPk name shard, sk⟩ = none ∧ w.cell ⟨treeShardPk name shard, sk⟩ = none

/-- A key of a repository: of its configuration, or in a partition of the artifacts or of the
    tree whose partition key has the text of one of the repository's. -/
def Key.OwnedBy (name : String) (k : Key) : Prop :=
  k = repoKey name ∨
    (k.part.table = .artifacts ∨ k.part.table = .dirEntries) ∧
      ∃ shard, k.part.pk.text = (Pk.sharded name shard).text

variable {k : Key}

section

variable {x : Ext} {v v' : World} {part : Part} {partOf : String → ℕ → Part} {name : String}
variable {fuel : ℕ}

/-- The last scan of a drain has found nothing. -/
theorem alone_drainShard (h : Alone x (drainShard part fuel) v (.ok ()) v') (sk : String) :
    v'.cell ⟨part, sk⟩ = none := by
  induction fuel generalizing v with
  | zero =>
    obtain ⟨e, -, -, -⟩ := yields_bind_ok h
    cases e
  | succ fuel ih =>
    obtain ⟨result, v1, hscan, hrest⟩ := yields_bind_ok h
    obtain ⟨rfl, hresult⟩ := alone_kvScanRange hscan
    obtain ⟨hitems, -⟩ := hresult result rfl
    by_cases hempty : result.items = []
    · rw [if_pos hempty] at hrest
      obtain ⟨-, rfl⟩ := yields_pure hrest
      rw [hitems, map_eq_nil_iff, SortedMap.page, take_eq_nil_iff] at hempty
      have hrange := hempty.resolve_left (show ¬scanBatchSize = 0 by decide)
      refine Option.eq_none_iff_forall_ne_some.mpr fun c hc => ?_
      have hle : "" ≤ sk := le_of_hasPrefix (List.nil_prefix (l := sk.toList))
      have hmem : (sk, c) ∈ (v'.kv part).range "" none :=
        SortedMap.mem_range.mpr ⟨SortedMap.mem_entries_iff.mpr hc, hle, by rintro _ ⟨⟩⟩
      rw [hrange] at hmem
      cases hmem
    · rw [if_neg hempty] at hrest
      obtain ⟨_, v2, -, hgo⟩ := yields_bind_ok hrest
      exact ih hgo

theorem onParts_drainShard (part : Part) (fuel : ℕ) :
    Uses (OnParts [part]) (drainShard part fuel) := by
  induction fuel with
  | zero => exact onParts_orPanic _
  | succ fuel ih =>
    refine (onParts_kvScanRange mem_cons_self _ _ _).bind fun result => ?_
    split_ifs
    · trivial
    · refine (Uses.fold fun _ k hk => ?_).bind fun _ => ih
      obtain ⟨e, -, rfl⟩ := mem_map.mp hk
      exact Uses.bind (uses_attempt (mem_cons_self (l := []))) fun _ => trivial

theorem alone_drainShards (hparts : Shards partOf)
    (h : Alone x (drainShards fuel partOf name) v (.ok ()) v') {shard : ℕ}
    (hshard : shard < numShards) (sk : String) : v'.cell ⟨partOf name shard, sk⟩ = none := by
  obtain ⟨rs, v1, hjoin, hpure⟩ := yields_bind_ok h
  obtain ⟨-, rfl⟩ := yields_pure hpure
  have hdisj : (List.range numShards).Pairwise fun i j =>
      ∀ part ∈ [partOf name i], part ∉ [partOf name j] := by
    refine nodup_range.imp fun {i j} hij part hpart hpart' => hij ?_
    rw [mem_singleton] at hpart hpart'
    exact (hparts _ _ _ _ (hpart.symm.trans hpart')).2
  have hall := alone_join_parts (fun i _ => onParts_drainShard (partOf name i) fuel) hdisj hjoin
  obtain ⟨_, hone⟩ := exists_of_forall₂ hall (List.mem_range.mpr hshard)
  have hcell := alone_drainShard hone sk
  rw [World.only_cell (k := ⟨partOf name shard, sk⟩) mem_cons_self] at hcell
  exact hcell

theorem drainShards_leaves (h : ∀ shard, k.part ≠ partOf name shard) :
    Uses (LeavesCell k) (drainShards fuel partOf name) := by
  refine Uses.bind (Uses.join fun p hp => ?_) fun _ => trivial
  obtain ⟨shard, -, rfl⟩ := mem_map.mp hp
  exact leavesCell_drainShard (h shard) fuel

theorem drainDeletingRepo_leaves (hart : ∀ shard, k.part ≠ artifactShardPk name shard)
    (htree : ∀ shard, k.part ≠ treeShardPk name shard) (hrepo : repoKey name ≠ k) :
    Uses (LeavesCell k) (drainDeletingRepo fuel name) := by
  refine (drainShards_leaves hart).bind fun _ => (drainShards_leaves htree).bind fun _ => ?_
  exact Uses.bind (uses_attempt (leavesCell_write hrepo _)) fun _ => trivial

/-- What a drain that succeeds leaves. -/
theorem alone_drainDeletingRepo (h : Alone x (drainDeletingRepo fuel name) v (.ok ()) v') :
    v'.Drained name := by
  obtain ⟨_, v1, harts, hrest⟩ := yields_bind_ok h
  obtain ⟨_, v2, htree, hrest⟩ := yields_bind_ok hrest
  obtain ⟨_, v3, hdel, hpure⟩ := yields_bind_ok hrest
  obtain ⟨-, rfl⟩ := yields_pure hpure
  rcases alone_write hdel with ⟨-, hr⟩ | ⟨rfl, -⟩
  · exact absurd rfl (hr _)
  · have hart : ∀ shard sk, (⟨artifactShardPk name shard, sk⟩ : Key) ≠ repoKey name := by
      intro shard sk h
      cases h
    have htree' : ∀ shard sk, (⟨treeShardPk name shard, sk⟩ : Key) ≠ repoKey name := by
      intro shard sk h
      cases h
    refine ⟨?_, fun shard hshard sk => ⟨?_, ?_⟩⟩
    · rw [World.cell_setCell_self, CellOp.apply_remove]
    · rw [World.cell_setCell_of_ne (hart shard sk),
        alone_leavesCell (drainShards_leaves fun _ =>
          (treeShardPk_ne_artifactShardPk _ _ _ _).symm) htree]
      exact alone_drainShards shards_artifactShardPk harts hshard sk
    · rw [World.cell_setCell_of_ne (htree' shard sk)]
      exact alone_drainShards shards_treeShardPk htree hshard sk

/-- The keys of different repositories differ, whatever their names are. -/
theorem not_ownedBy {other : String} (hne : other ≠ name) (hk : k.OwnedBy other) :
    (∀ shard, k.part ≠ artifactShardPk name shard) ∧
      (∀ shard, k.part ≠ treeShardPk name shard) ∧ repoKey name ≠ k := by
  rcases hk with rfl | ⟨htable, shard', htext⟩
  · refine ⟨fun shard h => ?_, fun shard h => ?_, fun h => hne ?_⟩
    · cases h
    · cases h
    · exact (congrArg Key.sk h).symm
  · refine ⟨fun shard h => hne ?_, fun shard h => hne ?_, fun h => ?_⟩
    · rw [h] at htext
      exact (pkText_inj htext).1.symm
    · rw [h] at htext
      exact (pkText_inj htext).1.symm
    · rw [← h] at htable
      rcases htable with h | h
      · cases h
      · cases h

/-- A drain touches nothing of another repository. -/
theorem alone_drainDeletingRepo_other {other : String} (hne : other ≠ name)
    {r : Except DepotError Unit} (h : Alone x (drainDeletingRepo fuel name) v r v')
    (hk : k.OwnedBy other) : v'.cell k = v.cell k := by
  obtain ⟨hart, htree, hrepo⟩ := not_ownedBy hne hk
  exact alone_leavesCell (drainDeletingRepo_leaves hart htree hrepo) h

/-- A drain that fails leaves the configuration. -/
theorem alone_drainDeletingRepo_error {e : DepotError}
    (h : Alone x (drainDeletingRepo fuel name) v (.error e) v') :
    v'.cell (repoKey name) = v.cell (repoKey name) := by
  have hart : ∀ shard, (repoKey name).part ≠ artifactShardPk name shard :=
    fun shard h => nomatch congrArg Part.table h
  have htree : ∀ shard, (repoKey name).part ≠ treeShardPk name shard :=
    fun shard h => nomatch congrArg Part.table h
  rcases yields_bind h with ⟨_, -, harts⟩ | ⟨_, v1, harts, hrest⟩
  · exact alone_leavesCell (drainShards_leaves hart) harts
  · rw [← alone_leavesCell (drainShards_leaves hart) harts]
    rcases yields_bind hrest with ⟨_, -, htrees⟩ | ⟨_, v2, htrees, hrest⟩
    · exact alone_leavesCell (drainShards_leaves htree) htrees
    · rw [← alone_leavesCell (drainShards_leaves htree) htrees]
      rcases yields_bind hrest with ⟨_, -, hdel⟩ | ⟨_, v3, -, hpure⟩
      · rcases alone_write hdel with ⟨rfl, -⟩ | ⟨-, hr⟩
        · rfl
        · cases hr
      · obtain ⟨hr, -⟩ := yields_pure hpure
        cases hr

end

/-! ## Both ends of a drain are possible -/

section

variable {x : Ext} {v v' : World} {part : Part} {partOf : String → ℕ → Part} {name : String}

theorem succeeds_kvScanRange (part : Part) (start : String) (stop : Option String) (limit : ℕ)
    (w : World) : Succeeds (World.exec x) (kvScanRange part start stop limit) w fun result w' =>
      w' = w ∧ result = w.scanRange part start stop limit :=
  Succeeds.attempt rfl rfl ⟨rfl, rfl⟩

variable {w : World}

theorem kv_setCell_of_ne (h : part ≠ k.part) (c : Option (Versioned Value)) :
    (w.setCell k c).kv part = w.kv part := Function.update_of_ne h _ _

theorem kv_setCell_self (w : World) (k : Key) (c : Option (Versioned Value)) :
    (w.setCell k c).kv k.part = (w.kv k.part).assign k.sk c := Function.update_self _ _ _

/-- A run of a function that succeeds. -/
theorem alone_of_succeeds {α : Type} {p : Async α} {post : α → World → Prop}
    (h : Succeeds (World.exec x) p w post) : ∃ a w', Alone x p w (.ok a) w' ∧ post a w' :=
  h.yields fun _ _ => trivial

/-- No partition has got longer. -/
def NoLonger (w w' : World) : Prop :=
  ∀ part, (w'.kv part).entries.length ≤ (w.kv part).entries.length

theorem NoLonger.trans {w' w'' : World} (h : NoLonger w w') (h' : NoLonger w' w'') :
    NoLonger w w'' := fun part => (h' part).trans (h part)

theorem noLonger_setCell_none (w : World) (k : Key) : NoLonger w (w.setCell k none) := by
  intro part
  by_cases hp : part = k.part
  · subst hp
    rw [kv_setCell_self]
    exact length_filter_le _ _
  · rw [kv_setCell_of_ne hp]

theorem length_setCell_none_lt {c : Versioned Value} (h : w.cell k = some c) :
    ((w.setCell k none).kv k.part).entries.length < (w.kv k.part).entries.length := by
  rw [kv_setCell_self]
  refine length_filter_lt_length_iff_exists.mpr ⟨(k.sk, c), ?_, by simp⟩
  exact SortedMap.mem_entries_iff.mpr h

theorem succeeds_kvDelete (k : Key) (w : World) :
    Succeeds (World.exec x) (kvDelete k) w fun _ w' => w' = w.setCell k none := by
  refine Succeeds.attempt rfl rfl ?_
  rw [CellOp.apply_remove]

/-- The deletes of a batch, from one of them on. -/
theorem succeeds_deletes (h : NoLonger v w) (ks : List Key) (hits : List Bool) :
    Succeeds (World.exec x) (Fallible.fold (fun hits k => do
      let hit ← kvDelete k
      pure (hits ++ [hit])) ks hits) w fun _ => NoLonger v := by
  refine Succeeds.fold (fun hits k _ w1 h1 => ?_) h
  refine (succeeds_kvDelete k w1).bind fun hit w2 h2 => Succeeds.pure ?_
  rw [h2]
  exact h1.trans (noLonger_setCell_none w1 k)

theorem drainShard_succeeds {fuel : ℕ} (hfuel : (v.kv part).entries.length < fuel) :
    Succeeds (World.exec x) (drainShard part fuel) v fun _ => NoLonger v := by
  induction fuel generalizing v with
  | zero => omega
  | succ fuel ih =>
    refine (succeeds_kvScanRange part _ none _ v).bind ?_
    rintro result v1 ⟨rfl, rfl⟩
    split_ifs with hempty
    · exact Succeeds.pure fun _ => le_rfl
    · obtain ⟨e, rest, hitems⟩ := exists_cons_of_ne_nil hempty
      -- the first key of the page is there, so the partition gets shorter
      have hfirst : ∃ c, v1.cell ⟨part, e.1⟩ = some c := by
        have he : e ∈ (v1.scanRange part "" none scanBatchSize).items := by
          rw [hitems]
          exact mem_cons_self
        obtain ⟨e', he', rfl⟩ := mem_map.mp he
        exact ⟨e'.2, (SortedMap.page_subset he').1⟩
      obtain ⟨c, hc⟩ := hfirst
      have hbatch : Succeeds (World.exec x) (kvDeleteBatch
          ((v1.scanRange part "" none scanBatchSize).items.map fun e => (⟨part, e.1⟩ : Key))) v1
          fun _ => NoLonger (v1.setCell ⟨part, e.1⟩ none) := by
        rw [hitems, map_cons]
        have hone : Succeeds (World.exec x) (do
            let hit ← kvDelete ⟨part, e.1⟩
            pure ([] ++ [hit])) v1 fun _ => NoLonger (v1.setCell ⟨part, e.1⟩ none) := by
          refine (succeeds_kvDelete _ v1).bind fun hit w2 h2 => Succeeds.pure ?_
          rw [h2]
          exact fun _ => le_rfl
        exact hone.bind fun hits w2 h2 => succeeds_deletes h2 _ hits
      refine hbatch.bind fun _ w2 h2 => ?_
      have hshorter := length_setCell_none_lt hc
      refine (ih ?_).mono fun _ w3 h3 => ((noLonger_setCell_none v1 _).trans h2).trans h3
      have hlen := h2 part
      simp only at hshorter
      omega

/-- A bound on the batches of all shards of a table. -/
theorem exists_bound (partOf : ℕ → Part) (w : World) :
    ∃ n, ∀ shard < numShards, (w.kv (partOf shard)).entries.length < n := by
  refine ⟨((List.range numShards).map fun s => (w.kv (partOf s)).entries.length).sum + 1, ?_⟩
  intro shard hshard
  have hmem := mem_map_of_mem (f := fun s => (w.kv (partOf s)).entries.length)
    (List.mem_range.mpr hshard)
  exact Nat.lt_succ_of_le (le_sum_of_mem hmem)


theorem drainShards_succeeds {fuel : ℕ} (hw : NoLonger v w)
    (hfuel : ∀ shard < numShards, (v.kv (partOf name shard)).entries.length < fuel) :
    Succeeds (World.exec x) (drainShards fuel partOf name) w fun _ => NoLonger v := by
  refine Succeeds.bind (Succeeds.join (fun shard hshard w1 h1 => ?_) hw) fun _ _ h =>
    Succeeds.pure h
  refine (drainShard_succeeds ?_).mono fun _ w2 h2 => h1.trans h2
  exact lt_of_le_of_lt (h1 _) (hfuel shard (List.mem_range.mp hshard))

/-- A drain can come as far as the configuration. -/
theorem exists_drained (x : Ext) (name : String) (w : World) : ∃ fuel w1 w2,
    Alone x (drainShards fuel artifactShardPk name) w (.ok ()) w1 ∧
      Alone x (drainShards fuel treeShardPk name) w1 (.ok ()) w2 := by
  obtain ⟨n, hn⟩ := exists_bound (artifactShardPk name) w
  obtain ⟨m, hm⟩ := exists_bound (treeShardPk name) w
  have harts : Succeeds (World.exec x) (drainShards (max n m) artifactShardPk name) w
      fun _ => NoLonger w := drainShards_succeeds (fun _ => le_rfl) fun shard hshard =>
    lt_of_lt_of_le (hn shard hshard) (Nat.le_max_left n m)
  obtain ⟨_, w1, hrun, h1⟩ := alone_of_succeeds harts
  have htrees : Succeeds (World.exec x) (drainShards (max n m) treeShardPk name) w1
      fun _ => NoLonger w := drainShards_succeeds h1 fun shard hshard =>
    lt_of_lt_of_le (hm shard hshard) (Nat.le_max_right n m)
  obtain ⟨_, w2, hrun', -⟩ := alone_of_succeeds htrees
  exact ⟨_, w1, w2, hrun, hrun'⟩

/-- A drain can succeed. -/
theorem exists_drain_ok (x : Ext) (name : String) (w : World) :
    ∃ fuel w', Alone x (drainDeletingRepo fuel name) w (.ok ()) w' := by
  obtain ⟨fuel, w1, w2, harts, htrees⟩ := exists_drained x name w
  obtain ⟨_, w3, hdel, -⟩ := alone_of_succeeds (succeeds_kvDelete (x := x) (repoKey name) w2)
  exact ⟨fuel, w3, harts.bind (htrees.bind (hdel.bind (Runs.pure _ w3)))⟩

/-- A drain can fail. -/
theorem exists_drain_error (x : Ext) (name : String) (w : World) :
    ∃ fuel e w', Alone x (drainDeletingRepo fuel name) w (.error e) w' := by
  obtain ⟨fuel, w1, w2, harts, htrees⟩ := exists_drained x name w
  have hsolo : Solo (fun o _ s => World.exec x o false s) (kvDelete (repoKey name)) w2
      (.error (.storage true)) w2 := Solo.attempt_error rfl rfl
  have hdel : Alone x (kvDelete (repoKey name)) w2 (.error (.storage true)) w2 :=
    hsolo.yields fun o s s' r hx => ⟨false, trivial, hx⟩
  exact ⟨fuel, _, w2, harts.bind (htrees.bind (hdel.bind_error _))⟩

end

end Depot
