import Depot.Repo.Drain

/-!
# Exact clones and drains

A clone has the entries of its source and no others, and a drain removes all entries of its
repository and no others.

**Deviation.** `clone_repo` looks at the cancellation token before each shard, and again after
the artifact records, but not after the directory entries: when it is cancelled there, the
shards that are left are skipped and the clone is reported as complete. Entries that are left
over under the new name from before are not removed.

Results:
* `cloneRepo_succeeds`: a clone comes to its end.
* `clones_exact_iff`: when clones and drains are exact.
-/

namespace Depot

open Lib

/-! ## What they are for -/

/-- The target has the entries that the partitions of the source had, and no others. -/
def SameEntries (partOf : String → ℕ → Part) (source newName : String) (w w' : World) : Prop :=
  ∀ shard < numShards, ∀ sk,
    w'.value ⟨partOf newName shard, sk⟩ = w.value ⟨partOf source shard, sk⟩

/-- A clone that is reported as complete has the artifacts and the directory entries of its
    source, each in the shard it has there, and no others. -/
def CloneExact (x : Ext) (cancel : CloneCancel) (source : RepoConfig) (newName : String)
    (w : World) : Prop :=
  ∀ fuel stats w', Alone x (cloneRepo fuel cancel source newName) w (.ok (some stats)) w' →
    SameEntries artifactShardPk source.name newName w w' ∧
      SameEntries treeShardPk source.name newName w w'

/-- A drain that succeeds leaves no artifact and no directory entry of its repository, the entry
    of its root with its statistics among them, and no configuration; and whether it succeeds or
    not, it touches nothing of another repository. -/
def DrainExact (x : Ext) (name : String) (w : World) : Prop :=
  ∀ fuel r w', Alone x (drainDeletingRepo fuel name) w r w' →
    (r = .ok () → w'.Drained name) ∧
      ∀ other ≠ name, ∀ k : Key, k.OwnedBy other → w'.cell k = w.cell k

/-- A shard comes out right: it is copied, and what was there under the new name is overwritten;
    or it is skipped, and what was there is what would have been copied. -/
def ShardFits (partOf : String → ℕ → Part) (source newName : String) (w : World) (cancelled : Bool)
    (shard : ℕ) : Prop :=
  if cancelled then
    ∀ sk, w.value ⟨partOf newName shard, sk⟩ = w.value ⟨partOf source shard, sk⟩
  else
    ∀ sk, (w.value ⟨partOf newName shard, sk⟩).isSome → (w.value ⟨partOf source shard, sk⟩).isSome

/-- The clone is not reported as complete, or every shard of the two tables comes out right. -/
def CloneFits (cancel : CloneCancel) (source newName : String) (w : World) : Prop :=
  (w.cell (repoKey newName)).isSome ∨ cancel.between = true ∨
    ∀ shard < numShards, ShardFits artifactShardPk source newName w false shard ∧
      ShardFits treeShardPk source newName w (cancel.entries shard) shard

variable {partOf : String → ℕ → Part}

/-! ## Copies come to their end -/

section

variable {x : Ext} {w : World} {src dst part : Part}

theorem succeeds_kvPut (k : Key) (value : Value) (w : World) :
    Succeeds (World.exec x) (kvPut k value) w fun _ w' =>
      w' = w.setCell k ((CellOp.put value).apply (w.cell k)) :=
  Succeeds.attempt rfl rfl rfl

/-- A copy between two partitions leaves the others as they are. -/
theorem copyPartition_succeeds (hne : src ≠ dst) {fuel copied : ℕ} {cursor : Option String}
    (hfuel : (w.entriesFrom src (cursor.getD "") none).length < fuel) :
    Succeeds (World.exec x) (copyPartition src dst fuel cursor copied) w fun _ w' =>
      ∀ part, part ≠ dst → w'.kv part = w.kv part := by
  induction fuel generalizing w cursor copied with
  | zero => omega
  | succ fuel ih =>
    refine (succeeds_kvScanRange src _ none _ w).bind ?_
    rintro batch w1 ⟨rfl, rfl⟩
    rw [World.scanRange_items, World.scanRange_done]
    have hput : Succeeds (World.exec x)
        (kvPutBatch (((w1.entriesFrom src (cursor.getD "") none).take scanBatchSize).map
          fun e => ((⟨dst, e.1⟩ : Key), e.2))) w1 fun _ w' =>
        ∀ part, part ≠ dst → w'.kv part = w1.kv part := by
      refine Succeeds.each (fun e he w hw => ?_) fun _ _ => rfl
      obtain ⟨e', -, rfl⟩ := List.mem_map.mp he
      refine (succeeds_kvPut _ _ w).mono ?_
      rintro _ w' rfl part hpart
      exact (kv_setCell_of_ne hpart _).trans (hw part hpart)
    split_ifs with hempty hdone
    · exact Succeeds.pure fun _ _ => rfl
    · exact hput.bind fun _ w2 h2 => Succeeds.pure h2
    · refine hput.bind fun _ w2 h2 => ?_
      have hlast := List.getLast?_eq_getLast_of_ne_nil hempty
      rw [hlast, Option.map_some, Option.some_or]
      have hrest := World.entriesFrom_cursorAfter hlast
      have hsame : ∀ start, w2.entriesFrom src start none = w1.entriesFrom src start none := by
        intro start
        rw [World.entriesFrom, h2 src hne, World.entriesFrom]
      have hlong : scanBatchSize < (w1.entriesFrom src (cursor.getD "") none).length := by
        simpa using hdone
      refine (ih ?_).mono fun _ w3 h3 part hpart => (h3 part hpart).trans (h2 part hpart)
      rw [Option.getD_some, hsame, hrest, List.length_drop]
      have hpos : 0 < scanBatchSize := by decide
      omega

/-- The copy of all shards of a table leaves the partitions that are not under the new name. -/
theorem copyShards_succeeds (hparts : Shards partOf)
    {source newName : String} (hne : source ≠ newName) {cancelled : ℕ → Bool} {fuel : ℕ}
    (hfuel : ∀ shard < numShards, (w.kv (partOf source shard)).entries.length < fuel) :
    Succeeds (World.exec x) (copyShards fuel cancelled partOf source newName) w fun _ w' =>
      ∀ part, (∀ shard, part ≠ partOf newName shard) → w'.kv part = w.kv part := by
  refine Succeeds.bind (Succeeds.join (I := fun w' =>
    ∀ part, (∀ shard, part ≠ partOf newName shard) → w'.kv part = w.kv part)
    (fun shard hshard w1 h1 => ?_) fun _ _ => rfl) fun _ _ h => Succeeds.pure h
  split_ifs
  · exact Succeeds.pure h1
  · have hsrc : ∀ shard', partOf source shard ≠ partOf newName shard' :=
      fun shard' h => hne (hparts _ _ _ _ h).1
    have hlen : (w1.entriesFrom (partOf source shard) ((none : Option String).getD "") none).length <
        fuel := by
      refine lt_of_le_of_lt World.length_entriesFrom_le ?_
      rw [h1 _ hsrc]
      exact hfuel shard (List.mem_range.mp hshard)
    refine (copyPartition_succeeds (hsrc shard) hlen).mono fun _ w2 h2 part hpart => ?_
    exact (h2 part (hpart shard)).trans (h1 part hpart)

/-- A clone of a repository under a free name that is not cancelled before the directory entries
    is reported as complete. -/
theorem cloneRepo_succeeds {cancel : CloneCancel} {source : RepoConfig} {newName : String}
    (hne : source.name ≠ newName) (hfree : w.cell (repoKey newName) = none)
    (hbetween : cancel.between = false) :
    ∃ fuel stats w', Alone x (cloneRepo fuel cancel source newName) w (.ok (some stats)) w' := by
  obtain ⟨n, hn⟩ := exists_bound (artifactShardPk source.name) w
  obtain ⟨m, hm⟩ := exists_bound (treeShardPk source.name) w
  have hrun : Succeeds (World.exec x) (cloneRepo (max n m) cancel source newName) w
      fun r _ => r.isSome := by
    refine Succeeds.bind (Succeeds.issue rfl rfl : Succeeds (World.exec x) utcNow w
      fun _ w' => w' = w) ?_
    rintro now w1 rfl
    have hput : Succeeds (World.exec x) (kvPutIfAbsent (repoKey newName)
        (.repo { source with name := newName, deleting := false })) w1 fun created w' =>
        created = true ∧ ∀ part, part ≠ (repoKey newName).part → w'.kv part = w1.kv part := by
      refine Succeeds.attempt rfl rfl ⟨?_, fun part hpart => kv_setCell_of_ne hpart _⟩
      rw [hfree]
      rfl
    refine hput.bind ?_
    rintro created w2 ⟨rfl, h2⟩
    rw [if_pos rfl]
    refine (copyShards_succeeds shards_artifactShardPk hne fun shard hshard => ?_).bind
      fun a w3 h3 => ?_
    · rw [h2 (artifactShardPk _ _) fun h => nomatch congrArg Part.table h]
      exact lt_of_lt_of_le (hn shard hshard) (Nat.le_max_left n m)
    · rw [hbetween, if_neg Bool.false_ne_true]
      refine (copyShards_succeeds shards_treeShardPk hne fun shard hshard => ?_).bind
        fun _ _ _ => Succeeds.pure rfl
      have hsame : w3.kv (treeShardPk source.name shard) = w1.kv (treeShardPk source.name shard) :=
        (h3 _ fun _ => treeShardPk_ne_artifactShardPk _ _ _ _).trans
          (h2 _ fun h => nomatch congrArg Part.table h)
      rw [hsame]
      exact lt_of_lt_of_le (hm shard hshard) (Nat.le_max_right n m)
  obtain ⟨r, w', hrun, hr⟩ := alone_of_succeeds hrun
  obtain ⟨stats, rfl⟩ := Option.isSome_iff_exists.mp hr
  exact ⟨_, stats, w', hrun⟩

end

/-! ## When a clone is exact -/

section

variable {x : Ext} {w : World} {cancel : CloneCancel} {source : RepoConfig} {newName : String}

/-- What a clone that is reported as complete has done. -/
theorem alone_cloneRepo {fuel : ℕ} {stats : CloneStats} {w' : World}
    (h : Alone x (cloneRepo fuel cancel source newName) w (.ok (some stats)) w') :
    w.cell (repoKey newName) = none ∧ cancel.between = false ∧ ∀ shard < numShards, ∀ sk,
      w'.value ⟨artifactShardPk newName shard, sk⟩ =
        (if (w.cell ⟨artifactShardPk source.name shard, sk⟩).isSome then
          w.value ⟨artifactShardPk source.name shard, sk⟩
        else w.value ⟨artifactShardPk newName shard, sk⟩) ∧
      w'.value ⟨treeShardPk newName shard, sk⟩ =
        if cancel.entries shard then w.value ⟨treeShardPk newName shard, sk⟩
        else if (w.cell ⟨treeShardPk source.name shard, sk⟩).isSome then
          w.value ⟨treeShardPk source.name shard, sk⟩
        else w.value ⟨treeShardPk newName shard, sk⟩ := by
  obtain ⟨now, w1, hnow, hrest⟩ := yields_bind_ok h
  obtain rfl := alone_utcNow hnow
  obtain ⟨created, w2, hput, hrest⟩ := yields_bind_ok hrest
  have hcreated : (∀ k, k ≠ repoKey newName → w2.cell k = w1.cell k) ∧
      (created = true → w1.cell (repoKey newName) = none) := by
    rcases alone_write hput with ⟨-, hr⟩ | ⟨rfl, hr⟩
    · exact absurd rfl (hr created)
    · refine ⟨fun k hk => World.cell_setCell_of_ne hk _, fun hc => ?_⟩
      have henabled := (Except.ok.inj hr).symm.trans hc
      cases hcell : w1.cell (repoKey newName) with
      | none => rfl
      | some c =>
        rw [hcell] at henabled
        cases henabled
  obtain ⟨hother, hfree⟩ := hcreated
  cases created with
  | false =>
    obtain ⟨hr, -⟩ := yields_pure hrest
    cases hr
  | true =>
    rw [if_pos rfl] at hrest
    obtain ⟨a, w3, harts, hrest⟩ := yields_bind_ok hrest
    cases hbetween : cancel.between with
    | true =>
      rw [hbetween, if_pos rfl] at hrest
      obtain ⟨hr, -⟩ := yields_throw hrest
      cases hr
    | false =>
      rw [hbetween, if_neg Bool.false_ne_true] at hrest
      obtain ⟨b, w4, htree, hpure⟩ := yields_bind_ok hrest
      obtain ⟨-, rfl⟩ := yields_pure hpure
      have hnot : ∀ shard, cancel.artifacts shard = false := fun shard => by
        cases hc : cancel.artifacts shard with
        | false => rfl
        | true => exact absurd (cancel.stays shard hc) (by simp [hbetween])
      have hart : ∀ (r : String) (shard : ℕ) (sk : String),
          w2.cell ⟨artifactShardPk r shard, sk⟩ = w1.cell ⟨artifactShardPk r shard, sk⟩ :=
        fun r shard sk => hother _ fun h => nomatch congrArg (fun k => k.part.table) h
      have htree' : ∀ (r : String) (shard : ℕ) (sk : String),
          w3.cell ⟨treeShardPk r shard, sk⟩ = w1.cell ⟨treeShardPk r shard, sk⟩ := by
        intro r shard sk
        rw [alone_leavesCell (copyShards_leaves fun _ _ _ =>
          treeShardPk_ne_artifactShardPk _ _ _ _) harts]
        exact hother _ fun h => nomatch congrArg (fun k => k.part.table) h
      refine ⟨hfree rfl, rfl, fun shard hshard sk => ⟨?_, ?_⟩⟩
      · have hlast : w'.cell ⟨artifactShardPk newName shard, sk⟩ =
            w3.cell ⟨artifactShardPk newName shard, sk⟩ :=
          alone_leavesCell (copyShards_leaves fun _ _ _ =>
            (treeShardPk_ne_artifactShardPk _ _ _ _).symm) htree
        have hcopy := alone_copyShards shards_artifactShardPk harts hshard (hnot shard) sk
        rw [World.value, hlast]
        simpa only [World.value, hart] using hcopy
      · cases hc : cancel.entries shard with
        | true =>
          have hlast : w'.cell ⟨treeShardPk newName shard, sk⟩ =
              w3.cell ⟨treeShardPk newName shard, sk⟩ := by
            refine alone_leavesCell (copyShards_leaves fun shard' _ hc' h => ?_) htree
            rw [← (shards_treeShardPk _ _ _ _ h).2, hc] at hc'
            cases hc'
          rw [if_pos rfl, World.value, hlast, htree']
          rfl
        | false =>
          have hcopy := alone_copyShards shards_treeShardPk htree hshard hc sk
          rw [if_neg Bool.false_ne_true]
          simpa only [World.value, htree'] using hcopy

/-- A copied entry: it is the one of the source exactly if nothing else was there. -/
theorem copied_eq_iff (part part' : Part) (sk : String) :
    (if (w.cell ⟨part, sk⟩).isSome then w.value ⟨part, sk⟩ else w.value ⟨part', sk⟩) =
        w.value ⟨part, sk⟩ ↔
      ((w.value ⟨part', sk⟩).isSome → (w.value ⟨part, sk⟩).isSome) := by
  rw [World.value, World.value]
  cases w.cell ⟨part, sk⟩ <;> cases w.cell ⟨part', sk⟩ <;> simp

theorem shardFits_iff {source : String} {cancelled : Bool}
    {shard : ℕ} {w' : World} (h : ∀ sk, w'.value ⟨partOf newName shard, sk⟩ =
      if cancelled then w.value ⟨partOf newName shard, sk⟩
      else if (w.cell ⟨partOf source shard, sk⟩).isSome then w.value ⟨partOf source shard, sk⟩
      else w.value ⟨partOf newName shard, sk⟩) :
    ShardFits partOf source newName w cancelled shard ↔
      ∀ sk, w'.value ⟨partOf newName shard, sk⟩ = w.value ⟨partOf source shard, sk⟩ := by
  unfold ShardFits
  cases cancelled with
  | true =>
    rw [if_pos rfl]
    exact forall_congr' fun sk => by rw [h sk, if_pos rfl]
  | false =>
    rw [if_neg Bool.false_ne_true]
    refine forall_congr' fun sk => ?_
    rw [h sk, if_neg Bool.false_ne_true]
    exact (copied_eq_iff _ _ sk).symm

/-- A repository that is copied onto itself comes out right. -/
theorem cloneFits_self (cancel : CloneCancel) (name : String) (w : World) :
    CloneFits cancel name name w := by
  refine .inr (.inr fun shard _ => ⟨fun _ h => h, ?_⟩)
  unfold ShardFits
  split_ifs
  · exact fun _ => rfl
  · exact fun _ h => h

theorem cloneExact_iff :
    CloneExact x cancel source newName w ↔ CloneFits cancel source.name newName w := by
  constructor
  · intro h
    by_cases hname : source.name = newName
    · rw [hname]
      exact cloneFits_self cancel newName w
    by_cases hfree : w.cell (repoKey newName) = none
    · cases hbetween : cancel.between with
      | true => exact .inr (.inl hbetween)
      | false =>
        obtain ⟨fuel, stats, w', hrun⟩ := cloneRepo_succeeds (x := x) hname hfree hbetween
        obtain ⟨-, -, hdone⟩ := alone_cloneRepo hrun
        obtain ⟨harts, htree⟩ := h fuel stats w' hrun
        refine .inr (.inr fun shard hshard => ⟨?_, ?_⟩)
        · exact (shardFits_iff fun sk => (hdone shard hshard sk).1).mpr (harts shard hshard)
        · exact (shardFits_iff fun sk => (hdone shard hshard sk).2).mpr (htree shard hshard)
    · exact .inl (Option.isSome_iff_ne_none.mpr hfree)
  · rintro h fuel stats w' hrun
    obtain ⟨hfree, hbetween, hdone⟩ := alone_cloneRepo hrun
    rcases h with htaken | hcancelled | hfits
    · rw [hfree] at htaken
      cases htaken
    · rw [hbetween] at hcancelled
      cases hcancelled
    · refine ⟨fun shard hshard => ?_, fun shard hshard => ?_⟩
      · exact (shardFits_iff fun sk => (hdone shard hshard sk).1).mp (hfits shard hshard).1
      · exact (shardFits_iff fun sk => (hdone shard hshard sk).2).mp (hfits shard hshard).2

end

/-! ## Clones and drains -/

theorem drainExact (x : Ext) (name : String) (w : World) : DrainExact x name w := by
  intro fuel r w' h
  refine ⟨?_, fun other hne k hk => alone_drainDeletingRepo_other hne h hk⟩
  rintro rfl
  exact alone_drainDeletingRepo h

/-- **Main theorem.** Clones and drains are exact, whatever the repository contains, whatever the
    names are and whichever operations fail, exactly when the new name is taken, or the clone is
    cancelled before the directory entries, or every shard comes out right: what is left over
    under the new name is overwritten, and no shard with something to copy is skipped. -/
theorem clones_exact_iff (x : Ext) (cancel : CloneCancel) (source : RepoConfig) (newName : String)
    (w : World) : (CloneExact x cancel source newName w ∧ ∀ name, DrainExact x name w) ↔
      CloneFits cancel source.name newName w :=
  ⟨fun h => cloneExact_iff.mp h.1,
    fun h => ⟨cloneExact_iff.mpr h, fun name => drainExact x name w⟩⟩

/-! ## A clone that is cancelled late -/

/-- A repository with one directory entry. -/
def oneEntry : World :=
  World.setCell { now := 0 } (treeEntryKey Ext.sample.shardOf "a" "d")
    (some ⟨1, .tree ⟨.dir 1 1, 0, 0⟩⟩)

/-- The token is cancelled after the artifact records. -/
def cancelledLate : CloneCancel where
  artifacts _ := false
  between := false
  entries _ := true
  stays _ h := h
  stays' h := by cases h

/-- **Counterexample.** The clone is reported as complete, and has no directory entry. -/
theorem late_cancel_loses_entries :
    ¬CloneExact Ext.sample cancelledLate ⟨"a", .hosted, .raw, false, "s", none, none, false⟩ "b"
      oneEntry := by
  intro h
  rcases cloneExact_iff.mp h with htaken | hcancelled | hfits
  · revert htaken
    decide +kernel
  · cases hcancelled
  · have hskipped := (hfits 0 (by decide)).2 (treeEntryKey Ext.sample.shardOf "a" "d").sk
    revert hskipped
    decide +kernel

end Depot
