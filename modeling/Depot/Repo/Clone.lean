import Depot.Core.Alone
import Depot.Core.KeyText
import Depot.Lib.Parts
import Depot.Service.Repo
import Depot.Service.Scan

/-!
# Copying and draining a repository

`clone_repo`, `copy_partition` and `drain_deleting_repo` (`core/src/service/repo.rs`, lines
185–386) go through the partitions of two tables, one task for each shard.

**Deviation.** The tasks of all shards run at once, where the source starts at most 64 of them at
a time; one that is dropped after the failure of another one is one whose next operation fails.
The entries of `put_batch` and `delete_batch` are written one at a time.
-/

namespace Depot

open Lib List
open Fallible (Uses uses_attempt uses_issue)

/-! ## The functions -/

/-- `kv.scan_prefix` with the empty prefix. -/
def kvScanAll (part : Part) (limit : ℕ) : Async ScanResult := kvScanRange part "" none limit

/-- `kv.put_batch`, one put at a time. -/
def kvPutBatch (entries : List (Key × Value)) : Async Unit :=
  Fallible.each (fun e => kvPut e.1 e.2) entries

/-- The loop of `copy_partition` (lines 284–315), from a cursor on: how many entries it has
    copied. -/
def copyPartition (src dst : Part) : ℕ → Option String → ℕ → Async ℕ
  | 0, _, _ => orPanic none
  | fuel + 1, cursor, copied => do
      let batch ← kvScanRange src (cursor.getD "") none scanBatchSize
      if batch.items = [] then pure copied
      else do
        kvPutBatch (batch.items.map fun e => (⟨dst, e.1⟩, e.2))
        if batch.done then pure (copied + batch.items.length)
        else
          copyPartition src dst fuel ((batch.items.getLast?.map fun e => cursorAfter e.1).or cursor)
            (copied + batch.items.length)

/-- What `cancel.is_cancelled()` answers during a clone: at the start of each shard of the two
    tables, and between the tables. A token that has been cancelled stays so. -/
structure CloneCancel where
  artifacts : ℕ → Bool
  between : Bool
  entries : ℕ → Bool
  stays : ∀ shard, artifacts shard = true → between = true
  stays' : between = true → ∀ shard, entries shard = true

/-- The copy of all shards of one table (lines 217–237, 250–264); `partOf` is
    `artifact_shard_pk` or `tree_shard_pk`. -/
def copyShards (fuel : ℕ) (cancelled : ℕ → Bool) (partOf : String → ℕ → Part)
    (source newName : String) : Async ℕ := do
  let counts ← Fallible.join ((List.range numShards).map fun shard =>
    if cancelled shard then pure 0
    else copyPartition (partOf source shard) (partOf newName shard) fuel none 0)
  pure counts.sum

/-- `CloneStats`. -/
structure CloneStats where
  copiedArtifacts : ℕ
  copiedEntries : ℕ

/-- `clone_repo` (lines 185–270). -/
def cloneRepo (fuel : ℕ) (cancel : CloneCancel) (source : RepoConfig) (newName : String) :
    Async (Option CloneStats) := do
  let _ ← utcNow
  let newConfig := { source with name := newName, deleting := false }
  let created ← kvPutIfAbsent (repoKey newName) (.repo newConfig)
  if created then do
    let copiedArtifacts ← copyShards fuel cancel.artifacts artifactShardPk source.name newName
    if cancel.between then throw (.internal "Clone cancelled")
    else do
      let copiedEntries ← copyShards fuel cancel.entries treeShardPk source.name newName
      pure (some ⟨copiedArtifacts, copiedEntries⟩)
  else pure none

/-- The loop of one shard of `drain_deleting_repo` (lines 325–346, 354–375). -/
def drainShard (part : Part) : ℕ → Async Unit
  | 0 => orPanic none
  | fuel + 1 => do
      let result ← kvScanAll part scanBatchSize
      if result.items = [] then pure ()
      else do
        let _ ← kvDeleteBatch (result.items.map fun e => (⟨part, e.1⟩ : Key))
        drainShard part fuel

/-- All shards of a repository or store are drained. -/
def drainShards (fuel : ℕ) (partOf : String → ℕ → Part) (name : String) : Async Unit := do
  let _ ← Fallible.join ((List.range numShards).map fun shard => drainShard (partOf name shard) fuel)
  pure ()

/-- `drain_deleting_repo` (lines 319–386). -/
def drainDeletingRepo (fuel : ℕ) (name : String) : Async Unit := do
  drainShards fuel artifactShardPk name
  drainShards fuel treeShardPk name
  let _ ← kvDelete (repoKey name)
  pure ()

/-! ## Some of the partitions -/

/-- The state with only some of the partitions. -/
def World.only (parts : List Part) (w : World) : World :=
  { w with kv := fun part => if part ∈ parts then w.kv part else SortedMap.empty }

variable {parts : List Part}

theorem World.only_kv {part : Part} (h : part ∈ parts) (w : World) :
    (w.only parts).kv part = w.kv part := if_pos h

theorem World.only_cell {k : Key} (h : k.part ∈ parts) (w : World) :
    (w.only parts).cell k = w.cell k := by
  rw [World.cell, World.only_kv h, World.cell]

theorem World.only_setCell {k : Key} (h : k.part ∈ parts) (w : World)
    (c : Option (Versioned Value)) : (w.setCell k c).only parts = (w.only parts).setCell k c := by
  unfold World.only World.setCell
  congr 1
  funext part
  by_cases hp : part = k.part
  · subst hp
    simp [h]
  · simp [Function.update_of_ne hp]

theorem World.only_setCell_of_notMem {k : Key} (h : k.part ∉ parts) (w : World)
    (c : Option (Versioned Value)) : (w.setCell k c).only parts = w.only parts := by
  unfold World.only World.setCell
  congr 1
  funext part
  split_ifs with hmem
  · have hp : part ≠ k.part := fun heq => h (heq ▸ hmem)
    exact Function.update_of_ne hp _ _
  · rfl

/-- An operation on some of the partitions. -/
def OnParts (parts : List Part) : Op → Prop
  | .stop => True
  | .poll => True
  | .read k => k.part ∈ parts
  | .write k _ => k.part ∈ parts
  | .scan part _ _ _ => part ∈ parts
  | _ => False

section

variable {x : Ext} {parts parts' : List Part} {o : Op}

/-- It works on these partitions only. -/
theorem OnParts.localOp (h : OnParts parts o) :
    LocalOp (World.exec x) (fun _ _ _ => True) (World.exec x) (fun _ _ _ => True)
      (World.only parts) o := by
  intro w b w' r _ hx
  refine ⟨trivial, ?_⟩
  cases o with
  | stop => cases hx
  | poll =>
    cases hx
    rfl
  | read k =>
    cases hx
    have hcell := w.only_cell h
    show some (w.only parts, if b then some ((w.only parts).cell k) else none) = _
    rw [hcell]
    rfl
  | write k c =>
    cases b with
    | false =>
      cases hx
      rfl
    | true =>
      cases hx
      have hcell := w.only_cell h
      show some ((w.only parts).setCell k (c.apply ((w.only parts).cell k)),
        some (c.enabled ((w.only parts).cell k), (w.only parts).value k)) = _
      rw [World.value, hcell, ← World.only_setCell h]
      rfl
  | scan part start stop limit =>
    cases hx
    have hkv := w.only_kv h
    show some (w.only parts,
      if b then some ((((w.only parts).kv part).page start stop limit).1.map
          fun e => (e.1, e.2.value), (((w.only parts).kv part).page start stop limit).2)
        else none) = _
    rw [hkv]
    rfl
  | _ => exact absurd h id

/-- It leaves other partitions alone. -/
theorem OnParts.blindOp (h : OnParts parts o) (hdisj : ∀ part ∈ parts, part ∉ parts') :
    BlindOp (World.exec x) (fun _ _ _ => True) (World.only parts') o := by
  intro w b w' r _ hx
  cases o with
  | stop => cases hx
  | write k c =>
    cases b with
    | false =>
      cases hx
      rfl
    | true =>
      cases hx
      exact World.only_setCell_of_notMem (hdisj _ h) w _
  | poll => cases hx; rfl
  | read k => cases hx; rfl
  | scan part start stop limit => cases hx; rfl
  | _ => exact absurd h id

/-- Joined functions that work on partitions of their own. -/
theorem alone_join_parts {ι α : Type} {f : ι → Async α} {partsOf : ι → List Part} {xs : List ι}
    {w w' : World} {as : List α} (hown : ∀ i ∈ xs, Uses (OnParts (partsOf i)) (f i))
    (hdisj : xs.Pairwise fun i j => ∀ part ∈ partsOf i, part ∉ partsOf j)
    (h : Alone x (Fallible.join (xs.map f)) w (.ok as) w') :
    Forall₂ (fun i a => Alone x (f i) (w.only (partsOf i)) (.ok a) (w'.only (partsOf i)))
      xs as := by
  have happort : Apportioned (World.exec x) (fun _ _ _ => True) (World.exec x)
      (fun _ _ _ => True) (fun i => World.only (partsOf i)) (fun i => (f i).run) xs := by
    refine ⟨fun i hi => (hown i hi).mono fun o ho => ho.localOp, ?_⟩
    refine (hdisj.imp_of_mem fun {i j} hi hj hij => ⟨?_, ?_⟩)
    · refine (hown j hj).mono fun o ho => ho.blindOp fun part hpart hmem => ?_
      exact hij part hmem hpart
    · exact (hown i hi).mono fun o ho => ho.blindOp hij
  exact yields_join_parts happort h

end

variable {cursor : Option String}

/-! ## Copying -/

section

variable {x : Ext} {v v' : World} {src dst part : Part}

variable {parts : List Part}

theorem onParts_kvScanRange (h : part ∈ parts) (start : String) (stop : Option String) (limit : ℕ) :
    Uses (OnParts parts) (kvScanRange part start stop limit) := uses_attempt h

theorem onParts_orPanic {α : Type} (a : Option α) : Uses (OnParts parts) (orPanic a) := by
  cases a with
  | some a => trivial
  | none => exact (uses_issue trivial).bind fun e => nomatch e

theorem onParts_kvPutBatch {entries : List (Key × Value)}
    (h : ∀ e ∈ entries, e.1.part ∈ parts) : Uses (OnParts parts) (kvPutBatch entries) :=
  Uses.each fun e he => uses_attempt (h e he)

theorem onParts_copyPartition (hsrc : src ∈ parts) (hdst : dst ∈ parts)
    (fuel : ℕ) (cursor : Option String) (copied : ℕ) :
    Uses (OnParts parts) (copyPartition src dst fuel cursor copied) := by
  induction fuel generalizing cursor copied with
  | zero => exact onParts_orPanic _
  | succ fuel ih =>
    refine (onParts_kvScanRange hsrc _ _ _).bind fun batch => ?_
    have hput : Uses (OnParts parts)
        (kvPutBatch (batch.items.map fun e => ((⟨dst, e.1⟩ : Key), e.2))) := by
      refine onParts_kvPutBatch fun e he => ?_
      obtain ⟨e', -, rfl⟩ := mem_map.mp he
      exact hdst
    split_ifs
    · trivial
    · exact hput.bind fun _ => trivial
    · exact hput.bind fun _ => ih _ _

/-- What a batch of puts leaves in a partition. -/
theorem alone_kvPutBatch {items : List (String × Value)} (hnd : (items.map Prod.fst).Nodup)
    (h : Alone x (kvPutBatch (items.map fun e => (⟨dst, e.1⟩, e.2))) v (.ok ()) v') :
    (∀ e ∈ items, v'.value ⟨dst, e.1⟩ = some e.2) ∧
      ∀ k : Key, (k.part = dst → k.sk ∉ items.map Prod.fst) → v'.cell k = v.cell k := by
  induction items generalizing v with
  | nil =>
    obtain ⟨-, rfl⟩ := yields_pure h
    exact ⟨fun _ h => absurd h not_mem_nil, fun _ _ => rfl⟩
  | cons e items ih =>
    rw [map_cons, nodup_cons] at hnd
    obtain ⟨_, v1, hput, hrest⟩ := yields_bind_ok h
    rcases alone_write hput with ⟨-, hr⟩ | ⟨rfl, -⟩
    · exact absurd rfl (hr _)
    · obtain ⟨hitems, hother⟩ := ih hnd.2 hrest
      refine ⟨fun e' he' => ?_, fun k hk => ?_⟩
      · rcases mem_cons.mp he' with rfl | he'
        · rw [World.value, hother _ fun _ => hnd.1, World.cell_setCell_self]
          rfl
        · exact hitems e' he'
      · rw [hother k fun hp hmem => hk hp (mem_cons_of_mem _ hmem)]
        refine World.cell_setCell_of_ne (fun heq => ?_) _
        rw [heq] at hk
        exact hk rfl mem_cons_self

/-- The values of a partition after those of a page of another one have been put there. -/
theorem value_of_page {start : String} {limit : ℕ}
    (hput : (∀ e ∈ ((v.kv src).page start none limit).1.map (fun e => (e.1, e.2.value)),
      v'.value ⟨dst, e.1⟩ = some e.2) ∧ ∀ k : Key, (k.part = dst →
      k.sk ∉ (((v.kv src).page start none limit).1.map (fun e => (e.1, e.2.value))).map Prod.fst) →
        v'.cell k = v.cell k) {sk : String}
    (hpage : start ≤ sk → ∀ c, v.cell ⟨src, sk⟩ = some c →
      (sk, c) ∈ ((v.kv src).page start none limit).1) :
    v'.value ⟨dst, sk⟩ =
      if start ≤ sk ∧ (v.cell ⟨src, sk⟩).isSome then v.value ⟨src, sk⟩ else v.value ⟨dst, sk⟩ := by
  obtain ⟨hitems, hother⟩ := hput
  split_ifs with hc
  · obtain ⟨c, hcell⟩ := Option.isSome_iff_exists.mp hc.2
    have hmem := mem_map_of_mem (f := fun e => (e.1, e.2.value)) (hpage hc.1 c hcell)
    rw [hitems _ hmem, World.value, hcell]
    rfl
  · refine congrArg (Option.map Versioned.value) (hother _ fun _ hmem => hc ?_)
    rw [map_map] at hmem
    obtain ⟨e, he, rfl⟩ := mem_map.mp hmem
    obtain ⟨hget, hle⟩ := SortedMap.page_subset he
    exact ⟨hle, Option.isSome_iff_exists.mpr ⟨e.2, hget⟩⟩

/-- What `copy_partition` leaves: the entries of the source from the cursor on are there in the
    target, and everything else is as it was. -/
theorem alone_copyPartition (hne : src ≠ dst) {fuel copied n : ℕ}
    (h : Alone x (copyPartition src dst fuel cursor copied) v (.ok n) v') :
    (∀ k : Key, k.part ≠ dst → v'.cell k = v.cell k) ∧
      ∀ sk, v'.value ⟨dst, sk⟩ =
        if cursor.getD "" ≤ sk ∧ (v.cell ⟨src, sk⟩).isSome then v.value ⟨src, sk⟩
        else v.value ⟨dst, sk⟩ := by
  induction fuel generalizing cursor copied v with
  | zero =>
    obtain ⟨e, -, -, -⟩ := yields_bind_ok h
    cases e
  | succ fuel ih =>
    obtain ⟨batch, v1, hscan, hrest⟩ := yields_bind_ok h
    obtain ⟨rfl, hbatch⟩ := alone_kvScanRange hscan
    obtain ⟨hitems, hdone⟩ := hbatch batch rfl
    by_cases hempty : batch.items = []
    · rw [if_pos hempty] at hrest
      obtain ⟨-, rfl⟩ := yields_pure hrest
      refine ⟨fun _ _ => rfl, fun sk => ?_⟩
      rw [hitems, map_eq_nil_iff, SortedMap.page, take_eq_nil_iff] at hempty
      have hrange := hempty.resolve_left (show ¬scanBatchSize = 0 by decide)
      rw [if_neg]
      rintro ⟨hle, hsome⟩
      obtain ⟨c, hc⟩ := Option.isSome_iff_exists.mp hsome
      have hmem : (sk, c) ∈ (v'.kv src).range (cursor.getD "") none :=
        SortedMap.mem_range.mpr ⟨SortedMap.mem_entries_iff.mpr hc, hle, by rintro _ ⟨⟩⟩
      rw [hrange] at hmem
      cases hmem
    · rw [if_neg hempty] at hrest
      obtain ⟨_, v2, hput, hgo⟩ := yields_bind_ok hrest
      have hnd : (batch.items.map Prod.fst).Nodup := by
        rw [hitems, map_map]
        exact nodup_keys_of_sorted ((v1.kv src).page_sorted _ _ _)
      have hputs := alone_kvPutBatch hnd hput
      have hother : ∀ k : Key, k.part ≠ dst → v2.cell k = v1.cell k :=
        fun k hk => hputs.2 k fun hp => absurd hp hk
      rw [hitems] at hputs
      cases hd : batch.done with
      | true =>
        rw [hd, if_pos rfl] at hgo
        obtain ⟨-, rfl⟩ := yields_pure hgo
        refine ⟨hother, fun sk => value_of_page hputs fun hle c hc => ?_⟩
        exact SortedMap.page_done (hdone.symm.trans hd) hc hle (by rintro _ ⟨⟩)
      | false =>
        rw [hd, if_neg Bool.false_ne_true] at hgo
        obtain ⟨last, hlast⟩ := SortedMap.page_getLast (show 0 < scanBatchSize by decide)
          (hdone.symm.trans hd)
        have hcursor : ((batch.items.getLast?.map fun e => cursorAfter e.1).or cursor) =
            some (cursorAfter last.1) := by
          rw [hitems, getLast?_map, hlast]
          rfl
        rw [hcursor] at hgo
        obtain ⟨hother', hvalue⟩ := ih hgo
        refine ⟨fun k hk => (hother' k hk).trans (hother k hk), fun sk => ?_⟩
        have hsame : v2.cell ⟨src, sk⟩ = v1.cell ⟨src, sk⟩ := hother _ hne
        have hstart : cursor.getD "" ≤ last.1 :=
          (SortedMap.page_subset (mem_of_getLast? hlast)).2
        rw [hvalue, hsame, World.value, hsame, Option.getD_some]
        by_cases hafter : cursorAfter last.1 ≤ sk
        · have hlt := cursorAfter_le_iff.mp hafter
          have hnot : v2.value ⟨dst, sk⟩ = v1.value ⟨dst, sk⟩ := by
            refine congrArg (Option.map Versioned.value) (hputs.2 _ fun _ hmem => ?_)
            rw [map_map] at hmem
            obtain ⟨e, he, hek⟩ := mem_map.mp hmem
            have hle := SortedMap.le_of_getLast ((v1.kv src).page_sorted _ _ _) hlast he
            have hsk : e.1 = sk := hek
            rw [hsk] at hle
            exact absurd hle (not_le.mpr hlt)
          rw [hnot]
          simp only [hafter, hstart.trans hlt.le, true_and]
          rfl
        · rw [if_neg fun hc => hafter hc.1]
          refine value_of_page hputs fun hle c hc => ?_
          refine SortedMap.mem_page_of_le hlast hc hle ?_
          exact not_lt.mp fun hlt => hafter (cursorAfter_le_iff.mpr hlt)

/-- A copy of a partition onto itself changes no value. -/
theorem alone_copyPartition_self {fuel copied n : ℕ}
    (h : Alone x (copyPartition part part fuel cursor copied) v (.ok n) v') (k : Key) :
    v'.value k = v.value k := by
  induction fuel generalizing cursor copied v with
  | zero =>
    obtain ⟨e, -, -, -⟩ := yields_bind_ok h
    exact nomatch e
  | succ fuel ih =>
    obtain ⟨batch, v1, hscan, hrest⟩ := yields_bind_ok h
    obtain ⟨rfl, hbatch⟩ := alone_kvScanRange hscan
    obtain ⟨hitems, -⟩ := hbatch batch rfl
    by_cases hempty : batch.items = []
    · rw [if_pos hempty] at hrest
      obtain ⟨-, rfl⟩ := yields_pure hrest
      rfl
    · rw [if_neg hempty] at hrest
      obtain ⟨_, v2, hput, hgo⟩ := yields_bind_ok hrest
      have hnd : (batch.items.map Prod.fst).Nodup := by
        rw [hitems, map_map]
        exact nodup_keys_of_sorted ((v1.kv part).page_sorted _ _ _)
      obtain ⟨hput, hother⟩ := alone_kvPutBatch hnd hput
      have hsame : v2.value k = v1.value k := by
        by_cases hk : k.part = part ∧ k.sk ∈ batch.items.map Prod.fst
        · obtain ⟨rfl, hmem⟩ := hk
          obtain ⟨e, he, hsk⟩ := mem_map.mp hmem
          have hvalue := hput e he
          rw [hitems] at he
          obtain ⟨e', he', rfl⟩ := mem_map.mp he
          have hcell : v1.cell k = some e'.2 := by
            have hget := (SortedMap.page_subset he').1
            have hsk' : e'.1 = k.sk := hsk
            rw [hsk'] at hget
            exact hget
          rw [hsk] at hvalue
          rw [hvalue, World.value, hcell]
          rfl
        · exact congrArg (Option.map Versioned.value) (hother k fun hp hmem => hk ⟨hp, hmem⟩)
      rw [← hsame]
      cases hd : batch.done with
      | true =>
        rw [hd, if_pos rfl] at hgo
        obtain ⟨-, rfl⟩ := yields_pure hgo
        rfl
      | false =>
        rw [hd, if_neg Bool.false_ne_true] at hgo
        exact ih hgo

end

/-! ## What stays -/

section

variable {k : Key} {α : Type}

theorem leavesCell_orPanic (a : Option α) : Uses (LeavesCell k) (orPanic a) := by
  cases a with
  | some a => trivial
  | none => exact (uses_issue (leavesCell_of_effect rfl)).bind fun e => nomatch e

theorem leavesCell_kvScanRange (part : Part) (start : String) (stop : Option String) (limit : ℕ) :
    Uses (LeavesCell k) (kvScanRange part start stop limit) :=
  uses_attempt (leavesCell_of_effect rfl)

theorem leavesCell_copyPartition {src dst : Part} (h : k.part ≠ dst) (fuel : ℕ)
    (cursor : Option String) (copied : ℕ) :
    Uses (LeavesCell k) (copyPartition src dst fuel cursor copied) := by
  induction fuel generalizing cursor copied with
  | zero => exact leavesCell_orPanic _
  | succ fuel ih =>
    refine (leavesCell_kvScanRange _ _ _ _).bind fun batch => ?_
    have hput : Uses (LeavesCell k)
        (kvPutBatch (batch.items.map fun e => ((⟨dst, e.1⟩ : Key), e.2))) := by
      refine Uses.each fun e he => uses_attempt (leavesCell_write ?_ _)
      obtain ⟨e', -, rfl⟩ := mem_map.mp he
      intro heq
      exact h (congrArg Key.part heq.symm)
    split_ifs
    · trivial
    · exact hput.bind fun _ => trivial
    · exact hput.bind fun _ => ih _ _

theorem leavesCell_kvDeleteBatch {ks : List Key} (h : k ∉ ks) :
    Uses (LeavesCell k) (kvDeleteBatch ks) := by
  refine Uses.fold fun _ k' hk' => ?_
  refine Uses.bind (uses_attempt (leavesCell_write ?_ _)) fun _ => trivial
  rintro rfl
  exact h hk'

theorem leavesCell_drainShard {part : Part} (h : k.part ≠ part) (fuel : ℕ) :
    Uses (LeavesCell k) (drainShard part fuel) := by
  induction fuel with
  | zero => exact leavesCell_orPanic _
  | succ fuel ih =>
    refine (leavesCell_kvScanRange _ _ _ _).bind fun result => ?_
    split_ifs
    · trivial
    · refine (leavesCell_kvDeleteBatch fun hmem => ?_).bind fun _ => ih
      obtain ⟨e, -, rfl⟩ := mem_map.mp hmem
      exact h rfl

end

/-! ## All shards -/

/-- The partitions of a table: `artifact_shard_pk` or `tree_shard_pk`. -/
def Shards (partOf : String → ℕ → Part) : Prop :=
  ∀ r s r' s', partOf r s = partOf r' s' → r = r' ∧ s = s'

theorem shards_artifactShardPk : Shards artifactShardPk := by
  intro r s r' s' h
  cases h
  exact ⟨rfl, rfl⟩

theorem shards_treeShardPk : Shards treeShardPk := by
  intro r s r' s' h
  cases h
  exact ⟨rfl, rfl⟩

theorem treeShardPk_ne_artifactShardPk (r r' : String) (s s' : ℕ) :
    treeShardPk r s ≠ artifactShardPk r' s' := by
  intro h
  cases h

section

variable {x : Ext} {v v' : World} {partOf : String → ℕ → Part} {source newName name : String}
variable {cancelled : ℕ → Bool} {fuel : ℕ}

theorem copyShards_leaves {k : Key} (h : ∀ shard < numShards, cancelled shard = false →
      k.part ≠ partOf newName shard) :
    Uses (LeavesCell k) (copyShards fuel cancelled partOf source newName) := by
  refine Uses.bind (Uses.join fun p hp => ?_) fun _ => trivial
  obtain ⟨shard, hshard, rfl⟩ := mem_map.mp hp
  split_ifs with hc
  · trivial
  · exact leavesCell_copyPartition
      (h shard (List.mem_range.mp hshard) (Bool.not_eq_true _ ▸ hc)) _ _ _

theorem exists_of_forall₂ {α β : Type} {P : α → β → Prop} {xs : List α} {ys : List β}
    (h : Forall₂ P xs ys) {a : α} (ha : a ∈ xs) : ∃ b, P a b := by
  induction h with
  | nil => cases ha
  | @cons a' b xs ys hab _ ih =>
    rcases mem_cons.mp ha with rfl | ha
    · exact ⟨b, hab⟩
    · exact ih ha

theorem alone_copyShards (hparts : Shards partOf) {n : ℕ}
    (h : Alone x (copyShards fuel cancelled partOf source newName) v (.ok n) v') {shard : ℕ}
    (hshard : shard < numShards) (hc : cancelled shard = false) (sk : String) :
    v'.value ⟨partOf newName shard, sk⟩ =
      if (v.cell ⟨partOf source shard, sk⟩).isSome then v.value ⟨partOf source shard, sk⟩
      else v.value ⟨partOf newName shard, sk⟩ := by
  obtain ⟨counts, v1, hjoin, hpure⟩ := yields_bind_ok h
  obtain ⟨-, rfl⟩ := yields_pure hpure
  have hown : ∀ i ∈ List.range numShards, Uses (OnParts [partOf source i, partOf newName i])
        (if cancelled i then pure 0
          else copyPartition (partOf source i) (partOf newName i) fuel none 0) := by
    intro i _
    split_ifs
    · trivial
    · exact onParts_copyPartition (by simp) (by simp) _ _ _
  have hdisj : (List.range numShards).Pairwise fun i j =>
      ∀ part ∈ [partOf source i, partOf newName i], part ∉ [partOf source j, partOf newName j] := by
    refine nodup_range.imp fun {i j} hij part hpart hpart' => ?_
    simp only [mem_cons, not_mem_nil, or_false] at hpart hpart'
    rcases hpart with rfl | rfl
    · exact hpart'.elim (fun h => hij (hparts _ _ _ _ h).2) fun h => hij (hparts _ _ _ _ h).2
    · exact hpart'.elim (fun h => hij (hparts _ _ _ _ h).2) fun h => hij (hparts _ _ _ _ h).2
  have hall := alone_join_parts hown hdisj hjoin
  obtain ⟨a, ha⟩ := exists_of_forall₂ hall (List.mem_range.mpr hshard)
  rw [hc, if_neg Bool.false_ne_true] at ha
  have hvalue : (v'.only [partOf source shard, partOf newName shard]).value
      ⟨partOf newName shard, sk⟩ = if "" ≤ sk ∧ ((v.only [partOf source shard,
        partOf newName shard]).cell ⟨partOf source shard, sk⟩).isSome then
          (v.only [partOf source shard, partOf newName shard]).value ⟨partOf source shard, sk⟩
        else (v.only [partOf source shard, partOf newName shard]).value
          ⟨partOf newName shard, sk⟩ := by
    by_cases hname : source = newName
    · subst hname
      rw [ite_self]
      exact alone_copyPartition_self ha _
    · exact (alone_copyPartition (fun h => hname (hparts _ _ _ _ h).1) ha).2 sk
  have hle : "" ≤ sk := le_of_hasPrefix (List.nil_prefix (l := sk.toList))
  rw [World.value, World.only_cell (by simp), World.value, World.only_cell (by simp), World.value,
    World.only_cell (by simp)] at hvalue
  simpa only [World.value, hle, true_and] using hvalue

end

end Depot
