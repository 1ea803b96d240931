import Depot.Service.Artifact

/-!
# Bulk deletes

Deleting a directory of a repository with everything below it
(`server/src/server/worker/bulk_delete.rs`): first its tree entries, then the
artifact records shard by shard, and last one update for all of them.
-/

namespace Depot

open Lib

section

variable (x : Ext)

/-! ## Tree entries -/

/-- The directories among the children of a page. -/
def childDirs (clean : String) (items : List (String × Value)) : List String :=
  items.filterMap fun e =>
    match e.2.tree? with
    | some ⟨.dir .., _, _⟩ =>
        some (if clean = "" then treeSkName e.1 else clean ++ "/" ++ treeSkName e.1)
    | _ => none

/-- The files among the children of a page. -/
def childFiles (items : List (String × Value)) : List String :=
  items.filterMap fun e =>
    match e.2.tree? with
    | some ⟨.file .., _, _⟩ => some e.1
    | _ => none

/-- The loop over the children of a directory (lines 154–204): the files are
    deleted and the directories collected. -/
def deleteChildFiles (repo clean : String) : ℕ → String → List String → Async (List String)
  | 0, _, _ => orPanic none
  | fuel + 1, start, dirs => do
      let part := treeShardPk repo (x.shardOf clean)
      let result ← kvScanRange part start (some (treeChildrenSkEnd clean)) 1000
      let items := result.items.takeWhile fun e => e.1.startsWith (treeChildrenSkPrefix clean)
      let dirs' := dirs ++ childDirs clean items
      if childFiles items ≠ [] then
        Fallible.ignore (kvDeleteBatch ((childFiles items).map (⟨part, ·⟩)))
      if result.done then pure dirs'
      else
        match result.items.getLast? with
        | some e => deleteChildFiles repo clean fuel (cursorAfter e.1) dirs'
        | none => pure dirs'

/-- `delete_tree_recursive` (lines 141–216). -/
def deleteTreeRecursive (repo : String) : ℕ → String → Async Unit
  | 0, _ => orPanic none
  | fuel + 1, dirPath => do
      let clean := String.ofList (dirPath.toList.rdropWhile (· = '/'))
      let childDirs ← deleteChildFiles x repo clean fuel (treeChildrenSkPrefix clean) []
      Fallible.each (deleteTreeRecursive repo fuel) childDirs
      Fallible.ignore (kvDelete (treeEntryKey x.shardOf repo clean))

/-! ## Artifact records -/

/-- `ArtifactTotals`. -/
structure ArtifactTotals where
  count : ℕ
  bytes : ℕ

/-- The sum of several totals. -/
def ArtifactTotals.sum (ts : List ArtifactTotals) : ArtifactTotals where
  count := (ts.map ArtifactTotals.count).sum
  bytes := (ts.map ArtifactTotals.bytes).sum

/-- The records of a page that lie under the prefix and decode. -/
def prefixRecords (pfx : String) (items : List (String × Value)) :
    List (String × ArtifactRecord) :=
  (items.takeWhile fun e => e.1.startsWith pfx).filterMap fun e =>
    e.2.artifact?.map fun r => (e.1, r)

/-- The message of a cancelled task. -/
def bulkDeleteCancelled : String := "Bulk delete cancelled"

/-- One shard of `count_prefix_artifacts` (lines 247–297). -/
def countShard (part : Part) (pfx : String) : ℕ → String → ArtifactTotals → Async ArtifactTotals
  | 0, _, _ => orPanic none
  | fuel + 1, start, t => do
      checkCancelled bulkDeleteCancelled
      let result ← kvScanRange part start none 1000
      let records := prefixRecords pfx result.items
      let t' : ArtifactTotals :=
        ⟨t.count + records.length, t.bytes + (records.map fun e => e.2.size).sum⟩
      if result.items.any (fun e => !e.1.startsWith pfx) || result.done then pure t'
      else
        match result.items.getLast? with
        | some e => countShard part pfx fuel (cursorAfter e.1) t'
        | none => pure t'

/-- `count_prefix_artifacts` (lines 228–310). -/
def countPrefixArtifacts (fuel : ℕ) (repo pfx : String) : Async ArtifactTotals := do
  let ts ← Fallible.join ((List.range numShards).map fun shard =>
    countShard (artifactShardPk repo shard) pfx fuel pfx ⟨0, 0⟩)
  pure (ArtifactTotals.sum ts)

/-- One shard of `delete_prefix_artifacts` (lines 338–403). -/
def deleteShard (part : Part) (pfx : String) : ℕ → String → ArtifactTotals → Async ArtifactTotals
  | 0, _, _ => orPanic none
  | fuel + 1, start, t => do
      checkCancelled bulkDeleteCancelled
      let result ← kvScanRange part start none 1000
      let records := prefixRecords pfx result.items
      if records ≠ [] then
        Fallible.ignore (kvDeleteBatch (records.map fun e => (⟨part, e.1⟩ : Key)))
      let t' : ArtifactTotals :=
        ⟨t.count + records.length, t.bytes + (records.map fun e => e.2.size).sum⟩
      let pastPrefix := result.items.getLast?.any fun e => !e.1.startsWith pfx
      if result.done || pastPrefix then pure t'
      else
        match result.items.getLast? with
        | some e => deleteShard part pfx fuel (cursorAfter e.1) t'
        | none => pure t'

/-- `delete_prefix_artifacts` (lines 315–412). -/
def deletePrefixArtifacts (fuel : ℕ) (repo pfx : String) : Async ArtifactTotals := do
  let ts ← Fallible.join ((List.range numShards).map fun shard =>
    deleteShard (artifactShardPk repo shard) pfx fuel pfx ⟨0, 0⟩)
  pure (ArtifactTotals.sum ts)

/-! ## The operation -/

/-- The prefix with a slash at its end (lines 49–53). -/
def prefixWithSlash (pfx : String) : String := if pfx.endsWith "/" then pfx else pfx ++ "/"

/-- The path for which `bulk_delete` sends its update. -/
def bulkDeleteSentinel (pfx : String) : String := prefixWithSlash pfx ++ "__bulk_delete_sentinel"

/-- `bulk_delete` (lines 39–133). -/
def bulkDelete (fuel : ℕ) (repo pfx : String) : Async ArtifactTotals := do
  let pfxSlash := prefixWithSlash pfx
  deleteTreeRecursive x repo fuel pfx
  checkCancelled bulkDeleteCancelled
  let _ ← countPrefixArtifacts fuel repo pfxSlash
  checkCancelled bulkDeleteCancelled
  let deleted ← deletePrefixArtifacts fuel repo pfxSlash
  if 0 < deleted.count then
    dirChanged repo (bulkDeleteSentinel pfx) (-deleted.count) (-deleted.bytes)
  pure deleted

/-! ## What the functions may change -/

variable {x} {es : List Effect}

theorem effects_deleteChildFiles (h : Effect.table .dirEntries ∈ es) (repo clean : String)
    (fuel : ℕ) (start : String) (dirs : List String) :
    Effects es (deleteChildFiles x repo clean fuel start dirs) := by
  induction fuel generalizing start dirs with
  | zero => exact effects_orPanic _
  | succ fuel ih =>
    refine (effects_kvScanRange _ _ _ _).bind fun result => ?_
    have hnext : ∀ dirs', Effects es (if result.done then pure dirs' else
        match result.items.getLast? with
        | some e => deleteChildFiles x repo clean fuel (cursorAfter e.1) dirs'
        | none => pure dirs') := by
      intro dirs'
      split_ifs
      · exact effects_pure _
      · cases result.items.getLast? with
        | some e => exact ih _ _
        | none => exact effects_pure _
    have hfiles : ∀ files : List String, Effects es (Fallible.ignore (kvDeleteBatch
        (files.map fun sk => (⟨treeShardPk repo (x.shardOf clean), sk⟩ : Key)))) := by
      refine fun files => Effects.ignore (effects_kvDeleteBatch fun k hk => ?_)
      obtain ⟨sk, _, rfl⟩ := List.mem_map.mp hk
      exact h
    exact Effects.when (hfiles _) fun _ => hnext _

theorem effects_deleteTreeRecursive (h : Effect.table .dirEntries ∈ es) (repo : String)
    (fuel : ℕ) (dirPath : String) : Effects es (deleteTreeRecursive x repo fuel dirPath) := by
  induction fuel generalizing dirPath with
  | zero => exact effects_orPanic _
  | succ fuel ih =>
    refine (effects_deleteChildFiles h _ _ _ _ _).bind fun childDirs => ?_
    exact (Effects.each fun dir _ => ih dir).bind fun _ => (effects_kvDelete h).ignore

theorem effects_countShard (part : Part) (pfx : String) (fuel : ℕ) (start : String)
    (t : ArtifactTotals) : Effects es (countShard part pfx fuel start t) := by
  induction fuel generalizing start t with
  | zero => exact effects_orPanic _
  | succ fuel ih =>
    refine (effects_checkCancelled _).bind fun _ => (effects_kvScanRange _ _ _ _).bind fun result => ?_
    dsimp only
    split_ifs
    · exact effects_pure _
    · cases result.items.getLast? with
      | some e => exact ih _ _
      | none => exact effects_pure _

theorem effects_countPrefixArtifacts (fuel : ℕ) (repo pfx : String) :
    Effects es (countPrefixArtifacts fuel repo pfx) :=
  (Effects.join fun _ _ => effects_countShard _ _ _ _ _).bind fun _ => effects_pure _

end

end Depot
