import Depot.Core.Paths
import Depot.Lib.Tally
import Depot.Service.Artifact
import Depot.Service.Listing

/-!
# Rebuilding the browse tree

`full_scan_repo` (`server/src/server/worker/update.rs`, lines 657–959), over a
repository that nothing else writes meanwhile: a scan is then a function of the world
and of the orders that the program leaves open (which shard is read first, how a hash map
is iterated).

Results:
* `scanPartition_eq`: the pages of a partition are its entries.
* `mem_ancestorDirs`: which directories an artifact counts for.
-/

namespace Depot

open Lib List

/-! ## Directory statistics -/

/-- What is accumulated for a directory: count, bytes, times. The numbers have 64 bits. -/
structure DirStat where
  count : UInt64
  bytes : UInt64
  modified : DateTime
  accessed : DateTime
  deriving DecidableEq

namespace DirStat

/-- The value an entry starts with. -/
def zero : DirStat := ⟨0, 0, unixEpoch, unixEpoch⟩

/-- Add counts and bytes, keep the later times. -/
def add (s s' : DirStat) : DirStat where
  count := s.count + s'.count
  bytes := s.bytes + s'.bytes
  modified := max s.modified s'.modified
  accessed := max s.accessed s'.accessed

/-- What one artifact contributes. -/
def ofRecord (record : ArtifactRecord) : DirStat :=
  ⟨1, UInt64.ofNat record.size, record.updatedAt, record.lastAccessedAt⟩

/-- The tree entry of the totals. -/
def entry (s : DirStat) : TreeEntry :=
  ⟨.dir s.count.toNat s.bytes.toNat, s.modified, s.accessed⟩

instance : Std.Associative add :=
  ⟨fun a b c => by simp only [add, UInt64.add_assoc, max_assoc]⟩

instance : Std.Commutative add :=
  ⟨fun a b => by simp only [add, UInt64.add_comm, max_comm]⟩

@[simp] theorem add_zero_zero : add zero zero = zero := rfl

end DirStat

/-- The steps of `ancestor_dirs`; each one shortens the path. -/
def ancestorDirsFrom : ℕ → List Char → List String
  | 0, _ => [""]
  | n + 1, remaining =>
      match (splitLast remaining).1 with
      | some parent => String.ofList parent :: ancestorDirsFrom n parent
      | none => [""]

/-- `ancestor_dirs` (lines 949–959). -/
def ancestorDirs (path : String) : List String :=
  ancestorDirsFrom path.toList.length path.toList

/-! ## The scans -/

section

variable (w : World)

/-- The loop over the pages of a partition. -/
def scanPages (part : Part) : ℕ → String → List (String × Value)
  | 0, _ => []
  | fuel + 1, start =>
      let result := w.scanRange part start none scanBatchSize
      if result.done then result.items
      else
        match result.items.getLast? with
        | some last => result.items ++ scanPages part fuel (cursorAfter last.1)
        | none => result.items

/-- All pages of a partition. No partition has more pages than entries. -/
def scanPartition (part : Part) : List (String × Value) :=
  scanPages w part ((w.kv part).entries.length + 1) ""

/-- `ShardScanResult`. -/
structure ShardScanResult where
  dirStats : HashMap String DirStat := ∅
  fileEntries : List (String × TreeEntry) := []

/-- What one artifact contributes to the directories above it (lines 858–874). -/
def dirContributions (path : String) (record : ArtifactRecord) : List (String × DirStat) :=
  (ancestorDirs path).map fun dir => (dir, DirStat.ofRecord record)

/-- One artifact of a shard (lines 837–875). -/
def visitArtifact (result : ShardScanResult) (e : String × Value) :
    Except DepotError ShardScanResult :=
  match e.2.artifact? with
  | none => .error (.storage false)
  | some record =>
      let sk := normalizePath e.1
      .ok {
        dirStats := tallyInto DirStat.add DirStat.zero result.dirStats (dirContributions sk record)
        fileEntries := result.fileEntries ++ [(sk, treeFileEntry record)] }

/-- `scan_artifact_shard` (lines 806–904). -/
def scanArtifactShard (repo : String) (shard : ℕ) : Except DepotError ShardScanResult :=
  (scanPartition w (artifactShardPk repo shard)).foldlM visitArtifact {}

/-- `scan_tree_shard` (lines 907–945). -/
def scanTreeShard (repo : String) (shard : ℕ) : List (Key × Value) :=
  (scanPartition w (treeShardPk repo shard)).map fun e => (⟨treeShardPk repo shard, e.1⟩, e.2)

end

/-- The orders in which the shards are finished and the hash maps are iterated. -/
structure ScanOrder where
  artifactShards : List ℕ
  artifactShards_perm : artifactShards.Perm (List.range numShards)
  treeShards : List ℕ
  treeShards_perm : treeShards.Perm (List.range numShards)
  hashed {α : Type} : List α → List α
  hashed_perm {α : Type} (l : List α) : (hashed l).Perm l

/-- The shards in ascending order. -/
def ScanOrder.ascending : ScanOrder where
  artifactShards := List.range numShards
  artifactShards_perm := Perm.refl _
  treeShards := List.range numShards
  treeShards_perm := Perm.refl _
  hashed l := l
  hashed_perm l := Perm.refl l

section

variable (x : Ext) (o : ScanOrder) (w : World) (repo : String)

/-- The key of a node of the tree (lines 717–718 and 725–726). -/
def nodeKey (path : String) : Key :=
  ⟨treeShardPk repo (x.shardOf (treeParent path)), treeSortKey path⟩

/-- One shard merged into the totals (lines 683–701). -/
def mergeShard (acc result : ShardScanResult) : ShardScanResult where
  dirStats := tallyInto DirStat.add DirStat.zero acc.dirStats (o.hashed (pairs result.dirStats))
  fileEntries := acc.fileEntries ++ result.fileEntries

/-- The scan of all artifacts (lines 676–701). -/
def scanArtifacts : Except DepotError ShardScanResult :=
  o.artifactShards.foldlM (fun acc shard =>
    (scanArtifactShard w repo shard).map (mergeShard o acc)) {}

/-- `expected` (lines 703–728): the directories, and the files over them. -/
def expectedEntries (result : ShardScanResult) : HashMap Key TreeEntry :=
  insertAll (result.fileEntries.map fun e => (nodeKey x repo e.1, e.2))
    (insertAll ((o.hashed (pairs result.dirStats)).map fun e => (nodeKey x repo e.1, e.2.entry)) ∅)

/-- `existing` (lines 733–749). -/
def existingEntries : HashMap Key Value :=
  o.treeShards.foldl (fun m shard => insertAll (scanTreeShard w repo shard) m) ∅

/-- `to_delete` (lines 751–756). -/
def staleKeys (expected : HashMap Key TreeEntry) (existing : HashMap Key Value) : List Key :=
  ((pairs existing).map Prod.fst).filter fun k => (expected.lookup k).isNone

/-- `to_write` (lines 758–763). -/
def changedEntries (expected : HashMap Key TreeEntry) (existing : HashMap Key Value) :
    List (Key × TreeEntry) :=
  (pairs expected).filter fun e => existing.lookup e.1 ≠ some (.tree e.2)

/-- `kv.delete_batch`. -/
def World.deleteBatch (w : World) (keys : List Key) : World :=
  keys.foldl (fun w k => w.setCell k (CellOp.remove.apply (w.cell k))) w

/-- `kv.put_batch`. -/
def World.putBatch (w : World) (entries : List (Key × TreeEntry)) : World :=
  entries.foldl (fun w e => w.setCell e.1 ((CellOp.put (Value.tree e.2)).apply (w.cell e.1))) w

/-- `full_scan_repo` (lines 669–801): the world it leaves, how many entries it has
    updated, and the totals of the repository. The batches are written one after the
    other. -/
def fullScanRepo : Except DepotError (World × ℕ × ℕ × ℕ) :=
  (scanArtifacts o w repo).map fun result =>
    let expected := expectedEntries x o repo result
    let existing := existingEntries o w repo
    let toDelete := staleKeys expected existing
    let toWrite := changedEntries expected existing
    let root := (result.dirStats.lookup "").getD DirStat.zero
    ((w.deleteBatch (o.hashed toDelete)).putBatch (o.hashed toWrite),
      toDelete.length + toWrite.length, root.count.toNat, root.bytes.toNat)

end

/-! ## The pages of a partition -/

theorem scanPages_eq {w : World} {part : Part} {fuel : ℕ} {start : String}
    (hf : (w.entriesFrom part start none).length < fuel) :
    scanPages w part fuel start = w.entriesFrom part start none := by
  induction fuel generalizing start with
  | zero => omega
  | succ fuel ih =>
    rw [scanPages]
    simp only [World.scanRange_done, World.scanRange_items, decide_eq_true_eq]
    split_ifs with hdone
    · exact take_of_length_le hdone
    · have hne : (w.entriesFrom part start none).take scanBatchSize ≠ [] := by
        intro hnil
        have hzero := congrArg List.length hnil
        rw [length_take, length_nil] at hzero
        have hpos : 0 < scanBatchSize := by decide
        omega
      have hlast := getLast?_eq_getLast_of_ne_nil hne
      have hrest := World.entriesFrom_cursorAfter hlast
      rw [hlast]
      dsimp only
      rw [ih, hrest, take_append_drop]
      rw [hrest, length_drop]
      have hpos : 0 < scanBatchSize := by decide
      omega

/-- The pages of a partition together are its entries. -/
theorem scanPartition_eq (w : World) (part : Part) :
    scanPartition w part = w.entriesFrom part "" none :=
  scanPages_eq (Nat.lt_succ_of_le World.length_entriesFrom_le)

theorem mem_scanPartition {w : World} {part : Part} {e : String × Value} :
    e ∈ scanPartition w part ↔ w.value ⟨part, e.1⟩ = some e.2 := by
  rw [scanPartition_eq, World.mem_entriesFrom]
  constructor
  · exact And.left
  · refine fun h => ⟨h, le_of_hasPrefix nil_prefix, fun _ hk => by cases hk⟩

/-! ## The directories above a path -/

theorem splitLast_slash {cs : List Char} : '/' ∉ (splitLast cs).2 := by
  intro h
  have hnot := mem_rtakeWhile_imp h
  simp at hnot

variable {d path : String}

theorem mem_ancestorDirsFrom {n : ℕ} {cs : List Char} (hn : cs.length ≤ n) :
    d ∈ ancestorDirsFrom n cs ↔ d = "" ∨ ∃ rest, cs = d.toList ++ '/' :: rest := by
  induction n generalizing cs with
  | zero =>
    obtain rfl := length_eq_zero_iff.mp (Nat.le_zero.mp hn)
    rw [ancestorDirsFrom, mem_singleton]
    refine ⟨.inl, fun h => h.resolve_right ?_⟩
    rintro ⟨rest, hrest⟩
    simp at hrest
  | succ n ih =>
    rw [ancestorDirsFrom]
    cases hparent : (splitLast cs).1 with
    | none =>
      rw [mem_singleton]
      refine ⟨.inl, fun h => h.resolve_right ?_⟩
      rintro ⟨rest, hrest⟩
      have hslash := @splitLast_slash cs
      rw [splitLast_none hparent, hrest] at hslash
      simp at hslash
    | some parent =>
      have hcs := splitLast_some hparent
      have hlen : parent.length ≤ n := by
        have hl := congrArg List.length hcs
        rw [length_append, length_cons] at hl
        omega
      rw [mem_cons, ih hlen]
      constructor
      · rintro (rfl | rfl | ⟨rest, hrest⟩)
        · exact .inr ⟨_, by rw [String.toList_ofList]; exact hcs⟩
        · exact .inl rfl
        · refine .inr ⟨rest ++ '/' :: (splitLast cs).2, ?_⟩
          rw [hrest] at hcs
          exact hcs.trans (by rw [append_assoc, cons_append])
      · rintro (rfl | ⟨rest, hrest⟩)
        · exact .inr (.inl rfl)
        · have hsplit : parent ++ '/' :: (splitLast cs).2 = d.toList ++ '/' :: rest := by
            rw [← hcs, hrest]
          rcases append_eq_append_iff.mp hsplit with ⟨as, has, hbs⟩ | ⟨as, has, hbs⟩
          · cases as with
            | nil =>
              left
              rw [append_nil] at has
              rw [← has, String.ofList_toList]
            | cons a as =>
              obtain ⟨rfl, hname⟩ := List.cons.inj hbs
              refine absurd ?_ (@splitLast_slash cs)
              rw [hname]
              exact mem_append_right _ mem_cons_self
          · cases as with
            | nil =>
              left
              rw [append_nil] at has
              rw [has, String.ofList_toList]
            | cons a as =>
              obtain ⟨rfl, -⟩ := List.cons.inj hbs
              exact .inr (.inr ⟨as, has⟩)

/-- An artifact counts for the root and for the directories that its path goes through. -/
theorem mem_ancestorDirs :
    d ∈ ancestorDirs path ↔ d = "" ∨ ∃ rest, path.toList = d.toList ++ '/' :: rest :=
  mem_ancestorDirsFrom le_rfl

theorem nodup_ancestorDirsFrom {n : ℕ} {cs : List Char} (hn : cs.length ≤ n)
    (hc : CleanChars cs) : (ancestorDirsFrom n cs).Nodup := by
  induction n generalizing cs with
  | zero => exact nodup_singleton _
  | succ n ih =>
    rw [ancestorDirsFrom]
    cases hparent : (splitLast cs).1 with
    | none => exact nodup_singleton _
    | some parent =>
      have hcs := splitLast_some hparent
      have hclean : CleanChars parent := by
        have hp := clean_parent hc
        rw [hparent] at hp
        exact hp
      have hlen : parent.length ≤ n := by
        have hl := congrArg List.length hcs
        rw [length_append, length_cons] at hl
        omega
      refine nodup_cons.mpr ⟨fun hmem => ?_, ih hlen hclean⟩
      rcases (mem_ancestorDirsFrom hlen).mp hmem with hnil | ⟨rest, hrest⟩
      · -- A clean path does not start with a slash.
        have hempty : parent = [] := by
          rw [← String.toList_ofList (l := parent), hnil]
          rfl
        rw [hempty] at hcs
        exact hc.head (by rw [hcs]; rfl)
      · rw [String.toList_ofList] at hrest
        have hl := congrArg List.length hrest
        rw [length_append, length_cons] at hl
        omega

/-- Each directory above a clean path is counted once. -/
theorem nodup_ancestorDirs (h : CleanPath path) : (ancestorDirs path).Nodup :=
  nodup_ancestorDirsFrom le_rfl h

end Depot
