import Depot.Tree.FullScan
import Mathlib.Data.List.Dedup

/-!
# The rebuilt tree

What the artifacts of a repository say about its browse tree, and when
`full_scan_repo` leaves that tree. A tree key holds one entry, so a path that is both
a file and a directory cannot have both. The totals of a directory are sums of 64 bits.

Results:
* `full_scan_exact`: a rebuild leaves exactly the nodes that the artifacts make, and a
  second one changes nothing, if and only if no two nodes share a key and the totals fit.
* `Rebuilt.exact`: without the last condition, the totals are those modulo 2^64.
-/

namespace Depot

open Lib List
open Option (isSome_iff_exists map_none map_some)

/-! ## The nodes -/

/-- `path` lies below the directory `dir`. -/
def Below (dir path : String) : Prop := dir = "" ∨ ∃ rest, path.toList = dir.toList ++ '/' :: rest

instance (dir path : String) : Decidable (Below dir path) :=
  decidable_of_iff (dir = "" ∨ dir.toList ++ ['/'] <+: path.toList) <| or_congr_right <| by
    constructor
    · rintro ⟨rest, hrest⟩
      exact ⟨rest, by rw [← hrest, append_assoc, singleton_append]⟩
    · rintro ⟨rest, hrest⟩
      exact ⟨rest, by rw [hrest, append_assoc, singleton_append]⟩

section

variable (arts : List (String × ArtifactRecord))

/-- The artifacts below a directory. -/
def recordsBelow (dir : String) : List ArtifactRecord :=
  (arts.filter fun e => Below dir (normalizePath e.1)).map Prod.snd

/-- The entry of a directory: how many artifacts lie below it, how large they are
    together, and the latest times. -/
def dirEntry (dir : String) : TreeEntry where
  kind := .dir (recordsBelow arts dir).length ((recordsBelow arts dir).map (·.size)).sum
  lastModifiedAt := ((recordsBelow arts dir).map (·.updatedAt)).foldl max unixEpoch
  lastAccessedAt := ((recordsBelow arts dir).map (·.lastAccessedAt)).foldl max unixEpoch

/-- One file for each artifact. -/
def treeFiles : List (String × TreeEntry) :=
  arts.map fun e => (normalizePath e.1, treeFileEntry e.2)

/-- One directory for each path that an artifact lies below. -/
def treeDirs : List (String × TreeEntry) :=
  (arts.flatMap fun e => ancestorDirs (normalizePath e.1)).dedup.map fun d => (d, dirEntry arts d)

/-- The nodes of the tree of the artifacts. -/
def treeNodes : List (String × TreeEntry) := treeFiles arts ++ treeDirs arts

/-- The number of the artifacts and their bytes fit into 64 bits. -/
def TotalsFit : Prop := arts.length < 2 ^ 64 ∧ (arts.map fun e => e.2.size).sum < 2 ^ 64

instance : Decidable (TotalsFit arts) := inferInstanceAs (Decidable (_ ∧ _))

/-- The entry that a rebuild makes for a directory. -/
def scannedEntry (dir : String) : TreeEntry :=
  { dirEntry arts dir with
    kind := .dir ((recordsBelow arts dir).length % 2 ^ 64)
      (((recordsBelow arts dir).map (·.size)).sum % 2 ^ 64) }

/-- The directories that a full scan writes. -/
def scannedDirs : List (String × TreeEntry) :=
  (arts.flatMap fun e => ancestorDirs (normalizePath e.1)).dedup.map fun d =>
    (d, scannedEntry arts d)

/-- The nodes that a rebuild makes. -/
def scannedNodes : List (String × TreeEntry) := treeFiles arts ++ scannedDirs arts

end

section

variable (x : Ext) (w : World) (repo : String)

/-- The keys of the nodes. -/
def nodeKeys (arts : List (String × ArtifactRecord)) : List Key :=
  (treeNodes arts).map fun n => nodeKey x repo n.1

/-- The tree table of a repository. -/
def World.treeTable : List (Key × Value) := (List.range numShards).flatMap (scanTreeShard w repo)

/-- The artifact table of a repository holds artifact records. -/
def World.ArtifactsDecode : Prop :=
  ∀ shard < numShards, ∀ sk v, w.value ⟨artifactShardPk repo shard, sk⟩ = some v →
    v.artifact?.isSome = true

/-- The tree table consists of these nodes. -/
def TreeHas (nodes : List (String × TreeEntry)) : Prop :=
  (w.treeTable repo).Perm (nodes.map fun n => (nodeKey x repo n.1, Value.tree n.2))

/-- The tree table is the one that the artifacts make. -/
def TreeExact (arts : List (String × ArtifactRecord)) : Prop := TreeHas x w repo (treeNodes arts)

/-- A rebuild leaves exactly the nodes that the artifacts make, and a second one finds
    nothing to change. -/
def RebuildsExactly : Prop :=
  ∀ o, ∃ w' updates count bytes, fullScanRepo x o w repo = .ok (w', updates, count, bytes) ∧
    TreeExact x w' repo (w.artifactsOf repo) ∧
    ∀ o', fullScanRepo x o' w' repo = .ok (w', 0, count, bytes)

end

/-! ## Directory totals -/

section

variable {arts arts' : List (String × ArtifactRecord)}

/-- What the artifacts contribute to the directories. -/
def allContributions (arts : List (String × ArtifactRecord)) : List (String × DirStat) :=
  arts.flatMap fun e => dirContributions (normalizePath e.1) e.2

theorem contributions_one (path : String) (record : ArtifactRecord) (dir : String)
    (hp : CleanPath path) : contributions (dirContributions path record) dir =
      if Below dir path then [DirStat.ofRecord record] else [] := by
  have hkeys : (dirContributions path record).map Prod.fst = ancestorDirs path := by
    rw [dirContributions, map_map]
    exact map_id _
  split_ifs with hb
  · refine contributions_nodup ?_ (mem_map.mpr ⟨dir, mem_ancestorDirs.mpr hb, rfl⟩)
    rw [hkeys]
    exact nodup_ancestorDirs hp
  · have hnot : dir ∉ (dirContributions path record).map Prod.fst := by
      rw [hkeys]
      exact fun h => hb (mem_ancestorDirs.mp h)
    rw [contributions, map_eq_nil_iff, filter_eq_nil_iff]
    exact fun e he heq => hnot (mem_map.mpr ⟨e, he, of_decide_eq_true heq⟩)

/-- Each artifact below a directory contributes to it once. -/
theorem contributions_all (arts : List (String × ArtifactRecord)) (dir : String) :
    contributions (allContributions arts) dir = (recordsBelow arts dir).map DirStat.ofRecord := by
  induction arts with
  | nil => rfl
  | cons e arts ih =>
    have hcons : allContributions (e :: arts) =
        dirContributions (normalizePath e.1) e.2 ++ allContributions arts := rfl
    rw [hcons, contributions_append, ih, contributions_one _ _ _ (clean_normalizePath _),
      recordsBelow, recordsBelow, filter_cons]
    by_cases hb : Below dir (normalizePath e.1)
    · rw [if_pos hb, if_pos (decide_eq_true hb)]
      rfl
    · rw [if_neg hb, if_neg (by simpa using hb)]
      rfl

theorem foldl_ofRecord (rs : List ArtifactRecord) (s : DirStat) :
    (rs.map DirStat.ofRecord).foldl DirStat.add s =
      ⟨s.count + UInt64.ofNat rs.length, s.bytes + UInt64.ofNat (rs.map (·.size)).sum,
        (rs.map (·.updatedAt)).foldl max s.modified,
        (rs.map (·.lastAccessedAt)).foldl max s.accessed⟩ := by
  induction rs generalizing s with
  | nil => simp
  | cons r rs ih =>
    rw [map_cons, foldl_cons, ih]
    simp only [DirStat.add, DirStat.ofRecord, length_cons, map_cons, sum_cons,
      foldl_cons, DirStat.mk.injEq, and_true, UInt64.ofNat_add, UInt64.add_assoc]
    rw [UInt64.add_comm (UInt64.ofNat rs.length)]
    rfl

section

variable (arts : List (String × ArtifactRecord))

theorem total_eq (dir : String) : total DirStat.add DirStat.zero (allContributions arts) dir =
      ⟨UInt64.ofNat (recordsBelow arts dir).length,
        UInt64.ofNat ((recordsBelow arts dir).map (·.size)).sum,
        ((recordsBelow arts dir).map (·.updatedAt)).foldl max unixEpoch,
        ((recordsBelow arts dir).map (·.lastAccessedAt)).foldl max unixEpoch⟩ := by
  rw [total, contributions_all, foldl_ofRecord]
  simp only [DirStat.zero, UInt64.zero_add]

/-- The totals of a directory make its entry. -/
theorem total_entry (dir : String) :
    (total DirStat.add DirStat.zero (allContributions arts) dir).entry = scannedEntry arts dir := by
  rw [total_eq]
  rfl

/-- All artifacts lie below the root. -/
theorem recordsBelow_root : recordsBelow arts "" = arts.map Prod.snd := by
  rw [recordsBelow, filter_eq_self.mpr fun e _ => decide_eq_true (.inl rfl)]

theorem allContributions_keys : (allContributions arts).map Prod.fst =
      arts.flatMap fun e => ancestorDirs (normalizePath e.1) := by
  rw [allContributions, map_flatMap]
  refine flatMap_congr fun e _ => ?_
  rw [dirContributions, map_map]
  exact map_id _

end

/-! ## The order of the artifacts -/

theorem allContributions_perm (h : arts.Perm arts') :
    (allContributions arts).Perm (allContributions arts') := h.flatMap_right _

theorem scannedEntry_perm (h : arts.Perm arts') (dir : String) :
    scannedEntry arts dir = scannedEntry arts' dir := by
  rw [← total_entry, ← total_entry, total_perm (allContributions_perm h)]

/-- The nodes do not depend on the order of the artifacts. -/
theorem scannedNodes_perm (h : arts.Perm arts') :
    (scannedNodes arts).Perm (scannedNodes arts') := by
  have hdirs : (scannedDirs arts).Perm (scannedDirs arts') := by
    have hentry : (fun d => (d, scannedEntry arts d)) = fun d => (d, scannedEntry arts' d) :=
      funext fun d => by rw [scannedEntry_perm h]
    unfold scannedDirs
    rw [hentry]
    exact (h.flatMap_right _).dedup.map _
  exact (h.map _).append hdirs

/-- Sums that fit are not cut off. -/
theorem scannedNodes_eq (h : TotalsFit arts) : scannedNodes arts = treeNodes arts := by
  have hentry : scannedEntry arts = dirEntry arts := by
    funext dir
    have hbelow : (recordsBelow arts dir).Sublist (arts.map Prod.snd) := filter_sublist.map _
    have hlength := hbelow.length_le
    have hsum := (hbelow.map (·.size)).sum_le_sum fun _ _ => Nat.zero_le _
    rw [length_map] at hlength
    rw [map_map] at hsum
    rw [scannedEntry, Nat.mod_eq_of_lt (hlength.trans_lt h.1), Nat.mod_eq_of_lt (hsum.trans_lt h.2)]
    rfl
  rw [scannedNodes, scannedDirs, hentry]
  rfl

end

variable {acc result : ShardScanResult}

variable {es : List (String × Value)} {part : Part} {w' : World}

/-! ## The scan of the artifacts -/

section

variable {x : Ext} {o : ScanOrder} {w : World} {repo : String}

/-- A result of scanning `arts`. -/
structure Scanned (result : ShardScanResult) (arts : List (String × ArtifactRecord)) : Prop where
  stats : IsTally DirStat.add DirStat.zero result.dirStats (allContributions arts)
  files : result.fileEntries = treeFiles arts

/-- The result after some more artifacts. -/
def gathered (acc : ShardScanResult) (arts : List (String × ArtifactRecord)) :
    ShardScanResult where
  dirStats := tallyInto DirStat.add DirStat.zero acc.dirStats (allContributions arts)
  fileEntries := acc.fileEntries ++ treeFiles arts

theorem treeFiles_append (arts arts' : List (String × ArtifactRecord)) :
    treeFiles (arts ++ arts') = treeFiles arts ++ treeFiles arts' := map_append

theorem allContributions_append (arts arts' : List (String × ArtifactRecord)) :
    allContributions (arts ++ arts') = allContributions arts ++ allContributions arts' :=
  flatMap_append

theorem gathered_nil (acc : ShardScanResult) : gathered acc [] = acc := by
  have hfiles : acc.fileEntries ++ treeFiles [] = acc.fileEntries := append_nil _
  rw [gathered, hfiles]
  rfl

theorem gathered_append (acc : ShardScanResult) (arts arts' : List (String × ArtifactRecord)) :
    gathered acc (arts ++ arts') = gathered (gathered acc arts) arts' := by
  unfold gathered
  dsimp only
  rw [allContributions_append, treeFiles_append, tallyInto, tallyInto, tallyInto,
    List.foldl_append, append_assoc]

theorem visitArtifact_ok {e : String × Value} {r : ArtifactRecord} (h : e.2.artifact? = some r)
    (acc : ShardScanResult) : visitArtifact acc e = .ok (gathered acc [(e.1, r)]) := by
  have hone : allContributions [(e.1, r)] = dirContributions (normalizePath e.1) r := by
    rw [allContributions, flatMap_singleton]
  unfold visitArtifact gathered
  rw [h, hone, treeFiles, map_singleton]

theorem visitArtifact_fold (hd : ∀ e ∈ es, e.2.artifact?.isSome = true) (acc : ShardScanResult) :
    es.foldlM visitArtifact acc = .ok (gathered acc (es.filterMap (listed Value.artifact?))) := by
  induction es generalizing acc with
  | nil => exact congrArg Except.ok (gathered_nil acc).symm
  | cons e es ih =>
    obtain ⟨r, hr⟩ := isSome_iff_exists.mp (hd e mem_cons_self)
    have hl : listed Value.artifact? e = some (e.1, r) := by rw [listed, hr, map_some]
    have hrest := ih (fun e' he' => hd e' (mem_cons_of_mem _ he')) (gathered acc [(e.1, r)])
    rw [← gathered_append, singleton_append] at hrest
    rw [foldlM_cons, visitArtifact_ok hr, filterMap_cons_some hl, ← hrest]
    rfl

/-- A value that does not decode ends the scan. -/
theorem visitArtifact_fails {e : String × Value} (he : e ∈ es)
    (hd : e.2.artifact? = none) (acc : ShardScanResult) :
    ∃ err, es.foldlM visitArtifact acc = .error err := by
  induction es generalizing acc with
  | nil => cases he
  | cons e' es ih =>
    rw [foldlM_cons]
    cases hstep : visitArtifact acc e' with
    | error err => exact ⟨err, rfl⟩
    | ok acc' =>
      rcases mem_cons.mp he with rfl | he
      · rw [visitArtifact, hd] at hstep
        cases hstep
      · exact ih he acc'

theorem World.shardEntries_eq (w : World) (repo : String) (shard : ℕ) :
    w.shardEntries repo shard = scanPartition w (artifactShardPk repo shard) := by
  rw [scanPartition_eq, shardEntries, matching]
  exact filter_eq_self.mpr fun e _ => hasPrefix_empty e.1

/-- The artifacts of a shard. -/
def World.shardArtifacts (w : World) (repo : String) (shard : ℕ) :
    List (String × ArtifactRecord) :=
  (w.shardEntries repo shard).filterMap (listed Value.artifact?)

/-- The scan of a shard finds its artifacts. -/
theorem scanArtifactShard_ok (h : w.ArtifactsDecode repo) {shard : ℕ} (hs : shard < numShards) :
    ∃ result, scanArtifactShard w repo shard = .ok result ∧
      Scanned result (w.shardArtifacts repo shard) := by
  have hd : ∀ e ∈ w.shardEntries repo shard, e.2.artifact?.isSome = true :=
    fun e he => h shard hs e.1 e.2 (World.mem_shardEntries.mp he)
  refine ⟨gathered {} (w.shardArtifacts repo shard), ?_, ?_⟩
  · rw [scanArtifactShard, ← World.shardEntries_eq]
    exact visitArtifact_fold hd {}
  · exact ⟨isTally_tally _, nil_append _⟩

theorem Scanned.nil : Scanned {} [] := ⟨fun _ => rfl, rfl⟩

/-- Merging a shard adds its artifacts. -/
theorem Scanned.merge {arts arts' : List (String × ArtifactRecord)}
    (h : Scanned acc arts) (h' : Scanned result arts') :
    Scanned (mergeShard o acc result) (arts ++ arts') := by
  refine ⟨?_, ?_⟩
  · rw [allContributions_append]
    exact lookup_merge DirStat.add_zero_zero h.stats h'.stats (o.hashed_perm _)
  · show acc.fileEntries ++ result.fileEntries = _
    rw [h.files, h'.files, treeFiles_append]

variable {arts : List (String × ArtifactRecord)}

theorem scanShards_ok (h : w.ArtifactsDecode repo) {shards : List ℕ}
    (hs : ∀ shard ∈ shards, shard < numShards)
    (ha : Scanned acc arts) : ∃ result, shards.foldlM (fun acc shard =>
        (scanArtifactShard w repo shard).map (mergeShard o acc)) acc = .ok result ∧
      Scanned result (arts ++ shards.flatMap (w.shardArtifacts repo)) := by
  induction shards generalizing acc arts with
  | nil =>
    refine ⟨acc, rfl, ?_⟩
    rw [flatMap_nil, append_nil]
    exact ha
  | cons shard shards ih =>
    obtain ⟨result, hscan, hr⟩ := scanArtifactShard_ok h (hs shard mem_cons_self)
    rw [foldlM_cons, hscan, flatMap_cons, ← append_assoc]
    exact ih (fun s hin => hs s (mem_cons_of_mem _ hin)) (ha.merge hr)

/-- The scan finds all artifacts of the repository, in some order. -/
theorem scanArtifacts_ok (h : w.ArtifactsDecode repo) (o : ScanOrder) :
    ∃ result arts, scanArtifacts o w repo = .ok result ∧ Scanned result arts ∧
      arts.Perm (w.artifactsOf repo) := by
  have hs : ∀ shard ∈ o.artifactShards, shard < numShards :=
    fun shard hin => List.mem_range.mp (o.artifactShards_perm.mem_iff.mp hin)
  obtain ⟨result, hscan, hr⟩ := scanShards_ok (o := o) h hs Scanned.nil
  exact ⟨result, _, hscan, hr, o.artifactShards_perm.flatMap_right _⟩

/-- The scan fails where a record does not decode. -/
theorem scanArtifacts_fails (h : ¬ w.ArtifactsDecode repo) (o : ScanOrder) :
    ∃ err, scanArtifacts o w repo = .error err := by
  simp only [World.ArtifactsDecode, not_forall, exists_prop] at h
  obtain ⟨shard, hs, sk, v, hv, hd⟩ := h
  have hd' : v.artifact? = none := by simpa using hd
  have hin : shard ∈ o.artifactShards := o.artifactShards_perm.mem_iff.mpr (List.mem_range.mpr hs)
  have hfail : ∃ err, scanArtifactShard w repo shard = .error err :=
    visitArtifact_fails (e := (sk, v)) (mem_scanPartition.mpr hv) hd' {}
  obtain ⟨err, herr⟩ := hfail
  unfold scanArtifacts
  generalize ({} : ShardScanResult) = acc
  revert hin
  generalize o.artifactShards = shards
  intro hin
  induction shards generalizing acc with
  | nil => cases hin
  | cons s shards ih =>
    rw [foldlM_cons]
    rcases mem_cons.mp hin with rfl | hin
    · rw [herr]
      exact ⟨err, rfl⟩
    · cases hstep : scanArtifactShard w repo s with
      | error err' => exact ⟨err', rfl⟩
      | ok result => exact ih _ hin

/-! ## The expected entries -/

/-- The entry of a node under its key. -/
def keyed (x : Ext) (repo : String) (n : String × TreeEntry) : Key × TreeEntry :=
  (nodeKey x repo n.1, n.2)

/-- What `expected` holds for `arts`: one of the nodes under each key that a node has, and a
    file wherever there is one. -/
structure Expects (x : Ext) (repo : String) (arts : List (String × ArtifactRecord))
    (expected : HashMap Key TreeEntry) : Prop where
  sound : ∀ k e, expected.lookup k = some e → (k, e) ∈ (scannedNodes arts).map (keyed x repo)
  complete : ∀ n ∈ scannedNodes arts, (expected.lookup (nodeKey x repo n.1)).isSome = true
  files : ∀ f ∈ treeFiles arts, ∀ e, expected.lookup (nodeKey x repo f.1) = some e →
    (nodeKey x repo f.1, e) ∈ (treeFiles arts).map (keyed x repo)

variable {expected : HashMap Key TreeEntry}

theorem Expects.perm {arts arts' : List (String × ArtifactRecord)}
    (h : Expects x repo arts expected) (hp : arts.Perm arts') : Expects x repo arts' expected where
  sound k e hk := ((scannedNodes_perm hp).map _).mem_iff.mp (h.sound k e hk)
  complete n hn := h.complete n ((scannedNodes_perm hp).mem_iff.mpr hn)
  files f hf e he := by
    have hfiles : (treeFiles arts).Perm (treeFiles arts') := hp.map _
    exact (hfiles.map _).mem_iff.mp (h.files f (hfiles.mem_iff.mpr hf) e he)

variable {e : TreeEntry}

/-- The directories in the totals are those that the artifacts lie below. -/
theorem Scanned.mem_dirs (h : Scanned result arts) {d : String} :
    (d, e) ∈ scannedDirs arts ↔ ∃ s, (d, s) ∈ pairs result.dirStats ∧ s.entry = e := by
  have hkeys := allContributions_keys arts
  constructor
  · intro hin
    obtain ⟨d', hd', heq⟩ := mem_map.mp hin
    obtain ⟨rfl, rfl⟩ := Prod.mk.inj heq
    rw [mem_dedup, ← hkeys] at hd'
    refine ⟨_, mem_pairs.mpr ?_, total_entry arts d'⟩
    rw [h.stats d', if_pos hd']
  · rintro ⟨s, hs, rfl⟩
    have hl := mem_pairs.mp hs
    rw [h.stats d] at hl
    split_ifs at hl with hd
    obtain rfl := Option.some.inj hl
    rw [hkeys, ← mem_dedup] at hd
    exact mem_map.mpr ⟨d, hd, by rw [total_entry]⟩

theorem Scanned.expects (h : Scanned result arts) (o : ScanOrder) :
    Expects x repo arts (expectedEntries x o repo result) := by
  have hfiles : (result.fileEntries.map fun e => (nodeKey x repo e.1, e.2)) =
      (treeFiles arts).map (keyed x repo) := by rw [h.files]; rfl
  have hdirs : ∀ k e, (k, e) ∈ ((o.hashed (pairs result.dirStats)).map fun s =>
      (nodeKey x repo s.1, s.2.entry)) ↔ (k, e) ∈ (scannedDirs arts).map (keyed x repo) := by
    intro k e
    rw [mem_map, mem_map]
    constructor
    · rintro ⟨⟨d, s⟩, hin, heq⟩
      obtain ⟨rfl, rfl⟩ := Prod.mk.inj heq
      exact ⟨(d, s.entry), h.mem_dirs.mpr ⟨s, (o.hashed_perm _).mem_iff.mp hin, rfl⟩, rfl⟩
    · rintro ⟨⟨d, e'⟩, hin, heq⟩
      obtain ⟨rfl, rfl⟩ := Prod.mk.inj heq
      obtain ⟨s, hs, rfl⟩ := h.mem_dirs.mp hin
      exact ⟨(d, s), (o.hashed_perm _).mem_iff.mpr hs, rfl⟩
  unfold expectedEntries
  rw [hfiles]
  refine ⟨fun k e hk => ?_, fun n hn => ?_, fun f hf e he => ?_⟩
  · rw [scannedNodes, map_append, mem_append]
    rcases mem_of_lookup_insertAll hk with hin | ⟨-, hk⟩
    · exact .inl hin
    · rcases mem_of_lookup_insertAll hk with hin | ⟨-, hk⟩
      · exact .inr ((hdirs k e).mp hin)
      · cases hk
  · by_cases hf : nodeKey x repo n.1 ∈ ((treeFiles arts).map (keyed x repo)).map Prod.fst
    · exact lookup_insertAll_isSome hf
    · rw [lookup_insertAll_of_notMem hf]
      refine lookup_insertAll_isSome (mem_map.mpr ⟨keyed x repo n, ?_, rfl⟩)
      rcases mem_append.mp hn with hn | hn
      · exact absurd (mem_map_of_mem (mem_map_of_mem hn)) hf
      · exact (hdirs _ _).mpr (mem_map_of_mem hn)
  · rcases mem_of_lookup_insertAll he with hin | ⟨hnot, -⟩
    · exact hin
    · exact absurd (mem_map_of_mem (mem_map_of_mem hf)) hnot

/-! ## The entries there are -/

/-- The key lies in the tree table of the repository. -/
def InTree (repo : String) (k : Key) : Prop := ∃ shard < numShards, k.part = treeShardPk repo shard

theorem nodeKey_inTree (x : Ext) (repo path : String) : InTree repo (nodeKey x repo path) :=
  ⟨_, x.shardOf_lt _, rfl⟩

theorem mem_scanTreeShard {shard : ℕ} {e : Key × Value} : e ∈ scanTreeShard w repo shard ↔
    e.1.part = treeShardPk repo shard ∧ w.value e.1 = some e.2 := by
  rw [scanTreeShard, mem_map]
  constructor
  · rintro ⟨⟨sk, v⟩, hin, rfl⟩
    exact ⟨rfl, mem_scanPartition.mp hin⟩
  · obtain ⟨⟨part, sk⟩, v⟩ := e
    rintro ⟨rfl, hv⟩
    exact ⟨(sk, v), mem_scanPartition.mpr hv, rfl⟩

theorem mem_treeTable {e : Key × Value} : e ∈ w.treeTable repo ↔
    InTree repo e.1 ∧ w.value e.1 = some e.2 := by
  rw [World.treeTable, mem_flatMap]
  constructor
  · rintro ⟨shard, hs, hin⟩
    obtain ⟨hpart, hv⟩ := mem_scanTreeShard.mp hin
    exact ⟨⟨shard, List.mem_range.mp hs, hpart⟩, hv⟩
  · rintro ⟨⟨shard, hs, hpart⟩, hv⟩
    exact ⟨shard, List.mem_range.mpr hs, mem_scanTreeShard.mpr ⟨hpart, hv⟩⟩

theorem foldl_insertAll {K M : Type} [DecidableEq K] {β : Type} (f : β → List (K × M))
    (l : List β) (m : HashMap K M) :
    l.foldl (fun m b => insertAll (f b) m) m = insertAll (l.flatMap f) m := by
  rw [insertAll, foldl_flatMap]
  rfl

variable {k : Key}

/-- The entries that are read are those of the tree table. -/
theorem lookup_existingEntries (o : ScanOrder) {v : Value} :
    (existingEntries o w repo).lookup k = some v ↔ InTree repo k ∧ w.value k = some v := by
  have hmem : ∀ e, e ∈ o.treeShards.flatMap (scanTreeShard w repo) ↔
      InTree repo e.1 ∧ w.value e.1 = some e.2 := fun e =>
    ((o.treeShards_perm.flatMap_right _).mem_iff).trans mem_treeTable
  rw [existingEntries, foldl_insertAll]
  constructor
  · intro hk
    rcases mem_of_lookup_insertAll hk with hin | ⟨-, hk⟩
    · exact (hmem _).mp hin
    · cases hk
  · intro hk
    have hin := lookup_insertAll_isSome (m := ∅)
      (mem_map_of_mem (f := Prod.fst) ((hmem (k, v)).mpr hk))
    obtain ⟨v', hv'⟩ := isSome_iff_exists.mp hin
    rcases mem_of_lookup_insertAll hv' with hin' | ⟨-, hk'⟩
    · rw [hv', ← ((hmem _).mp hin').2, hk.2]
    · cases hk'

/-! ## The batches -/

theorem World.setCell_kv_of_ne (h : part ≠ k.part)
    (c : Option (Versioned Value)) : (w.setCell k c).kv part = w.kv part :=
  Function.update_of_ne h _ _

theorem World.value_deleteBatch (keys : List Key) (k : Key) :
    (w.deleteBatch keys).value k = if k ∈ keys then none else w.value k := by
  induction keys generalizing w with
  | nil => rfl
  | cons k' keys ih =>
    have hstep : w.deleteBatch (k' :: keys) =
        (w.setCell k' (CellOp.remove.apply (w.cell k'))).deleteBatch keys := rfl
    rw [hstep, ih, value, cell_setCell]
    by_cases hk : k = k'
    · subst hk
      rw [if_pos rfl, if_pos mem_cons_self, CellOp.apply_remove, map_none, ite_self]
    · rw [if_neg hk, ← value]
      by_cases hin : k ∈ keys
      · rw [if_pos hin, if_pos (mem_cons_of_mem _ hin)]
      · rw [if_neg hin, if_neg (not_mem_cons_of_ne_of_not_mem hk hin)]

variable {entries : List (Key × TreeEntry)}

theorem World.value_putBatch_of_notMem
    (h : k ∉ entries.map Prod.fst) : (w.putBatch entries).value k = w.value k := by
  induction entries generalizing w with
  | nil => rfl
  | cons e entries ih =>
    have hstep : w.putBatch (e :: entries) =
        (w.setCell e.1 ((CellOp.put (Value.tree e.2)).apply (w.cell e.1))).putBatch entries := rfl
    rw [map_cons, mem_cons, not_or] at h
    rw [hstep, ih h.2, value, cell_setCell_of_ne h.1, ← value]

theorem World.value_putBatch (hn : (entries.map Prod.fst).Nodup) (h : (k, e) ∈ entries) :
    (w.putBatch entries).value k = some (.tree e) := by
  induction entries generalizing w with
  | nil => cases h
  | cons e' entries ih =>
    have hstep : w.putBatch (e' :: entries) = (w.setCell e'.1
        ((CellOp.put (Value.tree e'.2)).apply (w.cell e'.1))).putBatch entries := rfl
    rw [map_cons, nodup_cons] at hn
    rw [hstep]
    rcases mem_cons.mp h with rfl | h
    · rw [value_putBatch_of_notMem hn.1, value, cell_setCell_self]
      rfl
    · exact ih hn.2 h

theorem World.deleteBatch_kv {keys : List Key} (h : ∀ k ∈ keys, part ≠ k.part) :
    (w.deleteBatch keys).kv part = w.kv part := by
  induction keys generalizing w with
  | nil => rfl
  | cons k keys ih =>
    have hstep : w.deleteBatch (k :: keys) =
        (w.setCell k (CellOp.remove.apply (w.cell k))).deleteBatch keys := rfl
    rw [hstep, ih fun k' hk' => h k' (mem_cons_of_mem _ hk'), setCell_kv_of_ne (h k mem_cons_self)]

theorem World.putBatch_kv
    (h : ∀ e ∈ entries, part ≠ e.1.part) : (w.putBatch entries).kv part = w.kv part := by
  induction entries generalizing w with
  | nil => rfl
  | cons e entries ih =>
    have hstep : w.putBatch (e :: entries) =
        (w.setCell e.1 ((CellOp.put (Value.tree e.2)).apply (w.cell e.1))).putBatch entries := rfl
    rw [hstep, ih fun e' he' => h e' (mem_cons_of_mem _ he'), setCell_kv_of_ne (h e mem_cons_self)]

/-! ## What a rebuild leaves -/

/-- The world after a rebuild: the tree table holds what was expected, the other tables are
    as they were. -/
structure Rebuilt (repo : String) (w w' : World) (expected : HashMap Key TreeEntry) : Prop where
  tree : ∀ k, InTree repo k → w'.value k = (expected.lookup k).map Value.tree
  others : ∀ part, (∀ shard < numShards, part ≠ treeShardPk repo shard) → w'.kv part = w.kv part

theorem mem_staleKeys : k ∈ staleKeys expected (existingEntries o w repo) ↔
      (InTree repo k ∧ (w.value k).isSome = true) ∧ expected.lookup k = none := by
  rw [staleKeys, mem_filter, mem_map, Option.isNone_iff_eq_none]
  refine and_congr_left fun _ => ?_
  constructor
  · rintro ⟨⟨k', v⟩, hin, rfl⟩
    obtain ⟨htree, hv⟩ := (lookup_existingEntries o).mp (mem_pairs.mp hin)
    exact ⟨htree, isSome_iff_exists.mpr ⟨v, hv⟩⟩
  · rintro ⟨htree, hv⟩
    obtain ⟨v, hv⟩ := isSome_iff_exists.mp hv
    exact ⟨(k, v), mem_pairs.mpr ((lookup_existingEntries o).mpr ⟨htree, hv⟩), rfl⟩

theorem mem_changedEntries {existing : HashMap Key Value}
    : (k, e) ∈ changedEntries expected existing ↔
      expected.lookup k = some e ∧ existing.lookup k ≠ some (.tree e) := by
  rw [changedEntries, mem_filter, mem_pairs, decide_eq_true_eq]

section

variable {expected : HashMap Key TreeEntry}

/-- What the two batches leave. -/
def batches (o : ScanOrder) (w : World) (repo : String) (expected : HashMap Key TreeEntry) :
    World :=
  (w.deleteBatch (o.hashed (staleKeys expected (existingEntries o w repo)))).putBatch
    (o.hashed (changedEntries expected (existingEntries o w repo)))

/-- How many entries the two batches touch. -/
def touched (o : ScanOrder) (w : World) (repo : String) (expected : HashMap Key TreeEntry) : ℕ :=
  (staleKeys expected (existingEntries o w repo)).length +
    (changedEntries expected (existingEntries o w repo)).length

theorem batches_of_same (hk : InTree repo k)
    (h : ∀ e, expected.lookup k = some e → w.value k = some (.tree e)) :
    (batches o w repo expected).value k = (expected.lookup k).map Value.tree := by
  have hnot : k ∉ (o.hashed (changedEntries expected (existingEntries o w repo))).map
      Prod.fst := by
    intro hin
    obtain ⟨⟨k', e⟩, he, rfl⟩ := mem_map.mp hin
    obtain ⟨he, hne⟩ := mem_changedEntries.mp ((o.hashed_perm _).mem_iff.mp he)
    exact hne ((lookup_existingEntries o).mpr ⟨hk, h e he⟩)
  have hstale := (o.hashed_perm (staleKeys expected (existingEntries o w repo))).mem_iff.trans
    (mem_staleKeys (k := k))
  rw [batches, World.value_putBatch_of_notMem hnot, World.value_deleteBatch]
  cases he : expected.lookup k with
  | none =>
    rw [map_none]
    split_ifs with hin
    · rfl
    · have hnone : ¬ (w.value k).isSome = true := fun hv => hin (hstale.mpr ⟨⟨hk, hv⟩, he⟩)
      simpa using hnone
  | some e =>
    have hkeep : k ∉ o.hashed (staleKeys expected (existingEntries o w repo)) := by
      intro hin
      have hnone := (hstale.mp hin).2
      rw [he] at hnone
      cases hnone
    rw [if_neg hkeep, h e he, map_some]

theorem batches_of_changed (he : expected.lookup k = some e)
    (hne : w.value k ≠ some (.tree e)) : (batches o w repo expected).value k = some (.tree e) := by
  have hnodup : ((o.hashed (changedEntries expected (existingEntries o w repo))).map
      Prod.fst).Nodup := by
    refine ((o.hashed_perm _).map Prod.fst).nodup_iff.mpr ?_
    exact (filter_sublist.map Prod.fst).nodup (nodup_pairs expected)
  refine World.value_putBatch hnodup ((o.hashed_perm _).mem_iff.mpr ?_)
  refine mem_changedEntries.mpr ⟨he, fun hsame => hne ?_⟩
  exact ((lookup_existingEntries o).mp hsame).2

/-- The two batches make the tree table hold what was expected. -/
theorem batches_rebuilt (hx : ∀ k e, expected.lookup k = some e → InTree repo k) :
    Rebuilt repo w (batches o w repo expected) expected := by
  refine ⟨fun k hk => ?_, fun part hpart => ?_⟩
  · by_cases hsame : ∀ e, expected.lookup k = some e → w.value k = some (.tree e)
    · exact batches_of_same hk hsame
    · push Not at hsame
      obtain ⟨e, he, hne⟩ := hsame
      rw [batches_of_changed he hne, he, map_some]
  · have hout : ∀ k, InTree repo k → part ≠ k.part := by
      rintro k ⟨shard, hs, hk⟩
      rw [hk]
      exact hpart shard hs
    rw [batches, World.putBatch_kv, World.deleteBatch_kv]
    · exact fun k hk => hout k (mem_staleKeys.mp ((o.hashed_perm _).mem_iff.mp hk)).1.1
    · intro e he
      exact hout _ (hx _ _ (mem_changedEntries.mp ((o.hashed_perm _).mem_iff.mp he)).1)

/-- Where the tree table holds what is expected there is nothing to do. -/
theorem batches_idle (hx : ∀ k e, expected.lookup k = some e → InTree repo k)
    (h : ∀ k, InTree repo k → w.value k = (expected.lookup k).map Value.tree) :
    batches o w repo expected = w ∧ touched o w repo expected = 0 := by
  have hstale : staleKeys expected (existingEntries o w repo) = [] := by
    refine eq_nil_iff_forall_not_mem.mpr fun k hk => ?_
    obtain ⟨⟨htree, hv⟩, hnone⟩ := mem_staleKeys.mp hk
    rw [h k htree, hnone] at hv
    cases hv
  have hchanged : changedEntries expected (existingEntries o w repo) = [] := by
    refine eq_nil_iff_forall_not_mem.mpr fun e he => ?_
    obtain ⟨hl, hne⟩ := mem_changedEntries.mp he
    have htree := hx _ _ hl
    refine hne ((lookup_existingEntries o).mpr ⟨htree, ?_⟩)
    rw [h _ htree, hl, map_some]
  have hnil : ∀ {α : Type}, o.hashed ([] : List α) = [] := fun {α} => (o.hashed_perm []).eq_nil
  rw [batches, touched, hstale, hchanged, hnil, hnil]
  exact ⟨rfl, rfl⟩

theorem Expects.inTree (h : Expects x repo arts expected)
    (k : Key) (e : TreeEntry) (hk : expected.lookup k = some e) : InTree repo k := by
  obtain ⟨n, -, heq⟩ := mem_map.mp (h.sound k e hk)
  rw [← (Prod.mk.inj heq).1]
  exact nodeKey_inTree x repo n.1

end

/-- A rebuild writes the nodes of the artifacts and answers with how many artifacts there are
    and how large they are together. -/
theorem fullScanRepo_ok (h : w.ArtifactsDecode repo) (o : ScanOrder) :
    ∃ expected, Expects x repo (w.artifactsOf repo) expected ∧
      fullScanRepo x o w repo = .ok (batches o w repo expected, touched o w repo expected,
        (w.artifactsOf repo).length % 2 ^ 64,
        ((w.artifactsOf repo).map fun e => e.2.size).sum % 2 ^ 64) := by
  obtain ⟨result, arts, hscan, hr, hp⟩ := scanArtifacts_ok h o
  have hroot : (result.dirStats.lookup "").getD DirStat.zero =
      total DirStat.add DirStat.zero (allContributions arts) "" := by
    rw [hr.stats]
    split_ifs with hin
    · rfl
    · rw [total_of_notMem hin]
      rfl
  have hsizes : (arts.map fun e => e.2.size).sum =
      ((w.artifactsOf repo).map fun e => e.2.size).sum := (hp.map _).sum_eq
  refine ⟨expectedEntries x o repo result, (hr.expects o).perm hp, ?_⟩
  rw [fullScanRepo, hscan, ← hp.length_eq, ← hsizes]
  show Except.ok (_, _, ((result.dirStats.lookup "").getD DirStat.zero).count.toNat,
    ((result.dirStats.lookup "").getD DirStat.zero).bytes.toNat) = _
  rw [hroot, total_eq, recordsBelow_root, length_map, map_map]
  rfl

/-- A rebuild leaves the artifacts as they are. -/
theorem Rebuilt.artifacts (h : Rebuilt repo w w' expected) (shard : ℕ) :
    w'.kv (artifactShardPk repo shard) = w.kv (artifactShardPk repo shard) :=
  h.others _ fun _ _ heq => by cases heq

theorem Rebuilt.artifactsOf
    (h : Rebuilt repo w w' expected) : w'.artifactsOf repo = w.artifactsOf repo := by
  have hentries : ∀ shard, w'.shardEntries repo shard = w.shardEntries repo shard := by
    intro shard
    rw [World.shardEntries, World.matching, World.entriesFrom, h.artifacts]
    rfl
  rw [World.artifactsOf, World.artifactsOf]
  simp only [hentries]

theorem Rebuilt.decode
    (h : Rebuilt repo w w' expected) (hd : w.ArtifactsDecode repo) : w'.ArtifactsDecode repo := by
  intro shard hs sk v hv
  rw [World.value, World.cell, h.artifacts] at hv
  exact hd shard hs sk v hv

/-! ## Exactness -/

theorem treeTable_nodup (w : World) (repo : String) : ((w.treeTable repo).map Prod.fst).Nodup := by
  have hshard : ∀ shard, ((scanTreeShard w repo shard).map Prod.fst).Nodup := by
    intro shard
    have hs : ((scanPartition w (treeShardPk repo shard)).map Prod.fst).Nodup := by
      rw [scanPartition_eq]
      exact nodup_keys_of_sorted (w.entriesFrom_sorted _ _ _)
    rw [scanTreeShard, map_map]
    have hmap : (Prod.fst ∘ fun e : String × Value => ((⟨treeShardPk repo shard, e.1⟩, e.2) :
        Key × Value)) = (fun sk => ⟨treeShardPk repo shard, sk⟩) ∘ Prod.fst := rfl
    rw [hmap, ← map_map]
    exact hs.map fun a b heq => (Key.mk.inj heq).2
  rw [World.treeTable, map_flatMap]
  refine nodup_flatMap.mpr ⟨fun shard _ => hshard shard, ?_⟩
  refine nodup_range.imp fun {s s'} hne => ?_
  intro k hk hk'
  obtain ⟨e, he, rfl⟩ := mem_map.mp hk
  obtain ⟨e', he', heq⟩ := mem_map.mp hk'
  have hpart := (mem_scanTreeShard.mp he).1
  have hpart' := (mem_scanTreeShard.mp he').1
  rw [heq, hpart] at hpart'
  simp only [treeShardPk, Part.mk.injEq, Pk.sharded.injEq, true_and] at hpart'
  exact hne hpart'

/-- A rebuild makes its nodes under the keys of the tree. -/
theorem nodeKeys_scanned (x : Ext) (repo : String) (arts : List (String × ArtifactRecord))
    {α : Type} (f : String × TreeEntry → α) :
    ((scannedNodes arts).map fun n => (nodeKey x repo n.1, f n)).map Prod.fst =
      nodeKeys x repo arts := by
  simp only [nodeKeys, scannedNodes, treeNodes, scannedDirs, treeDirs, map_append, map_map]
  rfl

/-- Where no two nodes share a key, what is expected is determined by the artifacts. -/
theorem Expects.lookup_iff (h : Expects x repo arts expected) (hn : (nodeKeys x repo arts).Nodup) :
    expected.lookup k = some e ↔ (k, e) ∈ (scannedNodes arts).map (keyed x repo) := by
  refine ⟨h.sound k e, fun hin => ?_⟩
  have hkeys : ((scannedNodes arts).map (keyed x repo)).map Prod.fst = nodeKeys x repo arts :=
    nodeKeys_scanned x repo arts Prod.snd
  obtain ⟨n, hnode, heq⟩ := mem_map.mp hin
  obtain ⟨rfl, rfl⟩ := Prod.mk.inj heq
  obtain ⟨e, he⟩ := isSome_iff_exists.mp (h.complete n hnode)
  rw [← hkeys] at hn
  have hsame := inj_on_of_nodup_map hn (h.sound _ _ he) hin rfl
  rw [he, (Prod.mk.inj hsame).2]

theorem Rebuilt.exact (h : Rebuilt repo w w' expected)
    (he : Expects x repo arts expected) (hn : (nodeKeys x repo arts).Nodup) :
    TreeHas x w' repo (scannedNodes arts) := by
  have hkeys := nodeKeys_scanned x repo arts fun n => Value.tree n.2
  rw [← hkeys] at hn
  refine (perm_ext_iff_of_nodup (treeTable_nodup w' repo).of_map hn.of_map).mpr ?_
  rw [hkeys] at hn
  rintro ⟨k, v⟩
  rw [mem_treeTable, mem_map]
  constructor
  · rintro ⟨htree, hv⟩
    rw [h.tree k htree] at hv
    obtain ⟨e, hl, rfl⟩ := Option.map_eq_some_iff.mp hv
    obtain ⟨n, hnode, heq⟩ := mem_map.mp ((he.lookup_iff hn).mp hl)
    obtain ⟨rfl, rfl⟩ := Prod.mk.inj heq
    exact ⟨n, hnode, rfl⟩
  · rintro ⟨n, hnode, heq⟩
    obtain ⟨rfl, rfl⟩ := Prod.mk.inj heq
    have htree := nodeKey_inTree x repo n.1
    have hl := (he.lookup_iff hn).mpr (mem_map_of_mem hnode)
    refine ⟨htree, ?_⟩
    show w'.value (nodeKey x repo n.1) = _
    rw [h.tree _ htree, hl, map_some]

/-- A second rebuild finds nothing to do. -/
theorem Rebuilt.again
    (h : Rebuilt repo w w' expected) (he : Expects x repo (w.artifactsOf repo) expected)
    (hd : w.ArtifactsDecode repo) (hn : (nodeKeys x repo (w.artifactsOf repo)).Nodup)
    (o : ScanOrder) : fullScanRepo x o w' repo = .ok (w', 0, (w.artifactsOf repo).length % 2 ^ 64,
      ((w.artifactsOf repo).map fun e => e.2.size).sum % 2 ^ 64) := by
  obtain ⟨expected', he', hok⟩ := fullScanRepo_ok (x := x) (h.decode hd) o
  rw [h.artifactsOf] at he' hok
  have hlookup : ∀ k, expected.lookup k = expected'.lookup k := fun k =>
    Option.ext fun e => (he.lookup_iff hn).trans (he'.lookup_iff hn).symm
  obtain ⟨hw, ht⟩ := batches_idle (o := o) he'.inTree fun k hk => by
    rw [h.tree k hk, hlookup]
  rw [hok, hw, ht]

theorem RebuildsExactly.decode (h : RebuildsExactly x w repo) : w.ArtifactsDecode repo := by
  obtain ⟨w', updates, count, bytes, hok, -⟩ := h ScanOrder.ascending
  by_contra hd
  obtain ⟨err, herr⟩ := scanArtifacts_fails hd ScanOrder.ascending
  rw [fullScanRepo, herr] at hok
  cases hok

/-- A table has one entry under a key. -/
theorem RebuildsExactly.nodup (h : RebuildsExactly x w repo) :
    (nodeKeys x repo (w.artifactsOf repo)).Nodup := by
  obtain ⟨w', updates, count, bytes, -, hexact, -⟩ := h ScanOrder.ascending
  have hkeys := (hexact.map Prod.fst).nodup_iff.mp (treeTable_nodup w' repo)
  rw [map_map] at hkeys
  exact hkeys

/-- The root, above all artifacts, has an entry of their totals, and a rebuild makes none that
    does not fit. -/
theorem RebuildsExactly.fit (h : RebuildsExactly x w repo) : TotalsFit (w.artifactsOf repo) := by
  obtain ⟨expected, he, hok⟩ := fullScanRepo_ok (x := x) h.decode .ascending
  have hscanned := (batches_rebuilt (o := .ascending) (w := w) he.inTree).exact he h.nodup
  obtain ⟨w', updates, count, bytes, hrun, hexact, -⟩ := h .ascending
  obtain rfl := (Prod.mk.inj (Except.ok.inj (hok.symm.trans hrun))).1
  generalize w.artifactsOf repo = arts at hscanned hexact
  cases arts with
  | nil => exact ⟨by decide, by decide⟩
  | cons e arts =>
    have hroot : ("", dirEntry (e :: arts) "") ∈ treeNodes (e :: arts) :=
      mem_append_right _ (mem_map_of_mem (mem_dedup.mpr (mem_flatMap.mpr
        ⟨e, mem_cons_self, mem_ancestorDirs.mpr (.inl rfl)⟩)))
    obtain ⟨n, hn, heq⟩ := mem_map.mp ((hexact.symm.trans hscanned).mem_iff.mp (mem_map_of_mem hroot))
    have hentry : n.2 = dirEntry (e :: arts) "" := Value.tree.inj (Prod.mk.inj heq).2
    rcases mem_append.mp hn with hfile | hdir
    · obtain ⟨e', -, rfl⟩ := mem_map.mp hfile
      cases congrArg TreeEntry.kind hentry
    · obtain ⟨d, -, rfl⟩ := mem_map.mp hdir
      obtain ⟨hcount, hbytes⟩ := TreeEntryKind.dir.inj (congrArg TreeEntry.kind hentry)
      rw [recordsBelow_root] at hcount hbytes
      rw [length_map] at hcount
      rw [map_map] at hbytes
      exact ⟨hcount ▸ Nat.mod_lt _ (by decide), hbytes ▸ Nat.mod_lt _ (by decide)⟩

/-- **Main theorem.** A rebuild leaves the table that the artifacts make, and a second one
    changes nothing, exactly when the artifacts decode, no two nodes share a key, and the number
    of the artifacts and their bytes fit into 64 bits. -/
theorem full_scan_exact (x : Ext) (w : World) (repo : String) : RebuildsExactly x w repo ↔
      w.ArtifactsDecode repo ∧ (nodeKeys x repo (w.artifactsOf repo)).Nodup ∧
        TotalsFit (w.artifactsOf repo) := by
  refine ⟨fun h => ⟨h.decode, h.nodup, h.fit⟩, ?_⟩
  rintro ⟨hd, hn, hfit⟩ o
  obtain ⟨expected, he, hok⟩ := fullScanRepo_ok (x := x) hd o
  have hr := batches_rebuilt (o := o) (w := w) he.inTree
  have hexact := hr.exact he hn
  rw [scannedNodes_eq hfit] at hexact
  exact ⟨_, _, _, _, hok, hexact, hr.again he hd hn⟩

/-- A repository with the artifacts `a` and `a/b`. -/
def fileOverDir : World :=
  let record : ArtifactRecord :=
    ⟨1, "text/plain", 0, 0, 0, "", .raw, false, some "b", some "h", none⟩
  (({ now := 0 } : World).setCell (artifactKey Ext.sample.shardOf "r" "a")
    (some ⟨1, .artifact record⟩)).setCell (artifactKey Ext.sample.shardOf "r" "a/b")
    (some ⟨1, .artifact record⟩)

/-- The directory `a` and the file `a` have one key. -/
theorem file_over_dir_lost : ¬ RebuildsExactly Ext.sample fileOverDir "r" := by
  have hdup : ¬ (nodeKeys Ext.sample "r" (fileOverDir.artifactsOf "r")).Nodup := by
    decide +kernel
  exact fun h => hdup h.nodup

end

/-! ## Nodes that share a key -/

section

variable {x : Ext} {repo : String} {arts : List (String × ArtifactRecord)}

/-- A directory above a clean path is clean. -/
theorem clean_below {dir path : String} (h : Below dir path) (hp : CleanPath path) :
    CleanPath dir := by
  rcases h with rfl | ⟨rest, hrest⟩
  · exact ⟨by decide, by decide, by decide⟩
  · unfold CleanPath at hp
    rw [hrest] at hp
    refine ⟨fun hhead => hp.head ?_, fun hlast => hp.double ?_, fun hdouble => hp.double ?_⟩
    · rw [head?_append, hhead]
      rfl
    · obtain ⟨front, hfront⟩ := getLast?_eq_some_iff.mp hlast
      rw [hfront, append_assoc]
      exact ⟨front, rest, by simp⟩
    · exact hdouble.trans (prefix_append _ _).isInfix

theorem nulFree_below {dir path : String} (h : Below dir path) (hp : NulFree path) :
    NulFree dir := by
  rcases h with rfl | ⟨rest, hrest⟩
  · exact not_mem_nil
  · unfold NulFree at hp ⊢
    rw [hrest] at hp
    exact fun hmem => hp (mem_append_left _ hmem)

/-- The paths of the nodes: those of the artifacts, and the directories above them. -/
theorem mem_treeDirs_path {dir : String} : dir ∈ (treeDirs arts).map Prod.fst ↔
    ∃ e ∈ arts, Below dir (normalizePath e.1) := by
  rw [treeDirs, map_map]
  show dir ∈ List.map id _ ↔ _
  rw [map_id, mem_dedup, mem_flatMap]
  exact exists_congr fun e => and_congr_right fun _ => mem_ancestorDirs

theorem treeDirs_nodup (arts : List (String × ArtifactRecord)) :
    ((treeDirs arts).map Prod.fst).Nodup := by
  rw [treeDirs, map_map]
  show (List.map id _).Nodup
  rw [map_id]
  exact nodup_dedup _

variable {path : String}

theorem mem_treeFiles_path : path ∈ (treeFiles arts).map Prod.fst ↔
    ∃ e ∈ arts, normalizePath e.1 = path := by
  rw [treeFiles, map_map, mem_map]
  rfl

theorem mem_treeNodes_path (h : path ∈ (treeNodes arts).map Prod.fst) :
    ∃ e ∈ arts, normalizePath e.1 = path ∨ Below path (normalizePath e.1) := by
  rw [treeNodes, map_append, mem_append] at h
  rcases h with h | h
  · obtain ⟨e, he, heq⟩ := mem_treeFiles_path.mp h
    exact ⟨e, he, .inl heq⟩
  · obtain ⟨e, he, hb⟩ := mem_treeDirs_path.mp h
    exact ⟨e, he, .inr hb⟩

theorem clean_node (h : path ∈ (treeNodes arts).map Prod.fst) : CleanPath path := by
  obtain ⟨e, -, rfl | hb⟩ := mem_treeNodes_path h
  · exact clean_normalizePath e.1
  · exact clean_below hb (clean_normalizePath e.1)

theorem nulFree_node (hnul : ∀ e ∈ arts, NulFree (normalizePath e.1))
    (h : path ∈ (treeNodes arts).map Prod.fst) : NulFree path := by
  obtain ⟨e, he, rfl | hb⟩ := mem_treeNodes_path h
  · exact hnul e he
  · exact nulFree_below hb (hnul e he)

/-- Where no path has a zero byte, two nodes share a key only if two artifacts have the same
    path or one is a directory of another. -/
theorem nodeKeys_nodup_iff (hnul : ∀ e ∈ arts, NulFree (normalizePath e.1)) :
    (nodeKeys x repo arts).Nodup ↔ (arts.map fun e => normalizePath e.1).Nodup ∧
      ∀ e ∈ arts, ∀ e' ∈ arts, ¬ Below (normalizePath e.1) (normalizePath e'.1) := by
  have hkeys : nodeKeys x repo arts = ((treeNodes arts).map Prod.fst).map (nodeKey x repo) := by
    rw [map_map]
    rfl
  have hinj : ∀ p ∈ (treeNodes arts).map Prod.fst, ∀ q ∈ (treeNodes arts).map Prod.fst,
      nodeKey x repo p = nodeKey x repo q → p = q := fun p hp q hq heq =>
    treeSortKey_inj (clean_node hp) (clean_node hq) (nulFree_node hnul hp) (Key.mk.inj heq).2
  have hfiles : (treeFiles arts).map Prod.fst = arts.map fun e => normalizePath e.1 := by
    rw [treeFiles, map_map]
    rfl
  have hmap : (nodeKeys x repo arts).Nodup ↔ ((treeNodes arts).map Prod.fst).Nodup := by
    rw [hkeys]
    exact ⟨Nodup.of_map _, fun h => h.map_on hinj⟩
  rw [hmap, treeNodes, map_append, nodup_append, hfiles]
  refine and_congr_right fun _ => ⟨?_, ?_⟩
  · rintro ⟨-, hdisj⟩ e he e' he' hb
    exact hdisj _ (mem_map_of_mem he) _ (mem_treeDirs_path.mpr ⟨e', he', hb⟩) rfl
  · refine fun h => ⟨treeDirs_nodup arts, fun p hp q hq heq => ?_⟩
    obtain ⟨e, he, rfl⟩ := mem_map.mp hp
    obtain ⟨e', he', hb⟩ := mem_treeDirs_path.mp hq
    rw [← heq] at hb
    exact h e he e' he' hb

/-- A file and a directory with one path. -/
theorem nodeKeys_nodup_iff_over :
    ¬ (nodeKeys Ext.sample "r" (fileOverDir.artifactsOf "r")).Nodup :=
  fun h => absurd ((nodeKeys_nodup_iff (by decide +kernel)).mp h).2 (by decide +kernel)

end

end Depot
