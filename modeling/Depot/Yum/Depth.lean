import Depot.Yum.Partition

/-!
# A change of the repodata depth

When the depth of a Yum repository changes, all its repodata is deleted and built again
(`rebuild_repodata_for_depth_change`, `format/yum/src/api.rs` lines 683–706). What is deleted is
chosen by the path alone (`delete_all_repodata`, `format/yum/src/store/store.rs` lines 567–603).

Results:
* `YumTable.get_depthChange`: what is stored afterwards at the keys that are no repodata.
* `YumTable.not_kept`: what is at the other keys is gone.
* `YumTable.listed_depthChange`: a client finds the packages in the metadata that is built again.
* `YumTable.depth_change_keeps_iff`: packages and snapshots are kept exactly when none of them
  is in a directory with the name `repodata`.

**Snapshots are deleted.** A snapshot is stored at `snapshots/{name}/repodata/…`, and such a path
contains `/repodata/` like that of any other repodata of a group.
-/

namespace Depot

open Lib List

namespace RecordTable

variable (x : IndexExt) (depth : ℕ) (t : RecordTable StoredRecord)

/-- `delete_all_repodata`. -/
def deleteAllRepodata : RecordTable StoredRecord :=
  ((t.entries.map Prod.fst).filter isRepodata).foldl remove t

/-- `set_metadata_stale` (lines 178–217). -/
def setMetadataStale (now : DateTime) : RecordTable StoredRecord :=
  t.putStored yumStalePath ((yumFormat x depth).flagRecord now)

/-- The records a rebuild after a change of the depth starts from. -/
def cleared (flagNow : DateTime) : RecordTable StoredRecord :=
  (t.deleteAllRepodata.setMetadataStale x depth flagNow).clearStaleFlag

/-- `rebuild_repodata_for_depth_change`, after which the packages are listed in the order in
    which the scans of the shards have found them. -/
def depthChange (flagNow now : DateTime) (pkgs : List (String × StoredRecord)) :
    RecordTable StoredRecord :=
  (t.cleared x depth flagNow).writePlan x (yumFormat x depth) now (yumPlan x depth now pkgs)

end RecordTable

/-- A metadata file of a snapshot. -/
def isSnapshotFile (sk : String) (r : StoredRecord) : Prop :=
  hasPrefix "snapshots/" sk = true ∧ r.record.kind = .yumMetadata

/-- The packages and snapshots of `t` are stored in `t'` as they were, and each package is listed
    by the files of its group: a client that reads these finds it, the packages being RPM files. -/
structure DepthKept (x : IndexExt) (depth : ℕ) (now : DateTime)
    (t t' : RecordTable StoredRecord) : Prop where
  packages : ∀ {sk r}, t.get sk = some r → r.packageMeta.isYum = true → t'.get sk = some r
  snapshots : ∀ {sk r}, t.get sk = some r → isSnapshotFile sk r → t'.get sk = some r
  covered : ∀ {sk r}, t.get sk = some r → r.packageMeta.isYum = true → ∃ group, (sk, r) ∈ group ∧
    ∀ w ∈ yumGroupPlan x now (repodataPrefix sk depth) group, t'.readArtifact w.path = some w.data
  listed : ∀ gz : Gunzip x,
    (∀ {sk r}, t.get sk = some r → r.packageMeta.isYum = true → YumEntry (sk, r)) →
    ∀ {sk r}, t.get sk = some r → r.packageMeta.isYum = true →
      sk ∈ t'.listedAt gz (repodataPrefix sk depth)

variable {sk : String}

namespace YumTable

variable {x : IndexExt} {depth : ℕ} {flagNow now : DateTime} {pkgs : List (String × StoredRecord)}
variable (t : YumTable)

theorem get_deleteAllRepodata (sk : String) : SortedMap.get t.records.deleteAllRepodata sk =
    if isRepodata sk = true then none else t.records.get sk := by
  rw [RecordTable.deleteAllRepodata, RecordTable.get_foldl_remove]
  have hiff : (∃ path ∈ (t.records.entries.map Prod.fst).filter isRepodata,
      normalizePath path = sk) ↔ isRepodata sk = true ∧ t.records.get sk ≠ none := by
    constructor
    · rintro ⟨path, hpath, rfl⟩
      obtain ⟨hmem, hrd⟩ := mem_filter.mp hpath
      obtain ⟨⟨sk, r⟩, he, rfl⟩ := mem_map.mp hmem
      have hget := SortedMap.mem_entries_iff.mp he
      rw [normalizePath_clean (t.clean hget), hget]
      exact ⟨hrd, Option.some_ne_none r⟩
    · rintro ⟨hrd, hne⟩
      obtain ⟨r, hget⟩ := Option.ne_none_iff_exists'.mp hne
      have hmem := mem_map_of_mem (f := Prod.fst) (SortedMap.mem_entries_iff.mpr hget)
      exact ⟨sk, mem_filter.mpr ⟨hmem, hrd⟩, normalizePath_clean (t.clean hget)⟩
  split_ifs with hsk hrd hrd
  · rfl
  · exact absurd (hiff.mp hsk).1 hrd
  · by_contra hne
    exact hsk (hiff.mpr ⟨hrd, hne⟩)
  · rfl

theorem get_flagged (sk : String) :
    SortedMap.get (t.records.deleteAllRepodata.setMetadataStale x depth flagNow) sk =
      if sk = yumStalePath then
        some (((yumFormat x depth).flagRecord flagNow).prepared yumStalePath)
      else if isRepodata sk = true then none else t.records.get sk := by
  have hflag : normalizePath yumStalePath = yumStalePath := by decide +kernel
  rw [RecordTable.setMetadataStale, RecordTable.putStored, RecordTable.get_put, hflag,
    get_deleteAllRepodata]

theorem get_cleared (sk : String) : SortedMap.get (t.records.cleared x depth flagNow) sk =
    if isRepodata sk = true ∨ sk = yumStalePath then none else t.records.get sk := by
  rw [RecordTable.cleared, YumRepo.get_clearStaleFlag, get_flagged]
  by_cases hsk : sk = yumStalePath
  · simp [hsk]
  · simp [hsk]

theorem clean_yumPackages (hperm : pkgs.Perm (t.records.cleared x depth flagNow).yumPackages) :
    ∀ e ∈ pkgs, CleanPath e.1 := by
  intro e he
  have hmem := (mem_filter.mp (hperm.mem_iff.mp he)).1
  have hget := SortedMap.mem_entries_iff (k := e.1) (v := e.2).mp hmem
  rw [get_cleared] at hget
  split_ifs at hget
  exact t.clean hget

/-- What is no repodata stays. -/
theorem get_depthChange (hperm : pkgs.Perm (t.records.cleared x depth flagNow).yumPackages)
    (hrd : isRepodata sk = false) (hflag : sk ≠ yumStalePath) :
    SortedMap.get (t.records.depthChange x depth flagNow now pkgs) sk = t.records.get sk := by
  have hnot : sk ∉ (yumPlan x depth now pkgs).map IndexWrite.sk := by
    intro hmem
    obtain ⟨w, hw, rfl⟩ := mem_map.mp hmem
    have htrue := isRepodata_plan (t.clean_yumPackages hperm) hw
    rw [hrd] at htrue
    cases htrue
  rw [RecordTable.depthChange, RecordTable.get_writePlan_of_notMem hnot, get_cleared, if_neg]
  rw [hrd]
  exact not_or_intro Bool.false_ne_true hflag

/-- What is repodata goes, and what is there afterwards is new. -/
theorem not_kept {r : StoredRecord} (hsk : isRepodata sk = true ∨ sk = yumStalePath)
    (hnow : now ≠ r.record.createdAt) :
    SortedMap.get (t.records.depthChange x depth flagNow now pkgs) sk ≠ some r := by
  intro hget
  rcases RecordTable.get_writePlan_cases hget with hget | ⟨w, -, rfl⟩
  · rw [get_cleared, if_pos hsk] at hget
    cases hget
  · exact hnow rfl

/-- The files of the groups are all there. -/
theorem readArtifact_depthChange
    (hperm : pkgs.Perm (t.records.cleared x depth flagNow).yumPackages) {w : IndexWrite}
    (hw : w ∈ yumPlan x depth now pkgs) :
    (t.records.depthChange x depth flagNow now pkgs).readArtifact w.path = some w.data := by
  have hclean := t.clean_yumPackages hperm
  have hnone : SortedMap.get (t.records.cleared x depth flagNow) w.sk = none := by
    rw [get_cleared, if_pos (.inl (isRepodata_plan hclean hw))]
  have hget := @RecordTable.get_writePlan x (yumFormat x depth) now _ _
    (plan_keys_nodup hclean) w hw (.inr hnone)
  rw [RecordTable.readArtifact, RecordTable.find, RecordTable.depthChange, ← IndexWrite.sk, hget]
  rfl

/-- A package that is not in a directory with the name `repodata` is found by the rebuild. -/
theorem mem_depthPackages (hperm : pkgs.Perm (t.records.cleared x depth flagNow).yumPackages)
    {r : StoredRecord} (hget : t.records.get sk = some r) (hyum : r.packageMeta.isYum = true)
    (hrd : isRepodata sk = false) (hflag : sk ≠ yumStalePath) : (sk, r) ∈ pkgs := by
  rw [hperm.mem_iff, RecordTable.yumPackages, mem_filter, SortedMap.mem_entries_iff,
    get_cleared, if_neg, hget]
  · exact ⟨rfl, hyum⟩
  · rw [hrd]
    exact not_or_intro Bool.false_ne_true hflag

/-- Such a package is listed. -/
theorem covered_depthChange
    (hperm : pkgs.Perm (t.records.cleared x depth flagNow).yumPackages)
    {r : StoredRecord} (hget : t.records.get sk = some r) (hyum : r.packageMeta.isYum = true)
    (hrd : isRepodata sk = false) (hflag : sk ≠ yumStalePath) :
    ∃ group, (sk, r) ∈ group ∧ ∀ w ∈ yumGroupPlan x now (repodataPrefix sk depth) group,
      (t.records.depthChange x depth flagNow now pkgs).readArtifact w.path = some w.data := by
  have hmem := t.mem_depthPackages hperm hget hyum hrd hflag
  refine ⟨pkgs.filter fun e => repodataPrefix e.1 depth = repodataPrefix sk depth, ?_, ?_⟩
  · exact mem_filter.mpr ⟨hmem, decide_eq_true rfl⟩
  · intro w hw
    have hgroup : repodataPrefix sk depth ∈ repodataGroups depth (pkgs.map Prod.fst) :=
      mem_repodataGroups.mpr (.inl ⟨sk, mem_map_of_mem hmem, rfl⟩)
    exact t.readArtifact_depthChange hperm (mem_flatMap.mpr ⟨_, hgroup, hw⟩)

/-- The records without repodata, as those of a repository whose packages are RPM files. -/
def flagged (x : IndexExt) (depth : ℕ) (flagNow : DateTime)
    (hex : ∀ {sk r}, t.records.get sk = some r → r.packageMeta.isYum = true → YumEntry (sk, r)) :
    YumRepo where
  records := t.records.deleteAllRepodata.setMetadataStale x depth flagNow
  clean := by
    intro sk r hget
    rw [get_flagged] at hget
    split_ifs at hget with hsk
    · rw [hsk, ← (by decide +kernel : normalizePath yumStalePath = yumStalePath)]
      exact clean_normalizePath _
    · exact t.clean hget
  hex := by
    intro sk r hget hyum
    rw [get_flagged] at hget
    split_ifs at hget
    · obtain rfl := Option.some.inj hget
      cases hyum
    · exact hex hget hyum

/-- A client finds it in the directory of its group. -/
theorem listed_depthChange (gz : Gunzip x)
    (hex : ∀ {sk r}, t.records.get sk = some r → r.packageMeta.isYum = true → YumEntry (sk, r))
    (hperm : pkgs.Perm (t.records.cleared x depth flagNow).yumPackages)
    {r : StoredRecord} (hget : t.records.get sk = some r) (hyum : r.packageMeta.isYum = true)
    (hrd : isRepodata sk = false) (hflag : sk ≠ yumStalePath) :
    sk ∈ (t.records.depthChange x depth flagNow now pkgs).listedAt gz (repodataPrefix sk depth) := by
  have hperm' : pkgs.Perm (t.flagged x depth flagNow hex).records.clearStaleFlag.yumPackages :=
    hperm
  have hmem := t.mem_depthPackages hperm hget hyum hrd hflag
  have hgroup : repodataPrefix sk depth ∈ groupsOf depth pkgs :=
    mem_repodataGroups.mpr (.inl ⟨sk, mem_map_of_mem hmem, rfl⟩)
  -- nothing is left where the files of the groups go
  have hgone : ∀ pfx, SortedMap.get (t.records.cleared x depth flagNow)
      (primarySk x depth pkgs pfx) = none := by
    intro pfx
    rw [get_cleared, primarySk, if_pos (.inl (isRepodata_file pfx _))]
  have hnames : HashNames x depth pkgs (t.flagged x depth flagNow hex).records := by
    intro pfx _ r hr
    have hr' : SortedMap.get (t.records.deleteAllRepodata.setMetadataStale x depth flagNow)
        (primarySk x depth pkgs pfx) = some r := hr
    have hne : primarySk x depth pkgs pfx ≠ yumStalePath := by
      have hname : FileName (hashedName x "primary" (primaryData x depth pkgs pfx)) :=
        fileName_hashedName (by decide) _
      exact YumRepo.ne_stalePath hname pfx
    rw [get_flagged, if_neg hne, primarySk, if_pos (isRepodata_file pfx _)] at hr'
    cases hr'
  have hfree : NoneInPlace x depth pkgs := by
    intro e he pfx _ heq
    have hthere := ((YumRepo.mem_pkgs hperm').mp he).1
    rw [heq] at hthere
    have hnone := hgone pfx
    have hsome : SortedMap.get (t.records.cleared x depth flagNow)
        (primarySk x depth pkgs pfx) = some e.2 := hthere
    rw [hnone] at hsome
    cases hsome
  have hsame : t.records.depthChange x depth flagNow now pkgs =
      (t.flagged x depth flagNow hex).records.rebuildMetadata x depth now pkgs := rfl
  rw [hsame, YumRepo.listedAt_rebuild hperm' hnames hfree hgroup]
  exact mem_map_of_mem (mem_filter.mpr ⟨hmem, decide_eq_true rfl⟩)

/-- Packages and snapshots survive every change of the depth exactly when none of them is at a
    path with a directory `repodata` in it, or at that of the flag. -/
theorem depth_change_keeps_iff (x : IndexExt) (depth : ℕ) (t : YumTable) :
    (∀ flagNow now pkgs, pkgs.Perm (t.records.cleared x depth flagNow).yumPackages →
      DepthKept x depth now t.records (t.records.depthChange x depth flagNow now pkgs)) ↔
      ∀ sk r, t.records.get sk = some r → r.packageMeta.isYum = true ∨ isSnapshotFile sk r →
        isRepodata sk = false ∧ sk ≠ yumStalePath := by
  constructor
  · intro hkept sk r hget hkind
    by_contra hsk
    have hgone : isRepodata sk = true ∨ sk = yumStalePath := by
      by_contra hnot
      rw [not_or, Bool.not_eq_true] at hnot
      exact hsk hnot
    have hlater : r.record.createdAt + 1 ≠ r.record.createdAt := (lt_add_one _).ne'
    have hafter := hkept 0 (r.record.createdAt + 1) _ (Perm.refl _)
    rcases hkind with hyum | hsnap
    · exact t.not_kept hgone hlater (hafter.packages hget hyum)
    · exact t.not_kept hgone hlater (hafter.snapshots hget hsnap)
  · intro hapart flagNow now pkgs hperm
    constructor
    · intro sk r hget hyum
      obtain ⟨hrd, hflag⟩ := hapart sk r hget (.inl hyum)
      rw [t.get_depthChange hperm hrd hflag, hget]
    · intro sk r hget hsnap
      obtain ⟨hrd, hflag⟩ := hapart sk r hget (.inr hsnap)
      rw [t.get_depthChange hperm hrd hflag, hget]
    · intro sk r hget hyum
      obtain ⟨hrd, hflag⟩ := hapart sk r hget (.inl hyum)
      exact t.covered_depthChange hperm hget hyum hrd hflag
    · intro gz hex sk r hget hyum
      obtain ⟨hrd, hflag⟩ := hapart sk r hget (.inl hyum)
      exact t.listed_depthChange gz hex hperm hget hyum hrd hflag

end YumTable

/-! ## A snapshot -/

/-- Where `create_snapshot` stores what publishes a snapshot. -/
def snapshotPath : String := "snapshots/s/repodata/repomd.xml"

/-- What it stores there. -/
def snapshotRecord : StoredRecord :=
  let data := utf8 "<repomd></repomd>"
  { record := recordAt 0 data.length "application/xml" .yumMetadata true none
    content := some data }

theorem normalizePath_snapshotPath : normalizePath snapshotPath = snapshotPath := by
  decide +kernel

def snapshotTable : YumTable where
  records := RecordTable.put SortedMap.empty snapshotPath snapshotRecord
  clean := by
    intro sk r hget
    rw [RecordTable.get_put] at hget
    split_ifs at hget with hsk
    · rw [hsk]
      exact clean_normalizePath _
    · cases hget

/-- The snapshot is gone after a change of the depth. -/
theorem snapshot_deleted : ¬ ∀ (x : IndexExt) (depth : ℕ) (t : YumTable) flagNow now pkgs,
    pkgs.Perm (t.records.cleared x depth flagNow).yumPackages →
    DepthKept x depth now t.records (t.records.depthChange x depth flagNow now pkgs) := by
  intro hall
  have hkept := hall IndexExt.sample 1 snapshotTable 0 1 _ (Perm.refl _)
  have hget : SortedMap.get snapshotTable.records snapshotPath = some snapshotRecord := by
    rw [snapshotTable, RecordTable.get_put, normalizePath_snapshotPath, if_pos rfl]
  have hsnap : isSnapshotFile snapshotPath snapshotRecord := ⟨by decide +kernel, rfl⟩
  have hrd : isRepodata snapshotPath = true := by decide +kernel
  have hnow : (1 : DateTime) ≠ snapshotRecord.record.createdAt := by decide
  exact snapshotTable.not_kept (.inl hrd) hnow (hkept.snapshots hget hsnap)

end Depot
