import Depot.Yum.Primary
import Depot.Yum.Rebuild

/-!
# The groups of a Yum repository

After a rebuild each package is to be listed by the metadata of one group (`rebuild_metadata`,
`format/yum/src/store/store.rs` lines 331–443). A client finds the packages of a group through its
`repomd.xml`, which names the file that lists them.

Results:
* `joinPath_locationHref`: the path that is listed leads back to the package.
* `YumRepo.listedAt_rebuild`: what a client finds in the directory of a group.
* `YumRepo.partition_iff`: the packages are partitioned exactly when no directory that lists
  packages has lost its group, and no package is stored in place of a `repomd.xml` or of the file
  that lists the packages of a group.

**A group that is gone stays published.** A rebuild writes the groups that have packages; nothing
removes or empties the `repomd.xml` of a group whose last package was deleted, unless the depth
is 0.
-/

namespace Depot

open Lib List
open RecordTable (get_put get_remove get_writePlan get_writePlan_of_some putStored)

/-! ## The client -/

/-- What a client unpacks files with (`GzDecoder`); an RPM file is not packed this way. -/
structure Gunzip (x : IndexExt) where
  run : Bytes → Option Bytes
  run_gzip : ∀ data, run (x.gzip data) = some data
  run_rpm : ∀ data, rpmLead <+: data → run data = none

/-- The text of a file. -/
def textOf (data : Bytes) : String := fromUtf8Lossy ⟨data.toArray⟩

/-- The file with the packages that a `repomd.xml` names, in its directory. -/
def primaryName (repomd : String) : Option String :=
  ((primaryLocation repomd).bind (dropStart "repodata/")).filter fun name =>
    decide (name ≠ "" ∧ '/' ∉ name.toList)

theorem textOf_utf8 (text : String) : textOf (utf8 text) = text :=
  SnapshotExt.lossy_utf8 SnapshotExt.plain text

variable {name path : String}

theorem fileName_primaryName {repomd : String} (h : primaryName repomd = some name) :
    FileName name := by
  have hname := of_decide_eq_true (Option.filter_eq_some_iff.mp h).2
  exact ⟨hname.1, hname.2⟩

namespace RecordTable

variable {x : IndexExt} (gz : Gunzip x) (t : RecordTable StoredRecord) (pfx : String)

/-- The document that lists the packages of a directory. -/
def primaryText : Option String :=
  (t.readArtifact (repomdPath pfx)).bind fun repomd =>
    (primaryName (textOf repomd)).bind fun name =>
      (t.readArtifact (repodataDir pfx ++ "/" ++ name)).bind fun data =>
        (gz.run data).map textOf

/-- The paths of the packages that it lists. -/
def listedAt : List String := (t.primaryText gz pfx).elim [] (listedPaths pfx)

variable {gz t pfx}

/-- What a client finds depends on the files of the directory alone. -/
theorem primaryText_congr {t' : RecordTable StoredRecord} (hpfx : CleanPath pfx)
    (h : ∀ name, FileName name → SortedMap.get t (repodataDir pfx ++ "/" ++ name) =
      t'.get (repodataDir pfx ++ "/" ++ name)) : t.primaryText gz pfx = t'.primaryText gz pfx := by
  have hread : ∀ name, FileName name → t.readArtifact (repodataDir pfx ++ "/" ++ name) =
      t'.readArtifact (repodataDir pfx ++ "/" ++ name) := by
    intro name hname
    rw [readArtifact, readArtifact, find, find, normalizePath_file hpfx hname, h name hname]
  have hrepomd : FileName "repomd.xml" := ⟨by decide, by decide⟩
  rw [primaryText, primaryText, repomdPath_eq, hread _ hrepomd]
  refine Option.bind_congr fun repomd _ => Option.bind_congr fun name hname => ?_
  rw [hread name (fileName_primaryName hname)]

end RecordTable

/-! ## Paths below a group -/

/-- The path that is listed leads back to the package. -/
theorem joinPath_locationHref (h : CleanPath path) (depth : ℕ) :
    joinPath (repodataPrefix path depth) (locationHref path (repodataPrefix path depth)) = path := by
  by_cases hnil : repodataPrefix path depth = ""
  · rw [joinPath, locationHref, if_pos hnil, if_pos hnil]
  have hsplit : ∃ tail, path.toList = (repodataPrefix path depth).toList ++ '/' :: tail := by
    cases depth with
    | zero => exact absurd (if_pos rfl) hnil
    | succ k =>
      rw [repodataPrefix, if_neg (Nat.succ_ne_zero k), dirPrefix] at hnil ⊢
      rw [String.toList_ofList]
      cases hdir : (splitLast path.toList).1 with
      | none =>
        rw [hdir] at hnil
        exact absurd rfl hnil
      | some dir =>
        obtain ⟨rest, hrest, hend⟩ := take_segments k (dir.splitOn '/')
        rw [intercalate_splitOn] at hrest
        have hpath := splitLast_some hdir
        rw [hrest] at hpath
        rcases hend with rfl | hslash
        · exact ⟨(splitLast path.toList).2, by simpa using hpath⟩
        · obtain ⟨tail, rfl⟩ := head?_eq_some_iff.mp hslash
          exact ⟨tail ++ '/' :: (splitLast path.toList).2, by simpa using hpath⟩
  obtain ⟨tail, htail⟩ := hsplit
  generalize repodataPrefix path depth = pfx at hnil htail
  have hhead : tail.dropWhile (· = '/') = tail := by
    cases tail with
    | nil => rfl
    | cons c tail =>
      have hc : c ≠ '/' := by
        rintro rfl
        exact h.double ⟨pfx.toList, tail, by rw [htail]; simp⟩
      rw [dropWhile_cons_of_neg (by simpa using hc)]
  have hpre : pfx.toList.isPrefixOf path.toList = true := by
    rw [List.isPrefixOf_iff_prefix, htail]
    exact prefix_append _ _
  have hdrop : path.toList.drop pfx.length = '/' :: tail := by
    rw [htail, ← String.length_toList, drop_left]
  have hfirst : ('/' :: tail).dropWhile (· = '/') = tail := by
    rw [dropWhile_cons, if_pos (decide_eq_true rfl), hhead]
  rw [joinPath, locationHref, if_neg hnil, if_neg hnil, if_pos hpre, hdrop, hfirst]
  apply String.toList_inj.mp
  have hslash : "/".toList = ['/'] := by decide
  rw [String.toList_append, String.toList_append, hslash, String.toList_ofList, htail, append_assoc]
  rfl

/-! ## A rebuild -/

/-- The records of a Yum repository: a package is an RPM file and has the checksum of its bytes
    (`put_package`, lines 37–46). -/
structure YumRepo extends YumTable where
  hex : ∀ {sk r}, SortedMap.get records sk = some r → r.packageMeta.isYum = true → YumEntry (sk, r)

namespace RecordTable

/-- `rebuild_metadata`, after which the packages are listed in the order in which the scans of the
    shards have found them. -/
def rebuildMetadata (x : IndexExt) (depth : ℕ) (now : DateTime) (pkgs : List (String × StoredRecord))
    (t : RecordTable StoredRecord) : RecordTable StoredRecord :=
  t.clearStaleFlag.writePlan x (yumFormat x depth) now (yumPlan x depth now pkgs)

end RecordTable

/-- The packages of a group. -/
def yumGroup (depth : ℕ) (pkgs : List (String × StoredRecord)) (pfx : String) :
    List (String × StoredRecord) :=
  pkgs.filter fun e => repodataPrefix e.1 depth = pfx

/-- The file with the packages of a group, and where it is stored. -/
def primaryData (x : IndexExt) (depth : ℕ) (pkgs : List (String × StoredRecord)) (pfx : String) :
    Bytes :=
  x.gzip (utf8 (generatePrimaryXml (yumGroup depth pkgs pfx) pfx))

/-- The key of the primary of a group. -/
def primarySk (x : IndexExt) (depth : ℕ) (pkgs : List (String × StoredRecord)) (pfx : String) :
    String :=
  repodataDir pfx ++ "/" ++ hashedName x "primary" (primaryData x depth pkgs pfx)

/-- The groups of the packages. -/
abbrev groupsOf (depth : ℕ) (pkgs : List (String × StoredRecord)) : List String :=
  repodataGroups depth (pkgs.map Prod.fst)

/-- A name stands for one content: metadata that is stored under the SHA-256 of a file is that
    file. Packages have the names that they are given. -/
def HashNames (x : IndexExt) (depth : ℕ) (pkgs : List (String × StoredRecord))
    (t : RecordTable StoredRecord) : Prop :=
  ∀ pfx ∈ groupsOf depth pkgs, ∀ r, t.get (primarySk x depth pkgs pfx) = some r →
    r.packageMeta.isYum = false → r.content = some (primaryData x depth pkgs pfx)

/-- No package is stored where the packages of a group are to be listed. -/
def NoneInPlace (x : IndexExt) (depth : ℕ) (pkgs : List (String × StoredRecord)) : Prop :=
  ∀ e ∈ pkgs, ∀ pfx ∈ groupsOf depth pkgs, e.1 ≠ primarySk x depth pkgs pfx

namespace YumRepo

variable {x : IndexExt} {gz : Gunzip x} {depth : ℕ} {now : DateTime}
variable {pkgs : List (String × StoredRecord)} {t : YumRepo} {pfx : String}

theorem get_clearStaleFlag (t : RecordTable StoredRecord) (sk : String) :
    SortedMap.get t.clearStaleFlag sk = if sk = yumStalePath then none else t.get sk := by
  have hflag : normalizePath yumStalePath = yumStalePath := by decide +kernel
  rw [RecordTable.clearStaleFlag, get_remove, hflag]

/-- The flag is no file of a directory with metadata. -/
theorem ne_stalePath (hname : FileName name) (pfx : String) :
    repodataDir pfx ++ "/" ++ name ≠ yumStalePath := by
  intro heq
  have hflag : yumStalePath = "_yum" ++ "/" ++ "metadata_stale" := by decide +kernel
  have hdir := (file_inj hname ⟨by decide, by decide⟩ (heq.trans hflag)).1
  have hend : "repodata".toList <:+ (repodataDir pfx).toList := by
    rw [repodataDir]
    split_ifs
    · exact suffix_rfl
    · exact IsSuffix.trans (by decide +kernel) (suffix_append pfx "/repodata")
  rw [hdir] at hend
  revert hend
  decide

section

variable (hperm : pkgs.Perm t.records.clearStaleFlag.yumPackages)
include hperm

variable {r : StoredRecord} {sk : String}

/-- The packages that are found are those that are stored, the record of the flag apart. -/
theorem mem_pkgs : (sk, r) ∈ pkgs ↔
    t.records.clearStaleFlag.get sk = some r ∧ r.packageMeta.isYum = true := by
  rw [hperm.mem_iff, RecordTable.yumPackages, mem_filter, SortedMap.mem_entries_iff]

theorem get_of_mem (h : (sk, r) ∈ pkgs) :
    t.records.get sk = some r ∧ r.packageMeta.isYum = true := by
  obtain ⟨hget, hyum⟩ := (mem_pkgs hperm).mp h
  rw [get_clearStaleFlag] at hget
  split_ifs at hget
  exact ⟨hget, hyum⟩

theorem clean_pkgs : ∀ e ∈ pkgs, CleanPath e.1 :=
  fun _ he => t.clean (get_of_mem hperm he).1

theorem yumEntry_pkgs : ∀ e ∈ pkgs, YumEntry e := by
  intro e he
  obtain ⟨hget, hyum⟩ := get_of_mem hperm he
  exact t.hex hget hyum

theorem nodup_pkgs : (pkgs.map Prod.fst).Nodup := by
  have hnodup := nodup_keys_of_sorted t.records.clearStaleFlag.sorted
  refine ((hperm.map Prod.fst).nodup_iff).mpr (hnodup.sublist ?_)
  exact (filter_sublist).map Prod.fst

/-- What a rebuild leaves as it is: all but the files of its groups. -/
theorem get_rebuild_file (hpfx : CleanPath pfx) (hgroup : pfx ∉ groupsOf depth pkgs)
    (hname : FileName name) :
    SortedMap.get (t.records.rebuildMetadata x depth now pkgs) (repodataDir pfx ++ "/" ++ name) =
      t.records.get (repodataDir pfx ++ "/" ++ name) := by
  have hnot : repodataDir pfx ++ "/" ++ name ∉ (yumPlan x depth now pkgs).map IndexWrite.sk := by
    intro hmem
    obtain ⟨w, hw, hsk⟩ := mem_map.mp hmem
    obtain ⟨pfx', hpfx', hw⟩ := mem_yumPlan hw
    have hclean' := clean_groups (clean_pkgs hperm) hpfx'
    have hfile := mem_map_of_mem (f := IndexWrite.sk) hw
    rw [yumGroupPlan_sks hclean'] at hfile
    obtain ⟨name', hname', heq⟩ := mem_map.mp hfile
    have hdir := (file_inj (fileName_groupNames hname') hname (heq.trans hsk)).1
    exact hgroup (repodataDir_inj hclean' hpfx hdir ▸ hpfx')
  rw [RecordTable.rebuildMetadata, RecordTable.get_writePlan_of_notMem hnot, get_clearStaleFlag,
    if_neg (ne_stalePath hname pfx)]

/-- A directory without a group stays as it is. -/
theorem primaryText_rebuild_other (hpfx : CleanPath pfx) (hgroup : pfx ∉ groupsOf depth pkgs) :
    (t.records.rebuildMetadata x depth now pkgs).primaryText gz pfx =
      t.records.primaryText gz pfx :=
  RecordTable.primaryText_congr hpfx fun _ hname => get_rebuild_file hperm hpfx hgroup hname

/-- What is a package afterwards was found. -/
theorem mem_of_get_rebuild
    (h : SortedMap.get (t.records.rebuildMetadata x depth now pkgs) sk = some r)
    (hyum : r.packageMeta.isYum = true) : (sk, r) ∈ pkgs := by
  rcases RecordTable.get_writePlan_cases h with hget | ⟨w, -, rfl⟩
  · exact (mem_pkgs hperm).mpr ⟨hget, hyum⟩
  · cases hyum

/-- A package that is at no `repomd.xml` stays. -/
theorem get_rebuild_package (hmem : (sk, r) ∈ pkgs)
    (hrepomd : ∀ pfx ∈ groupsOf depth pkgs, sk ≠ repomdPath pfx) :
    SortedMap.get (t.records.rebuildMetadata x depth now pkgs) sk = some r := by
  have hget := ((mem_pkgs hperm).mp hmem).1
  refine get_writePlan_of_some hget fun w hw hsk => ?_
  obtain ⟨pfx, hpfx, hw⟩ := mem_yumPlan hw
  rcases mem_yumGroupPlan hw with ⟨hcommit, -⟩ | ⟨-, hpath⟩
  · exact hcommit
  · have hclean := clean_groups (clean_pkgs hperm) hpfx
    have hrepomd' : FileName "repomd.xml" := ⟨by decide, by decide⟩
    have hskey : w.sk = repomdPath pfx := by
      rw [IndexWrite.sk, hpath, repomdPath_eq, normalizePath_file hclean hrepomd']
    exact absurd (hsk.trans hskey) (hrepomd pfx hpfx)

/-- The package at a `repomd.xml` does not. -/
theorem get_rebuild_repomd (hpfx : pfx ∈ groupsOf depth pkgs)
    (h : SortedMap.get (t.records.rebuildMetadata x depth now pkgs) (repomdPath pfx) = some r) :
    r.packageMeta.isYum = false := by
  obtain ⟨w, hw, hcommit, hpath⟩ := yumGroupPlan_commit x now pfx (yumGroup depth pkgs pfx)
  have hmem : w ∈ yumPlan x depth now pkgs := mem_flatMap.mpr ⟨pfx, hpfx, hw⟩
  have hclean := clean_pkgs hperm
  have hget := @get_writePlan x (yumFormat x depth) now
    t.records.clearStaleFlag _ (plan_keys_nodup hclean) w hmem (.inl hcommit)
  have hsk : w.sk = repomdPath pfx := by
    have hname : FileName "repomd.xml" := ⟨by decide, by decide⟩
    rw [IndexWrite.sk, hpath, repomdPath_eq, normalizePath_file (clean_groups hclean hpfx) hname]
  rw [hsk] at hget
  rw [RecordTable.rebuildMetadata, hget] at h
  obtain rfl := Option.some.inj h
  rfl

end

/-! ## What a client finds -/

theorem primaryName_repomd {primary : RepoDataEntry} (hsum : '<' ∉ primary.checksum.toList)
    (hopen : '<' ∉ primary.openChecksum.toList) (hquote : quoteMark ∉ primary.filename.toList)
    (hname : FileName primary.filename) (revision : ℤ) (filelists other : RepoDataEntry) (ts : ℤ) :
    primaryName (generateRepomdXml revision primary filelists other ts) = some primary.filename := by
  have hstart : dropStart "repodata/" ("repodata/" ++ primary.filename) = some primary.filename := by
    rw [dropStart, String.toList_append, if_pos (prefix_append _ _), ← String.length_toList,
      drop_left, String.ofList_toList]
  rw [primaryName, primaryLocation_repomd hsum hopen hquote, Option.bind_some, hstart,
    Option.filter_some, if_pos (decide_eq_true ⟨hname.ne, hname.slash⟩)]

theorem notMem_sha256 {c : Char} (hc : isHex c = false) (x : IndexExt) (data : Bytes) :
    c ∉ (x.sha256 data).toList := by
  intro hmem
  rw [x.sha256_hex data c hmem] at hc
  cases hc

theorem notMem_hashedName (x : IndexExt) (data : Bytes) :
    quoteMark ∉ (hashedName x "primary" data).toList := by
  have hend : quoteMark ∉ ("-" ++ "primary" ++ ".xml.gz").toList := by decide +kernel
  have hshape : hashedName x "primary" data = x.sha256 data ++ ("-" ++ "primary" ++ ".xml.gz") := by
    simp only [hashedName, String.append_assoc]
  rw [hshape, String.toList_append, mem_append, not_or]
  exact ⟨notMem_sha256 (by decide) x data, hend⟩

section

variable (hperm : pkgs.Perm t.records.clearStaleFlag.yumPackages)
include hperm

theorem normalizePath_primarySk (hpfx : pfx ∈ groupsOf depth pkgs) :
    normalizePath (primarySk x depth pkgs pfx) = primarySk x depth pkgs pfx :=
  normalizePath_file (clean_groups (clean_pkgs hperm) hpfx) (fileName_hashedName (by decide) _)

/-- A client reads the file under the name that a group's `repomd.xml` gives. -/
theorem primaryText_group (hpfx : pfx ∈ groupsOf depth pkgs) :
    (t.records.rebuildMetadata x depth now pkgs).primaryText gz pfx =
      ((t.records.rebuildMetadata x depth now pkgs).readArtifact (primarySk x depth pkgs pfx)).bind
        fun data => (gz.run data).map textOf := by
  have hclean := clean_pkgs hperm
  have hread : ∃ filelists other : RepoDataEntry,
      (t.records.rebuildMetadata x depth now pkgs).readArtifact (repomdPath pfx) =
        some (utf8 (generateRepomdXml (timestamp now)
          (repoDataEntry x (hashedName x "primary" (primaryData x depth pkgs pfx))
            (primaryData x depth pkgs pfx)
            (utf8 (generatePrimaryXml (yumGroup depth pkgs pfx) pfx)))
          filelists other (timestamp now))) := by
    have hmem : ∃ w ∈ yumPlan x depth now pkgs, w.path = repomdPath pfx ∧ w.commit = true ∧
        ∃ filelists other : RepoDataEntry, w.data = utf8 (generateRepomdXml (timestamp now)
          (repoDataEntry x (hashedName x "primary" (primaryData x depth pkgs pfx))
            (primaryData x depth pkgs pfx)
            (utf8 (generatePrimaryXml (yumGroup depth pkgs pfx) pfx)))
          filelists other (timestamp now)) :=
      ⟨_, mem_flatMap.mpr ⟨pfx, hpfx, mem_cons_of_mem _ (mem_cons_of_mem _
        (mem_cons_of_mem _ mem_cons_self))⟩, rfl, rfl, _, _, rfl⟩
    obtain ⟨w, hw, hpath, hcommit, filelists, other, hdata⟩ := hmem
    refine ⟨filelists, other, ?_⟩
    have hget := @get_writePlan x (yumFormat x depth) now
      t.records.clearStaleFlag _ (plan_keys_nodup hclean) w hw (.inl hcommit)
    rw [RecordTable.readArtifact, RecordTable.find, ← hpath, ← hdata, ← IndexWrite.sk,
      RecordTable.rebuildMetadata, hget]
    rfl
  obtain ⟨filelists, other, hread⟩ := hread
  have hlt : isHex '<' = false := by decide
  rw [RecordTable.primaryText, hread, Option.bind_some, textOf_utf8,
    primaryName_repomd (notMem_sha256 hlt x _) (notMem_sha256 hlt x _) (notMem_hashedName x _)
      (fileName_hashedName (by decide) _), Option.bind_some]
  rfl

/-- A package in place of that file stays, and cannot be unpacked. -/
theorem primaryText_package {e : String × StoredRecord} (he : e ∈ pkgs)
    (hpfx : pfx ∈ groupsOf depth pkgs) (hsk : e.1 = primarySk x depth pkgs pfx) :
    (t.records.rebuildMetadata x depth now pkgs).primaryText gz pfx = none := by
  have hrepomd : ∀ pfx' ∈ groupsOf depth pkgs, e.1 ≠ repomdPath pfx' := by
    intro pfx' _ heq
    rw [hsk, primarySk, repomdPath_eq] at heq
    exact hashedName_ne_repomd _ _
      (file_inj (fileName_hashedName (by decide) _) ⟨by decide, by decide⟩ heq).2
  have hget := @get_rebuild_package x depth now pkgs t hperm e.2 e.1 he hrepomd
  rw [hsk] at hget
  rw [primaryText_group hperm hpfx, RecordTable.readArtifact, RecordTable.find,
    normalizePath_primarySk hperm hpfx, hget, Option.bind_some]
  cases hcontent : e.2.content with
  | none => rfl
  | some data =>
    rw [Option.bind_some, gz.run_rpm data ((yumEntry_pkgs hperm e he).lead data hcontent)]
    rfl

variable (hnames : HashNames x depth pkgs t.records) (hfree : NoneInPlace x depth pkgs)
include hnames hfree

/-- The file that lists the packages of a group can be read. -/
theorem readArtifact_primary (hpfx : pfx ∈ groupsOf depth pkgs) :
    (t.records.rebuildMetadata x depth now pkgs).readArtifact (primarySk x depth pkgs pfx) =
      some (primaryData x depth pkgs pfx) := by
  have hclean := clean_pkgs hperm
  have hsk : normalizePath (primarySk x depth pkgs pfx) = primarySk x depth pkgs pfx :=
    normalizePath_primarySk hperm hpfx
  have hfile : ∃ w ∈ yumPlan x depth now pkgs, w.sk = primarySk x depth pkgs pfx ∧
      w.commit = false ∧ w.data = primaryData x depth pkgs pfx :=
    ⟨_, mem_flatMap.mpr ⟨pfx, hpfx, mem_cons_self⟩, hsk, rfl, rfl⟩
  obtain ⟨w, hw, hwsk, hcommit, hdata⟩ := hfile
  have hnodup : ((yumPlan x depth now pkgs).map IndexWrite.sk).Nodup := plan_keys_nodup hclean
  rw [RecordTable.readArtifact, RecordTable.find, hsk, RecordTable.rebuildMetadata]
  cases hget : t.records.clearStaleFlag.get (primarySk x depth pkgs pfx) with
  | none =>
    rw [← hwsk] at hget
    rw [← hwsk, get_writePlan hnodup hw (.inr hget), ← hdata]
    rfl
  | some r =>
    have hstays : ∀ v ∈ yumPlan x depth now pkgs, primarySk x depth pkgs pfx = v.sk →
        v.commit = false := by
      intro v hv heq
      rw [inj_on_of_nodup_map hnodup hv hw (heq.symm.trans hwsk.symm), hcommit]
    rw [get_writePlan_of_some hget hstays, Option.bind_some]
    cases hyum : r.packageMeta.isYum with
    | true => exact absurd rfl (hfree _ ((mem_pkgs hperm).mpr ⟨hget, hyum⟩) pfx hpfx)
    | false =>
      rw [get_clearStaleFlag] at hget
      split_ifs at hget
      exact hnames pfx hpfx r hget hyum

/-- What is read in the directory of a group is what was generated for it. -/
theorem primaryText_rebuild (hpfx : pfx ∈ groupsOf depth pkgs) :
    (t.records.rebuildMetadata x depth now pkgs).primaryText gz pfx =
      some (generatePrimaryXml (yumGroup depth pkgs pfx) pfx) := by
  rw [primaryText_group hperm hpfx, readArtifact_primary hperm hnames hfree hpfx, Option.bind_some,
    primaryData, gz.run_gzip, Option.map_some, textOf_utf8]

/-- The directory of a group lists its packages, each at its path. -/
theorem listedAt_rebuild (hpfx : pfx ∈ groupsOf depth pkgs) :
    (t.records.rebuildMetadata x depth now pkgs).listedAt gz pfx =
      (yumGroup depth pkgs pfx).map Prod.fst := by
  have hentries : ∀ e ∈ yumGroup depth pkgs pfx, YumEntry e := fun e he =>
    yumEntry_pkgs hperm e (mem_filter.mp he).1
  rw [RecordTable.listedAt, primaryText_rebuild hperm hnames hfree hpfx, Option.elim_some,
    listedPaths_primary hentries]
  refine map_congr_left fun e he => ?_
  obtain ⟨hmem, hgroup⟩ := mem_filter.mp he
  have hgroup := of_decide_eq_true hgroup
  rw [← hgroup]
  exact joinPath_locationHref (clean_pkgs hperm e hmem) depth

end

end YumRepo

/-! ## The partition -/

/-- The directories whose metadata a client finds: those of the groups, and all others that are
    not in a snapshot. -/
structure Shown (depth : ℕ) (pkgs : List (String × StoredRecord)) (pfx : String) : Prop where
  clean : CleanPath pfx
  live : pfx ∈ groupsOf depth pkgs ∨ hasPrefix "snapshots/" pfx = false

/-- The packages that a rebuild has found are partitioned by what is published afterwards. -/
structure Partition {x : IndexExt} (gz : Gunzip x) (depth : ℕ) (pkgs : List (String × StoredRecord))
    (t : RecordTable StoredRecord) : Prop where
  once : ∀ e ∈ pkgs, ∃ pfx, Shown depth pkgs pfx ∧ (t.listedAt gz pfx).count e.1 = 1 ∧
    ∀ pfx', Shown depth pkgs pfx' → e.1 ∈ t.listedAt gz pfx' → pfx' = pfx
  stored : ∀ pfx, Shown depth pkgs pfx → ∀ path ∈ t.listedAt gz pfx,
    ∃ r, t.get path = some r ∧ r.packageMeta.isYum = true
  counted : ∀ pfx ∈ groupsOf depth pkgs, ∃ text, t.primaryText gz pfx = some text ∧
    packagesAttr text = some (toString (packagesIn text.toList).length)

/-- No directory lists packages without being that of a group, and no package is stored at the
    `repomd.xml` of a group or in place of the file that lists its packages. -/
structure GroupsKept {x : IndexExt} (gz : Gunzip x) (depth : ℕ)
    (pkgs : List (String × StoredRecord)) (t : RecordTable StoredRecord) : Prop where
  alive : ∀ pfx, Shown depth pkgs pfx → t.listedAt gz pfx ≠ [] → pfx ∈ groupsOf depth pkgs
  apart : ∀ e ∈ pkgs, ∀ pfx ∈ groupsOf depth pkgs, e.1 ≠ repomdPath pfx
  free : NoneInPlace x depth pkgs

variable {e : String × StoredRecord}

namespace YumRepo

variable {x : IndexExt} {gz : Gunzip x} {depth : ℕ} {now : DateTime}
variable {pkgs : List (String × StoredRecord)} {t : YumRepo} {pfx : String}

theorem mem_groupsOf (h : e ∈ pkgs) : repodataPrefix e.1 depth ∈ groupsOf depth pkgs :=
  mem_repodataGroups.mpr (.inl ⟨e.1, mem_map_of_mem h, rfl⟩)

section

variable (hperm : pkgs.Perm t.records.clearStaleFlag.yumPackages)
include hperm

theorem shown_group (hpfx : pfx ∈ groupsOf depth pkgs) : Shown depth pkgs pfx :=
  ⟨clean_groups (clean_pkgs hperm) hpfx, .inl hpfx⟩

variable (hnames : HashNames x depth pkgs t.records)
include hnames

section

variable (hfree : NoneInPlace x depth pkgs)
include hfree

/-- A group lists the packages whose directory it is. -/
theorem mem_listedAt_group {e : String × StoredRecord} (he : e ∈ pkgs)
    (hpfx : pfx ∈ groupsOf depth pkgs) :
    e.1 ∈ (t.records.rebuildMetadata x depth now pkgs).listedAt gz pfx ↔
      pfx = repodataPrefix e.1 depth := by
  rw [listedAt_rebuild hperm hnames hfree hpfx, mem_map]
  constructor
  · rintro ⟨e', he', heq⟩
    rw [← heq]
    exact (of_decide_eq_true (mem_filter.mp he').2).symm
  · rintro rfl
    exact ⟨e, mem_filter.mpr ⟨he, decide_eq_true rfl⟩, rfl⟩

theorem count_listedAt (he : e ∈ pkgs) :
    ((t.records.rebuildMetadata x depth now pkgs).listedAt gz (repodataPrefix e.1 depth)).count e.1 =
      1 := by
  have hnodup : ((yumGroup depth pkgs (repodataPrefix e.1 depth)).map Prod.fst).Nodup :=
    (nodup_pkgs hperm).sublist (filter_sublist.map Prod.fst)
  rw [count_eq_one_of_mem _ ((mem_listedAt_group hperm hnames hfree he (mem_groupsOf he)).mpr rfl)]
  rw [listedAt_rebuild hperm hnames hfree (mem_groupsOf he)]
  exact hnodup

theorem counted_rebuild (hpfx : pfx ∈ groupsOf depth pkgs) :
    ∃ text, (t.records.rebuildMetadata x depth now pkgs).primaryText gz pfx = some text ∧
      packagesAttr text = some (toString (packagesIn text.toList).length) := by
  have hentries : ∀ e ∈ yumGroup depth pkgs pfx, YumEntry e := fun e he =>
    yumEntry_pkgs hperm e (mem_filter.mp he).1
  obtain ⟨hattr, hlen⟩ := packagesAttr_primary hentries pfx
  refine ⟨_, primaryText_rebuild hperm hnames hfree hpfx, ?_⟩
  rw [hattr, hlen]

end

/-- When groups are kept, what is published is a partition. -/
theorem partition_of_kept (hkept : GroupsKept gz depth pkgs t.records) :
    Partition gz depth pkgs (t.records.rebuildMetadata x depth now pkgs) := by
  have hgroup : ∀ pfx, Shown depth pkgs pfx → ∀ path,
      path ∈ (t.records.rebuildMetadata x depth now pkgs).listedAt gz pfx →
      pfx ∈ groupsOf depth pkgs := by
    intro pfx hshown path hpath
    by_contra hnot
    have hsame : (t.records.rebuildMetadata x depth now pkgs).listedAt gz pfx =
        t.records.listedAt gz pfx := by
      rw [RecordTable.listedAt, primaryText_rebuild_other hperm hshown.clean hnot]
      rfl
    rw [hsame] at hpath
    exact hnot (hkept.alive pfx hshown (ne_nil_of_mem hpath))
  constructor
  · intro e he
    refine ⟨_, shown_group hperm (mem_groupsOf he), count_listedAt hperm hnames hkept.free he, ?_⟩
    intro pfx hshown hlisted
    exact (mem_listedAt_group hperm hnames hkept.free he (hgroup pfx hshown _ hlisted)).mp hlisted
  · intro pfx hshown path hpath
    have hpfx := hgroup pfx hshown path hpath
    rw [listedAt_rebuild hperm hnames hkept.free hpfx] at hpath
    obtain ⟨⟨sk, r⟩, he, rfl⟩ := mem_map.mp hpath
    have hmem := (mem_filter.mp he).1
    exact ⟨r, get_rebuild_package hperm hmem (hkept.apart _ hmem), (get_of_mem hperm hmem).2⟩
  · intro pfx hpfx
    exact counted_rebuild hperm hnames hkept.free hpfx

/-- What is published is a partition only when groups are kept. -/
theorem kept_of_partition
    (h : Partition gz depth pkgs (t.records.rebuildMetadata x depth now pkgs)) :
    GroupsKept gz depth pkgs t.records := by
  have hfree : NoneInPlace x depth pkgs := by
    intro e he pfx hpfx hsk
    obtain ⟨text, htext, -⟩ := h.counted pfx hpfx
    rw [primaryText_package hperm he hpfx hsk] at htext
    cases htext
  refine ⟨?_, ?_, hfree⟩
  · intro pfx hshown hlisted
    by_contra hnot
    obtain ⟨path, hpath⟩ := exists_mem_of_ne_nil _ hlisted
    have hafter : path ∈ (t.records.rebuildMetadata x depth now pkgs).listedAt gz pfx := by
      rw [RecordTable.listedAt, primaryText_rebuild_other hperm hshown.clean hnot]
      exact hpath
    obtain ⟨r, hget, hyum⟩ := h.stored pfx hshown path hafter
    have hmem := mem_of_get_rebuild hperm hget hyum
    obtain ⟨pfx', -, -, honly⟩ := h.once _ hmem
    have hown := honly _ (shown_group hperm (mem_groupsOf hmem))
      ((mem_listedAt_group hperm hnames hfree hmem (mem_groupsOf hmem)).mpr rfl)
    rw [honly pfx hshown hafter, ← hown] at hnot
    exact hnot (mem_groupsOf hmem)
  · rintro e he pfx hpfx heq
    have hlisted := (@mem_listedAt_group x gz depth now _ _ _ hperm hnames hfree e he
      (mem_groupsOf he)).mpr rfl
    obtain ⟨r, hget, hyum⟩ := h.stored _ (shown_group hperm (mem_groupsOf he)) _ hlisted
    rw [heq] at hget
    rw [get_rebuild_repomd hperm hpfx hget] at hyum
    cases hyum

/-- The packages are partitioned by what is published exactly when no group is gone that lists
    packages, and no package is stored at the `repomd.xml` of a group. -/
theorem partition_iff : Partition gz depth pkgs (t.records.rebuildMetadata x depth now pkgs) ↔
      GroupsKept gz depth pkgs t.records :=
  ⟨kept_of_partition hperm hnames, partition_of_kept hperm hnames⟩

end

end YumRepo

/-! ## A group that is gone -/

namespace YumRepo

/-- A record that is stored. -/
def put (t : YumRepo) (path : String) (r : StoredRecord)
    (h : r.packageMeta.isYum = true → ∀ sk, YumEntry (sk, r.prepared path)) : YumRepo where
  records := t.records.putStored path r
  clean := by
    intro sk r' hget
    rw [putStored, get_put] at hget
    split_ifs at hget with hsk
    · rw [hsk]
      exact clean_normalizePath path
    · exact t.clean hget
  hex := by
    intro sk r' hget hyum
    rw [putStored, get_put] at hget
    split_ifs at hget
    · obtain rfl := Option.some.inj hget
      exact h hyum sk
    · exact t.hex hget hyum

/-- The repository without a record. -/
def delete (t : YumRepo) (path : String) : YumRepo where
  records := t.records.remove path
  clean := by
    intro sk r hget
    rw [get_remove] at hget
    split_ifs at hget
    exact t.clean hget
  hex := by
    intro sk r hget hyum
    rw [get_remove] at hget
    split_ifs at hget
    exact t.hex hget hyum

/-- The records after a rebuild. -/
def rebuild (t : YumRepo) (x : IndexExt) (depth : ℕ) (now : DateTime)
    (pkgs : List (String × StoredRecord))
    (hperm : pkgs.Perm t.records.clearStaleFlag.yumPackages) : YumRepo where
  records := t.records.rebuildMetadata x depth now pkgs
  clean := by
    intro sk r hget
    by_cases hmem : sk ∈ (yumPlan x depth now pkgs).map IndexWrite.sk
    · obtain ⟨w, -, rfl⟩ := mem_map.mp hmem
      exact clean_normalizePath w.path
    · rw [RecordTable.rebuildMetadata, RecordTable.get_writePlan_of_notMem hmem,
        get_clearStaleFlag] at hget
      split_ifs at hget
      exact t.clean hget
  hex := by
    intro sk r hget hyum
    exact yumEntry_pkgs hperm _ (mem_of_get_rebuild hperm hget hyum)

/-- No records. -/
def empty : YumRepo where
  records := SortedMap.empty
  clean h := by cases h
  hex h := by cases h

variable {x : IndexExt} {gz : Gunzip x} {depth : ℕ} {now : DateTime} {t : YumRepo} {pfx : String}

theorem get_delete (t : YumRepo) (path sk : String) : SortedMap.get (t.delete path).records sk =
    if sk = normalizePath path then none else t.records.get sk :=
  get_remove ..

theorem records_rebuild (t : YumRepo) {pkgs : List (String × StoredRecord)}
    (hperm : pkgs.Perm t.records.clearStaleFlag.yumPackages) :
    (t.rebuild x depth now pkgs hperm).records = t.records.rebuildMetadata x depth now pkgs :=
  rfl

/-- What is deleted elsewhere is no matter to a client. -/
theorem listedAt_delete (hpfx : CleanPath pfx)
    (h : ∀ name, FileName name → repodataDir pfx ++ "/" ++ name ≠ normalizePath path) :
    (t.delete path).records.listedAt gz pfx = t.records.listedAt gz pfx := by
  have hsame : (t.delete path).records.primaryText gz pfx = t.records.primaryText gz pfx := by
    refine RecordTable.primaryText_congr hpfx fun name hname => ?_
    rw [get_delete, if_neg (h name hname)]
  rw [RecordTable.listedAt, hsame]
  rfl

/-- What is listed for a group that is gone is no partition. -/
theorem not_partition_nil (hperm : [].Perm t.records.clearStaleFlag.yumPackages)
    (hshown : Shown depth [] pfx) (hgone : pfx ∉ groupsOf depth [])
    (hlisted : t.records.listedAt gz pfx ≠ []) :
    ¬ Partition gz depth [] (t.records.rebuildMetadata x depth now []) := by
  intro hpart
  obtain ⟨path, hpath⟩ := exists_mem_of_ne_nil _ hlisted
  have hafter : path ∈ (t.records.rebuildMetadata x depth now []).listedAt gz pfx := by
    rw [RecordTable.listedAt, primaryText_rebuild_other hperm hshown.clean hgone]
    exact hpath
  obtain ⟨r, hget, hyum⟩ := hpart.stored pfx hshown path hafter
  have hmem := mem_of_get_rebuild hperm hget hyum
  cases hmem

end YumRepo

/-- Simple functions, and a mark on what is packed. -/
def packedExt : IndexExt := { IndexExt.sample with gzip := fun data => 0x1f :: 0x8b :: data }

/-- A package. -/
def loneRpm : RpmPackageMeta := { name := "p" }

/-- What an upload of it stores. -/
def loneRecord : StoredRecord :=
  (yumUpload packedExt 1 "a" "p.rpm" loneRpm rpmLead).record packedExt 0

/-- Its path, in the directory `a`. -/
def lonePath : String := "a" ++ "/" ++ "p.rpm"

theorem yumEntry_lone (sk : String) : YumEntry (sk, loneRecord.prepared lonePath) := by
  refine ⟨rfl, fun rpm hrpm c hc => ?_, fun data hdata => ?_⟩
  · obtain rfl := PackageMeta.yum.inj hrpm
    have hnil : loneRpm.sha256.toList = [] := by decide
    rw [hnil] at hc
    cases hc
  · obtain rfl : rpmLead = data := Option.some.inj hdata
    exact prefix_rfl

/-- A repository with the package. -/
def loneRepo : YumRepo := YumRepo.empty.put lonePath loneRecord fun _ => yumEntry_lone

/-- A client that takes the mark off. -/
def Gunzip.sample : Gunzip packedExt where
  run data := if data.take 2 = [0x1f, 0x8b] then some (data.drop 2) else none
  run_gzip _ := rfl
  run_rpm data h := by
    obtain ⟨tail, rfl⟩ := h
    rfl

theorem normalizePath_lone : normalizePath lonePath = lonePath := by decide +kernel

theorem get_loneRepo (sk : String) : SortedMap.get loneRepo.records sk =
    if sk = lonePath then some (loneRecord.prepared lonePath) else none := by
  have hput : SortedMap.get loneRepo.records sk = if sk = normalizePath lonePath then
      some (loneRecord.prepared lonePath) else YumRepo.empty.records.get sk :=
    get_put ..
  rw [hput, normalizePath_lone]
  rfl

theorem primarySk_ne_lonePath (depth : ℕ) (pkgs : List (String × StoredRecord)) (pfx : String) :
    primarySk packedExt depth pkgs pfx ≠ lonePath := by
  have hgz : ['z'] <:+ (primarySk packedExt depth pkgs pfx).toList := by
    have hname : ∀ data, ['z'] <:+ (hashedName packedExt "primary" data).toList := fun data =>
      IsSuffix.trans (by decide +kernel) (suffix_append _ ".xml.gz")
    exact (hname _).trans (suffix_append _ _)
  exact ne_of_suffix hgz (by decide : ['m'] <:+ lonePath.toList) le_rfl (by decide)

theorem hashNames_loneRepo (depth : ℕ) (pkgs : List (String × StoredRecord)) :
    HashNames packedExt depth pkgs loneRepo.records := by
  intro pfx _ r hget
  rw [get_loneRepo, if_neg (primarySk_ne_lonePath depth pkgs pfx)] at hget
  cases hget

/-- The packages of the repository. -/
def lonePkgs : List (String × StoredRecord) := loneRepo.records.clearStaleFlag.yumPackages

theorem perm_lone : lonePkgs.Perm loneRepo.records.clearStaleFlag.yumPackages := by
  rw [lonePkgs]

theorem noneInPlace_lone (depth : ℕ) : NoneInPlace packedExt depth lonePkgs := by
  intro e he pfx _ heq
  have hget := (YumRepo.get_of_mem perm_lone he).1
  rw [get_loneRepo, heq, if_neg (primarySk_ne_lonePath depth lonePkgs pfx)] at hget
  cases hget

/-- One package: the metadata is a partition exactly when its group is kept. -/
theorem partition_iff_lone : Partition Gunzip.sample 1 lonePkgs
        (loneRepo.records.rebuildMetadata packedExt 1 0 lonePkgs) ↔
      GroupsKept Gunzip.sample 1 lonePkgs loneRepo.records :=
  YumRepo.partition_iff perm_lone (hashNames_loneRepo 1 lonePkgs)

/-- The metadata of the package is built. -/
def loneRebuilt : YumRepo := loneRepo.rebuild packedExt 1 0 lonePkgs perm_lone

/-- The package is deleted. -/
def emptied : YumRepo := loneRebuilt.delete lonePath

theorem mem_lonePkgs : (lonePath, loneRecord.prepared lonePath) ∈ lonePkgs := by
  have hflag : lonePath ≠ yumStalePath := by decide +kernel
  refine (YumRepo.mem_pkgs perm_lone).mpr ⟨?_, rfl⟩
  rw [YumRepo.get_clearStaleFlag, if_neg hflag, get_loneRepo, if_pos rfl]

/-- Its group lists it still. -/
theorem listedAt_emptied : emptied.records.listedAt Gunzip.sample "a" ≠ [] := by
  have hpre : repodataPrefix lonePath 1 = "a" := by decide +kernel
  have hbefore := (@YumRepo.mem_listedAt_group _ Gunzip.sample 1 0 _ _ _ perm_lone
    (hashNames_loneRepo 1 lonePkgs) (noneInPlace_lone 1) _ mem_lonePkgs (YumRepo.mem_groupsOf mem_lonePkgs)).mpr rfl
  rw [hpre] at hbefore
  have hapart : ∀ name, FileName name →
      repodataDir "a" ++ "/" ++ name ≠ normalizePath lonePath := by
    intro name hname heq
    rw [normalizePath_lone] at heq
    have hdir := (file_inj hname ⟨by decide, by decide⟩ heq).1
    revert hdir
    decide +kernel
  rw [emptied, YumRepo.listedAt_delete (clean_name (by decide)) hapart, loneRebuilt,
    YumRepo.records_rebuild]
  exact ne_nil_of_mem hbefore

theorem yumPackages_emptied : emptied.records.clearStaleFlag.yumPackages = [] := by
  rw [eq_nil_iff_forall_not_mem]
  rintro ⟨sk, r⟩ hmem
  obtain ⟨hget, hyum⟩ := YumRepo.get_of_mem (t := emptied) (Perm.refl _) hmem
  rw [emptied, YumRepo.get_delete, normalizePath_lone, loneRebuilt, YumRepo.records_rebuild] at hget
  split_ifs at hget with hsk
  have hfound := YumRepo.mem_of_get_rebuild perm_lone hget hyum
  have hlone := (YumRepo.get_of_mem perm_lone hfound).1
  rw [get_loneRepo, if_neg hsk] at hlone
  cases hlone

/-- After another rebuild a package is listed that is not stored. -/
theorem gone_group_listed : ¬ ∀ (x : IndexExt) (gz : Gunzip x) (depth : ℕ) (now : DateTime)
    (t : YumRepo) (pkgs : List (String × StoredRecord)),
    pkgs.Perm t.records.clearStaleFlag.yumPackages → HashNames x depth pkgs t.records →
    Partition gz depth pkgs (t.records.rebuildMetadata x depth now pkgs) := by
  intro hall
  have hnone : ∀ pfx, pfx ∉ groupsOf 1 [] := by
    intro pfx hmem
    rcases mem_repodataGroups.mp hmem with ⟨path, hpath, -⟩ | ⟨hzero, -⟩
    · cases hpath
    · cases hzero
  have hperm : [].Perm emptied.records.clearStaleFlag.yumPackages := by
    rw [yumPackages_emptied]
  have hshown : Shown 1 [] "a" := ⟨clean_name (by decide), .inr (by decide +kernel)⟩
  exact @YumRepo.not_partition_nil _ _ _ 0 _ _ hperm hshown (hnone "a") listedAt_emptied
    (hall packedExt Gunzip.sample 1 0 emptied [] hperm fun pfx hpfx =>
      absurd hpfx (hnone pfx))

end Depot
