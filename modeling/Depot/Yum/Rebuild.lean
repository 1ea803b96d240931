import Depot.Index.Store
import Depot.Index.Stored

/-!
# The repodata of a Yum repository

A rebuild writes the files of each group of packages (`rebuild_metadata`,
`format/yum/src/store/store.rs` lines 331–443), over the records of a repository that nothing else
writes.

Results:
* `get_writePlan`: what is stored after the files of a plan.
* `plan_keys_nodup`: the files of a rebuild are at different keys.
* `isRepodata_plan`: they are in directories with the name `repodata`.
-/

namespace Depot

open Lib List
open String (toList_append toList_inj)

variable {sk name : String}

/-! ## Writing a plan -/

namespace RecordTable

variable (x : IndexExt) (f : IndexFormat) (now : DateTime)

/-- One file (`store_metadata_file`, lines 446–498, and `store_repomd_at`, lines 500–565). -/
def writeFile (t : RecordTable StoredRecord) (w : IndexWrite) : RecordTable StoredRecord :=
  if w.commit then t.putStored w.path (f.fileRecord x now w)
  else t.putStoredIfAbsent w.path (f.fileRecord x now w)

/-- The files of a plan, written one after the other. -/
def writePlan (t : RecordTable StoredRecord) (plan : List IndexWrite) : RecordTable StoredRecord :=
  plan.foldl (writeFile x f now) t

variable {x f now} {t : RecordTable StoredRecord}

theorem get_writeFile (w : IndexWrite) (sk : String) :
    SortedMap.get (t.writeFile x f now w) sk =
      if sk = w.sk ∧ (w.commit = true ∨ t.get sk = none) then
        some ((f.fileRecord x now w).prepared w.path)
      else t.get sk := by
  unfold writeFile
  split_ifs with hcommit hsk hsk
  · rw [putStored, get_put, ← IndexWrite.sk, if_pos hsk.1]
  · rw [putStored, get_put, ← IndexWrite.sk, if_neg fun heq => hsk ⟨heq, .inl hcommit⟩]
  · obtain ⟨rfl, hsk⟩ := hsk
    have hnone : t.get w.sk = none := hsk.resolve_left hcommit
    rw [putStoredIfAbsent, putIfAbsent, find, ← IndexWrite.sk, hnone, Option.isSome_none,
      if_neg Bool.false_ne_true, get_put, ← IndexWrite.sk, if_pos rfl]
  · rw [putStoredIfAbsent, putIfAbsent, find, ← IndexWrite.sk]
    cases hget : t.get w.sk with
    | some r => rw [Option.isSome_some, if_pos rfl]
    | none =>
      have hne : sk ≠ w.sk := by
        rintro rfl
        exact hsk ⟨rfl, .inr hget⟩
      rw [Option.isSome_none, if_neg Bool.false_ne_true, get_put, ← IndexWrite.sk, if_neg hne]

variable {plan : List IndexWrite}

/-- A key without a file stays as it is. -/
theorem get_writePlan_of_notMem (h : sk ∉ plan.map IndexWrite.sk) (t : RecordTable StoredRecord) :
    SortedMap.get (t.writePlan x f now plan) sk = t.get sk := by
  induction plan generalizing t with
  | nil => rfl
  | cons w plan ih =>
    rw [map_cons, mem_cons, not_or] at h
    have hstep : t.writePlan x f now (w :: plan) = (t.writeFile x f now w).writePlan x f now plan :=
      rfl
    rw [hstep, ih h.2, get_writeFile, if_neg fun heq => h.1 heq.1]

/-- What is stored stays where no file is written over it. -/
theorem get_writePlan_of_some {r : StoredRecord}
    (hget : t.get sk = some r) (h : ∀ w ∈ plan, sk = w.sk → w.commit = false) :
    SortedMap.get (t.writePlan x f now plan) sk = some r := by
  induction plan generalizing t with
  | nil => exact hget
  | cons w plan ih =>
    have hstep : t.writePlan x f now (w :: plan) = (t.writeFile x f now w).writePlan x f now plan :=
      rfl
    rw [hstep]
    refine ih ?_ fun v hv => h v (mem_cons_of_mem _ hv)
    rw [get_writeFile, if_neg, hget]
    rintro ⟨hsk, hcommit | hnone⟩
    · rw [h w mem_cons_self hsk] at hcommit
      cases hcommit
    · rw [hget] at hnone
      cases hnone

/-- What is stored afterwards was stored before or is a file. -/
theorem get_writePlan_cases {r : StoredRecord}
    (h : SortedMap.get (t.writePlan x f now plan) sk = some r) :
    t.get sk = some r ∨ ∃ w ∈ plan, r = (f.fileRecord x now w).prepared w.path := by
  induction plan generalizing t with
  | nil => exact .inl h
  | cons w plan ih =>
    rcases ih (t := t.writeFile x f now w) h with hget | ⟨w', hw', heq⟩
    · rw [get_writeFile] at hget
      split_ifs at hget
      · exact .inr ⟨w, mem_cons_self, (Option.some.inj hget).symm⟩
      · exact .inl hget
    · exact .inr ⟨w', mem_cons_of_mem _ hw', heq⟩

/-- Files at different keys are all stored, where nothing was or they are written over. -/
theorem get_writePlan {plan : List IndexWrite} (hnodup : (plan.map IndexWrite.sk).Nodup)
    {w : IndexWrite} (hw : w ∈ plan) (h : w.commit = true ∨ t.get w.sk = none) :
    SortedMap.get (t.writePlan x f now plan) w.sk =
      some ((f.fileRecord x now w).prepared w.path) := by
  induction plan generalizing t with
  | nil => cases hw
  | cons v plan ih =>
    rw [map_cons, nodup_cons] at hnodup
    have hstep : t.writePlan x f now (v :: plan) = (t.writeFile x f now v).writePlan x f now plan :=
      rfl
    rw [hstep]
    rcases mem_cons.mp hw with rfl | hw
    · rw [get_writePlan_of_notMem hnodup.1, get_writeFile, if_pos ⟨rfl, h⟩]
    · refine ih hnodup.2 hw (h.imp_right fun hnone => ?_)
      have hne : w.sk ≠ v.sk := by
        intro heq
        exact hnodup.1 (heq ▸ mem_map_of_mem hw)
      rw [get_writeFile, if_neg fun heq => hne heq.1, hnone]

end RecordTable

/-! ## The files of a rebuild -/

/-- Whether a key is in a directory with the name `repodata` (lines 579–580). -/
def isRepodata (sk : String) : Bool :=
  hasPrefix "repodata/" sk || decide ("/repodata/".toList <:+: sk.toList)

variable {x : IndexExt} {depth : ℕ} {now : DateTime} {pkgs : List (String × StoredRecord)}

/-- A file of a directory: a name without slashes. -/
structure FileName (name : String) : Prop where
  ne : name ≠ ""
  slash : '/' ∉ name.toList

theorem hashedName_ne (kind : String) (gz : Bytes) : hashedName x kind gz ≠ "" := by
  intro hnil
  have hlen := congrArg String.length hnil
  have hzero : "".length = 0 := rfl
  rw [hashedName, String.length_append, String.length_append, String.length_append,
    x.sha256_length] at hlen
  omega

theorem fileName_hashedName {kind : String} (hkind : '/' ∉ kind.toList) (gz : Bytes) :
    FileName (hashedName x kind gz) := by
  refine ⟨hashedName_ne kind gz, fun hmem => ?_⟩
  have hmid : '/' ∉ "-".toList := by decide
  have hend : '/' ∉ ".xml.gz".toList := by decide
  have hsha : '/' ∉ (x.sha256 gz).toList := hex_no_slash x gz
  simp only [hashedName, toList_append, mem_append] at hmem
  rcases hmem with ((h | h) | h) | h
  · exact hsha h
  · exact hmid h
  · exact hkind h
  · exact hend h

/-- Names with different ends are different. -/
theorem hashedName_ne_of_last {kind kind' : String} {c c' : Char} (hc : [c] <:+ kind.toList)
    (hc' : [c'] <:+ kind'.toList) (hne : c ≠ c') (gz gz' : Bytes) :
    hashedName x kind gz ≠ hashedName x kind' gz' := by
  have hends : ∀ {k : String} {d : Char} (data : Bytes), [d] <:+ k.toList →
      [d] ++ ".xml.gz".toList <:+ (hashedName x k data).toList := by
    rintro k d data ⟨front, hfront⟩
    refine ⟨(x.sha256 data ++ "-").toList ++ front, ?_⟩
    simp only [hashedName, toList_append, ← hfront, append_assoc]
  refine ne_of_suffix (hends gz hc) (hends gz' hc') le_rfl ?_
  intro hsuf
  have heq := IsSuffix.eq_of_length hsuf rfl
  exact hne (List.cons.inj heq).1

theorem repodataDir_ne (pfx : String) : repodataDir pfx ≠ "" := by
  unfold repodataDir
  split_ifs with hnil
  · decide
  · intro hempty
    have hlen := congrArg String.length hempty
    rw [String.length_append] at hlen
    have hnine : "/repodata".length = 9 := by decide
    have hzero : "".length = 0 := rfl
    omega

variable {pfx : String}

theorem clean_repodataDir (h : CleanPath pfx) : CleanPath (repodataDir pfx) := by
  have hrd : CleanPath "repodata" := clean_name (by decide)
  unfold repodataDir
  split_ifs with hnil
  · exact hrd
  · have hmid : "/repodata" = "/" ++ "repodata" := by decide
    have hdir : pfx ++ "/repodata" = pfx ++ "/" ++ "repodata" :=
      (congrArg (_ ++ ·) hmid).trans String.append_assoc.symm
    rw [hdir]
    exact cleanPath_append h hnil hrd (by decide)

theorem normalizePath_file (h : CleanPath pfx) (hname : FileName name) :
    normalizePath (repodataDir pfx ++ "/" ++ name) = repodataDir pfx ++ "/" ++ name :=
  normalizePath_clean
    (cleanPath_append (clean_repodataDir h) (repodataDir_ne pfx) (clean_name hname.slash) hname.ne)

/-- Directory and name of a file are determined. -/
theorem file_inj {dir dir' name' : String} (hname : FileName name) (hname' : FileName name')
    (h : dir ++ "/" ++ name = dir' ++ "/" ++ name') : dir = dir' ∧ name = name' := by
  have hlist : dir.toList ++ '/' :: name.toList = dir'.toList ++ '/' :: name'.toList := by
    have hchars := congrArg String.toList h
    simpa [toList_append] using hchars
  have hsplit := congrArg splitLast hlist
  rw [splitLast_append hname.slash, splitLast_append hname'.slash, Prod.mk.injEq,
    Option.some.injEq] at hsplit
  exact ⟨toList_inj.mp hsplit.1, toList_inj.mp hsplit.2⟩

theorem repomdPath_eq (pfx : String) : repomdPath pfx = repodataDir pfx ++ "/" ++ "repomd.xml" := by
  have hback : "/repomd.xml" = "/" ++ "repomd.xml" := by decide
  exact (congrArg (_ ++ ·) hback).trans String.append_assoc.symm

theorem repodataDir_inj {pfx' : String} (h : CleanPath pfx) (h' : CleanPath pfx')
    (heq : repodataDir pfx = repodataDir pfx') : pfx = pfx' := by
  refine repomdPath_inj h h' ?_
  rw [repomdPath, repomdPath, heq]

/-- The names of the files of a group. -/
def groupNames (x : IndexExt) (pfx : String) (group : List (String × StoredRecord)) :
    List String :=
  [hashedName x "primary" (x.gzip (utf8 (generatePrimaryXml group pfx))),
    hashedName x "filelists" (x.gzip (utf8 (generateFilelistsXml group))),
    hashedName x "other" (x.gzip (utf8 (generateOtherXml group))), "repomd.xml"]

theorem fileName_groupNames {group : List (String × StoredRecord)}
    (h : name ∈ groupNames x pfx group) : FileName name := by
  simp only [groupNames, mem_cons, not_mem_nil, or_false] at h
  rcases h with rfl | rfl | rfl | rfl
  · exact fileName_hashedName (by decide) _
  · exact fileName_hashedName (by decide) _
  · exact fileName_hashedName (by decide) _
  · exact ⟨by decide, by decide⟩

theorem hashedName_ne_repomd (kind : String) (gz : Bytes) :
    hashedName x kind gz ≠ "repomd.xml" := by
  have hgz : ['z'] <:+ (hashedName x kind gz).toList :=
    IsSuffix.trans (by decide) (suffix_append _ ".xml.gz")
  exact ne_of_suffix hgz (by decide : ['l'] <:+ "repomd.xml".toList) le_rfl (by decide)

theorem groupNames_nodup (pfx : String) (group : List (String × StoredRecord)) :
    (groupNames x pfx group).Nodup := by
  have hlast : ∀ (kind : String) (gz : Bytes), hashedName x kind gz ≠ "repomd.xml" :=
    hashedName_ne_repomd
  have hpf := @hashedName_ne_of_last x "primary" "filelists" 'y' 's'
    (by decide) (by decide) (by decide)
  have hpo := @hashedName_ne_of_last x "primary" "other" 'y' 'r'
    (by decide) (by decide) (by decide)
  have hfo := @hashedName_ne_of_last x "filelists" "other" 's' 'r'
    (by decide) (by decide) (by decide)
  simp only [groupNames, nodup_cons, mem_cons, not_mem_nil, or_false, not_or,
    nodup_nil, and_true, not_false_eq_true]
  exact ⟨⟨hpf _ _, hpo _ _, hlast _ _⟩, ⟨hfo _ _, hlast _ _⟩, hlast _ _⟩

/-- The files of a group are below its directory. -/
theorem yumGroupPlan_paths (now : DateTime) (pfx : String) (group : List (String × StoredRecord)) :
    (yumGroupPlan x now pfx group).map IndexWrite.path =
      (groupNames x pfx group).map (repodataDir pfx ++ "/" ++ ·) := by
  simp only [yumGroupPlan, groupNames, map_cons, map_nil, repomdPath_eq]

theorem yumGroupPlan_sks (h : CleanPath pfx) (now : DateTime)
    (group : List (String × StoredRecord)) :
    (yumGroupPlan x now pfx group).map IndexWrite.sk =
      (groupNames x pfx group).map (repodataDir pfx ++ "/" ++ ·) := by
  have hsk : IndexWrite.sk = normalizePath ∘ IndexWrite.path := rfl
  rw [hsk, ← map_map, yumGroupPlan_paths, map_map]
  exact map_congr_left fun name hname => normalizePath_file h (fileName_groupNames hname)

theorem clean_groups (hclean : ∀ e ∈ pkgs, CleanPath e.1)
    (h : pfx ∈ repodataGroups depth (pkgs.map Prod.fst)) : CleanPath pfx := by
  rcases mem_repodataGroups.mp h with ⟨path, hpath, rfl⟩ | ⟨-, rfl⟩
  · obtain ⟨e, he, rfl⟩ := mem_map.mp hpath
    exact clean_repodataPrefix (hclean e he) depth
  · exact cleanPath_of_eq (by decide)

theorem repodataGroups_nodup (depth : ℕ) (paths : List String) :
    (repodataGroups depth paths).Nodup := by
  unfold repodataGroups
  dsimp only
  split_ifs with h
  · exact nodup_singleton ""
  · exact ((perm_insertionSort _ _).nodup_iff).mpr (nodup_dedup _)

/-- The files of a rebuild are at different keys. -/
theorem plan_keys_nodup (hclean : ∀ e ∈ pkgs, CleanPath e.1) :
    ((yumPlan x depth now pkgs).map IndexWrite.sk).Nodup := by
  rw [yumPlan, map_flatMap, nodup_flatMap]
  constructor
  · intro pfx hpfx
    rw [yumGroupPlan_sks (clean_groups hclean hpfx)]
    refine (groupNames_nodup pfx _).map_on fun name hname name' hname' heq => ?_
    exact (file_inj (fileName_groupNames hname) (fileName_groupNames hname') heq).2
  · refine (Nodup.pairwise_of_forall_ne (repodataGroups_nodup depth _)) ?_
    intro pfx hpfx pfx' hpfx' hne
    have hc := clean_groups hclean hpfx
    have hc' := clean_groups hclean hpfx'
    unfold Function.onFun
    dsimp only
    rw [yumGroupPlan_sks hc, yumGroupPlan_sks hc']
    intro sk hsk hsk'
    obtain ⟨name, hname, rfl⟩ := mem_map.mp hsk
    obtain ⟨name', hname', heq⟩ := mem_map.mp hsk'
    have hdir := (file_inj (fileName_groupNames hname') (fileName_groupNames hname) heq).1
    exact hne (repodataDir_inj hc' hc hdir).symm

theorem isRepodata_file (pfx name : String) : isRepodata (repodataDir pfx ++ "/" ++ name) = true := by
  have hslash : "/".toList = ['/'] := by decide
  have hroot : "repodata/".toList = "repodata".toList ++ ['/'] := by decide
  have hbelow : "/repodata/".toList = "/repodata".toList ++ ['/'] := by decide
  rw [isRepodata, Bool.or_eq_true, hasPrefix, decide_eq_true_eq, decide_eq_true_eq,
    toList_append, toList_append, hslash, hroot, hbelow, repodataDir]
  split_ifs
  · exact .inl (prefix_append _ _)
  · refine .inr ⟨pfx.toList, name.toList, ?_⟩
    simp only [toList_append, append_assoc]

/-- They are in directories with the name `repodata`. -/
theorem isRepodata_plan (hclean : ∀ e ∈ pkgs, CleanPath e.1) {w : IndexWrite}
    (h : w ∈ yumPlan x depth now pkgs) : isRepodata w.sk = true := by
  obtain ⟨pfx, hpfx, hw⟩ := mem_yumPlan h
  have hsk := mem_map_of_mem (f := IndexWrite.sk) hw
  rw [yumGroupPlan_sks (clean_groups hclean hpfx)] at hsk
  obtain ⟨name, -, hname⟩ := mem_map.mp hsk
  rw [← hname]
  exact isRepodata_file pfx name

/-! ## The records -/

/-- The records of a repository. Their keys come from paths (`keys::artifact_key`). -/
structure YumTable where
  records : RecordTable StoredRecord
  clean : ∀ {sk r}, SortedMap.get records sk = some r → CleanPath sk

namespace RecordTable

variable (t : RecordTable StoredRecord)

/-- `clear_stale_flag` (lines 226–230). -/
def clearStaleFlag : RecordTable StoredRecord := t.remove yumStalePath

/-- The packages a rebuild finds (lines 340–363). -/
def yumPackages : List (String × StoredRecord) :=
  t.entries.filter fun e => e.2.packageMeta.isYum

end RecordTable

end Depot
