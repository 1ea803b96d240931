import Depot.Service.Artifact
import Depot.Service.Table
import Depot.Tasks.Manager

/-!
# Repairing the paths of artifacts

The part of an integrity check that reads the artifacts of one repository and repairs what it
finds (`server/src/server/worker/check.rs`, lines 793–1108), while nothing else writes them: an
artifact without its blob is deleted, so is a Docker tag without its manifest, and an artifact
whose path has a double slash moves to the normalised path. Log lines and progress are left
out, and so is the relocation of Helm charts that follows.

Results:
* `fixDoubleSlash_table`: the look-up of the repair never finds an artifact, as the deletion
  before it has removed the one at the normalised path.
* `get_checked`: what the check leaves at each key, if no key has a double slash.
* `get_checkRepo_unclean`: what it leaves at a key that has one.
* `checkRepo_repairs_iff`: when the paths are repaired.
-/

namespace Depot

open Lib List
open RecordTable (get_foldl_assign_of_notMem get_foldl_remove get_put get_remove)

/-! ## Texts -/

/-- `str::contains("//")`. -/
def hasDoubleSlash (path : String) : Bool := decide (['/', '/'] <:+: path.toList)

/-- `str::rsplit_once`. -/
def rsplitOnce (sep : List Char) : List Char → Option (List Char × List Char)
  | [] => none
  | c :: cs =>
      match rsplitOnce sep cs with
      | some (before, after) => some (c :: before, after)
      | none => if sep <+: c :: cs then some ([], (c :: cs).drop sep.length) else none

theorem hasDoubleSlash_normalizePath (path : String) :
    hasDoubleSlash (normalizePath path) = false :=
  decide_eq_false (clean_normalizePath path).double

/-! ## The scan -/

/-- `RepoScanState` (lines 797–808). -/
structure RepoScanState where
  artifactPaths : List String := []
  findings : List CheckFinding := []
  toDelete : List String := []
  toRename : List (String × String × ArtifactRecord) := []

variable {path : String}

section

variable (present : BlobId → Bool) (repo : String)

/-- Whether the blob of a record is not among the listed ones. -/
def blobMissing (record : ArtifactRecord) : Bool := record.blobId.any fun b => !present b

/-- The finding about a missing blob (lines 857–864). -/
def missingFinding (record : ArtifactRecord) : CheckFinding where
  repo := some repo
  path := record.path
  expectedHash := record.blobId.getD ""
  actualHash := none
  error := some "artifact references missing blob"

/-- The finding about a double slash (lines 879–886). -/
def slashFinding (record : ArtifactRecord) : CheckFinding where
  repo := some repo
  path := record.path
  expectedHash := normalizePath record.path
  actualHash := none
  error := some "path contains double slashes"

/-- What the scan does with a record (lines 834–893). `present` is the Bloom filter of the
    listed blobs. -/
def RepoScanState.visit (state : RepoScanState) (record : ArtifactRecord) : RepoScanState :=
  let state := { state with artifactPaths := state.artifactPaths ++ [record.path] }
  let state :=
    if blobMissing present record then
      { state with
        findings := state.findings ++ [missingFinding repo record]
        toDelete := state.toDelete ++ [record.path] }
    else state
  if hasDoubleSlash record.path then
    { state with
      findings := state.findings ++ [slashFinding repo record]
      toRename := state.toRename ++ [(record.path, normalizePath record.path, record)] }
  else state

/-- The scan of the records, in the order in which the shards were read. -/
def scanRepo (order : List (String × ArtifactRecord)) : RepoScanState :=
  order.foldl (fun state e => state.visit present repo e.2) {}

/-- The path of the manifest of a tag (lines 937–946). -/
def manifestPath (path digest : String) : Option String :=
  match rsplitOnce "/_tags/".toList path.toList with
  | some (before, _) => some (String.ofList before ++ "/_manifests/" ++ digest)
  | none => if path.startsWith "_tags/" then some ("_manifests/" ++ digest) else none

/-- The finding about a tag whose manifest is not among the paths (lines 933–969). -/
def tagFinding? (artifactPaths : List String) (record : ArtifactRecord) : Option CheckFinding :=
  match record.kind with
  | .dockerTag digest _ =>
      match manifestPath record.path digest with
      | some manifest =>
          if manifest ∈ artifactPaths then none
          else some
            { repo := some repo
              path := record.path
              expectedHash := digest
              actualHash := none
              error := some "docker tag references missing manifest" }
      | none => none
  | _ => none

/-! ## The repairs -/

/-- What the repairs of a repository change: its records, the findings so far and the number
    of repairs. -/
structure CheckState where
  table : RecordTable ArtifactRecord
  findings : List CheckFinding := []
  fixedCount : ℕ := 0

/-- Note that the last finding about a path is fixed. -/
def markFixed (path error : String) (findings : List CheckFinding) : List CheckFinding :=
  match findings.reverse.findIdx? fun f =>
      f.repo = some repo ∧ f.path = path ∧ f.error = some error with
  | some i => findings.modify (findings.length - 1 - i) fun f => { f with fixed := true }
  | none => findings

/-- A repair that has changed the records. -/
def CheckState.fix (s : CheckState) (table : RecordTable ArtifactRecord) (path error : String) :
    CheckState where
  table := table
  findings := markFixed repo path error s.findings
  fixedCount := s.fixedCount + 1

/-- Delete an artifact, if it is there. -/
def fixDeleted (error : String) (s : CheckState) (path : String) : CheckState :=
  if (s.table.find path).isSome then s.fix repo (s.table.remove path) path error else s

/-- Delete an artifact without its blob (lines 995–1017). The text is not the one of the
    finding, which is never marked. -/
def fixMissingBlob : CheckState → String → CheckState :=
  fixDeleted repo "artifact references unknown blob"

/-- Delete a Docker tag without its manifest (lines 1020–1041). -/
def fixDanglingTag : CheckState → String → CheckState :=
  fixDeleted repo "docker tag references missing manifest"

/-- Rename an artifact (lines 1044–1103). `put_artifact` refuses the empty path. -/
def fixDoubleSlash (toDelete : List String) (s : CheckState)
    (item : String × String × ArtifactRecord) : CheckState :=
  let (oldPath, newPath, record) := item
  if oldPath ∈ toDelete then s
  else
    let table := s.table.remove oldPath
    s.fix repo
      (if (table.find newPath).isSome then table
        else if newPath = "" then table
        else table.put newPath (prepareRecord newPath { record with path := newPath }))
      oldPath "path contains double slashes"

/-- The check of a repository (lines 793–1104); `order` and `tagOrder` are the orders of its
    two scans. -/
def checkRepo (dryRun : Bool) (order tagOrder : List (String × ArtifactRecord))
    (s : CheckState) : CheckState :=
  let scan := scanRepo present repo order
  let tagFindings := tagOrder.filterMap fun e => tagFinding? repo scan.artifactPaths e.2
  let s := { s with findings := s.findings ++ tagFindings ++ scan.findings }
  if dryRun then s
  else
    let s := scan.toDelete.foldl (fixMissingBlob repo) s
    let s := (tagFindings.map CheckFinding.path).foldl (fixDanglingTag repo) s
    scan.toRename.foldl (fixDoubleSlash repo scan.toDelete) s

/-! ## What the scan collects -/

section

variable {present repo}

theorem visit_toDelete (state : RepoScanState) (record : ArtifactRecord) :
    (state.visit present repo record).toDelete =
      state.toDelete ++ if blobMissing present record then [record.path] else [] := by
  unfold RepoScanState.visit
  by_cases hmissing : blobMissing present record <;> by_cases hslash : hasDoubleSlash record.path <;>
    simp [hmissing, hslash]

theorem visit_toRename (state : RepoScanState) (record : ArtifactRecord) :
    (state.visit present repo record).toRename = state.toRename ++
      if hasDoubleSlash record.path then [(record.path, normalizePath record.path, record)]
      else [] := by
  unfold RepoScanState.visit
  by_cases hmissing : blobMissing present record <;> by_cases hslash : hasDoubleSlash record.path <;>
    simp [hmissing, hslash]

theorem visit_artifactPaths (state : RepoScanState) (record : ArtifactRecord) :
    (state.visit present repo record).artifactPaths = state.artifactPaths ++ [record.path] := by
  unfold RepoScanState.visit
  by_cases hmissing : blobMissing present record <;> by_cases hslash : hasDoubleSlash record.path <;>
    simp [hmissing, hslash]

variable (present repo)

/-- The paths to delete are those of the records without their blobs. -/
theorem mem_scan_toDelete {order : List (String × ArtifactRecord)} :
    path ∈ (scanRepo present repo order).toDelete ↔
      ∃ e ∈ order, blobMissing present e.2 ∧ e.2.path = path := by
  have hfold : ∀ (order : List (String × ArtifactRecord)) (state : RepoScanState),
      path ∈ (order.foldl (fun state e => state.visit present repo e.2) state).toDelete ↔
        path ∈ state.toDelete ∨ ∃ e ∈ order, blobMissing present e.2 ∧ e.2.path = path := by
    intro order
    induction order with
    | nil => simp
    | cons e order ih =>
      intro state
      rw [foldl_cons, ih, visit_toDelete, mem_append, or_assoc]
      by_cases hmissing : blobMissing present e.2 <;> simp [hmissing, @eq_comm _ path]
  simpa [scanRepo] using hfold order {}

/-- The records to rename are those whose paths have a double slash, in the order of the
    scan. -/
theorem scan_toRename (order : List (String × ArtifactRecord)) :
    (scanRepo present repo order).toRename =
      (order.filter fun e => hasDoubleSlash e.2.path).map fun e =>
        (e.2.path, normalizePath e.2.path, e.2) := by
  have hfold : ∀ (order : List (String × ArtifactRecord)) (state : RepoScanState),
      (order.foldl (fun state e => state.visit present repo e.2) state).toRename =
        state.toRename ++ (order.filter fun e => hasDoubleSlash e.2.path).map fun e =>
          (e.2.path, normalizePath e.2.path, e.2) := by
    intro order
    induction order with
    | nil => simp
    | cons e order ih =>
      intro state
      rw [foldl_cons, ih, visit_toRename]
      by_cases hslash : hasDoubleSlash e.2.path <;> simp [hslash]
  simpa [scanRepo] using hfold order {}

/-- The paths that manifests are looked up in are those of the records. -/
theorem scan_artifactPaths (order : List (String × ArtifactRecord)) :
    (scanRepo present repo order).artifactPaths = order.map fun e => e.2.path := by
  have hfold : ∀ (order : List (String × ArtifactRecord)) (state : RepoScanState),
      (order.foldl (fun state e => state.visit present repo e.2) state).artifactPaths =
        state.artifactPaths ++ order.map fun e => e.2.path := by
    intro order
    induction order with
    | nil => simp
    | cons e order ih =>
      intro state
      simp [ih, visit_artifactPaths]
  simpa [scanRepo] using hfold order {}

end

/-! ## What a repair does to the records -/

theorem foldl_fixDeleted_table (error : String) (paths : List String) (s : CheckState) :
    (paths.foldl (fixDeleted repo error) s).table = paths.foldl RecordTable.remove s.table := by
  induction paths generalizing s with
  | nil => rfl
  | cons path paths ih =>
    rw [foldl_cons, ih, foldl_cons, fixDeleted]
    split
    · rfl
    · rename_i hnone
      rw [RecordTable.remove_of_find_eq_none (by simpa using hnone)]

/-- The record a rename leaves at the normalised path. -/
def renamed (record : ArtifactRecord) : Option ArtifactRecord :=
  if normalizePath record.path = "" then none
  else some (prepareRecord (normalizePath record.path) record)

/-- The look-up of a rename never finds an artifact: the old path and the new one have the same
    key, so the record there, whichever it was, has just been deleted. -/
theorem fixDoubleSlash_table (toDelete : List String) (s : CheckState) (record : ArtifactRecord) :
    (fixDoubleSlash repo toDelete s (record.path, normalizePath record.path, record)).table =
      if record.path ∈ toDelete then s.table
      else s.table.assign (normalizePath record.path) (renamed record) := by
  unfold fixDoubleSlash
  by_cases hmem : record.path ∈ toDelete
  · simp [hmem]
  have hfind : (s.table.remove record.path).find (normalizePath record.path) = none := by
    rw [RecordTable.find_remove, if_pos (normalizePath_idem _)]
  apply SortedMap.ext_get
  intro sk
  by_cases hempty : normalizePath record.path = ""
  · simp [hmem, hempty, CheckState.fix, renamed, SortedMap.get_assign, get_remove]
  · have hput : ({ record with path := normalizePath record.path } : ArtifactRecord) =
        { record with path := normalizePath record.path } := rfl
    simp [hmem, hempty, hfind, CheckState.fix, renamed, SortedMap.get_assign, get_remove,
      get_put, normalizePath_idem, prepareRecord]
    grind

/-- The renames write the records whose paths are not to be deleted. -/
theorem foldl_fixDoubleSlash_table (toDelete : List String)
    (order : List (String × ArtifactRecord)) (s : CheckState) :
    ((order.map fun e => (e.2.path, normalizePath e.2.path, e.2)).foldl
        (fixDoubleSlash repo toDelete) s).table =
      (order.filter fun e => e.2.path ∉ toDelete).foldl
        (fun t e => t.assign (normalizePath e.2.path) (renamed e.2)) s.table := by
  induction order generalizing s with
  | nil => rfl
  | cons e order ih =>
    rw [map_cons, foldl_cons, ih, fixDoubleSlash_table]
    by_cases hmem : e.2.path ∈ toDelete <;> simp [hmem]

def renameItems (order : List (String × ArtifactRecord)) : List (String × ArtifactRecord) :=
  order.filter fun e => hasDoubleSlash e.2.path ∧ e.2.path ∉ (scanRepo present repo order).toDelete

/-- The paths of the tags that a check deletes. -/
def danglingTags (order tagOrder : List (String × ArtifactRecord)) : List String :=
  (tagOrder.filterMap fun e =>
    tagFinding? repo (scanRepo present repo order).artifactPaths e.2).map CheckFinding.path

/-- What a check does to the records: it deletes, then it renames. -/
theorem checkRepo_table (order tagOrder : List (String × ArtifactRecord)) (s : CheckState) :
    (checkRepo present repo false order tagOrder s).table = (renameItems present repo order).foldl
        (fun t e => t.assign (normalizePath e.2.path) (renamed e.2))
        (((scanRepo present repo order).toDelete ++ danglingTags present repo order tagOrder).foldl
          RecordTable.remove s.table) := by
  have hitems : renameItems present repo order =
      (order.filter fun e => hasDoubleSlash e.2.path).filter fun e =>
        e.2.path ∉ (scanRepo present repo order).toDelete := by
    simp [renameItems, filter_filter, Bool.and_comm]
  simp only [checkRepo, Bool.false_eq_true, if_false]
  rw [scan_toRename, foldl_fixDoubleSlash_table, fixDanglingTag, foldl_fixDeleted_table,
    fixMissingBlob, foldl_fixDeleted_table, List.foldl_append, hitems]
  rfl

/-- A record at a key with a double slash stays there. -/
theorem get_checkRepo_unclean (order tagOrder : List (String × ArtifactRecord)) (s : CheckState)
    {sk : String} (h : hasDoubleSlash sk = true) :
    (checkRepo present repo false order tagOrder s).table.get sk = s.table.get sk := by
  have hne : ∀ path, normalizePath path ≠ sk := by
    intro path heq
    rw [← heq, hasDoubleSlash_normalizePath] at h
    cases h
  rw [checkRepo_table, get_foldl_assign_of_notMem _ _ (fun e _ => hne e.2.path),
    get_foldl_remove, if_neg]
  rintro ⟨path, -, heq⟩
  exact hne path heq

end

/-! ## The records of a repository -/

/-- The records of a repository: `put_artifact` stores a record at its normalised path. Others
    may have been stored, before paths were normalised, at a path that has a double slash. -/
structure RepoRecords where
  table : RecordTable ArtifactRecord
  keyed : ∀ sk r, table.get sk = some r →
    sk = normalizePath r.path ∨ (sk = r.path ∧ hasDoubleSlash r.path = true)

namespace RepoRecords

/-- The records in some order: which shard is read first is open. -/
def Order (s : RepoRecords) : Type :=
  { order : List (String × ArtifactRecord) // order.Perm s.table.entries }

variable {s : RepoRecords}

theorem mem_order (o : s.Order) {sk : String} {r : ArtifactRecord} :
    (sk, r) ∈ o.1 ↔ s.table.get sk = some r := by
  rw [o.2.mem_iff, SortedMap.mem_entries_iff]

theorem nodup_order (o : s.Order) : (o.1.map Prod.fst).Nodup :=
  (o.2.map Prod.fst).nodup_iff.mpr (nodup_keys_of_sorted s.table.sorted)

/-- All keys are normalised paths. -/
def Normalised (s : RepoRecords) : Prop := ∀ sk r, s.table.get sk = some r → hasDoubleSlash sk = false

theorem Normalised.key (h : s.Normalised) {sk : String} {r : ArtifactRecord}
    (hr : s.table.get sk = some r) : normalizePath r.path = sk := by
  rcases s.keyed sk r hr with heq | ⟨rfl, hslash⟩
  · exact heq.symm
  · rw [h _ r hr] at hslash
    cases hslash

variable {r r' : ArtifactRecord}

/-- In a repository whose keys are normalised, the path of a record determines the record. -/
theorem Normalised.unique (h : s.Normalised) {sk sk' : String}
    (hr : s.table.get sk = some r) (hr' : s.table.get sk' = some r')
    (hpath : normalizePath r'.path = normalizePath r.path) : sk' = sk ∧ r' = r := by
  have hsk : sk' = sk := by rw [← h.key hr, ← h.key hr', hpath]
  subst hsk
  exact ⟨rfl, Option.some.inj (hr'.symm.trans hr)⟩

section

variable (present : BlobId → Bool) (repo : String) (o tagO : s.Order)

/-- Whether a record is a Docker tag whose manifest is not stored. -/
def dangling (s : RepoRecords) (repo : String) (record : ArtifactRecord) : Bool :=
  (tagFinding? repo (s.table.entries.map fun e => e.2.path) record).isSome

/-- The records after a check that repairs. -/
def checked : RecordTable ArtifactRecord :=
  (checkRepo present repo false o.1 tagO.1 { table := s.table }).table

/-- What a check leaves of a record. -/
def repaired (s : RepoRecords) (record : ArtifactRecord) : Option ArtifactRecord :=
  if blobMissing present record then none
  else if hasDoubleSlash record.path then renamed record
  else if s.dangling repo record then none
  else some record

theorem tagFinding?_path {artifactPaths : List String} {record : ArtifactRecord} {f : CheckFinding}
    (h : tagFinding? repo artifactPaths record = some f) : f.path = record.path := by
  unfold tagFinding? at h
  split at h
  · split at h
    · split at h
      · cases h
      · rw [← Option.some.inj h]
    · cases h
  · cases h

theorem tagFinding?_congr {paths paths' : List String} (h : ∀ p, p ∈ paths ↔ p ∈ paths')
    (record : ArtifactRecord) : tagFinding? repo paths record = tagFinding? repo paths' record := by
  simp only [tagFinding?, h]

theorem mem_danglingTags : path ∈ danglingTags present repo o.1 tagO.1 ↔
      ∃ sk r, s.table.get sk = some r ∧ s.dangling repo r ∧ r.path = path := by
  have hpaths : ∀ p, p ∈ (scanRepo present repo o.1).artifactPaths ↔
      p ∈ s.table.entries.map fun e => e.2.path := by
    intro p
    rw [scan_artifactPaths]
    exact (o.2.map _).mem_iff
  simp only [danglingTags, mem_map, mem_filterMap, dangling]
  constructor
  · rintro ⟨f, ⟨⟨sk, r⟩, he, hf⟩, rfl⟩
    have hsome := tagFinding?_congr repo hpaths r ▸ hf
    exact ⟨sk, r, (mem_order tagO).mp he, by rw [hsome]; rfl, (tagFinding?_path repo hf).symm⟩
  · rintro ⟨sk, r, hr, hdangling, rfl⟩
    obtain ⟨f, hf⟩ := Option.isSome_iff_exists.mp hdangling
    refine ⟨f, ⟨(sk, r), (mem_order tagO).mpr hr, ?_⟩, tagFinding?_path repo hf⟩
    rw [← hf]
    exact tagFinding?_congr repo hpaths r

theorem mem_toDelete : path ∈ (scanRepo present repo o.1).toDelete ↔
      ∃ sk r, s.table.get sk = some r ∧ blobMissing present r ∧ r.path = path := by
  rw [mem_scan_toDelete]
  constructor
  · rintro ⟨⟨sk, r⟩, he, hmissing, hpath⟩
    exact ⟨sk, r, (mem_order o).mp he, hmissing, hpath⟩
  · rintro ⟨sk, r, hr, hmissing, hpath⟩
    exact ⟨(sk, r), (mem_order o).mpr hr, hmissing, hpath⟩

variable {present repo o tagO}

variable {r : ArtifactRecord} {sk : String}

theorem mem_renameItems : (sk, r) ∈ renameItems present repo o.1 ↔ s.table.get sk = some r ∧
      hasDoubleSlash r.path = true ∧ r.path ∉ (scanRepo present repo o.1).toDelete := by
  unfold renameItems
  rw [mem_filter, mem_order, decide_eq_true_eq]

/-- Only a record itself is behind its path, so the path is to be deleted if the record is. -/
theorem Normalised.mem_toDelete_iff (h : s.Normalised) (hr : s.table.get sk = some r) :
    r.path ∈ (scanRepo present repo o.1).toDelete ↔ blobMissing present r = true := by
  rw [mem_toDelete]
  constructor
  · rintro ⟨sk', r', hr', hmissing, hpath⟩
    obtain ⟨-, rfl⟩ := h.unique hr hr' (by rw [hpath])
    exact hmissing
  · exact fun hmissing => ⟨sk, r, hr, hmissing, rfl⟩

theorem Normalised.deleted_iff (h : s.Normalised) (hr : s.table.get sk = some r) :
    (∃ path ∈ (scanRepo present repo o.1).toDelete ++ danglingTags present repo o.1 tagO.1,
      normalizePath path = sk) ↔ blobMissing present r = true ∨ s.dangling repo r = true := by
  have hsk := h.key hr
  simp only [mem_append, mem_toDelete, mem_danglingTags]
  constructor
  · rintro ⟨path, ⟨sk', r', hr', hwhy, rfl⟩ | ⟨sk', r', hr', hwhy, rfl⟩, heq⟩
    · obtain ⟨-, rfl⟩ := h.unique hr hr' (heq.trans hsk.symm)
      exact Or.inl hwhy
    · obtain ⟨-, rfl⟩ := h.unique hr hr' (heq.trans hsk.symm)
      exact Or.inr hwhy
  · rintro (hwhy | hwhy)
    · exact ⟨r.path, Or.inl ⟨sk, r, hr, hwhy, rfl⟩, hsk⟩
    · exact ⟨r.path, Or.inr ⟨sk, r, hr, hwhy, rfl⟩, hsk⟩

theorem Normalised.key_of_mem_renameItems (h : s.Normalised) {e : String × ArtifactRecord}
    (he : e ∈ renameItems present repo o.1) : normalizePath e.2.path = e.1 := by
  obtain ⟨sk, r⟩ := e
  exact h.key (mem_renameItems.mp he).1

/-- The keys of the renamed records are all different. -/
theorem Normalised.nodup_renameItems (h : s.Normalised) :
    ((renameItems present repo o.1).map fun e => normalizePath e.2.path).Nodup := by
  have hmap : (renameItems present repo o.1).map (fun e => normalizePath e.2.path) =
      (renameItems present repo o.1).map Prod.fst :=
    map_congr_left fun e he => h.key_of_mem_renameItems he
  rw [hmap]
  exact (nodup_order o).sublist (filter_sublist.map _)

/-- What a check leaves at a key of a repository whose keys are normalised. -/
theorem get_checked (h : s.Normalised) (hr : s.table.get sk = some r) :
    (s.checked present repo o tagO).get sk = s.repaired present repo r := by
  rw [checked, checkRepo_table]
  by_cases hitem : (sk, r) ∈ renameItems present repo o.1
  · have hkeys : ((renameItems present repo o.1).map fun e => normalizePath e.2.path).Nodup :=
      h.nodup_renameItems
    have hget := RecordTable.get_foldl_assign_of_mem
      (fun e : String × ArtifactRecord => normalizePath e.2.path) (fun e => renamed e.2) hkeys hitem
    simp only [h.key hr] at hget
    obtain ⟨-, hslash, hpresent⟩ := mem_renameItems.mp hitem
    rw [h.mem_toDelete_iff hr] at hpresent
    rw [hget, repaired, if_neg hpresent, if_pos hslash]
  · have hnot : ∀ e ∈ renameItems present repo o.1, normalizePath e.2.path ≠ sk := by
      rintro ⟨sk', r'⟩ he heq
      have hkey : sk' = sk := (h.key_of_mem_renameItems he).symm.trans heq
      subst hkey
      have hr' := (mem_renameItems.mp he).1
      rw [hr] at hr'
      cases hr'
      exact hitem he
    rw [get_foldl_assign_of_notMem _ _ hnot, get_foldl_remove, hr, repaired]
    simp only [h.deleted_iff hr]
    rw [mem_renameItems, h.mem_toDelete_iff hr] at hitem
    by_cases hmissing : blobMissing present r = true
    · simp [hmissing]
    · have hslash : hasDoubleSlash r.path ≠ true := fun hslash => hitem ⟨hr, hslash, hmissing⟩
      simp [hmissing, hslash]

/-- Nothing appears at a key of such a repository that was empty. -/
theorem get_checked_none (h : s.Normalised) (hr : s.table.get sk = none) :
    (s.checked present repo o tagO).get sk = none := by
  have hnot : ∀ e ∈ renameItems present repo o.1, normalizePath e.2.path ≠ sk := by
    rintro ⟨sk', r'⟩ he heq
    have hkey : sk' = sk := (h.key_of_mem_renameItems he).symm.trans heq
    subst hkey
    rw [(mem_renameItems.mp he).1] at hr
    cases hr
  rw [checked, checkRepo_table, get_foldl_assign_of_notMem _ _ hnot, get_foldl_remove, hr, ite_self]

end

/-! ## When the paths are repaired -/

/-- What a check that repairs the paths leaves: no key with a double slash; for an artifact
    whose path has one and whose blob exists, exactly one artifact at the normalised path, with
    the content of one that has that path; every artifact that was stored at its own path,
    unless another repair deletes it; and nothing for a second check to rename. -/
structure PathsRepaired (present : BlobId → Bool) (repo : String) (s : RepoRecords)
    (t : RecordTable ArtifactRecord) : Prop where
  removed : ∀ sk, hasDoubleSlash sk = true → t.get sk = none
  moved : ∀ sk r, s.table.get sk = some r → hasDoubleSlash r.path = true →
    blobMissing present r = false →
    ∃ sk₀ r₀ r', s.table.get sk₀ = some r₀ ∧ normalizePath r₀.path = normalizePath r.path ∧
      t.get (normalizePath r.path) = some r' ∧ r'.blobId = r₀.blobId
  keyed : ∀ sk r', t.get sk = some r' → normalizePath r'.path = sk
  kept : ∀ sk r, s.table.get sk = some r → r.path = sk → normalizePath sk = sk →
    blobMissing present r = false → s.dangling repo r = false → t.get sk = some r
  settled : ∀ order : List (String × ArtifactRecord), order.Perm t.entries →
    (scanRepo present repo order).toRename = []

variable {present : BlobId → Bool} {repo : String} {o tagO : s.Order}

/-- A record that a check leaves is the one that was there, or the one that it has renamed. -/
theorem repaired_cases (h : s.repaired present repo r = some r') : blobMissing present r = false ∧
      ((hasDoubleSlash r.path = false ∧ r' = r) ∨ r' = prepareRecord (normalizePath r.path) r) := by
  unfold repaired at h
  split at h
  · cases h
  · rename_i hmissing
    refine ⟨by simpa using hmissing, ?_⟩
    split at h
    · right
      unfold renamed at h
      split at h
      · cases h
      · exact (Option.some.inj h).symm
    · rename_i hslash
      left
      split at h
      · cases h
      · exact ⟨by simpa using hslash, (Option.some.inj h).symm⟩

theorem hasDoubleSlash_of_repaired
    (h : s.repaired present repo r = some r') : hasDoubleSlash r'.path = false := by
  obtain ⟨-, ⟨hslash, rfl⟩ | rfl⟩ := repaired_cases h
  · exact hslash
  · exact hasDoubleSlash_normalizePath _

/-- What is stored after a check was stored before, at the same key. -/
theorem get_checked_some (h : s.Normalised) {sk : String}
    (hr' : (s.checked present repo o tagO).get sk = some r') :
    ∃ r, s.table.get sk = some r ∧ s.repaired present repo r = some r' := by
  cases hr : s.table.get sk with
  | none =>
    rw [get_checked_none h hr] at hr'
    cases hr'
  | some r =>
    rw [get_checked h hr] at hr'
    exact ⟨r, rfl, hr'⟩

theorem Normalised.repairs (h : s.Normalised)
    (hname : ∀ sk r, s.table.get sk = some r → blobMissing present r = false →
      hasDoubleSlash r.path = true → normalizePath r.path ≠ "") :
    PathsRepaired present repo s (s.checked present repo o tagO) where
  removed sk hsk := by
    cases hr : s.table.get sk with
    | none => exact get_checked_none h hr
    | some r =>
      rw [h sk r hr] at hsk
      cases hsk
  moved sk r hr hslash hmissing := by
    have hsk := h.key hr
    have hget : (s.checked present repo o tagO).get sk = s.repaired present repo r :=
      get_checked h hr
    rw [repaired, if_neg (by simp [hmissing]), if_pos hslash, renamed,
      if_neg (hname sk r hr hmissing hslash)] at hget
    exact ⟨sk, r, prepareRecord (normalizePath r.path) r, hr, rfl, by simpa only [hsk] using hget, rfl⟩
  keyed sk r' hr' := by
    obtain ⟨r, hr, hrep⟩ := get_checked_some h hr'
    obtain ⟨-, ⟨-, rfl⟩ | rfl⟩ := repaired_cases hrep
    · exact h.key hr
    · exact (normalizePath_idem _).trans (h.key hr)
  kept sk r hr hpath hclean hmissing hdangling := by
    have hslash : hasDoubleSlash r.path = false := by
      rw [hpath, ← hclean]
      exact hasDoubleSlash_normalizePath _
    rw [get_checked h hr, repaired]
    simp [hmissing, hslash, hdangling]
  settled order horder := by
    rw [scan_toRename, map_eq_nil_iff, filter_eq_nil_iff]
    rintro ⟨sk, r'⟩ he
    obtain ⟨r, -, hrep⟩ := get_checked_some h (SortedMap.mem_entries_iff.mp (horder.mem_iff.mp he))
    simp [hasDoubleSlash_of_repaired hrep]

end RepoRecords

/-- **Main theorem.** A check repairs the paths of a repository exactly when no key has a double
    slash, only the paths in the records do, and none of these consists of slashes alone: the
    calls of the repair normalise the paths they are given, so that a key with a double slash
    is out of their reach, and what they delete and replace is the artifact at the normalised
    path. -/
theorem checkRepo_repairs_iff (present : BlobId → Bool) (repo : String) (s : RepoRecords)
    (o tagO : s.Order) :
    s.PathsRepaired present repo (s.checked present repo o tagO) ↔
      s.Normalised ∧ ∀ sk r, s.table.get sk = some r → blobMissing present r = false →
        hasDoubleSlash r.path = true → normalizePath r.path ≠ "" := by
  constructor
  · intro h
    have hnorm : s.Normalised := by
      intro sk r hr
      by_contra hslash
      have hget := get_checkRepo_unclean present repo o.1 tagO.1 { table := s.table }
        (Bool.not_eq_false _ ▸ hslash)
      have hgone := h.removed sk (Bool.not_eq_false _ ▸ hslash)
      rw [RepoRecords.checked, hget, hr] at hgone
      cases hgone
    refine ⟨hnorm, fun sk r hr hmissing hslash hempty => ?_⟩
    obtain ⟨-, -, r', -, -, hr', -⟩ := h.moved sk r hr hslash hmissing
    rw [hnorm.key hr, RepoRecords.get_checked hnorm hr, RepoRecords.repaired,
      if_neg (by simp [hmissing]), if_pos hslash, renamed, if_pos hempty] at hr'
    cases hr'
  · exact fun ⟨hnorm, hname⟩ => hnorm.repairs hname

/-! ## An artifact that is replaced -/

def blobRecord (path : String) (blob : BlobId) : ArtifactRecord where
  size := 1
  createdAt := 1
  updatedAt := 1
  lastAccessedAt := 1
  path := path
  blobId := some blob
  contentHash := some blob

/-- A repository with an artifact at `a/b` and another at the malformed key `a//b`. -/
def bothKeys : RepoRecords where
  table := ⟨[("a//b", blobRecord "a//b" "old"), ("a/b", blobRecord "a/b" "new")], by decide⟩
  keyed sk r h := by
    have hmem := SortedMap.mem_entries_iff.mpr h
    simp only [mem_cons, not_mem_nil, or_false, Prod.mk.injEq] at hmem
    obtain ⟨rfl, rfl⟩ | ⟨rfl, rfl⟩ := hmem
    · exact Or.inr ⟨rfl, by decide⟩
    · exact Or.inl (by decide)

/-- The malformed key stays, and the artifact at the normalised path gets the content of the
    malformed one. -/
theorem checkRepo_replaces :
    let t := bothKeys.checked (fun _ => true) "r" ⟨_, .rfl⟩ ⟨_, .rfl⟩
    ¬ bothKeys.PathsRepaired (fun _ => true) "r" t ∧
      (t.get "a//b").map ArtifactRecord.blobId = some (some "old") ∧
      (bothKeys.table.get "a/b").map ArtifactRecord.blobId = some (some "new") ∧
      (t.get "a/b").map ArtifactRecord.blobId = some (some "old") := by
  refine ⟨fun h => ?_, by decide, by decide, by decide⟩
  have hgone := h.removed "a//b" (by decide)
  revert hgone
  decide

end Depot
