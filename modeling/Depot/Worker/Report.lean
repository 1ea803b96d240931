import Depot.Config.Records
import Depot.Lib.Marks
import Depot.Worker.Check

/-!
# The report of an integrity check

What an integrity check reports about the blob records and the repositories it has gone through
(`server/src/server/worker/check.rs`, lines 400–1260), for all answers of the store: each call may
fail, and others may write in between. Log lines, progress and the lease are left out.

Results:
* `CheckRun.adds_report`: the findings, which of them are marked, and the number of repairs.
* `CheckRun.accounted`: every blob record is counted once.
* `CheckRun.truthful_iff`: when the marks and the number are those of the repairs.

**The report counts repairs that were not made, and leaves out some that were.** A blob record
counts as repaired although its deletion failed, and of two lost blobs with one hash the same
finding is marked twice. An artifact that was deleted for its missing blob is counted but not
marked, since the text that is looked for is not that of the finding. A rename counts when only the
old entry is gone.
-/

namespace Depot

open Lib List
open Bool (and_eq_true and_eq_true_iff false_eq_true)
open Option (any_some isNone_none isNone_some isSome_none isSome_some map_eq_some_iff map_some
  not_isSome some.inj)

/-! ## What the calls answer -/

/-- A blob record, what the check sees of its blob, and what the deletion of the record answers
    (lines 480–711). -/
structure BlobCheck where
  hash : String
  size : ℕ
  store : String
  registered : Bool
  listed : Bool
  opened : Except String (Option (Except String String × ℕ))
  deletion : Except DepotError Bool

/-- An artifact, and what the calls of its repairs answer (lines 832–900 and 993–1105). -/
structure ArtifactCheck where
  record : ArtifactRecord
  deletion : Except DepotError (Option ArtifactRecord)
  oldDeletion : Except DepotError (Option ArtifactRecord)
  occupied : Except DepotError (Option ArtifactRecord)
  put : Except DepotError Unit

/-- An artifact of the second scan, and what its deletion answers (lines 926–983). -/
structure TagCheck where
  record : ArtifactRecord
  deletion : Except DepotError (Option ArtifactRecord)

/-- A chart at the path of an earlier version, and what the calls of its relocation answer
    (lines 1296–1375). -/
structure ChartCheck where
  oldPath : String
  newPath : String
  put : Except DepotError Unit
  deletion : Except DepotError (Option ArtifactRecord)

/-- A repository: what the scans have read. -/
structure RepoCheck where
  config : Config.RepoConfig
  artifacts : List ArtifactCheck
  tags : List TagCheck
  charts : List ChartCheck

/-- Whether a blob is missing from its store (lines 530–560 and 661–684). -/
def BlobCheck.lost (verifyHashes : Bool) (c : BlobCheck) : Bool :=
  c.registered && (!c.listed || (verifyHashes && decide (c.opened = .ok none)))

/-- A check that was neither cancelled nor stopped by an error. The blobs that are missing are
    noted in an order of their own, since the tasks that read the blobs run at the same time. -/
structure CheckRun where
  dryRun : Bool
  verifyHashes : Bool
  present : BlobId → Bool
  blobs : List BlobCheck
  missingBlobs : List BlobCheck
  missing_perm : missingBlobs.Perm (blobs.filter (BlobCheck.lost verifyHashes))
  repos : List RepoCheck

/-! ## The findings -/

/-- A finding about a blob record. -/
def blobLevelFinding (path expectedHash : String) (actualHash error : Option String) :
    CheckFinding where
  repo := none
  path := path
  expectedHash := expectedHash
  actualHash := actualHash
  error := error

/-- The finding about a blob (lines 503–711). -/
def BlobCheck.finding? (verifyHashes : Bool) (c : BlobCheck) : Option CheckFinding :=
  if !c.registered then
    some (blobLevelFinding c.hash c.hash none (some ("blob store '" ++ c.store ++ "' not found")))
  else if !c.listed then
    some (blobLevelFinding c.hash c.hash none (some "blob missing from store"))
  else if verifyHashes then
    match c.opened with
    | .ok (some (.error e, _)) =>
        some (blobLevelFinding c.hash c.hash none (some ("read error: " ++ e)))
    | .ok (some (.ok actualHash, actualSize)) =>
        if actualHash ≠ c.hash then some (blobLevelFinding c.hash c.hash (some actualHash) none)
        else if actualSize ≠ c.size then
          some (blobLevelFinding c.hash ("size=" ++ toString c.size)
            (some ("size=" ++ toString actualSize)) (some "size mismatch"))
        else none
    | .ok none => some (blobLevelFinding c.hash c.hash none (some "blob missing from store"))
    | .error e => some (blobLevelFinding c.hash c.hash none (some ("read error: " ++ e)))
  else none

/-- The finding about a chart (lines 1303–1312). -/
def chartFinding (repo : String) (c : ChartCheck) : CheckFinding where
  repo := some repo
  path := c.oldPath
  expectedHash := c.newPath
  actualHash := none
  error := some "helm chart at legacy chart path"

/-- The finding for a configuration that does not load. -/
def configFinding (repo error : String) : CheckFinding where
  repo := some repo
  path := ""
  expectedHash := ""
  actualHash := none
  error := some error

/-- The findings about the configuration of a repository (lines 1120–1168). -/
def configFindings (names : List String) (config : Config.RepoConfig) : List CheckFinding :=
  match config.kind with
  | .cache upstreamUrl _ _ =>
      if upstreamUrl = "" then [configFinding config.name "cache repo has empty upstream_url"]
      else []
  | .proxy members _ =>
      (members.filter fun m => m ∉ names).map fun m =>
        configFinding config.name ("proxy member '" ++ m ++ "' does not exist")
  | .hosted => []

/-! ## The repairs -/

/-- `findings` and `fixed_count`. -/
structure Report where
  findings : List CheckFinding := []
  fixedCount : ℕ := 0

/-- Findings at the end. -/
def Report.add (s : Report) (findings : List CheckFinding) : Report :=
  { s with findings := s.findings ++ findings }

/-- What a repair finds its finding by. -/
def findingKey (f : CheckFinding) : Option String × String × Option String :=
  (f.repo, f.path, f.error)

/-- The finding with its `fixed` flag. -/
def setFixed (f : CheckFinding) : CheckFinding := { f with fixed := true }

/-- The last finding with a key is fixed. -/
def markFinding (key : Option String × String × Option String) (findings : List CheckFinding) :
    List CheckFinding :=
  changeLast (fun f => decide (findingKey f = key)) setFixed findings

/-- Whether a call has deleted a record. -/
def deleted : Except DepotError (Option ArtifactRecord) → Bool
  | .ok (some _) => true
  | _ => false

/-- The records of lost blobs are deleted (lines 758–789). -/
def fixBlob (s : Report) (c : BlobCheck) : Report :=
  match c.deletion with
  | .ok true =>
      { s with findings := markFinding (none, c.hash, some "blob missing from store") s.findings }
  | _ => s

section

variable (repo : String)

/-- An artifact whose blob is missing is deleted (lines 995–1017). -/
def fixArtifact (s : Report) (c : ArtifactCheck) : Report :=
  if deleted c.deletion then
    { findings := markFinding
        (some repo, c.record.path, some "artifact references unknown blob") s.findings
      fixedCount := s.fixedCount + 1 }
  else s

/-- A tag without its manifest is deleted (lines 1020–1041). -/
def fixTag (s : Report) (c : TagCheck) : Report :=
  if deleted c.deletion then
    { findings := markFinding
        (some repo, c.record.path, some "docker tag references missing manifest") s.findings
      fixedCount := s.fixedCount + 1 }
  else s

/-- An artifact is renamed (lines 1044–1103). -/
def fixRename (toDelete : List String) (s : Report) (c : ArtifactCheck) : Report :=
  if c.record.path ∈ toDelete then s
  else
    match c.oldDeletion with
    | .ok _ =>
        { findings := markFinding
            (some repo, c.record.path, some "path contains double slashes") s.findings
          fixedCount := s.fixedCount + 1 }
    | .error _ => s

/-- A chart is relocated (lines 1332–1375). -/
def fixChart (s : Report) (c : ChartCheck) : Report :=
  match c.put with
  | .ok _ =>
      { findings := markFinding
          (some repo, c.oldPath, some "helm chart at legacy chart path") s.findings
        fixedCount := s.fixedCount + 1 }
  | .error _ => s

end

namespace RepoCheck

variable (present : BlobId → Bool) (r : RepoCheck)

/-- The first scan (lines 824–912). -/
def scan : RepoScanState :=
  r.artifacts.foldl (fun state c => state.visit present r.config.name c.record) {}

/-- The artifacts whose blobs are missing. -/
def unbacked : List ArtifactCheck := r.artifacts.filter fun c => blobMissing present c.record

/-- The artifacts to rename. -/
def slashed : List ArtifactCheck := r.artifacts.filter fun c => hasDoubleSlash c.record.path

/-- The tags whose manifests are missing, with the findings about them. -/
def dangling : List (CheckFinding × TagCheck) :=
  r.tags.filterMap fun c =>
    (tagFinding? r.config.name (r.scan present).artifactPaths c.record).map fun f => (f, c)

/-- `check_helm_canonicalization` (lines 1273–1388). -/
def checkHelm (dryRun : Bool) (s : Report) : Report :=
  let s := s.add (r.charts.map (chartFinding r.config.name))
  if dryRun then s else r.charts.foldl (fixChart r.config.name) s

/-- A repository (lines 793–1172). -/
def check (dryRun : Bool) (names : List String) (s : Report) : Report :=
  let scan := r.scan present
  let s := s.add ((r.dangling present).map Prod.fst)
  let s := s.add scan.findings
  let s :=
    if dryRun then s
    else
      let s := (r.unbacked present).foldl (fixArtifact r.config.name) s
      let s := ((r.dangling present).map Prod.snd).foldl (fixTag r.config.name) s
      r.slashed.foldl (fixRename r.config.name scan.toDelete) s
  let s := if r.config.formatConfig.artifactFormat = .helm then r.checkHelm dryRun s else s
  s.add (configFindings names r.config)

end RepoCheck

namespace CheckRun

variable (run : CheckRun)

/-- The blob records (lines 480–789). -/
def checkBlobs : Report :=
  let s : Report := { findings := run.blobs.filterMap (BlobCheck.finding? run.verifyHashes) }
  if run.dryRun then s
  else
    let s := run.missingBlobs.foldl fixBlob s
    { s with fixedCount := s.fixedCount + run.missingBlobs.length }

/-- The names of the repositories. -/
def names : List String := run.repos.map fun r => r.config.name

/-- The findings and the number of repairs. -/
def report : Report :=
  run.repos.foldl (fun s r => r.check run.present run.dryRun run.names s) run.checkBlobs

/-- The result (lines 1174–1212). -/
def result (bytesRead : ℕ) : CheckResult :=
  let findings := run.report.findings
  let missing := findings.countP fun f =>
    f.actualHash.isNone && decide (f.error = some "blob missing from store")
  let mismatched := findings.countP fun f => f.actualHash.isSome && f.error.isNone
  let otherErrors := findings.countP fun f =>
    f.repo.isNone && f.error.isSome && decide (f.error ≠ some "blob missing from store")
  { totalBlobs := run.blobs.length
    passed := run.blobs.length - (missing + mismatched + otherErrors)
    mismatched := mismatched
    missing := missing
    errors := findings.length - missing - mismatched
    findings := findings
    bytesRead := bytesRead
    dryRun := run.dryRun
    fixed := run.report.fixedCount }

end CheckRun

/-! ## Findings with their repairs -/

/-- A finding, whether it is marked by its repair, whether the repair is counted, and whether it
    was made. -/
structure RepairItem where
  finding : CheckFinding
  hit : Bool := false
  counted : Bool := false
  applied : Bool := false

/-- What the finding is looked for by. -/
abbrev RepairItem.key (i : RepairItem) : Option String × String × Option String :=
  findingKey i.finding

/-- Which findings of a block are marked in the end. -/
def blockFlags (block : List RepairItem) : List Bool :=
  lastFlags RepairItem.key ((block.filter RepairItem.hit).map RepairItem.key) block

/-- Whether the old entry of a rename is deleted, so that the rename counts. -/
def ArtifactCheck.moved (toDelete : List String) (c : ArtifactCheck) : Bool :=
  decide (c.record.path ∉ toDelete) && c.oldDeletion.toBool

/-- Whether it is made: the new path is taken, or the record is stored there. -/
def ArtifactCheck.renamed (toDelete : List String) (c : ArtifactCheck) : Bool :=
  c.moved toDelete && (deleted c.occupied || c.put.toBool)

/-- Whether a chart is at its new path and no more at the old one. -/
def ChartCheck.relocated (c : ChartCheck) : Bool := c.put.toBool && c.deletion.toBool

/-- The item of a blob: its record is deleted. -/
def BlobCheck.item? (verifyHashes : Bool) (c : BlobCheck) : Option RepairItem :=
  (c.finding? verifyHashes).map fun f =>
    { finding := f
      hit := c.lost verifyHashes && decide (c.deletion = .ok true)
      counted := c.lost verifyHashes
      applied := c.lost verifyHashes && decide (c.deletion = .ok true) }

/-- The items of an artifact: it is deleted, or renamed. -/
def ArtifactCheck.items (present : BlobId → Bool) (repo : String) (toDelete : List String)
    (c : ArtifactCheck) : List RepairItem :=
  (if blobMissing present c.record then
    [{ finding := missingFinding repo c.record
       counted := deleted c.deletion
       applied := deleted c.deletion }]
  else []) ++
  (if hasDoubleSlash c.record.path then
    [{ finding := slashFinding repo c.record
       hit := c.moved toDelete
       counted := c.moved toDelete
       applied := c.renamed toDelete }]
  else [])

/-- A dangling tag and its deletion. -/
def tagItem (e : CheckFinding × TagCheck) : RepairItem where
  finding := e.1
  hit := deleted e.2.deletion
  counted := deleted e.2.deletion
  applied := deleted e.2.deletion

/-- A chart under an old path and its move. -/
def chartItem (repo : String) (c : ChartCheck) : RepairItem where
  finding := chartFinding repo c
  hit := c.put.toBool
  counted := c.put.toBool
  applied := c.relocated

/-- The repairs of a repository, in the order of their phases. -/
def RepoCheck.blocks (present : BlobId → Bool) (names : List String) (r : RepoCheck) :
    List (List RepairItem) :=
  [(r.dangling present).map tagItem,
    r.artifacts.flatMap (ArtifactCheck.items present r.config.name (r.scan present).toDelete),
    if r.config.formatConfig.artifactFormat = .helm then r.charts.map (chartItem r.config.name)
    else [],
    (configFindings names r.config).map fun f => { finding := f }]

/-- A finding that no repair is tried for. -/
def RepairItem.idle (i : RepairItem) : RepairItem := { finding := i.finding }

/-- The repairs of a run. -/
def CheckRun.blocks (run : CheckRun) : List (List RepairItem) :=
  let blocks := run.blobs.filterMap (BlobCheck.item? run.verifyHashes) ::
    run.repos.flatMap (RepoCheck.blocks run.present run.names)
  if run.dryRun then blocks.map (List.map RepairItem.idle) else blocks

/-- For each finding whether its repair was made. -/
def CheckRun.applied (run : CheckRun) : List Bool :=
  run.blocks.flatten.map RepairItem.applied

/-! ## What is added to a report -/

/-- A finding without its mark. -/
def unmarked (f : CheckFinding) : CheckFinding := { f with fixed := false }

/-- A report goes on with blocks of findings. -/
structure Adds (s s' : Report) (blocks : List (List RepairItem)) : Prop where
  intro ::
  added : ∃ new, s'.findings = s.findings ++ new ∧
    new.map CheckFinding.fixed = blocks.flatMap blockFlags ∧
    new.map unmarked = blocks.flatten.map RepairItem.finding
  count : s'.fixedCount = s.fixedCount + blocks.flatten.countP RepairItem.counted

theorem Adds.refl (s : Report) : Adds s s [] := ⟨⟨[], by simp⟩, rfl⟩

theorem Adds.trans {s s' s'' : Report} {blocks blocks' : List (List RepairItem)}
    (h : Adds s s' blocks) (h' : Adds s' s'' blocks') : Adds s s'' (blocks ++ blocks') := by
  obtain ⟨new, hnew, hfixed, hitems⟩ := h.added
  obtain ⟨new', hnew', hfixed', hitems'⟩ := h'.added
  refine ⟨⟨new ++ new', ?_, ?_, ?_⟩, ?_⟩
  · rw [hnew', hnew, append_assoc]
  · rw [map_append, hfixed, hfixed', flatMap_append]
  · rw [map_append, hitems, hitems', flatten_append, map_append]
  · rw [h'.count, h.count, flatten_append, countP_append, Nat.add_assoc]

/-- The findings of a block, with the marks of its repairs. -/
def markedBlock (marks : List (Option String × String × Option String))
    (block : List RepairItem) : List CheckFinding :=
  markAll findingKey setFixed marks (block.map RepairItem.finding)

/-- Findings that are as yet unmarked. -/
def Unfixed (block : List RepairItem) : Prop := ∀ i ∈ block, i.finding.fixed = false

variable {block : List RepairItem}

theorem map_unmarked (h : Unfixed block) :
    (block.map RepairItem.finding).map unmarked = block.map RepairItem.finding := by
  rw [map_map]
  refine map_congr_left fun i hi => ?_
  have hfixed := h i hi
  rw [Function.comp_apply, unmarked, ← hfixed]

/-- A block whose marks are those of its repairs. -/
theorem adds_marked {s s' : Report} {block : List RepairItem} (hfresh : Unfixed block)
    {marks : List (Option String × String × Option String)}
    (hmarks : ∀ i ∈ block, i.key ∈ marks ↔ ∃ j ∈ block, j.hit = true ∧ j.key = i.key)
    (hfindings : s'.findings = s.findings ++ markedBlock marks block)
    (hcount : s'.fixedCount = s.fixedCount + block.countP RepairItem.counted) :
    Adds s s' [block] := by
  refine ⟨⟨_, hfindings, ?_, ?_⟩, ?_⟩
  · have hunfixed : ∀ f ∈ block.map RepairItem.finding, f.fixed = false := by
      intro f hf
      obtain ⟨i, hi, rfl⟩ := mem_map.mp hf
      exact hfresh i hi
    rw [markedBlock, @flags_markAll _ _ _ findingKey setFixed marks _
      (fun _ => rfl) CheckFinding.fixed (fun _ => rfl) hunfixed, lastFlags_map]
    have hcongr : ∀ i ∈ block, i.key ∈ marks ↔
        i.key ∈ (block.filter RepairItem.hit).map RepairItem.key := by
      intro i hi
      rw [hmarks i hi, mem_map]
      simp only [mem_filter, and_assoc]
    rw [flatMap_singleton, blockFlags]
    exact lastFlags_congr hcongr
  · rw [flatten_singleton, ← map_unmarked hfresh, markedBlock]
    have hkeep : ∀ marks l, (markAll findingKey setFixed marks l).map unmarked =
        l.map unmarked := by
      intro marks
      induction marks with
      | nil => exact fun _ => rfl
      | cons k marks ih =>
        intro l
        have hmap : (changeLast (fun f => decide (findingKey f = k)) setFixed l).map unmarked =
            l.map unmarked :=
          map_changeLast (f := setFixed) (g := unmarked) (fun _ => rfl) l
        rw [markAll_cons, ih, hmap]
    exact hkeep marks _
  · rw [hcount, flatten_singleton]

/-- A block without repairs. -/
theorem adds_idle (s : Report) (hfresh : Unfixed block) :
    Adds s (s.add (block.map RepairItem.finding)) [block.map RepairItem.idle] := by
  have hfind : (block.map RepairItem.idle).map RepairItem.finding =
      block.map RepairItem.finding := by rw [map_map]; rfl
  have hfresh' : Unfixed (block.map RepairItem.idle) := by
    intro i hi
    obtain ⟨j, hj, rfl⟩ := mem_map.mp hi
    exact hfresh j hj
  refine @adds_marked _ _ _ hfresh' [] ?_ ?_ ?_
  · intro i _
    constructor
    · exact fun h => absurd h not_mem_nil
    · rintro ⟨j, hj, hhit, -⟩
      obtain ⟨j, -, rfl⟩ := mem_map.mp hj
      cases hhit
  · rw [markedBlock, hfind]
    rfl
  · have hzero : (block.map RepairItem.idle).countP RepairItem.counted = 0 := by
      rw [countP_eq_zero]
      intro i hi
      obtain ⟨j, -, rfl⟩ := mem_map.mp hi
      exact Bool.false_ne_true
    rw [hzero]
    rfl

theorem findingKey_setFixed (f : CheckFinding) : findingKey (setFixed f) = findingKey f := rfl

/-! ## A run of repairs -/

/-- Repairs that mark a finding and are counted. -/
theorem foldl_fix {β : Type} {fix : Report → β → Report} {hit : β → Bool}
    {key : β → Option String × String × Option String}
    (hfix : ∀ s c, fix s c = if hit c then
      { findings := markFinding (key c) s.findings, fixedCount := s.fixedCount + 1 } else s)
    (cs : List β) (s : Report) : cs.foldl fix s =
      { findings := markAll findingKey setFixed ((cs.filter hit).map key) s.findings
        fixedCount := s.fixedCount + cs.countP hit } := by
  induction cs generalizing s with
  | nil => rfl
  | cons c cs ih =>
    rw [foldl_cons, ih, hfix]
    by_cases hc : hit c = true
    · rw [if_pos hc, filter_cons_of_pos hc, countP_cons_of_pos hc]
      simp only [map_cons, markAll_cons, markFinding]
      congr 1
      omega
    · rw [if_neg hc, filter_cons_of_neg hc, countP_cons_of_neg hc]

/-! ## The blobs -/

theorem append_ne {start rest text : String} (h : ¬ start.toList <+: text.toList) :
    start ++ rest ≠ text := by
  rintro rfl
  exact h (String.toList_append ▸ prefix_append _ _)

/-- What a finding about a blob is counted as: a blob that is missing, one with other bytes, or
    an error. -/
inductive BlobLevel (c : BlobCheck) (verifyHashes : Bool) (f : CheckFinding) : Prop
  | missing (hlost : c.lost verifyHashes = true) (hpath : f.path = c.hash)
      (hactual : f.actualHash = none) (herror : f.error = some "blob missing from store")
  | mismatch (hlost : c.lost verifyHashes = false) (hactual : f.actualHash.isSome = true)
      (herror : f.error = none)
  | failed (hlost : c.lost verifyHashes = false) (e : String) (herror : f.error = some e)
      (hne : e ≠ "blob missing from store") (hother : e ≠ "artifact references unknown blob")

variable {f : CheckFinding}

variable {c : BlobCheck}

theorem blobLevel_of_finding {verifyHashes : Bool} (h : c.finding? verifyHashes = some f) :
    f.repo = none ∧ f.fixed = false ∧ BlobLevel c verifyHashes f := by
  have hread : ∀ e : String, "read error: " ++ e ≠ "blob missing from store" ∧
      "read error: " ++ e ≠ "artifact references unknown blob" := fun e =>
    ⟨append_ne (by decide), append_ne (by decide)⟩
  unfold BlobCheck.finding? at h
  cases hreg : c.registered with
  | false =>
    rw [hreg] at h
    obtain rfl := some.inj h
    have hlost : c.lost verifyHashes = false := by rw [BlobCheck.lost, hreg, Bool.false_and]
    refine ⟨rfl, rfl, .failed hlost _ rfl ?_ ?_⟩
    · rw [String.append_assoc]
      exact append_ne (by decide)
    · rw [String.append_assoc]
      exact append_ne (by decide)
  | true =>
    rw [hreg] at h
    cases hlisted : c.listed with
    | false =>
      rw [hlisted] at h
      obtain rfl := some.inj h
      exact ⟨rfl, rfl, .missing (by simp [BlobCheck.lost, hreg, hlisted]) rfl rfl rfl⟩
    | true =>
      rw [hlisted] at h
      cases verifyHashes with
      | false => cases h
      | true =>
        have hlost : c.lost true = decide (c.opened = .ok none) := by
          simp [BlobCheck.lost, hreg, hlisted]
        simp only [Bool.not_true, false_eq_true, if_false, if_true] at h
        cases hopened : c.opened with
        | error e =>
          rw [hopened] at h hlost
          obtain rfl := some.inj h
          exact ⟨rfl, rfl, .failed (hlost.trans (decide_eq_false (by simp))) _ rfl (hread e).1
            (hread e).2⟩
        | ok blob =>
          cases blob with
          | none =>
            rw [hopened] at h hlost
            obtain rfl := some.inj h
            exact ⟨rfl, rfl, .missing (hlost.trans (decide_eq_true rfl)) rfl rfl rfl⟩
          | some read =>
            obtain ⟨bytes, actualSize⟩ := read
            rw [hopened] at h hlost
            have hnot : c.lost true = false := hlost.trans (decide_eq_false (by simp))
            cases bytes with
            | error e =>
              obtain rfl := some.inj h
              exact ⟨rfl, rfl, .failed hnot _ rfl (hread e).1 (hread e).2⟩
            | ok actualHash =>
              dsimp only at h
              split_ifs at h
              · obtain rfl := some.inj h
                exact ⟨rfl, rfl, .mismatch hnot rfl rfl⟩
              · obtain rfl := some.inj h
                exact ⟨rfl, rfl, .failed hnot _ rfl (by decide) (by decide)⟩

/-- A lost blob is found. -/
theorem finding_of_lost {verifyHashes : Bool} (h : c.lost verifyHashes = true) :
    ∃ f, c.finding? verifyHashes = some f ∧
      findingKey f = (none, c.hash, some "blob missing from store") := by
  have hreg : c.registered = true := by
    rw [BlobCheck.lost, and_eq_true] at h
    exact h.1
  unfold BlobCheck.finding?
  rw [hreg]
  cases hlisted : c.listed with
  | false => exact ⟨_, rfl, rfl⟩
  | true =>
    have hrest : verifyHashes = true ∧ c.opened = .ok none := by
      simpa [BlobCheck.lost, hreg, hlisted] using h
    rw [hrest.1, hrest.2]
    exact ⟨_, rfl, rfl⟩

variable {i : RepairItem}

namespace CheckRun

variable (run : CheckRun)

/-- The findings for the blobs. -/
def blobItems : List RepairItem := run.blobs.filterMap (BlobCheck.item? run.verifyHashes)

variable {run}

theorem mem_blobItems : i ∈ run.blobItems ↔
    ∃ c ∈ run.blobs, ∃ f, c.finding? run.verifyHashes = some f ∧
      i = { finding := f
            hit := c.lost run.verifyHashes && decide (c.deletion = .ok true)
            counted := c.lost run.verifyHashes
            applied := c.lost run.verifyHashes && decide (c.deletion = .ok true) } := by
  rw [blobItems, mem_filterMap]
  refine exists_congr fun c => and_congr_right fun _ => ?_
  rw [BlobCheck.item?, map_eq_some_iff]
  exact exists_congr fun f => and_congr_right fun _ => eq_comm

theorem map_finding_blobItems : run.blobItems.map RepairItem.finding =
    run.blobs.filterMap (BlobCheck.finding? run.verifyHashes) := by
  rw [blobItems, map_filterMap]
  refine filterMap_congr fun c _ => ?_
  rw [BlobCheck.item?, Option.map_map]
  exact congrFun Option.map_id _

theorem fresh_blobItems : Unfixed run.blobItems := by
  intro i hi
  obtain ⟨c, -, f, hf, rfl⟩ := mem_blobItems.mp hi
  exact (blobLevel_of_finding hf).2.1

theorem mem_missingBlobs : c ∈ run.missingBlobs ↔
    c ∈ run.blobs ∧ c.lost run.verifyHashes = true := by
  rw [run.missing_perm.mem_iff, mem_filter]

/-- What the findings about the records that were deleted are looked for by. -/
def deletedKeys (cs : List BlobCheck) : List (Option String × String × Option String) :=
  (cs.filter fun c => decide (c.deletion = .ok true)).map fun c =>
    (none, c.hash, some "blob missing from store")

theorem foldl_fixBlob (cs : List BlobCheck) (s : Report) : cs.foldl fixBlob s =
    { s with findings := markAll findingKey setFixed (deletedKeys cs) s.findings } := by
  induction cs generalizing s with
  | nil => rfl
  | cons c cs ih =>
    rw [foldl_cons, ih]
    by_cases hc : c.deletion = .ok true
    · have hkeys : deletedKeys (c :: cs) =
          (none, c.hash, some "blob missing from store") :: deletedKeys cs := by
        simp [deletedKeys, hc]
      rw [hkeys, fixBlob, hc]
      rfl
    · have hsame : fixBlob s c = s := by
        unfold fixBlob
        split
        · rename_i h
          exact absurd h hc
        · rfl
      have hkeys : deletedKeys (c :: cs) = deletedKeys cs := by
        simp [deletedKeys, hc]
      rw [hkeys, hsame]

theorem countP_blobItems :
    run.blobItems.countP RepairItem.counted = run.missingBlobs.length := by
  rw [run.missing_perm.length_eq, ← countP_eq_length_filter, blobItems, countP_filterMap]
  refine countP_congr fun c _ => ?_
  cases hlost : c.lost run.verifyHashes with
  | true =>
    obtain ⟨f, hf, -⟩ := finding_of_lost hlost
    simp [BlobCheck.item?, hf, hlost]
  | false =>
    cases hf : c.finding? run.verifyHashes <;> simp [BlobCheck.item?, hf, hlost]

theorem mark_blobItems : i.key ∈ deletedKeys run.missingBlobs ↔
      ∃ j ∈ run.blobItems, j.hit = true ∧ j.key = i.key := by
  rw [deletedKeys, mem_map]
  constructor
  · rintro ⟨c, hc, hkey⟩
    obtain ⟨hmem, hdel⟩ := mem_filter.mp hc
    obtain ⟨hblob, hlost⟩ := mem_missingBlobs.mp hmem
    obtain ⟨f, hf, hfkey⟩ := finding_of_lost hlost
    refine ⟨_, mem_blobItems.mpr ⟨c, hblob, f, hf, rfl⟩, ?_, hfkey.trans hkey⟩
    rw [and_eq_true]
    exact ⟨hlost, hdel⟩
  · rintro ⟨j, hj, hhit, hkey⟩
    obtain ⟨c, hblob, f, hf, rfl⟩ := mem_blobItems.mp hj
    rw [and_eq_true] at hhit
    obtain ⟨f', hf', hfkey⟩ := finding_of_lost hhit.1
    obtain rfl := some.inj (hf.symm.trans hf')
    exact ⟨c, mem_filter.mpr ⟨mem_missingBlobs.mpr ⟨hblob, hhit.1⟩, hhit.2⟩, hfkey.symm.trans hkey⟩

/-- The check of the blob records adds its items. -/
theorem adds_checkBlobs : Adds {} run.checkBlobs
    [if run.dryRun then run.blobItems.map RepairItem.idle else run.blobItems] := by
  rw [checkBlobs, ← map_finding_blobItems]
  cases hdry : run.dryRun with
  | true => exact adds_idle {} fresh_blobItems
  | false =>
    simp only [false_eq_true, if_false, foldl_fixBlob]
    refine adds_marked fresh_blobItems (fun _ _ => mark_blobItems) rfl ?_
    rw [countP_blobItems]

end CheckRun

/-! ## A repository -/

namespace RepoCheck

variable {present : BlobId → Bool} {r : RepoCheck} {names : List String}

/-- The findings for the artifacts of a repository. -/
abbrev artifactItems (present : BlobId → Bool) (r : RepoCheck) : List RepairItem :=
  r.artifacts.flatMap (ArtifactCheck.items present r.config.name (r.scan present).toDelete)

theorem scan_findings : (r.scan present).findings =
    (r.artifactItems present).map RepairItem.finding := by
  have hvisit : ∀ (state : RepoScanState) (record : ArtifactRecord),
      (state.visit present r.config.name record).findings = state.findings ++
        ((if blobMissing present record then [missingFinding r.config.name record] else []) ++
          if hasDoubleSlash record.path then [slashFinding r.config.name record] else []) := by
    intro state record
    unfold RepoScanState.visit
    by_cases hmissing : blobMissing present record <;>
      by_cases hslash : hasDoubleSlash record.path <;> simp [hmissing, hslash]
  have hfold : ∀ (cs : List ArtifactCheck) (state : RepoScanState) (toDelete : List String),
      (cs.foldl (fun state c => state.visit present r.config.name c.record) state).findings =
        state.findings ++ (cs.flatMap
          (ArtifactCheck.items present r.config.name toDelete)).map RepairItem.finding := by
    intro cs
    induction cs with
    | nil => intro state _; simp
    | cons c cs ih =>
      intro state toDelete
      rw [foldl_cons, ih _ toDelete, hvisit, flatMap_cons, map_append,
        append_assoc, ArtifactCheck.items]
      by_cases hmissing : blobMissing present c.record <;>
        by_cases hslash : hasDoubleSlash c.record.path <;> simp [hmissing, hslash]
  have hscan := hfold r.artifacts {} (r.scan present).toDelete
  rwa [nil_append] at hscan

/-- The item of an artifact is about its blob or about its path. -/
theorem mem_artifactItems : i ∈ r.artifactItems present ↔ ∃ c ∈ r.artifacts,
      (blobMissing present c.record = true ∧
        i = { finding := missingFinding r.config.name c.record
              counted := deleted c.deletion
              applied := deleted c.deletion }) ∨
      (hasDoubleSlash c.record.path = true ∧
        i = { finding := slashFinding r.config.name c.record
              hit := c.moved (r.scan present).toDelete
              counted := c.moved (r.scan present).toDelete
              applied := c.renamed (r.scan present).toDelete }) := by
  rw [artifactItems, mem_flatMap]
  refine exists_congr fun c => and_congr_right fun _ => ?_
  rw [ArtifactCheck.items, mem_append]
  by_cases hmissing : blobMissing present c.record <;>
    by_cases hslash : hasDoubleSlash c.record.path <;> simp [hmissing, hslash]

theorem fresh_artifactItems : Unfixed (r.artifactItems present) := by
  intro i hi
  obtain ⟨c, -, ⟨-, rfl⟩ | ⟨-, rfl⟩⟩ := mem_artifactItems.mp hi
  · rfl
  · rfl

theorem error_artifactItems (hi : i ∈ r.artifactItems present) :
    i.finding.error = some "artifact references missing blob" ∨
      i.finding.error = some "path contains double slashes" := by
  obtain ⟨c, -, ⟨-, rfl⟩ | ⟨-, rfl⟩⟩ := mem_artifactItems.mp hi
  · exact .inl rfl
  · exact .inr rfl

theorem tagFinding_eq {artifactPaths : List String} {repo : String} {record : ArtifactRecord}
    (h : tagFinding? repo artifactPaths record = some f) : f.fixed = false ∧
      findingKey f = (some repo, record.path, some "docker tag references missing manifest") := by
  unfold tagFinding? at h
  split at h
  · split at h
    · split_ifs at h
      obtain rfl := some.inj h
      exact ⟨rfl, rfl⟩
    · cases h
  · cases h

theorem dangling_key {e : CheckFinding × TagCheck} (h : e ∈ r.dangling present) :
    e.1.fixed = false ∧ findingKey e.1 =
      (some r.config.name, e.2.record.path, some "docker tag references missing manifest") := by
  obtain ⟨c, -, hc⟩ := mem_filterMap.mp h
  obtain ⟨f, hf, rfl⟩ := map_eq_some_iff.mp hc
  exact tagFinding_eq hf

theorem map_finding_tagItems : ((r.dangling present).map tagItem).map RepairItem.finding =
    (r.dangling present).map Prod.fst := by
  rw [map_map]
  rfl

theorem fresh_tagItems : Unfixed ((r.dangling present).map tagItem) := by
  intro i hi
  obtain ⟨e, he, rfl⟩ := mem_map.mp hi
  exact (dangling_key he).1

theorem error_configFindings (h : f ∈ configFindings names r.config) :
    f.fixed = false ∧ ∃ e, f.error = some e ∧ e ≠ "artifact references unknown blob" ∧
      e ≠ "blob missing from store" ∧ f.repo = some r.config.name := by
  unfold configFindings at h
  split at h
  · split_ifs at h
    · rw [mem_singleton.mp h]
      exact ⟨rfl, _, rfl, by decide, by decide, rfl⟩
    · cases h
  · obtain ⟨m, -, rfl⟩ := mem_map.mp h
    refine ⟨rfl, _, rfl, ?_, ?_, rfl⟩
    · rw [String.append_assoc]
      exact append_ne (by decide)
    · rw [String.append_assoc]
      exact append_ne (by decide)
  · cases h

/-- No finding has the text that the repair of an artifact without its blob looks for. -/
def Findable (s : Report) : Prop :=
  ∀ f ∈ s.findings, f.error ≠ some "artifact references unknown blob"

/-- The repairs of the artifacts without their blobs mark nothing. -/
theorem foldl_fixArtifact {s : Report} (hs : Findable s) (repo : String) (cs : List ArtifactCheck) :
    cs.foldl (fixArtifact repo) s =
      { s with fixedCount := s.fixedCount + cs.countP fun c => deleted c.deletion } := by
  rw [@foldl_fix _ (fixArtifact repo) (fun c => deleted c.deletion)
    (fun c => (some repo, c.record.path, some "artifact references unknown blob"))
    (fun _ _ => rfl), markAll_of_not findingKey_setFixed]
  intro k hk f hf heq
  obtain ⟨c, -, rfl⟩ := mem_map.mp hk
  exact hs f hf (Prod.mk.inj (Prod.mk.inj heq).2).2

/-- What the findings about renames are looked for by. -/
def movedKeys (repo : String) (toDelete : List String) (cs : List ArtifactCheck) :
    List (Option String × String × Option String) :=
  (cs.filter (ArtifactCheck.moved toDelete)).map fun c =>
    (some repo, c.record.path, some "path contains double slashes")

theorem foldl_fixRename (repo : String) (toDelete : List String) (cs : List ArtifactCheck)
    (s : Report) : cs.foldl (fixRename repo toDelete) s =
      { findings := markAll findingKey setFixed (movedKeys repo toDelete cs) s.findings
        fixedCount := s.fixedCount + cs.countP (ArtifactCheck.moved toDelete) } := by
  refine foldl_fix (fun s c => ?_) cs s
  rw [fixRename, ArtifactCheck.moved]
  by_cases hmem : c.record.path ∈ toDelete
  · simp [hmem]
  · cases hdel : c.oldDeletion <;> simp [hmem, Except.toBool]

/-- What the findings about tags are looked for by. -/
def tagKeys (repo : String) (cs : List TagCheck) : List (Option String × String × Option String) :=
  (cs.filter fun c => deleted c.deletion).map fun c =>
    (some repo, c.record.path, some "docker tag references missing manifest")

theorem foldl_fixTag (repo : String) (cs : List TagCheck) (s : Report) :
    cs.foldl (fixTag repo) s =
      { findings := markAll findingKey setFixed (tagKeys repo cs) s.findings
        fixedCount := s.fixedCount + cs.countP fun c => deleted c.deletion } :=
  foldl_fix (fun _ _ => rfl) cs s

theorem mark_tagItems : i.key ∈ tagKeys r.config.name ((r.dangling present).map Prod.snd) ↔
      ∃ j ∈ (r.dangling present).map tagItem, j.hit = true ∧ j.key = i.key := by
  rw [tagKeys, mem_map]
  constructor
  · rintro ⟨c, hc, hkey⟩
    obtain ⟨hmem, hdel⟩ := mem_filter.mp hc
    obtain ⟨e, he, rfl⟩ := mem_map.mp hmem
    exact ⟨tagItem e, mem_map_of_mem he, hdel, (dangling_key he).2.trans hkey⟩
  · rintro ⟨j, hj, hhit, hkey⟩
    obtain ⟨e, he, rfl⟩ := mem_map.mp hj
    exact ⟨e.2, mem_filter.mpr ⟨mem_map_of_mem he, hhit⟩, (dangling_key he).2.symm.trans hkey⟩

theorem mark_artifactItems : i.key ∈ movedKeys r.config.name (r.scan present).toDelete r.slashed ↔
      ∃ j ∈ r.artifactItems present, j.hit = true ∧ j.key = i.key := by
  rw [movedKeys, mem_map]
  constructor
  · rintro ⟨c, hc, hkey⟩
    obtain ⟨hmem, hmoved⟩ := mem_filter.mp hc
    obtain ⟨hart, hslash⟩ := mem_filter.mp hmem
    exact ⟨_, mem_artifactItems.mpr ⟨c, hart, .inr ⟨hslash, rfl⟩⟩, hmoved, hkey⟩
  · rintro ⟨j, hj, hhit, hkey⟩
    obtain ⟨c, hart, ⟨-, rfl⟩ | ⟨hslash, rfl⟩⟩ := mem_artifactItems.mp hj
    · cases hhit
    · exact ⟨c, mem_filter.mpr ⟨mem_filter.mpr ⟨hart, hslash⟩, hhit⟩, hkey⟩

theorem countP_artifactItems : (r.artifactItems present).countP RepairItem.counted =
    ((r.unbacked present).countP fun c => deleted c.deletion) +
      r.slashed.countP (ArtifactCheck.moved (r.scan present).toDelete) := by
  have hsum : ∀ (toDelete : List String) (cs : List ArtifactCheck),
      (cs.flatMap (ArtifactCheck.items present r.config.name toDelete)).countP RepairItem.counted =
        ((cs.filter fun c => blobMissing present c.record).countP fun c => deleted c.deletion) +
          (cs.filter fun c => hasDoubleSlash c.record.path).countP
            (ArtifactCheck.moved toDelete) := by
    intro toDelete cs
    induction cs with
    | nil => rfl
    | cons c cs ih =>
      rw [flatMap_cons, countP_append, ih, ArtifactCheck.items, filter_cons, filter_cons]
      by_cases hmissing : blobMissing present c.record <;>
        by_cases hslash : hasDoubleSlash c.record.path <;>
        simp [hmissing, hslash, countP_cons] <;> omega
  exact hsum _ _

/-- The findings of the scans and their repairs add the items of the tags and the artifacts. -/
theorem adds_scans {s : Report} (hs : Findable s) : Adds s
    (r.slashed.foldl (fixRename r.config.name (r.scan present).toDelete)
      (((r.dangling present).map Prod.snd).foldl (fixTag r.config.name)
        ((r.unbacked present).foldl (fixArtifact r.config.name)
          ((s.add ((r.dangling present).map Prod.fst)).add (r.scan present).findings))))
    [(r.dangling present).map tagItem, r.artifactItems present] := by
  have hfindable : Findable ((s.add ((r.dangling present).map Prod.fst)).add
      (r.scan present).findings) := by
    intro f hf
    rw [Report.add, Report.add, mem_append, mem_append, scan_findings] at hf
    rcases hf with (hf | hf) | hf
    · exact hs f hf
    · obtain ⟨e, he, rfl⟩ := mem_map.mp hf
      have hkey := (Prod.mk.inj (Prod.mk.inj (dangling_key he).2).2).2
      rw [hkey]
      decide
    · obtain ⟨i, hi, rfl⟩ := mem_map.mp hf
      rcases error_artifactItems hi with herror | herror
      · rw [herror]
        decide
      · rw [herror]
        decide
  let tagBlock := (r.dangling present).map tagItem
  let tagMarks := tagKeys r.config.name ((r.dangling present).map Prod.snd)
  let middle : Report :=
    { findings := s.findings ++ markedBlock tagMarks tagBlock
      fixedCount := s.fixedCount + tagBlock.countP RepairItem.counted }
  have htags : Adds s middle [tagBlock] :=
    adds_marked fresh_tagItems (fun _ _ => mark_tagItems) rfl rfl
  have hshape : markAll findingKey setFixed tagMarks (s.findings ++
      (r.dangling present).map Prod.fst ++ (r.scan present).findings) =
        middle.findings ++ (r.artifactItems present).map RepairItem.finding := by
    rw [markAll_append_left, markAll_append findingKey_setFixed, scan_findings]
    · rw [← map_finding_tagItems]
      rfl
    · intro k hk
      obtain ⟨c, hc, rfl⟩ := mem_map.mp hk
      obtain ⟨e, he, rfl⟩ := mem_map.mp (mem_filter.mp hc).1
      exact ⟨e.1, mem_map_of_mem he, (dangling_key he).2⟩
    · intro k hk f hf heq
      obtain ⟨c, -, rfl⟩ := mem_map.mp hk
      have herror := (Prod.mk.inj (Prod.mk.inj heq).2).2
      rw [scan_findings] at hf
      obtain ⟨i, hi, rfl⟩ := mem_map.mp hf
      rcases error_artifactItems hi with herror' | herror'
      · rw [herror'] at herror
        revert herror
        decide
      · rw [herror'] at herror
        revert herror
        decide
  have hartifacts : Adds middle
      { findings := markAll findingKey setFixed
          (movedKeys r.config.name (r.scan present).toDelete r.slashed)
          (middle.findings ++ (r.artifactItems present).map RepairItem.finding)
        fixedCount := middle.fixedCount + (r.artifactItems present).countP RepairItem.counted }
      [r.artifactItems present] := by
    refine adds_marked fresh_artifactItems (fun _ _ => mark_artifactItems) ?_ rfl
    rw [markAll_append findingKey_setFixed]
    · rfl
    · intro k hk
      obtain ⟨c, hc, rfl⟩ := mem_map.mp hk
      obtain ⟨hmem, -⟩ := mem_filter.mp hc
      obtain ⟨hart, hslash⟩ := mem_filter.mp hmem
      exact ⟨_, mem_map_of_mem (mem_artifactItems.mpr ⟨c, hart, .inr ⟨hslash, rfl⟩⟩), rfl⟩
  have hcount : tagBlock.countP RepairItem.counted =
      ((r.dangling present).map Prod.snd).countP fun c => deleted c.deletion := by
    rw [countP_map, countP_map]
    rfl
  rw [foldl_fixArtifact hfindable, foldl_fixTag, foldl_fixRename]
  have hall := htags.trans hartifacts
  rw [← hshape, countP_artifactItems] at hall
  have hsum : s.fixedCount + ((r.unbacked present).countP fun c => deleted c.deletion) +
      (((r.dangling present).map Prod.snd).countP fun c => deleted c.deletion) +
      r.slashed.countP (ArtifactCheck.moved (r.scan present).toDelete) =
      middle.fixedCount + (((r.unbacked present).countP fun c => deleted c.deletion) +
        r.slashed.countP (ArtifactCheck.moved (r.scan present).toDelete)) := by
    show _ = s.fixedCount + tagBlock.countP RepairItem.counted + _
    rw [hcount]
    omega
  rw [← hsum] at hall
  exact hall

/-- What the findings about charts are looked for by. -/
theorem adds_checkHelm (s : Report) : Adds s (r.checkHelm false s)
    [r.charts.map (chartItem r.config.name)] := by
  have hfind : (r.charts.map (chartItem r.config.name)).map RepairItem.finding =
      r.charts.map (chartFinding r.config.name) := by
    rw [map_map]
    rfl
  have hfix : ∀ s c, fixChart r.config.name s c = if c.put.toBool then
      { findings := markFinding
          (some r.config.name, c.oldPath, some "helm chart at legacy chart path") s.findings
        fixedCount := s.fixedCount + 1 } else s := by
    intro s c
    rw [fixChart]
    cases c.put <;> rfl
  rw [checkHelm]
  simp only [false_eq_true, if_false]
  rw [foldl_fix hfix]
  refine @adds_marked _ _ _ ?_ ((r.charts.filter fun c => c.put.toBool).map fun c =>
    (some r.config.name, c.oldPath, some "helm chart at legacy chart path")) ?_ ?_ ?_
  · intro i hi
    obtain ⟨c, -, rfl⟩ := mem_map.mp hi
    rfl
  · intro i _
    rw [mem_map]
    constructor
    · rintro ⟨c, hc, hkey⟩
      obtain ⟨hmem, hput⟩ := mem_filter.mp hc
      exact ⟨_, mem_map_of_mem hmem, hput, hkey⟩
    · rintro ⟨j, hj, hhit, hkey⟩
      obtain ⟨c, hc, rfl⟩ := mem_map.mp hj
      exact ⟨c, mem_filter.mpr ⟨hc, hhit⟩, hkey⟩
  · rw [Report.add, markAll_append findingKey_setFixed, markedBlock, hfind]
    intro k hk
    obtain ⟨c, hc, rfl⟩ := mem_map.mp hk
    exact ⟨_, mem_map_of_mem (mem_filter.mp hc).1, rfl⟩
  · rw [countP_map]
    rfl

/-- The blocks of a repository, with repairs or without. -/
def blocksOf (present : BlobId → Bool) (names : List String) (dryRun : Bool) (r : RepoCheck) :
    List (List RepairItem) :=
  if dryRun then (r.blocks present names).map (List.map RepairItem.idle)
  else r.blocks present names

theorem fresh_configItems :
    Unfixed ((configFindings names r.config).map fun f => { finding := f }) := by
  intro i hi
  obtain ⟨f, hf, rfl⟩ := mem_map.mp hi
  exact (error_configFindings hf).1

theorem adds_configFindings (s : Report) : Adds s (s.add (configFindings names r.config))
    [(configFindings names r.config).map fun f => { finding := f }] := by
  have hadds := adds_idle s (@fresh_configItems r names)
  have hfind : ((configFindings names r.config).map
      fun f => ({ finding := f } : RepairItem)).map RepairItem.finding =
        configFindings names r.config := by
    rw [map_map]
    exact map_id _
  have hidle : ((configFindings names r.config).map
      fun f => ({ finding := f } : RepairItem)).map RepairItem.idle =
        (configFindings names r.config).map fun f => { finding := f } := by
    rw [map_map]
    rfl
  rwa [hfind, hidle] at hadds

/-- The check of a repository adds its blocks. -/
theorem adds_check (dryRun : Bool) {s : Report} (hs : Findable s) :
    Adds s (r.check present dryRun names s) (r.blocksOf present names dryRun) := by
  cases dryRun with
  | false =>
    have hscans := @adds_scans present r s hs
    rw [check, blocksOf, blocks]
    simp only [false_eq_true, if_false]
    generalize r.slashed.foldl _ _ = s' at hscans ⊢
    by_cases hhelm : r.config.formatConfig.artifactFormat = .helm
    · rw [if_pos hhelm, if_pos hhelm]
      exact (hscans.trans (adds_checkHelm s')).trans (adds_configFindings _)
    · rw [if_neg hhelm, if_neg hhelm]
      have hempty : Adds s' s' [[]] := ⟨⟨[], by simp [blockFlags, lastFlags]⟩, rfl⟩
      exact (hscans.trans hempty).trans (adds_configFindings _)
  | true =>
    have htags := adds_idle s (@fresh_tagItems present r)
    rw [map_finding_tagItems] at htags
    have hartifacts := adds_idle (s.add ((r.dangling present).map Prod.fst))
      (@fresh_artifactItems present r)
    rw [← scan_findings] at hartifacts
    have hscans := htags.trans hartifacts
    rw [check, blocksOf, blocks]
    simp only [if_true]
    generalize (s.add ((r.dangling present).map Prod.fst)).add _ = s' at hscans ⊢
    have hidle : ((configFindings names r.config).map
        fun f => ({ finding := f } : RepairItem)).map RepairItem.idle =
          (configFindings names r.config).map fun f => { finding := f } := by
      rw [map_map]
      rfl
    rw [map_cons, map_cons, map_cons, map_singleton, hidle]
    by_cases hhelm : r.config.formatConfig.artifactFormat = .helm
    · rw [if_pos hhelm, if_pos hhelm]
      have hcharts : Adds s' (r.checkHelm true s')
          [(r.charts.map (chartItem r.config.name)).map RepairItem.idle] := by
        have hfresh : Unfixed (r.charts.map (chartItem r.config.name)) := by
          intro i hi
          obtain ⟨c, -, rfl⟩ := mem_map.mp hi
          rfl
        have hadds := adds_idle s' hfresh
        rw [map_map] at hadds
        exact hadds
      exact (hscans.trans hcharts).trans (adds_configFindings _)
    · rw [if_neg hhelm, if_neg hhelm]
      have hempty : Adds s' s' [[]] := ⟨⟨[], by simp [blockFlags, lastFlags]⟩, rfl⟩
      exact (hscans.trans hempty).trans (adds_configFindings _)

/-- What a finding about a repository says. -/
structure RepoLevel (f : CheckFinding) : Prop where
  repo : f.repo.isSome = true
  error : ∃ e, f.error = some e ∧ e ≠ "artifact references unknown blob" ∧
    e ≠ "blob missing from store"

theorem repoLevel_blocks (hblock : block ∈ r.blocks present names)
    (hi : i ∈ block) : RepoLevel i.finding := by
  simp only [blocks, mem_cons, not_mem_nil, or_false] at hblock
  rcases hblock with rfl | rfl | rfl | rfl
  · obtain ⟨e, he, rfl⟩ := mem_map.mp hi
    obtain ⟨hrepo, hrest⟩ := Prod.mk.inj (dangling_key he).2
    refine ⟨?_, _, (Prod.mk.inj hrest).2, by decide, by decide⟩
    rw [tagItem, hrepo, isSome_some]
  · obtain ⟨c, -, ⟨-, rfl⟩ | ⟨-, rfl⟩⟩ := mem_artifactItems.mp hi
    · exact ⟨rfl, _, rfl, by decide, by decide⟩
    · exact ⟨rfl, _, rfl, by decide, by decide⟩
  · split_ifs at hi
    · obtain ⟨c, -, rfl⟩ := mem_map.mp hi
      exact ⟨rfl, _, rfl, by decide, by decide⟩
    · cases hi
  · obtain ⟨f, hf, rfl⟩ := mem_map.mp hi
    obtain ⟨-, e, herror, hne, hne', hrepo⟩ := error_configFindings hf
    refine ⟨?_, e, herror, hne, hne'⟩
    rw [hrepo, isSome_some]

theorem repoLevel_blocksOf {dryRun : Bool}
    (hblock : block ∈ r.blocksOf present names dryRun) (hi : i ∈ block) : RepoLevel i.finding := by
  rw [blocksOf] at hblock
  split_ifs at hblock
  · obtain ⟨block', hblock', rfl⟩ := mem_map.mp hblock
    obtain ⟨j, hj, rfl⟩ := mem_map.mp hi
    have hlevel := repoLevel_blocks hblock' hj
    exact hlevel
  · exact repoLevel_blocks hblock hi

end RepoCheck

/-! ## The run -/

theorem Adds.findable {s s' : Report} {blocks : List (List RepairItem)} (h : Adds s s' blocks)
    (hs : RepoCheck.Findable s)
    (hblocks : ∀ block ∈ blocks, ∀ i ∈ block,
      i.finding.error ≠ some "artifact references unknown blob") : RepoCheck.Findable s' := by
  obtain ⟨new, hnew, -, hitems⟩ := h.added
  intro f hf
  rw [hnew, mem_append] at hf
  rcases hf with hf | hf
  · exact hs f hf
  · have hmem := mem_map_of_mem (f := unmarked) hf
    rw [hitems] at hmem
    obtain ⟨i, hi, heq⟩ := mem_map.mp hmem
    obtain ⟨block, hblock, hi⟩ := mem_flatten.mp hi
    have herror := hblocks block hblock i hi
    rw [heq] at herror
    exact herror

namespace CheckRun

variable {run : CheckRun}

theorem findable_checkBlobs : RepoCheck.Findable run.checkBlobs := by
  refine run.adds_checkBlobs.findable (fun f hf => absurd hf not_mem_nil) ?_
  have hitems : ∀ i ∈ run.blobItems, i.finding.error ≠ some "artifact references unknown blob" := by
    intro i hi
    obtain ⟨c, -, f, hf, rfl⟩ := mem_blobItems.mp hi
    obtain ⟨-, -, hlevel⟩ := blobLevel_of_finding hf
    cases hlevel with
    | missing _ _ _ herror =>
      rw [herror]
      decide
    | mismatch _ _ herror =>
      rw [herror]
      intro heq
      cases heq
    | failed _ e herror _ hother =>
      rw [herror]
      exact fun heq => hother (some.inj heq)
  intro block hblock i hi
  rw [mem_singleton.mp hblock] at hi
  split_ifs at hi
  · obtain ⟨j, hj, rfl⟩ := mem_map.mp hi
    exact hitems j hj
  · exact hitems i hi

theorem blocks_eq : run.blocks =
    [if run.dryRun then run.blobItems.map RepairItem.idle else run.blobItems] ++
      run.repos.flatMap (RepoCheck.blocksOf run.present run.names run.dryRun) := by
  rw [blocks]
  cases run.dryRun with
  | false => rfl
  | true =>
    simp only [if_true, map_cons, map_flatMap]
    rfl

/-- What a run reports: the findings, which of them are marked, and the number of repairs. -/
theorem adds_report (run : CheckRun) : Adds {} run.report run.blocks := by
  have hrepos : ∀ (repos : List RepoCheck) (s : Report), RepoCheck.Findable s →
      Adds s (repos.foldl (fun s r => r.check run.present run.dryRun run.names s) s)
        (repos.flatMap (RepoCheck.blocksOf run.present run.names run.dryRun)) := by
    intro repos
    induction repos with
    | nil => exact fun s _ => Adds.refl s
    | cons r repos ih =>
      intro s hs
      have hadds := @RepoCheck.adds_check run.present r run.names run.dryRun s hs
      rw [foldl_cons, flatMap_cons]
      refine hadds.trans (ih _ (hadds.findable hs ?_))
      intro block hblock i hi
      obtain ⟨e, herror, hne, -⟩ := (RepoCheck.repoLevel_blocksOf hblock hi).error
      rw [herror]
      exact fun heq => hne (some.inj heq)
  rw [blocks_eq]
  exact run.adds_checkBlobs.trans (hrepos run.repos run.checkBlobs findable_checkBlobs)

/-- The findings of a run, without their marks. -/
theorem map_unmarked_report :
    run.report.findings.map unmarked = run.blocks.flatten.map RepairItem.finding := by
  obtain ⟨new, hnew, -, hitems⟩ := run.adds_report.added
  rw [hnew, nil_append, hitems]

theorem map_fixed_report :
    run.report.findings.map CheckFinding.fixed = run.blocks.flatMap blockFlags := by
  obtain ⟨new, hnew, hfixed, -⟩ := run.adds_report.added
  rw [hnew, nil_append, hfixed]

theorem fixedCount_report :
    run.report.fixedCount = run.blocks.flatten.countP RepairItem.counted := by
  rw [run.adds_report.count]
  exact Nat.zero_add _

/-! ## The blob records are accounted for -/

/-- Counting findings by what repairs leave as it is. -/
theorem countP_report {p : CheckFinding → Bool} (hp : ∀ f, p (unmarked f) = p f)
    (hrepo : ∀ f, RepoCheck.RepoLevel f → p f = false) :
    run.report.findings.countP p =
      run.blobs.countP fun c => (c.finding? run.verifyHashes).any p := by
  have hunmarked : run.report.findings.countP p =
      (run.report.findings.map unmarked).countP p := by
    rw [countP_map]
    exact countP_congr fun f _ => by rw [Function.comp_apply, hp]
  have hzero : ((run.repos.flatMap (RepoCheck.blocksOf run.present run.names
      run.dryRun)).flatten.map RepairItem.finding).countP p = 0 := by
    rw [countP_eq_zero]
    intro f hf
    obtain ⟨i, hi, rfl⟩ := mem_map.mp hf
    obtain ⟨block, hblock, hi⟩ := mem_flatten.mp hi
    obtain ⟨r, -, hblock⟩ := mem_flatMap.mp hblock
    rw [hrepo _ (RepoCheck.repoLevel_blocksOf hblock hi)]
    exact Bool.false_ne_true
  have hblobs : (if run.dryRun then run.blobItems.map RepairItem.idle
      else run.blobItems).map RepairItem.finding =
        run.blobs.filterMap (BlobCheck.finding? run.verifyHashes) := by
    rw [← map_finding_blobItems]
    split_ifs
    · rw [map_map]
      rfl
    · rfl
  rw [hunmarked, map_unmarked_report, blocks_eq, flatten_append, flatten_singleton,
    map_append, countP_append, hzero, Nat.add_zero, hblobs, countP_filterMap]
  refine countP_congr fun c _ => ?_
  cases c.finding? run.verifyHashes <;> rfl

/-- Whether a finding is an error about a blob record. -/
def blobError (f : CheckFinding) : Bool :=
  f.repo.isNone && f.error.isSome && decide (f.error ≠ some "blob missing from store")

/-- The number of blob records with an error. -/
def blobErrors (run : CheckRun) : ℕ :=
  run.blobs.countP fun c => (c.finding? run.verifyHashes).any blobError

/-- Each blob record is counted once: as passed, missing, mismatched or an error. -/
theorem accounted (run : CheckRun) (bytesRead : ℕ) :
    (run.result bytesRead).passed + (run.result bytesRead).missing +
      (run.result bytesRead).mismatched + run.blobErrors = run.blobs.length := by
  have hmissing := @countP_report run (fun f =>
      f.actualHash.isNone && decide (f.error = some "blob missing from store"))
    (fun _ => rfl) fun f hf => by
      obtain ⟨e, herror, -, hne⟩ := hf.error
      rw [herror, decide_eq_false fun heq => hne (some.inj heq), Bool.and_false]
  have hmismatched := @countP_report run (fun f => f.actualHash.isSome && f.error.isNone) (fun _ => rfl) fun f hf => by
      obtain ⟨e, herror, -⟩ := hf.error
      rw [herror, isNone_some, Bool.and_false]
  have herrors := @countP_report run blobError (fun _ => rfl) fun f hf => by
      rw [blobError, ← not_isSome, hf.repo]
      rfl
  have hsum : ∀ cs : List BlobCheck,
      (cs.countP fun c => (c.finding? run.verifyHashes).any fun f =>
        f.actualHash.isNone && decide (f.error = some "blob missing from store")) +
      (cs.countP fun c => (c.finding? run.verifyHashes).any fun f =>
        f.actualHash.isSome && f.error.isNone) +
      (cs.countP fun c => (c.finding? run.verifyHashes).any blobError) ≤ cs.length := by
    intro cs
    induction cs with
    | nil => exact Nat.le_refl 0
    | cons c cs ih =>
      rw [countP_cons, countP_cons, countP_cons, length_cons]
      cases hf : c.finding? run.verifyHashes with
      | none =>
        simp only [Option.any_none, false_eq_true, if_false]
        omega
      | some f =>
        obtain ⟨hrepo, -, hlevel⟩ := blobLevel_of_finding hf
        cases hlevel with
        | missing _ _ hactual herror =>
          simp only [any_some, blobError, hactual, herror, isNone_none,
            isSome_none, isNone_some, ne_eq, not_true, decide_true, decide_false,
            Bool.and_true, Bool.and_false, false_eq_true, if_true, if_false]
          omega
        | mismatch _ hactual herror =>
          have hnone : f.actualHash.isNone = false := by rw [← not_isSome, hactual]; rfl
          simp only [any_some, blobError, hactual, hnone, herror, isNone_none,
            isSome_none, Bool.and_true, Bool.false_and, Bool.and_false, false_eq_true,
            if_true, if_false]
          omega
        | failed _ e herror hne _ =>
          simp only [any_some, blobError, hrepo, herror, isNone_none,
            isSome_some, isNone_some, ne_eq, Option.some.injEq, hne, not_false_eq_true,
            decide_true, decide_false, Bool.and_true, Bool.and_false, false_eq_true, if_true,
            if_false]
          omega
  have hle := hsum run.blobs
  rw [← hmissing, ← hmismatched, ← herrors] at hle
  have hcount : run.blobErrors = run.report.findings.countP blobError := herrors.symm
  rw [hcount]
  show run.blobs.length - (_ + _ + run.report.findings.countP blobError) + _ + _ + _ = _
  simp only [result]
  omega

end CheckRun

/-! ## When the report is truthful -/

/-- In a block the repairs that count were made, and the findings of those that were made are the
    ones that are marked. -/
structure BlockTruth (block : List RepairItem) : Prop where
  made : ∀ i ∈ block, i.counted = true → i.applied = true
  noted : ∀ i ∈ block, i.applied = true → ∃ j ∈ block, j.hit = true ∧ j.key = i.key
  last : block.Pairwise fun i j => i.applied = true → j.key ≠ i.key

/-- A mark is counted, and so is a repair that was made. -/
def Counted (block : List RepairItem) : Prop :=
  ∀ i ∈ block, (i.hit = true → i.counted = true) ∧ (i.applied = true → i.counted = true)

theorem mem_hitKeys {k : Option String × String × Option String} :
    k ∈ (block.filter RepairItem.hit).map RepairItem.key ↔
      ∃ j ∈ block, j.hit = true ∧ j.key = k := by
  simp only [mem_map, mem_filter, and_assoc]

theorem blockFlags_eq_iff (hcounted : Counted block)
    (hmade : ∀ i ∈ block, i.counted = true → i.applied = true) :
    blockFlags block = block.map RepairItem.applied ↔ BlockTruth block := by
  constructor
  · intro h
    obtain ⟨hnoted, hlast, -⟩ := mem_lastFlags_iff.mp h
    exact ⟨hmade, fun i hi happlied => mem_hitKeys.mp (hnoted i hi happlied), hlast⟩
  · rintro ⟨-, hnoted, hlast⟩
    refine (lastFlags_eq_iff fun i hi => ?_).mpr hlast
    rw [mem_hitKeys]
    constructor
    · rintro ⟨j, hj, hhit, hkey⟩
      exact ⟨j, hj, hkey, hmade j hj ((hcounted j hj).1 hhit)⟩
    · rintro ⟨j, hj, hkey, happlied⟩
      obtain ⟨j', hj', hhit, hkey'⟩ := hnoted j hj happlied
      exact ⟨j', hj', hhit, hkey'.trans hkey⟩

theorem flatMap_blockFlags_eq_iff {blocks : List (List RepairItem)} :
    blocks.flatMap blockFlags = blocks.flatten.map RepairItem.applied ↔
      ∀ block ∈ blocks, blockFlags block = block.map RepairItem.applied := by
  induction blocks with
  | nil => simp
  | cons block blocks ih =>
    have hlen : (blockFlags block).length = (block.map RepairItem.applied).length := by
      rw [blockFlags, length_lastFlags, length_map]
    rw [flatMap_cons, flatten_cons, map_append, forall_mem_cons, ← ih]
    constructor
    · exact fun heq => append_inj heq hlen
    · rintro ⟨hblock, hrest⟩
      rw [hblock, hrest]

/-- The marks and the number of repairs are right exactly when those of each block are. -/
theorem flags_iff {blocks : List (List RepairItem)} (hcounted : ∀ block ∈ blocks, Counted block) :
    (blocks.flatMap blockFlags = blocks.flatten.map RepairItem.applied ∧
        blocks.flatten.countP RepairItem.counted = (blocks.flatMap blockFlags).countP id) ↔
      ∀ block ∈ blocks, BlockTruth block := by
  have happlied : ∀ i ∈ blocks.flatten, i.applied = true → i.counted = true := by
    intro i hi
    obtain ⟨block, hblock, hi⟩ := mem_flatten.mp hi
    exact (hcounted block hblock i hi).2
  constructor
  · rintro ⟨hflags, hcount⟩ block hblock
    rw [hflags, countP_map] at hcount
    have hmade := of_countP_eq happlied hcount.symm
    refine (blockFlags_eq_iff (hcounted block hblock) fun i hi => ?_).mp
      (flatMap_blockFlags_eq_iff.mp hflags block hblock)
    exact hmade i (mem_flatten.mpr ⟨block, hblock, hi⟩)
  · intro htruth
    have hflags : blocks.flatMap blockFlags = blocks.flatten.map RepairItem.applied := by
      refine flatMap_blockFlags_eq_iff.mpr fun block hblock => ?_
      exact (blockFlags_eq_iff (hcounted block hblock) (htruth block hblock).made).mpr
        (htruth block hblock)
    refine ⟨hflags, ?_⟩
    rw [hflags, countP_map]
    refine countP_congr fun i hi => ⟨fun hi' => ?_, happlied i hi⟩
    obtain ⟨block, hblock, hi⟩ := mem_flatten.mp hi
    exact (htruth block hblock).made i hi hi'

/-! ## The repairs of a run -/

/-- The repairs of a repository are reported as they were made. -/
structure RepoNoted (present : BlobId → Bool) (r : RepoCheck) : Prop where
  artifacts : ∀ c ∈ r.unbacked present, deleted c.deletion = false
  tags : (r.dangling present).Pairwise fun a b =>
    deleted a.2.deletion = true → b.2.record.path ≠ a.2.record.path
  renames : ∀ c ∈ r.slashed, c.moved (r.scan present).toDelete = true →
    c.renamed (r.scan present).toDelete = true
  slashes : r.slashed.Pairwise fun a b =>
    a.renamed (r.scan present).toDelete = true → b.record.path ≠ a.record.path
  charts : r.config.formatConfig.artifactFormat = .helm → ∀ c ∈ r.charts,
    c.put.toBool = true → c.deletion.toBool = true
  chartPaths : r.config.formatConfig.artifactFormat = .helm → r.charts.Pairwise fun a b =>
    a.relocated = true → b.oldPath ≠ a.oldPath

/-- The record of every lost blob is deleted, no two of them have one hash, no artifact is deleted
    for its missing blob, a rename or a relocation that has changed one of its two entries has
    changed the other, and no artifact that is repaired has the path of a later one. -/
structure RepairsNoted (run : CheckRun) : Prop where
  blobs : ∀ c ∈ run.missingBlobs, c.deletion = .ok true
  hashes : (run.missingBlobs.map BlobCheck.hash).Nodup
  repos : ∀ r ∈ run.repos, RepoNoted run.present r

namespace RepoCheck

variable {present : BlobId → Bool} {r : RepoCheck} {names : List String}

theorem truth_tagItems : BlockTruth ((r.dangling present).map tagItem) ↔
    (r.dangling present).Pairwise fun a b =>
      deleted a.2.deletion = true → b.2.record.path ≠ a.2.record.path := by
  have hpair : (((r.dangling present).map tagItem).Pairwise fun i j =>
      i.applied = true → j.key ≠ i.key) ↔ (r.dangling present).Pairwise fun a b =>
        deleted a.2.deletion = true → b.2.record.path ≠ a.2.record.path := by
    rw [pairwise_map]
    refine List.Pairwise.iff_of_mem fun {a b} ha hb => ?_
    have hkey : (tagItem b).key = (tagItem a).key ↔ b.2.record.path = a.2.record.path := by
      rw [RepairItem.key, RepairItem.key, tagItem, tagItem, (dangling_key ha).2,
        (dangling_key hb).2]
      simp
    exact imp_congr_right fun _ => not_congr hkey
  constructor
  · exact fun h => hpair.mp h.last
  · intro h
    refine ⟨fun i hi hcounted => ?_, fun i hi happlied => ⟨i, hi, ?_, rfl⟩, hpair.mpr h⟩
    · obtain ⟨e, -, rfl⟩ := mem_map.mp hi
      exact hcounted
    · obtain ⟨e, -, rfl⟩ := mem_map.mp hi
      exact happlied

theorem truth_artifactItems : BlockTruth (r.artifactItems present) ↔
    (∀ c ∈ r.unbacked present, deleted c.deletion = false) ∧
      (∀ c ∈ r.slashed, c.moved (r.scan present).toDelete = true →
        c.renamed (r.scan present).toDelete = true) ∧
      r.slashed.Pairwise fun a b =>
        a.renamed (r.scan present).toDelete = true → b.record.path ≠ a.record.path := by
  have hkeys : ∀ c c' : ArtifactCheck, findingKey (slashFinding r.config.name c.record) ≠
      findingKey (missingFinding r.config.name c'.record) := by
    intro c c' heq
    have herror : some "path contains double slashes" = some "artifact references missing blob" :=
      (Prod.mk.inj (Prod.mk.inj heq).2).2
    revert herror
    decide
  have hslashKey : ∀ c c' : ArtifactCheck, findingKey (slashFinding r.config.name c.record) =
      findingKey (slashFinding r.config.name c'.record) ↔ c.record.path = c'.record.path := by
    intro c c'
    simp [findingKey, slashFinding]
  constructor
  · rintro ⟨hmade, hnoted, hlast⟩
    refine ⟨fun c hc => ?_, fun c hc hmoved => ?_, ?_⟩
    · obtain ⟨hart, hmissing⟩ := mem_filter.mp hc
      by_contra hdeleted
      rw [Bool.not_eq_false] at hdeleted
      obtain ⟨j, hj, hhit, hkey⟩ := hnoted _ (mem_artifactItems.mpr ⟨c, hart, .inl ⟨hmissing, rfl⟩⟩)
        hdeleted
      obtain ⟨c', -, ⟨-, rfl⟩ | ⟨-, rfl⟩⟩ := mem_artifactItems.mp hj
      · cases hhit
      · exact hkeys c' c hkey
    · obtain ⟨hart, hslash⟩ := mem_filter.mp hc
      exact hmade _ (mem_artifactItems.mpr ⟨c, hart, .inr ⟨hslash, rfl⟩⟩) hmoved
    · rw [artifactItems, pairwise_flatMap] at hlast
      rw [slashed, pairwise_filter]
      refine hlast.2.imp fun {a b} hab hslash hslash' hrenamed hpath => ?_
      have hitem : ∀ c : ArtifactCheck, hasDoubleSlash c.record.path = true →
          { finding := slashFinding r.config.name c.record
            hit := c.moved (r.scan present).toDelete
            counted := c.moved (r.scan present).toDelete
            applied := c.renamed (r.scan present).toDelete } ∈
              c.items present r.config.name (r.scan present).toDelete := by
        intro c hc
        rw [ArtifactCheck.items, if_pos hc]
        exact mem_append_right _ mem_cons_self
      exact hab _ (hitem a hslash) _ (hitem b hslash') hrenamed ((hslashKey b a).mpr hpath)
  · rintro ⟨hunbacked, hrenames, hpaths⟩
    have hnot : ∀ c ∈ r.artifacts, blobMissing present c.record = true →
        deleted c.deletion = false := fun c hc hmissing =>
      hunbacked c (mem_filter.mpr ⟨hc, hmissing⟩)
    refine ⟨fun i hi hcounted => ?_, fun i hi happlied => ?_, ?_⟩
    · obtain ⟨c, hc, ⟨-, rfl⟩ | ⟨hslash, rfl⟩⟩ := mem_artifactItems.mp hi
      · exact hcounted
      · exact hrenames c (mem_filter.mpr ⟨hc, hslash⟩) hcounted
    · obtain ⟨c, hc, ⟨hmissing, rfl⟩ | ⟨-, rfl⟩⟩ := mem_artifactItems.mp hi
      · have hdeleted : deleted c.deletion = true := happlied
        rw [hnot c hc hmissing] at hdeleted
        cases hdeleted
      · have hrenamed : c.renamed (r.scan present).toDelete = true := happlied
        rw [ArtifactCheck.renamed, and_eq_true] at hrenamed
        exact ⟨_, hi, hrenamed.1, rfl⟩
    · rw [artifactItems, pairwise_flatMap]
      constructor
      · intro c hc
        rw [ArtifactCheck.items]
        split_ifs with hmissing hslash hslash
        · rw [singleton_append, pairwise_cons]
          refine ⟨fun j hj hdeleted => ?_, pairwise_singleton _ _⟩
          have hdeleted : deleted c.deletion = true := hdeleted
          rw [hnot c hc hmissing] at hdeleted
          cases hdeleted
        · exact pairwise_singleton _ _
        · exact pairwise_singleton _ _
        · exact List.Pairwise.nil
      · rw [slashed, pairwise_filter] at hpaths
        refine hpaths.imp_of_mem fun {a b} ha hb hab i hi j hj happlied hkey => ?_
        rw [ArtifactCheck.items, mem_append] at hi hj
        rcases hi with hi | hi
        · split_ifs at hi with hmissing
          · rw [mem_singleton.mp hi] at happlied
            have hdeleted : deleted a.deletion = true := happlied
            rw [hnot a ha hmissing] at hdeleted
            cases hdeleted
          · cases hi
        · split_ifs at hi with hslash
          · obtain rfl := mem_singleton.mp hi
            rcases hj with hj | hj
            · split_ifs at hj
              · rw [mem_singleton.mp hj] at hkey
                exact hkeys a b hkey.symm
              · cases hj
            · split_ifs at hj with hslash'
              · rw [mem_singleton.mp hj] at hkey
                exact hab hslash hslash' happlied ((hslashKey b a).mp hkey)
              · cases hj
          · cases hi

theorem truth_chartItems : BlockTruth (r.charts.map (chartItem r.config.name)) ↔
    (∀ c ∈ r.charts, c.put.toBool = true → c.deletion.toBool = true) ∧
      r.charts.Pairwise fun a b => a.relocated = true → b.oldPath ≠ a.oldPath := by
  have hkey : ∀ a b : ChartCheck, (chartItem r.config.name b).key =
      (chartItem r.config.name a).key ↔ b.oldPath = a.oldPath := by
    intro a b
    simp [RepairItem.key, findingKey, chartItem, chartFinding]
  constructor
  · rintro ⟨hmade, -, hlast⟩
    rw [pairwise_map] at hlast
    refine ⟨fun c hc hput => ?_, hlast.imp fun {a b} hab hrel hpath => hab hrel ((hkey a b).mpr hpath)⟩
    have happlied : c.relocated = true := hmade _ (mem_map_of_mem hc) hput
    rw [ChartCheck.relocated, and_eq_true] at happlied
    exact happlied.2
  · rintro ⟨hcharts, hpaths⟩
    refine ⟨fun i hi hcounted => ?_, fun i hi happlied => ⟨i, hi, ?_, rfl⟩, ?_⟩
    · obtain ⟨c, hc, rfl⟩ := mem_map.mp hi
      exact and_eq_true_iff.mpr ⟨hcounted, hcharts c hc hcounted⟩
    · obtain ⟨c, hc, rfl⟩ := mem_map.mp hi
      exact (and_eq_true_iff.mp happlied).1
    · rw [pairwise_map]
      exact hpaths.imp fun {a b} hab hrel heq => hab hrel ((hkey a b).mp heq)

theorem truth_blocks : (∀ block ∈ r.blocks present names, BlockTruth block) ↔
    RepoNoted present r := by
  have hconfig : BlockTruth ((configFindings names r.config).map fun f => { finding := f }) := by
    refine ⟨fun i hi hcounted => ?_, fun i hi happlied => ?_, ?_⟩
    · obtain ⟨f, -, rfl⟩ := mem_map.mp hi
      cases hcounted
    · obtain ⟨f, -, rfl⟩ := mem_map.mp hi
      cases happlied
    · rw [pairwise_map]
      exact pairwise_of_forall fun _ _ happlied => absurd happlied Bool.false_ne_true
  have hnil : BlockTruth [] :=
    ⟨fun i hi => absurd hi not_mem_nil, fun i hi => absurd hi not_mem_nil,
      List.Pairwise.nil⟩
  have hblocks : (∀ block ∈ r.blocks present names, BlockTruth block) ↔
      BlockTruth ((r.dangling present).map tagItem) ∧ BlockTruth (r.artifactItems present) ∧
        (r.config.formatConfig.artifactFormat = .helm →
          BlockTruth (r.charts.map (chartItem r.config.name))) := by
    rw [blocks, forall_mem_cons, forall_mem_cons, forall_mem_cons, forall_mem_singleton]
    refine and_congr_right fun _ => and_congr_right fun _ => ?_
    split_ifs with hhelm
    · exact ⟨fun h _ => h.1, fun h => ⟨h hhelm, hconfig⟩⟩
    · exact ⟨fun _ h => absurd h hhelm, fun _ => ⟨hnil, hconfig⟩⟩
  rw [hblocks, truth_tagItems, truth_artifactItems, truth_chartItems]
  constructor
  · rintro ⟨htags, ⟨hunbacked, hrenames, hslashes⟩, hcharts⟩
    exact ⟨hunbacked, htags, hrenames, hslashes, fun h => (hcharts h).1, fun h => (hcharts h).2⟩
  · rintro ⟨hunbacked, htags, hrenames, hslashes, hcharts, hpaths⟩
    exact ⟨htags, ⟨hunbacked, hrenames, hslashes⟩, fun h => ⟨hcharts h, hpaths h⟩⟩

end RepoCheck

namespace CheckRun

variable {run : CheckRun}

theorem truth_blobItems : BlockTruth run.blobItems ↔
    (∀ c ∈ run.missingBlobs, c.deletion = .ok true) ∧
      (run.missingBlobs.map BlobCheck.hash).Nodup := by
  have hnodup : (run.missingBlobs.map BlobCheck.hash).Nodup ↔
      run.blobs.Pairwise fun a b => a.lost run.verifyHashes = true →
        b.lost run.verifyHashes = true → a.hash ≠ b.hash := by
    rw [(run.missing_perm.map BlobCheck.hash).nodup_iff, Nodup, pairwise_map, pairwise_filter]
  have hkey : ∀ {a b : BlobCheck} {f g : CheckFinding}, a.finding? run.verifyHashes = some f →
      b.finding? run.verifyHashes = some g → a.lost run.verifyHashes = true →
      (findingKey g = findingKey f ↔ b.lost run.verifyHashes = true ∧ b.hash = a.hash) := by
    intro a b f g hf hg ha
    obtain ⟨f', hf', hfkey⟩ := finding_of_lost ha
    obtain rfl := some.inj (hf.symm.trans hf')
    constructor
    · intro heq
      cases hlost : b.lost run.verifyHashes with
      | true =>
        obtain ⟨g', hg', hgkey⟩ := finding_of_lost hlost
        obtain rfl := some.inj (hg.symm.trans hg')
        rw [hfkey, hgkey] at heq
        exact ⟨rfl, (Prod.mk.inj (Prod.mk.inj heq).2).1⟩
      | false =>
        have herror : g.error = some "blob missing from store" :=
          (Prod.mk.inj (Prod.mk.inj (heq.trans hfkey)).2).2
        cases (blobLevel_of_finding hg).2.2 with
        | missing hlost' =>
          rw [hlost] at hlost'
          cases hlost'
        | mismatch _ _ hnone =>
          rw [hnone] at herror
          cases herror
        | failed _ e hsome hne =>
          rw [hsome] at herror
          exact absurd (some.inj herror) hne
    · rintro ⟨hb, hhash⟩
      obtain ⟨g', hg', hgkey⟩ := finding_of_lost hb
      obtain rfl := some.inj (hg.symm.trans hg')
      rw [hfkey, hgkey, hhash]
  rw [hnodup]
  constructor
  · rintro ⟨hmade, -, hlast⟩
    have hdeleted : ∀ c ∈ run.missingBlobs, c.deletion = .ok true := by
      intro c hc
      obtain ⟨hblob, hlost⟩ := mem_missingBlobs.mp hc
      obtain ⟨f, hf, -⟩ := finding_of_lost hlost
      have happlied := hmade _ (mem_blobItems.mpr ⟨c, hblob, f, hf, rfl⟩) hlost
      rw [and_eq_true, decide_eq_true_eq] at happlied
      exact happlied.2
    refine ⟨hdeleted, ?_⟩
    rw [blobItems, pairwise_filterMap] at hlast
    refine hlast.imp_of_mem fun {a b} ha hb hab hlost hlost' hhash => ?_
    obtain ⟨f, hf, -⟩ := finding_of_lost hlost
    obtain ⟨g, hg, -⟩ := finding_of_lost hlost'
    have hitem := hab _ (by rw [BlobCheck.item?, hf, map_some])
      _ (by rw [BlobCheck.item?, hg, map_some])
    refine hitem ?_ ((hkey hf hg hlost).mpr ⟨hlost', hhash.symm⟩)
    rw [and_eq_true, decide_eq_true_eq]
    exact ⟨hlost, hdeleted a (mem_missingBlobs.mpr ⟨ha, hlost⟩)⟩
  · rintro ⟨hdeleted, hpaths⟩
    refine ⟨fun i hi hcounted => ?_, fun i hi happlied => ⟨i, hi, ?_, rfl⟩, ?_⟩
    · obtain ⟨c, hblob, f, hf, rfl⟩ := mem_blobItems.mp hi
      have hlost : c.lost run.verifyHashes = true := hcounted
      rw [and_eq_true, decide_eq_true_eq]
      exact ⟨hlost, hdeleted c (mem_missingBlobs.mpr ⟨hblob, hlost⟩)⟩
    · obtain ⟨c, -, f, -, rfl⟩ := mem_blobItems.mp hi
      exact happlied
    · rw [blobItems, pairwise_filterMap]
      refine hpaths.imp fun {a b} hab i hi j hj happlied heq => ?_
      obtain ⟨f, hf, rfl⟩ := map_eq_some_iff.mp hi
      obtain ⟨g, hg, rfl⟩ := map_eq_some_iff.mp hj
      rw [and_eq_true] at happlied
      obtain ⟨hb, hhash⟩ := (hkey hf hg happlied.1).mp heq
      exact hab happlied.1 hb hhash.symm

theorem counted_blocks (hblock : block ∈ run.blocks) : Counted block := by
  have hidle : ∀ block : List RepairItem, Counted (block.map RepairItem.idle) := by
    intro block i hi
    obtain ⟨j, -, rfl⟩ := mem_map.mp hi
    exact ⟨fun h => absurd h Bool.false_ne_true, fun h => absurd h Bool.false_ne_true⟩
  have hblobs : Counted run.blobItems := by
    intro i hi
    obtain ⟨c, -, f, -, rfl⟩ := mem_blobItems.mp hi
    exact ⟨fun h => (and_eq_true_iff.mp h).1, fun h => (and_eq_true_iff.mp h).1⟩
  have hrepo : ∀ r ∈ run.repos, ∀ block ∈ r.blocks run.present run.names, Counted block := by
    intro r _ block hblock i hi
    simp only [RepoCheck.blocks, mem_cons, not_mem_nil, or_false] at hblock
    rcases hblock with rfl | rfl | rfl | rfl
    · obtain ⟨e, -, rfl⟩ := mem_map.mp hi
      exact ⟨id, id⟩
    · obtain ⟨c, -, ⟨-, rfl⟩ | ⟨-, rfl⟩⟩ := RepoCheck.mem_artifactItems.mp hi
      · exact ⟨fun h => absurd h Bool.false_ne_true, id⟩
      · exact ⟨id, fun h => (and_eq_true_iff.mp h).1⟩
    · split_ifs at hi
      · obtain ⟨c, -, rfl⟩ := mem_map.mp hi
        exact ⟨id, fun h => (and_eq_true_iff.mp h).1⟩
      · cases hi
    · obtain ⟨f, -, rfl⟩ := mem_map.mp hi
      exact ⟨fun h => absurd h Bool.false_ne_true, fun h => absurd h Bool.false_ne_true⟩
  rw [blocks] at hblock
  split_ifs at hblock
  · obtain ⟨block', -, rfl⟩ := mem_map.mp hblock
    exact hidle block'
  · rcases mem_cons.mp hblock with rfl | hblock
    · exact hblobs
    · obtain ⟨r, hr, hblock⟩ := mem_flatMap.mp hblock
      exact hrepo r hr block hblock

/-- What a report says is true: a finding is marked as fixed when its repair was made, the number
    of repairs is that of the marks, and every blob record is accounted for. -/
structure Truthful (run : CheckRun) (bytesRead : ℕ) : Prop where
  marked : (run.result bytesRead).findings.map CheckFinding.fixed = run.applied
  fixed : (run.result bytesRead).fixed =
    (run.result bytesRead).findings.countP CheckFinding.fixed
  accounted : (run.result bytesRead).passed + (run.result bytesRead).missing +
    (run.result bytesRead).mismatched + run.blobErrors = run.blobs.length

theorem truth_blocks : (∀ block ∈ run.blocks, BlockTruth block) ↔
    run.dryRun = true ∨ RepairsNoted run := by
  cases hdry : run.dryRun with
  | true =>
    refine ⟨fun _ => .inl rfl, fun _ block hblock => ?_⟩
    rw [blocks, hdry, if_pos rfl] at hblock
    obtain ⟨block', -, rfl⟩ := mem_map.mp hblock
    refine ⟨fun i hi hcounted => ?_, fun i hi happlied => ?_, ?_⟩
    · obtain ⟨j, -, rfl⟩ := mem_map.mp hi
      cases hcounted
    · obtain ⟨j, -, rfl⟩ := mem_map.mp hi
      cases happlied
    · rw [pairwise_map]
      exact pairwise_of_forall fun _ _ happlied => absurd happlied Bool.false_ne_true
  | false =>
    have hblocks : run.blocks = run.blobItems ::
        run.repos.flatMap (RepoCheck.blocks run.present run.names) := by
      rw [blocks, hdry, if_neg Bool.false_ne_true]
      rfl
    have hrepos : (∀ block ∈ run.repos.flatMap (RepoCheck.blocks run.present run.names),
        BlockTruth block) ↔ ∀ r ∈ run.repos, RepoNoted run.present r := by
      constructor
      · intro h r hr
        exact RepoCheck.truth_blocks.mp fun block hblock =>
          h block (mem_flatMap.mpr ⟨r, hr, hblock⟩)
      · intro h block hblock
        obtain ⟨r, hr, hblock⟩ := mem_flatMap.mp hblock
        exact RepoCheck.truth_blocks.mpr (h r hr) block hblock
    rw [hblocks, forall_mem_cons, truth_blobItems, hrepos]
    constructor
    · rintro ⟨⟨hblobs, hhashes⟩, hrepos⟩
      exact .inr ⟨hblobs, hhashes, hrepos⟩
    · rintro (hfalse | ⟨hblobs, hhashes, hrepos⟩)
      · cases hfalse
      · exact ⟨⟨hblobs, hhashes⟩, hrepos⟩

/-- A report is truthful exactly when nothing was to be repaired, or every repair was made as it
    is noted. -/
theorem truthful_iff (run : CheckRun) (bytesRead : ℕ) :
    run.Truthful bytesRead ↔ run.dryRun = true ∨ RepairsNoted run := by
  rw [← truth_blocks, ← flags_iff fun _ hblock => counted_blocks hblock]
  have hmarked : (run.result bytesRead).findings.map CheckFinding.fixed =
      run.blocks.flatMap blockFlags := map_fixed_report
  have hfixed : (run.result bytesRead).fixed =
      run.blocks.flatten.countP RepairItem.counted := fixedCount_report
  have hcount : (run.result bytesRead).findings.countP CheckFinding.fixed =
      (run.blocks.flatMap blockFlags).countP id := by
    rw [← hmarked, countP_map]
    rfl
  constructor
  · rintro ⟨hflags, hsum, -⟩
    exact ⟨hmarked.symm.trans hflags, hfixed.symm.trans (hsum.trans hcount)⟩
  · rintro ⟨hflags, hsum⟩
    exact ⟨hmarked.trans hflags, hfixed.trans (hsum.trans hcount.symm), accounted run bytesRead⟩

end CheckRun

/-! ## A deletion that fails -/

/-- A blob is missing, and its record cannot be deleted. -/
def failedRun : CheckRun where
  dryRun := false
  verifyHashes := false
  present _ := true
  blobs := [{ hash := "h", size := 1, store := "s", registered := true, listed := false
              opened := .ok none, deletion := .error (.storage true) }]
  missingBlobs := [{ hash := "h", size := 1, store := "s", registered := true, listed := false
                     opened := .ok none, deletion := .error (.storage true) }]
  missing_perm := Perm.refl _
  repos := []

/-- The report counts the repair that failed. -/
theorem failed_repair_counted : ¬ ∀ (run : CheckRun) (bytesRead : ℕ), run.Truthful bytesRead := by
  intro hall
  have hfixed := (hall failedRun 0).fixed
  revert hfixed
  decide

end Depot
