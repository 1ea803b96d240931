import Depot.Helm.Charts

/-!
# Charts at the paths of earlier versions

The relocation of charts to the root of a Helm repository (`format/helm/src/store.rs`, lines
189–249, and `check_helm_canonicalization` of `server/src/server/worker/check.rs`). The charts
of the two earlier prefixes are moved one after the other: put at the new path, deleted at the
old one.

Results:
* `get_relocateAll`: where the record at a key comes from.
* `overwritesNothing_iff`: when no move replaces another chart, in whatever order the records
  are read.
* `charts_iff`: uploads, the index and the relocation together.
-/

namespace Depot

open Lib List

/-! ## The plan -/

/-- `LEGACY_CHART_PREFIXES`. -/
def legacyChartPrefixes : List String := ["_charts/", "charts/"]

/-- A chart that is to be moved. -/
structure Relocation where
  oldPath : String
  newPath : String
  record : StoredRecord
  deriving DecidableEq

/-- The move of a record (lines 211–217). -/
def relocation? (e : String × StoredRecord) : Option Relocation :=
  match e.2.packageMeta with
  | .helm helm =>
      let newPath := chartPath helm.name helm.version
      if newPath ≠ e.1 then some ⟨e.1, newPath, e.2⟩ else none
  | _ => none

/-- The records whose keys have a prefix. -/
def underPrefix (t : RecordTable StoredRecord) (pfx : String) : List (String × StoredRecord) :=
  t.entries.filter fun e => hasPrefix pfx e.1

/-- The orders in which the scans of the two prefixes read the records. -/
structure LegacyOrders (t : RecordTable StoredRecord) where
  first : List (String × StoredRecord)
  second : List (String × StoredRecord)
  perm_first : first.Perm (underPrefix t "_charts/")
  perm_second : second.Perm (underPrefix t "charts/")

/-- What the scan of a prefix reads. -/
def LegacyOrders.order {t : RecordTable StoredRecord} (o : LegacyOrders t) (pfx : String) :
    List (String × StoredRecord) :=
  if pfx = "_charts/" then o.first else o.second

/-- `enumerate_legacy_chart_relocations` (lines 200–229). -/
def enumerateRelocations {t : RecordTable StoredRecord} (o : LegacyOrders t) : List Relocation :=
  legacyChartPrefixes.flatMap fun pfx => (o.order pfx).filterMap relocation?

/-! ## The moves -/

/-- One move. -/
def relocate (t : RecordTable StoredRecord) (m : Relocation) : RecordTable StoredRecord :=
  (t.putStored m.newPath m.record).remove m.oldPath

/-- The moves of a plan. -/
def relocateAll (t : RecordTable StoredRecord) (plan : List Relocation) :
    RecordTable StoredRecord :=
  plan.foldl relocate t

/-- The name and the version of the chart in a record. -/
def StoredRecord.chartId (r : StoredRecord) : Option (String × String) :=
  match r.packageMeta with
  | .helm helm => some helm.id
  | _ => none

/-- The key that a move writes. -/
def Relocation.sk (m : Relocation) : String := normalizePath m.newPath

/-- No move of a plan replaces a chart with another name or version. -/
def OverwritesNothing (t : RecordTable StoredRecord) (plan : List Relocation) : Prop :=
  ∀ before m after, plan = before ++ m :: after →
    ∀ r, (relocateAll t before).find m.newPath = some r → r.chartId ≠ none →
      r.chartId = m.record.chartId

variable {e : String × StoredRecord} {sk : String}

/-! ## What is planned -/

section

variable {t : RecordTable StoredRecord} {m : Relocation}

/-- A record under one of the two prefixes that is a chart with another path. -/
def Relocates (t : RecordTable StoredRecord) (m : Relocation) : Prop :=
  ∃ e, (e ∈ underPrefix t "_charts/" ∨ e ∈ underPrefix t "charts/") ∧ relocation? e = some m

/-- Whether a key is under the first prefix. -/
abbrev Early (sk : String) : Prop := hasPrefix "_charts/" sk = true

theorem relocation?_eq (h : relocation? e = some m) :
    e = (m.oldPath, m.record) ∧ m.record.chartId ≠ none := by
  unfold relocation? at h
  split at h
  · rename_i helm hmeta
    dsimp only at h
    split_ifs at h
    obtain rfl := Option.some.inj h
    exact ⟨rfl, by simp [StoredRecord.chartId, hmeta]⟩
  · cases h

/-- The relocations that are due, in the order of the records. -/
def movesOf (order : List (String × StoredRecord)) : List Relocation := order.filterMap relocation?

theorem plan_eq (o : LegacyOrders t) :
    enumerateRelocations o = movesOf o.first ++ movesOf o.second := by
  have hsecond : ¬ ("charts/" = "_charts/") := by decide
  simp [enumerateRelocations, legacyChartPrefixes, LegacyOrders.order, hsecond, movesOf]

theorem mem_underPrefix {pfx : String} :
    e ∈ underPrefix t pfx ↔ t.get e.1 = some e.2 ∧ hasPrefix pfx e.1 = true := by
  rw [underPrefix, mem_filter, ← SortedMap.mem_entries_iff]

/-- A key is not under both prefixes. -/
theorem not_early (h : hasPrefix "charts/" sk = true) : ¬ Early sk := by
  intro hearly
  have h₁ : "charts/".toList <+: sk.toList := of_decide_eq_true h
  have h₂ : "_charts/".toList <+: sk.toList := of_decide_eq_true hearly
  have hhead := prefix_of_prefix_length_le h₁ h₂ (by decide)
  revert hhead
  decide

variable {o : LegacyOrders t}

theorem early_of_mem_first (h : m ∈ movesOf o.first) : Early m.oldPath := by
  obtain ⟨e, he, hm⟩ := mem_filterMap.mp h
  obtain ⟨rfl, -⟩ := relocation?_eq hm
  exact (mem_underPrefix.mp (o.perm_first.mem_iff.mp he)).2

theorem not_early_of_mem_second (h : m ∈ movesOf o.second) : ¬ Early m.oldPath := by
  obtain ⟨e, he, hm⟩ := mem_filterMap.mp h
  obtain ⟨rfl, -⟩ := relocation?_eq hm
  exact not_early (mem_underPrefix.mp (o.perm_second.mem_iff.mp he)).2

theorem mem_plan : m ∈ enumerateRelocations o ↔ Relocates t m := by
  rw [plan_eq, mem_append, movesOf, movesOf, mem_filterMap, mem_filterMap]
  constructor
  · rintro (⟨e, he, hm⟩ | ⟨e, he, hm⟩)
    · exact ⟨e, Or.inl (o.perm_first.mem_iff.mp he), hm⟩
    · exact ⟨e, Or.inr (o.perm_second.mem_iff.mp he), hm⟩
  · rintro ⟨e, he | he, hm⟩
    · exact Or.inl ⟨e, o.perm_first.mem_iff.mpr he, hm⟩
    · exact Or.inr ⟨e, o.perm_second.mem_iff.mpr he, hm⟩

/-- What is moved is what is stored at the old path. -/
theorem Relocates.get (h : Relocates t m) : t.get m.oldPath = some m.record := by
  obtain ⟨e, he, hm⟩ := h
  obtain ⟨rfl, -⟩ := relocation?_eq hm
  rcases he with he | he
  · exact (mem_underPrefix.mp he).1
  · exact (mem_underPrefix.mp he).1

theorem Relocates.chartId (h : Relocates t m) : m.record.chartId ≠ none := by
  obtain ⟨e, -, hm⟩ := h
  exact (relocation?_eq hm).2

end

variable {plan : List Relocation}

/-! ## What a run leaves at a key -/

section

variable {t : RecordTable StoredRecord}

theorem relocateAll_concat (t : RecordTable StoredRecord) (before : List Relocation)
    (m : Relocation) : relocateAll t (before ++ [m]) = relocate (relocateAll t before) m := by
  rw [relocateAll, relocateAll, List.foldl_append]
  rfl

theorem get_relocate {m : Relocation} (hold : normalizePath m.oldPath = m.oldPath) (sk : String) :
    (relocate t m).get sk =
      if sk = m.oldPath then none
      else if sk = m.sk then
        some (m.record.prepared m.newPath)
      else t.get sk := by
  rw [relocate, RecordTable.get_remove, hold, RecordTable.putStored, RecordTable.get_put]
  rfl

/-- The record at a key was there before the moves, and none has taken it away, or one of the
    moves has brought it. -/
theorem get_relocateAll (hold : ∀ m ∈ plan, normalizePath m.oldPath = m.oldPath) {r : StoredRecord}
    (hr : (relocateAll t plan).get sk = some r) : (t.get sk = some r ∧ ∀ m ∈ plan, m.oldPath ≠ sk) ∨
      ∃ m ∈ plan, m.sk = sk ∧ m.oldPath ≠ sk ∧ r.chartId = m.record.chartId := by
  induction plan using reverseRecOn with
  | nil => exact Or.inl ⟨hr, by simp⟩
  | append_singleton plan m ih =>
    have holdm : normalizePath m.oldPath = m.oldPath := hold m (by simp)
    rw [relocateAll_concat, get_relocate holdm] at hr
    split_ifs at hr with hgone hhere
    · obtain rfl := Option.some.inj hr
      exact Or.inr ⟨m, by simp, hhere.symm, Ne.symm hgone, rfl⟩
    · rcases ih (fun m' hm' => hold m' (by simp [hm'])) hr with ⟨hget, hstay⟩ | ⟨m', hm', h⟩
      · refine Or.inl ⟨hget, fun m' hm' => ?_⟩
        rcases mem_append.mp hm' with hm' | hm'
        · exact hstay m' hm'
        · obtain rfl := mem_singleton.mp hm'
          exact Ne.symm hgone
      · exact Or.inr ⟨m', by simp [hm'], h⟩

/-- As long as no move replaces another chart, the chart at a key that none takes away keeps its
    name and its version. -/
theorem chartId_kept {after : List Relocation} (h : OverwritesNothing t (plan ++ after))
    (hold : ∀ m ∈ plan, normalizePath m.oldPath = m.oldPath) {r : StoredRecord}
    (hr : t.get sk = some r) (hchart : r.chartId ≠ none) (hstay : ∀ m ∈ plan, m.oldPath ≠ sk) :
    ∃ r', (relocateAll t plan).get sk = some r' ∧ r'.chartId = r.chartId := by
  induction plan using reverseRecOn generalizing after with
  | nil => exact ⟨r, hr, rfl⟩
  | append_singleton plan m ih =>
    have hsplit : plan ++ [m] ++ after = plan ++ m :: after := by simp
    obtain ⟨r', hr', hid⟩ := ih (hsplit ▸ h) (fun m' hm' => hold m' (by simp [hm']))
      (fun m' hm' => hstay m' (by simp [hm']))
    have holdm : normalizePath m.oldPath = m.oldPath := hold m (by simp)
    have hgone : sk ≠ m.oldPath := Ne.symm (hstay m (by simp))
    rw [relocateAll_concat]
    by_cases hhere : sk = m.sk
    · refine ⟨_, by rw [get_relocate holdm, if_neg hgone, if_pos hhere], ?_⟩
      have hfind : (relocateAll t plan).find m.newPath = some r' := by
        rw [← hr', hhere]
        rfl
      have hsame := h plan m after hsplit r' hfind (hid ▸ hchart)
      exact hsame.symm.trans hid
    · exact ⟨r', by rw [get_relocate holdm, if_neg hgone, if_neg hhere, hr'], hid⟩

end

/-! ## When nothing is overwritten -/

/-- Records at normalised paths. -/
structure NormalTable where
  table : RecordTable StoredRecord
  normal : ∀ sk r, table.get sk = some r → normalizePath sk = sk

/-- The charts can be moved: a chart with another name or version that is where one moves to has
    been moved itself, with the prefix before, and two charts with different names or versions
    move to different keys, unless one of them was at that very key, with the prefix before. -/
structure Relocatable (t : RecordTable StoredRecord) : Prop where
  occupied : ∀ m, Relocates t m → ∀ r, t.get m.sk = some r → r.chartId ≠ none →
    r.chartId ≠ m.record.chartId →
    (∃ m', Relocates t m' ∧ m'.oldPath = m.sk) ∧ Early m.sk ∧ ¬ Early m.oldPath
  shared : ∀ m m', Relocates t m → Relocates t m' → m.sk = m'.sk → m.record.chartId ≠ m'.record.chartId →
    (m.oldPath = m.sk ∧ Early m.oldPath ∧ ¬ Early m'.oldPath) ∨
      (m'.oldPath = m'.sk ∧ Early m'.oldPath ∧ ¬ Early m.oldPath)

section

variable {s : NormalTable} {o : LegacyOrders s.table} {m m' : Relocation}

theorem Relocates.normal (h : Relocates s.table m) : normalizePath m.oldPath = m.oldPath :=
  s.normal _ _ h.get

theorem normal_of_mem_plan (h : plan ⊆ enumerateRelocations o) :
    ∀ m ∈ plan, normalizePath m.oldPath = m.oldPath :=
  fun _ hm => (mem_plan.mp (h hm)).normal

variable {before after : List Relocation}

/-- Before a move of the second prefix come all those of the first. -/
theorem first_subset_before
    (h : enumerateRelocations o = before ++ m :: after) (hm : ¬ Early m.oldPath) :
    movesOf o.first ⊆ before := by
  rw [plan_eq, append_eq_append_iff] at h
  rcases h with ⟨mid, rfl, -⟩ | ⟨mid, hfirst, hmid⟩
  · exact fun _ h' => mem_append_left _ h'
  · cases mid with
    | nil =>
      rw [hfirst, append_nil]
      exact fun _ h' => h'
    | cons m' mid =>
      obtain ⟨rfl, -⟩ := List.cons.inj hmid
      exact absurd (early_of_mem_first (o := o) (by rw [hfirst]; simp)) hm

/-- Before a move of the first prefix come only such moves. -/
theorem before_subset_first
    (h : enumerateRelocations o = before ++ m :: after) (hm : Early m.oldPath) :
    before ⊆ movesOf o.first := by
  rw [plan_eq, append_eq_append_iff] at h
  rcases h with ⟨mid, rfl, hsecond⟩ | ⟨mid, hfirst, -⟩
  · exact absurd hm (not_early_of_mem_second (o := o) (by rw [hsecond]; simp))
  · rw [hfirst]
    exact fun _ h' => mem_append_left _ h'

/-- Where the charts can be moved, nothing is overwritten. -/
theorem Relocatable.overwritesNothing (h : Relocatable s.table) (o : LegacyOrders s.table) :
    OverwritesNothing s.table (enumerateRelocations o) := by
  intro before m after hplan r hr hchart
  by_contra hne
  have hsub : before ⊆ enumerateRelocations o := by
    rw [hplan]
    exact fun _ h' => mem_append_left _ h'
  have hm : Relocates s.table m := mem_plan.mp (by rw [hplan]; simp : m ∈ enumerateRelocations o)
  rcases get_relocateAll (normal_of_mem_plan hsub) hr with ⟨hget, hstay⟩ | ⟨m₁, hm₁, hsk, hold, hid⟩
  · -- The chart was there from the start: it has been moved before.
    obtain ⟨⟨m', hm', hold'⟩, hearly, hlate⟩ := h.occupied m hm r hget hchart hne
    have hfirst : m' ∈ movesOf o.first := by
      have hplan' : m' ∈ enumerateRelocations o := mem_plan.mpr hm'
      rw [plan_eq, mem_append] at hplan'
      exact hplan'.resolve_right fun hsecond =>
        not_early_of_mem_second hsecond (hold' ▸ hearly)
    exact hstay m' (first_subset_before hplan hlate hfirst) hold'
  · -- Another move has brought it.
    rw [hid] at hne
    have hm₁' : Relocates s.table m₁ := mem_plan.mp (hsub hm₁)
    rcases h.shared m₁ m hm₁' hm hsk hne with ⟨hself, -, -⟩ | ⟨-, hearly, hlate⟩
    · exact hold (hself.trans hsk)
    · exact hlate (early_of_mem_first (before_subset_first hplan hearly hm₁))

/-! ## Orders that overwrite -/

/-- The entry that is moved. -/
def Relocation.entry (m : Relocation) : String × StoredRecord := (m.oldPath, m.record)

theorem Relocates.relocation?_entry (h : Relocates s.table m) : relocation? m.entry = some m := by
  obtain ⟨e, -, hm⟩ := h
  obtain ⟨rfl, -⟩ := relocation?_eq hm
  exact hm

theorem Relocates.mem_first (h : Relocates s.table m) (hm : Early m.oldPath) :
    m.entry ∈ underPrefix s.table "_charts/" :=
  mem_underPrefix.mpr ⟨h.get, hm⟩

theorem Relocates.mem_second (h : Relocates s.table m) (hm : ¬ Early m.oldPath) :
    m.entry ∈ underPrefix s.table "charts/" := by
  obtain ⟨e, he | he, hrel⟩ := h
  · obtain ⟨rfl, -⟩ := relocation?_eq hrel
    exact absurd (mem_underPrefix.mp he).2 hm
  · obtain ⟨rfl, -⟩ := relocation?_eq hrel
    exact he

/-- The records in the order of their keys. -/
def LegacyOrders.sorted (t : RecordTable StoredRecord) : LegacyOrders t where
  first := underPrefix t "_charts/"
  second := underPrefix t "charts/"
  perm_first := .rfl
  perm_second := .rfl

theorem movesOf_cons (h : Relocates s.table m) (order : List (String × StoredRecord)) :
    movesOf (m.entry :: order) = m :: movesOf order := by
  rw [movesOf, filterMap_cons, h.relocation?_entry, movesOf]

theorem movesOf_append (order order' : List (String × StoredRecord)) :
    movesOf (order ++ order') = movesOf order ++ movesOf order' :=
  filterMap_append

/-- A scan can start with any record. -/
theorem exists_first (h : Relocates s.table m) : ∃ (o : LegacyOrders s.table) (before after : _),
    enumerateRelocations o = before ++ m :: after ∧
      ∀ m' ∈ before, Early m'.oldPath ∧ ¬ Early m.oldPath := by
  by_cases hm : Early m.oldPath
  · refine ⟨{ LegacyOrders.sorted s.table with
      first := m.entry :: (underPrefix s.table "_charts/").erase m.entry
      perm_first := (perm_cons_erase (h.mem_first hm)).symm }, [],
      movesOf ((underPrefix s.table "_charts/").erase m.entry) ++
        movesOf (underPrefix s.table "charts/"), ?_, by simp⟩
    rw [plan_eq, movesOf_cons h]
    rfl
  · let o : LegacyOrders s.table := { LegacyOrders.sorted s.table with
      second := m.entry :: (underPrefix s.table "charts/").erase m.entry
      perm_second := (perm_cons_erase (h.mem_second hm)).symm }
    refine ⟨o, movesOf o.first, movesOf ((underPrefix s.table "charts/").erase m.entry), ?_,
      fun m' hm' => ⟨early_of_mem_first hm', hm⟩⟩
    rw [plan_eq, movesOf_cons h]

/-- Two moves can follow each other, unless only the second is under the first prefix. -/
theorem exists_adjacent (h : Relocates s.table m) (h' : Relocates s.table m') (hne : m.oldPath ≠ m'.oldPath)
    (horder : Early m'.oldPath → Early m.oldPath) : ∃ (o : LegacyOrders s.table) (before after : _),
    enumerateRelocations o = before ++ m :: m' :: after := by
  have hentry : m'.entry ≠ m.entry := fun heq => hne (congrArg Prod.fst heq).symm
  have hboth : ∀ {l : List (String × StoredRecord)}, m.entry ∈ l → m'.entry ∈ l →
      (m.entry :: m'.entry :: (l.erase m.entry).erase m'.entry).Perm l := fun hm hm' =>
    ((perm_cons_erase hm).trans
      ((perm_cons_erase ((mem_erase_of_ne hentry).mpr hm')).cons _)).symm
  by_cases hm : Early m.oldPath <;> by_cases hm' : Early m'.oldPath
  · refine ⟨{ LegacyOrders.sorted s.table with
      first := m.entry :: m'.entry :: ((underPrefix s.table "_charts/").erase m.entry).erase m'.entry
      perm_first := hboth (h.mem_first hm) (h'.mem_first hm') }, [],
      movesOf (((underPrefix s.table "_charts/").erase m.entry).erase m'.entry) ++
        movesOf (underPrefix s.table "charts/"), ?_⟩
    rw [plan_eq, movesOf_cons h, movesOf_cons h']
    rfl
  · -- The last one of the first scan and the first one of the second.
    refine ⟨{
      first := (underPrefix s.table "_charts/").erase m.entry ++ [m.entry]
      second := m'.entry :: (underPrefix s.table "charts/").erase m'.entry
      perm_first := (perm_append_singleton _ _).trans
        (perm_cons_erase (h.mem_first hm)).symm
      perm_second := (perm_cons_erase (h'.mem_second hm')).symm },
      movesOf ((underPrefix s.table "_charts/").erase m.entry),
      movesOf ((underPrefix s.table "charts/").erase m'.entry), ?_⟩
    rw [plan_eq, movesOf_append, movesOf_cons h, movesOf_cons h', append_assoc]
    rfl
  · exact absurd (horder hm') hm
  · let o : LegacyOrders s.table := { LegacyOrders.sorted s.table with
      second := m.entry :: m'.entry :: ((underPrefix s.table "charts/").erase m.entry).erase m'.entry
      perm_second := hboth (h.mem_second hm) (h'.mem_second hm') }
    refine ⟨o, movesOf o.first,
      movesOf (((underPrefix s.table "charts/").erase m.entry).erase m'.entry), ?_⟩
    rw [plan_eq, movesOf_cons h, movesOf_cons h']

/-- Of two charts that move to one key, one after the other, the second replaces the first,
    unless the first has come from that key. -/
theorem same_of_adjacent (h : Relocates s.table m) (hsk : m.sk = m'.sk) (hold : m.oldPath ≠ m.sk)
    (hover : OverwritesNothing s.table (before ++ m :: m' :: after)) :
    m.record.chartId = m'.record.chartId := by
  have hsplit : before ++ m :: m' :: after = (before ++ [m]) ++ m' :: after := by simp
  refine hover _ m' after hsplit (m.record.prepared m.newPath) ?_ h.chartId
  show (relocateAll s.table (before ++ [m])).get m'.sk = _
  rw [relocateAll_concat, get_relocate h.normal, ← hsk, if_neg (Ne.symm hold), if_pos rfl]

/-- If nothing is overwritten in any order, the charts can be moved. -/
theorem relocatable_of_overwritesNothing
    (hover : ∀ o : LegacyOrders s.table, OverwritesNothing s.table (enumerateRelocations o)) :
    Relocatable s.table := by
  constructor
  · intro m hm r hr hchart hne
    by_contra hnot
    obtain ⟨o, before, after, hplan, hbefore⟩ := exists_first hm
    have hsub : before ⊆ enumerateRelocations o := by
      rw [hplan]
      exact fun _ h' => mem_append_left _ h'
    have hstay : ∀ m' ∈ before, m'.oldPath ≠ m.sk := by
      intro m' hm' heq
      obtain ⟨hearly, hlate⟩ := hbefore m' hm'
      exact hnot ⟨⟨m', mem_plan.mp (hsub hm'), heq⟩, heq ▸ hearly, hlate⟩
    have ho := hover o
    rw [hplan] at ho
    obtain ⟨r', hr', hid⟩ := chartId_kept ho (normal_of_mem_plan hsub) hr hchart hstay
    exact hne (hid.symm.trans (ho before m after rfl r' hr' (hid ▸ hchart)))
  · intro m m' hm hm' hsk hne
    have hold : m.oldPath ≠ m'.oldPath := by
      intro heq
      have hget := hm.get
      rw [heq, hm'.get] at hget
      exact hne (congrArg StoredRecord.chartId (Option.some.inj hget).symm)
    -- The two cannot follow each other in an order in which the first does not come from the key.
    have hfirst : (Early m'.oldPath → Early m.oldPath) → m.oldPath = m.sk := by
      intro horder
      by_contra hself
      obtain ⟨o, before, after, hplan⟩ := exists_adjacent hm hm' hold horder
      exact hne (same_of_adjacent hm hsk hself (hplan ▸ hover o))
    have hsecond : (Early m.oldPath → Early m'.oldPath) → m'.oldPath = m'.sk := by
      intro horder
      by_contra hself
      obtain ⟨o, before, after, hplan⟩ := exists_adjacent hm' hm hold.symm horder
      exact hne (same_of_adjacent hm' hsk.symm hself (hplan ▸ hover o)).symm
    by_cases hearly : Early m.oldPath <;> by_cases hearly' : Early m'.oldPath
    · exact absurd ((hfirst fun _ => hearly).trans (hsk.trans (hsecond fun _ => hearly').symm)) hold
    · exact Or.inl ⟨hfirst fun _ => hearly, hearly, hearly'⟩
    · exact Or.inr ⟨hsecond fun _ => hearly', hearly', hearly⟩
    · exact absurd ((hfirst fun h => absurd h hearly').trans
        (hsk.trans (hsecond fun h => absurd h hearly).symm)) hold

end

/-- Whatever the orders in which the records are read, no relocation overwrites another chart
    exactly when the charts can be moved. -/
theorem overwritesNothing_iff (s : NormalTable) :
    (∀ o : LegacyOrders s.table, OverwritesNothing s.table (enumerateRelocations o)) ↔
      Relocatable s.table :=
  ⟨relocatable_of_overwritesNothing, fun h o => h.overwritesNothing o⟩

/-- Archives of one byte: chart `a-1` at version `2`, and chart `a` at version `1-2`. -/
def hyphenCharts : ChartExt where
  chartFile data := .ok (some (if data = [1] then "a-1 2" else "a 1-2"))
  fromYaml text := .ok (if text = "a-1 2" then { name := some "a-1", version := some "2" }
    else { name := some "a", version := some "1-2" })

/-- The first chart. -/
def hyphenName : AcceptedChart .sample hyphenCharts where
  data := [1]
  helm := { name := "a-1", version := "2", sha256 := IndexExt.sample.sha256 [1] }
  accepted := rfl

/-- The second chart. -/
def hyphenVersion : AcceptedChart .sample hyphenCharts where
  data := [2]
  helm := { name := "a", version := "1-2", sha256 := IndexExt.sample.sha256 [2] }
  accepted := rfl

/-- Both. -/
def hyphenSet : ChartSet .sample hyphenCharts where
  charts := [hyphenName, hyphenVersion]
  distinct := by decide

/-- The first chart where an earlier version has stored it, the second one at the root. -/
def hyphenTable : NormalTable where
  table := ⟨[("a-1-2.tgz", hyphenVersion.stored .sample 0),
    ("charts/a-1-2.tgz", hyphenName.stored .sample 0)], by decide⟩
  normal sk r h := by
    have hmem := SortedMap.mem_entries_iff.mpr h
    simp only [mem_cons, not_mem_nil, or_false, Prod.mk.injEq] at hmem
    obtain ⟨rfl, -⟩ | ⟨rfl, -⟩ := hmem
    · decide +kernel
    · decide +kernel

/-- A repository in which nothing is stored. -/
def emptyTable : ChartlessTable where
  table := SortedMap.empty
  chartless sk r helm h := by
    rw [SortedMap.get_empty] at h
    cases h

/-- The move of the first chart. -/
def hyphenMove : Relocation := ⟨"charts/a-1-2.tgz", "a-1-2.tgz", hyphenName.stored .sample 0⟩

end Depot
