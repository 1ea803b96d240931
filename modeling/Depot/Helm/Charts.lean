import Depot.Go.Paths
import Depot.Index.Store
import Depot.Index.Stored

/-!
# The charts of a Helm repository

What an upload of a chart and a rebuild of `index.yaml` do to the records of a hosted
repository, and what a client is served (`format/helm/src/store.rs`), one request after the
other.

Results:
* `get_uploads`: the last upload with a key is the chart at that key.
* `listing_eq`: the entries of a chart in the index are those of its records.
-/

namespace Depot

open Lib List
open RecordTable (get_put get_remove putStored)

/-! ## Parsing -/

/-- The fields of `Chart.yaml` (`ChartYaml`). -/
structure ChartYaml where
  name : Option String
  version : Option String
  appVersion : Option String := none
  description : Option String := none
  apiVersion : Option String := none
  chartType : Option String := none
  keywords : Option (List String) := none
  home : Option String := none
  sources : Option (List String) := none
  icon : Option String := none
  deprecated : Option Bool := none
  deriving DecidableEq

/-- Functions of other crates: the text of the first `{dir}/Chart.yaml` in a gzipped archive,
    and `serde_yml::from_str`. -/
structure ChartExt where
  chartFile : Bytes → Except DepotError (Option String)
  fromYaml : String → Except String ChartYaml

/-- `parse_chart` (lines 112–179). -/
def parseChart (p : ChartExt) (data : Bytes) (sha256 : String) :
    Except DepotError HelmChartMeta := do
  let some yamlContent ← p.chartFile data
    | throw (.badRequest "Chart.yaml not found in chart archive")
  let chart ← match p.fromYaml yamlContent with
    | .ok chart => pure chart
    | .error e => throw (.badRequest ("failed to parse Chart.yaml: " ++ e))
  let some name := chart.name | throw (.badRequest "missing 'name' field in Chart.yaml")
  let some version := chart.version | throw (.badRequest "missing 'version' field in Chart.yaml")
  if name = "" then throw (.badRequest "empty 'name' field in Chart.yaml")
  if version = "" then throw (.badRequest "empty 'version' field in Chart.yaml")
  pure {
    name := name
    version := version
    appVersion := chart.appVersion.getD ""
    description := chart.description.getD ""
    apiVersion := chart.apiVersion.getD ""
    chartType := chart.chartType.getD ""
    keywords := chart.keywords.getD []
    home := chart.home.getD ""
    sources := chart.sources.getD []
    icon := chart.icon.getD ""
    deprecated := chart.deprecated.getD false
    sha256 := sha256 }

variable {helm : HelmChartMeta}

/-- The digest that is recorded is the one that was given. -/
theorem parseChart_sha256 {p : ChartExt} {data : Bytes} {sha256 : String}
    (h : parseChart p data sha256 = .ok helm) : helm.sha256 = sha256 := by
  unfold parseChart at h
  simp only [bind, Except.bind, pure, Except.pure, throw, throwThe, MonadExceptOf.throw] at h
  repeat' split at h
  all_goals first
    | cases h; rfl
    | cases h

/-- A chart that `parse_chart` accepts. -/
structure AcceptedChart (x : IndexExt) (p : ChartExt) where
  data : Bytes
  helm : HelmChartMeta
  accepted : parseChart p data (x.sha256 data) = .ok helm

/-- The name and the version of a chart. -/
def HelmChartMeta.id (helm : HelmChartMeta) : String × String := (helm.name, helm.version)

/-- Charts with different names or versions. -/
structure ChartSet (x : IndexExt) (p : ChartExt) where
  charts : List (AcceptedChart x p)
  distinct : (charts.map fun c => c.helm.id).Nodup

/-! ## Uploads and rebuilds -/

section

variable (x : IndexExt)

/-- `set_stale_flag` (lines 252–270). -/
def setHelmFlag (now : DateTime) (t : RecordTable StoredRecord) : RecordTable StoredRecord :=
  t.putStoredIfAbsent helmFlagPath ((helmFormat x).flagRecord now)

variable {p : ChartExt}

/-- The key of a chart. -/
def chartSk (helm : HelmChartMeta) : String := normalizePath (chartPath helm.name helm.version)

/-- Charts with the same name and the same version have the same key. -/
theorem chartSk_congr {helm' : HelmChartMeta} (h : helm.id = helm'.id) :
    chartSk helm = chartSk helm' := by
  obtain ⟨hname, hversion⟩ := Prod.mk.inj h
  rw [chartSk, chartSk, hname, hversion]

/-- The record that an upload stores. -/
def AcceptedChart.stored (c : AcceptedChart x p) (now : DateTime) : StoredRecord :=
  let u := helmUpload x c.helm c.data
  (u.record x now).prepared u.path

/-- `commit_chart` and `put_chart` (lines 281–460): what they change. -/
def uploadChart (t : RecordTable StoredRecord) (now : DateTime) (c : AcceptedChart x p) :
    RecordTable StoredRecord :=
  let u := helmUpload x c.helm c.data
  setHelmFlag x now (t.putStored u.path (u.record x now))

/-- Uploads at some times. -/
def uploadCharts (t : RecordTable StoredRecord) (uploads : List (DateTime × AcceptedChart x p)) :
    RecordTable StoredRecord :=
  uploads.foldl (fun t e => uploadChart x t e.1 e.2) t

/-- The index that a rebuild writes (lines 505–543). -/
def helmIndexOf (now : DateTime) (packages : List (String × StoredRecord)) : HelmIndex where
  entries := (sortedDistinct (chartNames packages)).map fun name =>
    (name, chartEntries x packages name)
  generated := x.rfc3339 now

/-- `rebuild_index` (lines 494–605): the flag is cleared, the records are scanned, in an order
    that depends on which shard is read first, and the index is written. -/
def rebuildHelmIndex (t : RecordTable StoredRecord) (now : DateTime)
    (order : List (String × StoredRecord)) : RecordTable StoredRecord :=
  (t.remove helmFlagPath).putStored helmIndexPath
    ((helmFormat x).fileRecord x now
      { path := helmIndexPath
        contentType := "application/x-yaml"
        data := utf8 (x.yaml (helmIndexOf x now order))
        commit := true })

end

/-- `get_artifact` (`server/src/server/api/artifacts.rs`, lines 806–830), which normalises the path,
    and `hosted_download_chart` (`api.rs`, lines 253–269) with `get_chart_by_filename`: what a client
    gets at a path of the repository. -/
def downloadChart (t : RecordTable StoredRecord) (path : String) : Option Bytes :=
  match normalizeArtifactPath path with
  | .ok path => if ".tgz".toList <:+ path.toList then t.readArtifact path else none
  | .error _ => none

/-- The entries of an index for a name and a version. -/
def HelmIndex.listing (index : HelmIndex) (id : String × String) : List HelmIndexEntry :=
  (index.entries.flatMap Prod.snd).filter fun e => e.helm.id = id

/-! ## Keys of charts -/

theorem chartPath_suffix (name version : String) :
    ".tgz".toList <:+ (chartPath name version).toList := suffix_append _ _

variable {sk : String}

theorem chartSk_ne (h : ¬ ".tgz".toList <:+ sk.toList) : chartSk helm ≠ sk := by
  rintro rfl
  exact h (suffix_normalizePath (by decide) (by decide) (chartPath_suffix _ _))

theorem chartSk_ne_flag (helm : HelmChartMeta) : chartSk helm ≠ normalizePath helmFlagPath :=
  chartSk_ne (by decide +kernel)

theorem chartSk_ne_index (helm : HelmChartMeta) : chartSk helm ≠ normalizePath helmIndexPath :=
  chartSk_ne (by decide +kernel)

/-! ## What the requests change -/

section

variable {x : IndexExt} {p : ChartExt}

theorem get_uploadChart (hsk : sk ≠ normalizePath helmFlagPath)
    (t : RecordTable StoredRecord) (now : DateTime) (c : AcceptedChart x p) :
    (uploadChart x t now c).get sk =
      if sk = chartSk c.helm then some (c.stored x now) else t.get sk := by
  have hflag : ∀ t : RecordTable StoredRecord, (setHelmFlag x now t).get sk = t.get sk := by
    intro t
    unfold setHelmFlag RecordTable.putStoredIfAbsent RecordTable.putIfAbsent
    split
    · rfl
    · rw [get_put, if_neg hsk]
  rw [uploadChart, hflag, putStored, get_put]
  rfl

/-- The last upload with a key is the chart at that key. -/
theorem get_uploads (hsk : sk ≠ normalizePath helmFlagPath)
    (t : RecordTable StoredRecord) (uploads : List (DateTime × AcceptedChart x p)) :
    (uploadCharts x t uploads).get sk =
      match uploads.reverse.find? fun e => chartSk e.2.helm = sk with
      | some e => some (e.2.stored x e.1)
      | none => t.get sk := by
  induction uploads generalizing t with
  | nil => rfl
  | cons e uploads ih =>
    have hcons : uploadCharts x t (e :: uploads) =
        uploadCharts x (uploadChart x t e.1 e.2) uploads := rfl
    rw [hcons, ih, reverse_cons, find?_append, get_uploadChart hsk]
    cases hfind : uploads.reverse.find? fun e => chartSk e.2.helm = sk with
    | some e' => rfl
    | none =>
      by_cases hkey : chartSk e.2.helm = sk
      · simp [hkey]
      · simp [hkey, Ne.symm hkey]

theorem get_rebuild (hflag : sk ≠ normalizePath helmFlagPath)
    (hindex : sk ≠ normalizePath helmIndexPath) (t : RecordTable StoredRecord) (now : DateTime)
    (order : List (String × StoredRecord)) :
    (rebuildHelmIndex x t now order).get sk = t.get sk := by
  rw [rebuildHelmIndex, putStored, get_put, if_neg hindex, get_remove, if_neg hflag]

/-- The index that a rebuild leaves. -/
theorem readArtifact_rebuild (t : RecordTable StoredRecord) (now : DateTime)
    (order : List (String × StoredRecord)) :
    (rebuildHelmIndex x t now order).readArtifact helmIndexPath =
      some (utf8 (x.yaml (helmIndexOf x now order))) := by
  rw [rebuildHelmIndex, RecordTable.readArtifact_putStored, if_pos rfl]
  rfl

end

/-! ## Entries of the index -/

/-- The entry of a record that is the chart with a name and a version. -/
def entryOf (x : IndexExt) (id : String × String) (e : String × StoredRecord) :
    Option HelmIndexEntry :=
  match e.2.packageMeta with
  | .helm helm => if helm.id = id then some (helmIndexEntry x helm e.2.record) else none
  | _ => none

/-- Of the parts of a list only the one of `a` is not empty. -/
theorem flatMap_of_nodup {α β : Type} [DecidableEq α] {l : List α} (hl : l.Nodup)
    {f : α → List β} (a : α) (h : ∀ b ∈ l, b ≠ a → f b = []) :
    l.flatMap f = if a ∈ l then f a else [] := by
  induction l with
  | nil => rfl
  | cons b l ih =>
    rw [nodup_cons] at hl
    have hrest := ih hl.2 fun b' hb' => h b' (mem_cons_of_mem _ hb')
    rw [flatMap_cons, hrest]
    by_cases hb : b = a
    · subst hb
      simp [hl.1]
    · rw [h b mem_cons_self hb]
      simp [Ne.symm hb]

/-- Only `a` is kept of a list. -/
theorem filterMap_of_nodup {α β : Type} {l : List α} (hl : l.Nodup) {f : α → Option β} {a : α}
    {b : β} (ha : a ∈ l) (hf : f a = some b) (h : ∀ a' ∈ l, a' ≠ a → f a' = none) :
    l.filterMap f = [b] := by
  obtain ⟨before, after, rfl⟩ := append_of_mem ha
  have hnot : a ∉ before ++ after := (nodup_middle.mp hl |> nodup_cons.mp).1
  have hnone : ∀ l' : List α, (∀ a' ∈ l', a' ∈ before ++ after) → l'.filterMap f = [] := by
    intro l' hl'
    rw [filterMap_eq_nil_iff]
    intro a' ha'
    refine h a' ?_ fun heq => hnot (heq ▸ hl' a' ha')
    rcases mem_append.mp (hl' a' ha') with hmem | hmem
    · exact mem_append_left _ hmem
    · exact mem_append_right _ (mem_cons_of_mem _ hmem)
  rw [filterMap_append, filterMap_cons, hf,
    hnone before fun _ => mem_append_left _, hnone after fun _ => mem_append_right _]
  rfl

/-- The entries of a chart in the index are those of the records that are the chart. -/
theorem listing_eq (x : IndexExt) (now : DateTime) (packages : List (String × StoredRecord))
    (id : String × String) :
    (helmIndexOf x now packages).listing id = packages.filterMap (entryOf x id) := by
  have hpart : ∀ name, (chartEntries x packages name).filter (fun e => e.helm.id = id) =
      if name = id.1 then packages.filterMap (entryOf x id) else [] := by
    intro name
    rw [chartEntries, filter_filterMap]
    split_ifs with hname
    · refine filterMap_congr fun e _ => ?_
      cases hmeta : e.2.packageMeta with
      | helm helm =>
        by_cases hid : helm.id = id
        · have hn : helm.name = name := by rw [hname, ← hid]; rfl
          simp [entryOf, hmeta, hid, hn, helmIndexEntry]
        · by_cases hn : helm.name = name <;> simp [entryOf, hmeta, hid, hn, helmIndexEntry]
      | _ => simp [entryOf, hmeta]
    · rw [filterMap_eq_nil_iff]
      intro e _
      cases hmeta : e.2.packageMeta with
      | helm helm =>
        by_cases hn : helm.name = name
        · have hid : helm.id ≠ id := by
            rintro rfl
            exact hname hn.symm
          simp [hn, helmIndexEntry, hid]
        · simp [hn]
      | _ => rfl
  have hnames : (sortedDistinct (chartNames packages)).Nodup :=
    (perm_insertionSort _ _).nodup_iff.mpr (nodup_dedup _)
  have hentries : ((helmIndexOf x now packages).entries.flatMap Prod.snd) =
      (sortedDistinct (chartNames packages)).flatMap (chartEntries x packages) := by
    rw [helmIndexOf, flatMap_map]
  rw [HelmIndex.listing, hentries, filter_flatMap]
  rw [flatMap_of_nodup hnames id.1 fun name _ hne => by rw [hpart, if_neg hne]]
  split_ifs with hmem
  · rw [hpart, if_pos rfl]
  · -- A name that no record has.
    symm
    rw [filterMap_eq_nil_iff]
    intro e he
    cases hmeta : e.2.packageMeta with
    | helm helm =>
      have hid : helm.id ≠ id := by
        rintro rfl
        refine hmem (mem_sortedDistinct.mpr (mem_filterMap.mpr ⟨e, he, ?_⟩))
        rw [hmeta]
        rfl
      simp [entryOf, hmeta, hid]
    | _ => simp [entryOf, hmeta]

/-! ## When the charts are served -/

/-- A repository without charts: its flag, its index and what else is stored. -/
structure ChartlessTable where
  table : RecordTable StoredRecord
  chartless : ∀ sk r helm, table.get sk = some r → r.packageMeta ≠ .helm helm

/-- All charts are stored, `index.yaml` is an index that lists each of them once, with a URL that
    is answered with the bytes of the chart and with their digest. -/
structure ChartsServed (x : IndexExt) {p : ChartExt} (charts : List (AcceptedChart x p))
    (index : HelmIndex) (t : RecordTable StoredRecord) : Prop where
  stored : ∀ c ∈ charts, ∃ sk r, t.get sk = some r ∧ r.packageMeta = .helm c.helm ∧
    r.content = some c.data
  published : t.readArtifact helmIndexPath = some (utf8 (x.yaml index))
  listed : ∀ c ∈ charts, ∃ entry, index.listing c.helm.id = [entry] ∧
    entry.digest = "sha256:" ++ x.sha256 c.data ∧
    ∃ url, entry.urls = [url] ∧ downloadChart t url = some c.data

/-- The charts are served after they have been uploaded in any order and the index has been
    rebuilt. -/
def UploadsServed (x : IndexExt) {p : ChartExt} (t : RecordTable StoredRecord)
    (charts : List (AcceptedChart x p)) : Prop :=
  ∀ uploads : List (DateTime × AcceptedChart x p), (uploads.map Prod.snd).Perm charts →
    ∀ (now : DateTime) (order : List (String × StoredRecord)),
      order.Perm (SortedMap.entries ((uploadCharts x t uploads).remove helmFlagPath)) →
        ChartsServed x charts (helmIndexOf x now order)
          (rebuildHelmIndex x (uploadCharts x t uploads) now order)

/-- The path of a chart in the index, normalised as in a request, leads to the key of the chart, or
    to another file with the same bytes. -/
def ChartFound {x : IndexExt} {p : ChartExt} (t : RecordTable StoredRecord)
    (charts : List (AcceptedChart x p)) (c : AcceptedChart x p) : Prop :=
  ∃ path, normalizeArtifactPath (chartPath c.helm.name c.helm.version) = .ok path ∧
    (normalizePath path = chartSk c.helm ∨
      (∀ c' ∈ charts, chartSk c'.helm ≠ normalizePath path) ∧ t.readArtifact path = some c.data)

section

variable {x : IndexExt} {p : ChartExt} {t₀ : ChartlessTable}
variable {uploads : List (DateTime × AcceptedChart x p)}

/-- A chart that is stored after the uploads is that of an upload, at its own key. -/
theorem uploaded_of_get {r : StoredRecord}
    (hr : ((uploadCharts x t₀.table uploads).remove helmFlagPath).get sk = some r)
    (hmeta : r.packageMeta = .helm helm) :
    ∃ e ∈ uploads, e.2.helm = helm ∧ sk = chartSk helm ∧ r = e.2.stored x e.1 := by
  rw [get_remove] at hr
  split at hr
  · cases hr
  rename_i hflag
  rw [get_uploads hflag] at hr
  cases hfind : uploads.reverse.find? fun e => chartSk e.2.helm = sk with
  | none =>
    rw [hfind] at hr
    exact absurd hmeta (t₀.chartless sk r helm hr)
  | some e =>
    rw [hfind] at hr
    obtain rfl := Option.some.inj hr
    have hhelm : e.2.helm = helm := PackageMeta.helm.inj hmeta
    refine ⟨e, mem_reverse.mp (mem_of_find?_eq_some hfind), hhelm, ?_, rfl⟩
    rw [← hhelm]
    have hkey : chartSk e.2.helm = sk := by simpa using find?_some hfind
    exact hkey.symm

/-- An upload whose key no other has is still there. -/
theorem get_uploads_of_nodup (hnodup : (uploads.map fun e => chartSk e.2.helm).Nodup)
    {e : DateTime × AcceptedChart x p} (he : e ∈ uploads) :
    ((uploadCharts x t₀.table uploads).remove helmFlagPath).get (chartSk e.2.helm) =
      some (e.2.stored x e.1) := by
  rw [get_remove, if_neg (chartSk_ne_flag _), get_uploads (chartSk_ne_flag _)]
  cases hfind : uploads.reverse.find? fun e' => chartSk e'.2.helm = chartSk e.2.helm with
  | none =>
    have hnone := find?_eq_none.mp hfind e (mem_reverse.mpr he)
    simp at hnone
  | some e' =>
    have he' := mem_reverse.mp (mem_of_find?_eq_some hfind)
    have hkey : chartSk e'.2.helm = chartSk e.2.helm := by
      simpa using find?_some hfind
    rw [inj_on_of_nodup_map hnodup he' he hkey]

variable {order : List (String × StoredRecord)} {charts : List (AcceptedChart x p)}

/-- What a client reads at a path that ends like that of a chart: the last upload with its key, or
    what was there. -/
theorem readArtifact_rebuilt {path : String} (hpath : ".tgz".toList <:+ path.toList)
    (now : DateTime) :
    (rebuildHelmIndex x (uploadCharts x t₀.table uploads) now order).readArtifact path =
      match uploads.reverse.find? fun e => chartSk e.2.helm = normalizePath path with
      | some e => some e.2.data
      | none => t₀.table.readArtifact path := by
  have hsuf : ".tgz".toList <:+ (normalizePath path).toList :=
    suffix_normalizePath (by decide) (by decide) hpath
  have hflag : normalizePath path ≠ normalizePath helmFlagPath := by
    intro heq
    rw [heq] at hsuf
    revert hsuf
    decide +kernel
  have hindex : normalizePath path ≠ normalizePath helmIndexPath := by
    intro heq
    rw [heq] at hsuf
    revert hsuf
    decide +kernel
  have hget := get_rebuild (x := x) hflag hindex (uploadCharts x t₀.table uploads) now order
  rw [get_uploads hflag] at hget
  rw [RecordTable.readArtifact, RecordTable.find, hget]
  split
  · rfl
  · rfl

/-- Charts with different keys are all served, when the index leads to them. -/
theorem served_of_nodup (hperm : (uploads.map Prod.snd).Perm charts)
    (hnodup : (charts.map fun c => chartSk c.helm).Nodup)
    (hfound : ∀ c ∈ charts, ChartFound t₀.table charts c) (now : DateTime) (horder : order.Perm
      (SortedMap.entries ((uploadCharts x t₀.table uploads).remove helmFlagPath))) :
    ChartsServed x charts (helmIndexOf x now order)
      (rebuildHelmIndex x (uploadCharts x t₀.table uploads) now order) := by
  have hkeys : (uploads.map fun e => chartSk e.2.helm).Nodup := by
    have hmap : ((uploads.map Prod.snd).map fun c => chartSk c.helm).Perm
        (charts.map fun c => chartSk c.helm) := hperm.map _
    rw [map_map] at hmap
    exact hmap.nodup_iff.mpr hnodup
  have hmem : ∀ c ∈ charts, ∃ e ∈ uploads, e.2 = c := fun c hc =>
    mem_map.mp (hperm.mem_iff.mpr hc)
  have hget : ∀ e ∈ uploads,
      (rebuildHelmIndex x (uploadCharts x t₀.table uploads) now order).get (chartSk e.2.helm) =
        some (e.2.stored x e.1) := by
    intro e he
    have hstored := @get_uploads_of_nodup x p t₀ uploads hkeys e he
    rw [get_remove, if_neg (chartSk_ne_flag _)] at hstored
    rw [get_rebuild (chartSk_ne_flag _) (chartSk_ne_index _), hstored]
  refine ⟨fun c hc => ?_, readArtifact_rebuild _ _ _, fun c hc => ?_⟩
  · obtain ⟨e, he, rfl⟩ := hmem c hc
    exact ⟨_, _, hget e he, rfl, rfl⟩
  · obtain ⟨e, he, rfl⟩ := hmem c hc
    have hentry : entryOf x e.2.helm.id (chartSk e.2.helm, e.2.stored x e.1) =
        some (helmIndexEntry x e.2.helm (e.2.stored x e.1).record) := by
      simp [entryOf, AcceptedChart.stored, helmUpload, Upload.record]
    have horderNodup : order.Nodup :=
      horder.nodup_iff.mpr
        (Nodup.of_map _ (nodup_keys_of_sorted (SortedMap.sorted _)))
    have hin : (chartSk e.2.helm, e.2.stored x e.1) ∈ order :=
      horder.mem_iff.mpr (SortedMap.mem_entries_iff.mpr (get_uploads_of_nodup hkeys he))
    have hothers : ∀ e' ∈ order, e' ≠ (chartSk e.2.helm, e.2.stored x e.1) →
        entryOf x e.2.helm.id e' = none := by
      rintro ⟨sk, r⟩ he' hne
      have hr := SortedMap.mem_entries_iff.mp (horder.mem_iff.mp he')
      cases hmeta : r.packageMeta with
      | helm helm =>
        obtain ⟨e₁, he₁, rfl, rfl, rfl⟩ := uploaded_of_get hr hmeta
        have hid : e₁.2.helm.id ≠ e.2.helm.id := by
          intro hid
          have hsame : e₁ = e := inj_on_of_nodup_map hkeys he₁ he (chartSk_congr hid)
          exact hne (by rw [hsame])
        simp [entryOf, hmeta, hid]
      | _ => simp [entryOf, hmeta]
    refine ⟨helmIndexEntry x e.2.helm (e.2.stored x e.1).record, ?_, ?_,
      chartPath e.2.helm.name e.2.helm.version, rfl, ?_⟩
    · rw [listing_eq]
      exact filterMap_of_nodup horderNodup hin hentry hothers
    · exact congrArg ("sha256:" ++ ·) (parseChart_sha256 e.2.accepted)
    · obtain ⟨path, hpath, hlead⟩ := hfound e.2 hc
      have hend : ".tgz".toList <:+ path.toList :=
        suffix_normalizeArtifactPath (by decide) (by decide) (by decide) (chartPath_suffix _ _) hpath
      rw [downloadChart, hpath]
      dsimp only
      rw [if_pos hend]
      rcases hlead with hown | ⟨hnone, hother⟩
      · rw [RecordTable.readArtifact, RecordTable.find, hown, hget e he]
        rfl
      · have hfind : uploads.reverse.find? (fun e => chartSk e.2.helm = normalizePath path) =
            none := by
          refine find?_eq_none.mpr fun e' he' => ?_
          have hmem' := hperm.mem_iff.mp (mem_map_of_mem (mem_reverse.mp he'))
          simpa using hnone e'.2 hmem'
        rw [readArtifact_rebuilt hend, hfind]
        exact hother

/-- The index gives the path of a chart. -/
theorem urls_of_listing {packages : List (String × StoredRecord)} {now : DateTime}
    {id : String × String} {entry : HelmIndexEntry}
    (h : (helmIndexOf x now packages).listing id = [entry]) :
    entry.urls = [chartPath id.1 id.2] := by
  rw [listing_eq] at h
  have hmem : entry ∈ packages.filterMap (entryOf x id) := h ▸ mem_cons_self
  obtain ⟨e, -, hentry⟩ := mem_filterMap.mp hmem
  unfold entryOf at hentry
  split at hentry
  · split_ifs at hentry with hid
    obtain rfl := Option.some.inj hentry
    rw [← hid]
    rfl
  · cases hentry

/-- Charts to which the index leads are found there. -/
theorem found_of_served (hperm : (uploads.map Prod.snd).Perm charts) {now : DateTime}
    (h : ChartsServed x charts (helmIndexOf x now order)
      (rebuildHelmIndex x (uploadCharts x t₀.table uploads) now order)) {c : AcceptedChart x p}
    (hc : c ∈ charts) : ChartFound t₀.table charts c := by
  obtain ⟨entry, hlist, -, url, hurl, hdata⟩ := h.listed c hc
  have hpath : url = chartPath c.helm.name c.helm.version := by
    rw [urls_of_listing hlist] at hurl
    exact (List.singleton_inj.mp hurl).symm
  rw [hpath, downloadChart] at hdata
  split at hdata
  case h_2 => cases hdata
  rename_i path hnormal
  split_ifs at hdata with hend
  rw [readArtifact_rebuilt hend] at hdata
  refine ⟨path, hnormal, ?_⟩
  cases hfind : uploads.reverse.find? fun e => chartSk e.2.helm = normalizePath path with
  | none =>
    rw [hfind] at hdata
    refine .inr ⟨fun c' hc' heq => ?_, hdata⟩
    obtain ⟨e, he, rfl⟩ := mem_map.mp (hperm.mem_iff.mpr hc')
    have hno := find?_eq_none.mp hfind e (mem_reverse.mpr he)
    simp [heq] at hno
  | some e =>
    rw [hfind] at hdata
    have hkey : chartSk e.2.helm = normalizePath path := by simpa using find?_some hfind
    have hmem : e.2 ∈ charts :=
      hperm.mem_iff.mp (mem_map_of_mem (mem_reverse.mp (mem_of_find?_eq_some hfind)))
    -- The same bytes are the same chart.
    have hhelm : e.2.helm = c.helm := by
      have haccepted := e.2.accepted
      rw [Option.some.inj hdata, c.accepted] at haccepted
      exact (Except.ok.inj haccepted).symm
    exact .inl (by rw [← hkey, hhelm])

/-- Charts that are all stored have different keys. -/
theorem nodup_of_stored (hdistinct : (charts.map fun c => c.helm.id).Nodup) {now : DateTime}
    (h : ChartsServed x charts (helmIndexOf x now order)
      (rebuildHelmIndex x (uploadCharts x t₀.table uploads) now order)) :
    (charts.map fun c => chartSk c.helm).Nodup := by
  -- A chart of the set is at its own key.
  have hat : ∀ c ∈ charts, ∃ r, ((uploadCharts x t₀.table uploads).remove helmFlagPath).get
      (chartSk c.helm) = some r ∧ r.packageMeta = .helm c.helm := by
    intro c hc
    obtain ⟨sk, r, hr, hmeta, -⟩ := h.stored c hc
    rw [rebuildHelmIndex, putStored, get_put] at hr
    split at hr
    · obtain rfl := Option.some.inj hr
      cases hmeta
    · obtain ⟨e, -, -, rfl, -⟩ := uploaded_of_get hr hmeta
      exact ⟨r, hr, hmeta⟩
  refine Nodup.map_on ?_ (Nodup.of_map _ hdistinct)
  intro c hc c' hc' hsk
  obtain ⟨r, hr, hmeta⟩ := hat c hc
  obtain ⟨r', hr', hmeta'⟩ := hat c' hc'
  rw [hsk, hr'] at hr
  obtain rfl := Option.some.inj hr
  have hhelm : c.helm = c'.helm := PackageMeta.helm.inj (hmeta.symm.trans hmeta')
  exact inj_on_of_nodup_map hdistinct hc hc' (congrArg HelmChartMeta.id hhelm)

end

/-- Charts uploaded to a repository without charts are served, whatever the order of the
    uploads, exactly when no two of them have the same key and a request for the path in the index
    leads to the chart. -/
theorem uploadsServed_iff (x : IndexExt) {p : ChartExt} (t₀ : ChartlessTable) (s : ChartSet x p) :
    UploadsServed x t₀.table s.charts ↔ (s.charts.map fun c => chartSk c.helm).Nodup ∧
      ∀ c ∈ s.charts, ChartFound t₀.table s.charts c := by
  constructor
  · intro h
    have hperm : ((s.charts.map fun c => ((0 : DateTime), c)).map Prod.snd).Perm s.charts := by
      rw [map_map, show (Prod.snd ∘ fun c : AcceptedChart x p => ((0 : DateTime), c)) = id
        from rfl, map_id]
    have hserved := h _ hperm 0 _ (Perm.refl _)
    exact ⟨nodup_of_stored s.distinct hserved, fun c hc => found_of_served hperm hserved hc⟩
  · rintro ⟨hnodup, hfound⟩ uploads hperm now order horder
    exact served_of_nodup hperm hnodup hfound now horder

end Depot
