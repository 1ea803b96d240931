import Depot.Index.Rebuild
import Depot.Lib.Runs

/-!
# The index of a repository at rest

Uploads, rebuilds and requests in any interleaving: when all of them have returned and no
flag is set, the published index describes the packages, provided that no rebuild publishes
its index after one that has begun later, and that no operation fails between a package and
its flag, or between a cleared flag and its index.

Results:
* `indexLogic_sound`: every request keeps its part of the protocol.
* `index_fresh`: the index of a repository at rest.
* `index_overtaken`: a slow rebuild publishes over a faster one, and an upload is lost.
-/

namespace Depot

open Lib List
open Option (bind_eq_some_iff)

section

variable {x : IndexExt} {f : IndexFormat} {fuel i : ℕ} {j : IndexJob f} {key : String}

/-! ## Uploads -/

theorem putPackage_triple (u : Upload f) (now : DateTime) : IndexTriple x f fuel i j (Resting i)
      (Fallible.attempt .storage
        (IndexOp.putPackage u.key (normalizePath u.path) (u.record x now)) id)
      (fun _ => OwesFlag i u.key) (Resting i) := by
  refine FTriple.attempt Resting.stable (fun _ => OwesFlag.stable) Resting.stable
    fun w b s r hi hw hrule hx => ?_
  cases b with
  | false =>
    obtain ⟨rfl, rfl⟩ := some_mk_inj hx
    obtain ⟨hinv, hg⟩ := (IndexStep.refl hi.1.1 i).keeps hi
    exact ⟨(), hinv, hg, nofun, fun _ => hw⟩
  | true =>
    obtain ⟨rfl, rfl⟩ := some_mk_inj hx
    have hrule' : ((w.shared.record (normalizePath u.path)).all (f.lists u.key) &&
        f.prefixes.any (hasPrefix · (normalizePath u.path))) = true := hrule
    obtain ⟨hold, hpfx⟩ := Bool.and_eq_true_iff.mp hrule'
    obtain ⟨hinv, hg⟩ := (put_step (i := i) (r := u.record x now) hi.1.1 u.key_eq hw.1
      (clean_normalizePath u.path) hpfx hold).keeps hi
    exact ⟨(), hinv, hg, fun _ _ => ⟨Function.update_self .., hw.2⟩, nofun⟩

theorem setStaleFlag_triple (key : String) :
    IndexTriple x f fuel i j (OwesFlag i key) (setStaleFlag f key) (fun _ => Resting i)
      (Resting i) := by
  refine FTriple.bind Resting.stable (indexNow_triple OwesFlag.stable) fun now => ?_
  refine FTriple.attempt OwesFlag.stable (fun _ => Resting.stable) Resting.stable
    fun w b s r hi hw hrule hx => ?_
  obtain rfl : b = true := hrule
  obtain ⟨rfl, rfl⟩ := some_mk_inj hx
  have hflag : f.keyOf (f.flagRecord now).packageMeta = none := f.keyOf_other
  obtain ⟨hinv, hg⟩ := (setFlag_step hi.1.1 hflag hw.1).keeps hi
  have hreb := (putAbsent_ghosts (s := w.shared) (f.staleSk key) (f.flagRecord now)).1
  have hdone : ∀ key', ((if (w.shared.record (f.staleSk key)).isSome then w.shared
      else w.shared.setRecord (f.staleSk key) (some (f.flagRecord now))).rebuilds key').ticket i ≤
      (w.shared.rebuilds key').finished := fun key' => by
    rw [hreb]
    exact hw.2 key'
  rw [← hreb] at hdone
  exact ⟨(), hinv, hg, fun _ _ => ⟨Function.update_self .., hdone⟩, nofun⟩

/-- An upload sets the flag of the package that it has written. -/
theorem commitPackage_triple (u : Upload f) :
    IndexTriple x f fuel i j (Resting i) (commitPackage x u) (fun _ => Resting i) (Resting i) := by
  have hblob : IndexTriple x f fuel i j (Resting i) storeBlob (fun _ => Resting i) (Resting i) :=
    storeBlob_triple Resting.stable Resting.stable fun _ _ hw => hw
  refine FTriple.bind Resting.stable hblob fun _ => ?_
  refine FTriple.bind Resting.stable (indexNow_triple Resting.stable) fun now => ?_
  refine FTriple.bind Resting.stable hblob fun _ => ?_
  exact FTriple.bind Resting.stable (putPackage_triple u now) fun _ => setStaleFlag_triple u.key

/-! ## Requests -/

theorem resting_pure {α : Type} (a : α) {err : IndexView f → Prop} :
    IndexTriple x f fuel i j (Resting i) (pure a) (fun _ => Resting i) err :=
  fun w hi hw u hu hi' => Resting.stable w u hi hi' hu hw

/-- A request rebuilds an index whose flag is set, or that is missing. -/
theorem fetchMetadata_triple (hn : f.named key = true) (hj : j.isUpload = false) (n : ℕ) :
    IndexTriple x f fuel i j (Resting i) (fetchMetadata x f n key) (fun _ => Resting i)
      (Resting i) := by
  have hread : ∀ path, IndexTriple x f fuel i j (Resting i) (readRecord path)
      (fun _ => Resting i) (Resting i) :=
    lookup_triple Resting.stable Resting.stable fun _ hw => hw
  have hstale : IndexTriple x f fuel i j (Resting i) (Fallible.capture (isMetadataStale f key))
      (fun _ => Resting i) (Resting i) := by
    refine FTriple.capture (fun _ => Resting.stable)
      (FTriple.bind (M := fun _ => Resting i) ?_ ?_ fun _ => resting_pure _)
    · exact fun w w' hi hi' hr hw e => Resting.stable w w' hi hi' hr (hw e)
    · exact (hread _).consequence (fun _ _ hw => hw) (fun _ _ _ hw => hw) fun _ _ hw _ => hw
  refine FTriple.bind Resting.stable hstale fun isStale => ?_
  refine FTriple.when Resting.stable (fun _ => rebuildIndex_triple hn hj n) (fun _ _ _ hw => hw)
    fun _ => ?_
  cases f.required with
  | none => exact resting_pure _
  | some path =>
    refine FTriple.bind Resting.stable (hread path) fun found => ?_
    split_ifs
    · exact FTriple.ignore Resting.stable (rebuildIndex_triple hn hj n)
    · exact resting_pure _

/-- A request that has returned owes nothing. -/
theorem indexRequest_triple (hn : f.named j.key = true) :
    IndexTriple x f fuel i j (Resting i) (j.code x f fuel) (fun _ => Resting i) (Resting i) := by
  cases j with
  | upload u => exact commitPackage_triple u
  | rebuild key => exact rebuildIndex_triple hn rfl fuel
  | fetch key => exact fetchMetadata_triple hn rfl fuel

/-! ## All runs -/

/-- **Soundness.** Every request keeps its part of the protocol. -/
theorem indexLogic_sound (x : IndexExt) (f : IndexFormat) (fuel : ℕ) :
    (indexLogic f).Sound (indexSystem x f fuel) (indexRules f) where
  guar_rely hik _ _ hg := hg _ hik
  spawn w j hi hj := by
    obtain ⟨hinv, hfresh⟩ := hi
    have hlen : (w.jobs ++ [some j]).length = w.jobs.length + 1 := by simp
    have hinv' : (indexLogic f).inv ⟨w.shared, w.jobs ++ [some j], ()⟩ := by
      refine ⟨hinv, fun i hle => hfresh i ?_⟩
      have hle' : (w.jobs ++ [some j]).length ≤ i := hle
      omega
    refine ⟨(), hinv', fun i => IndexRely.refl i w.shared, ?_⟩
    have hcode : Triple (indexSystem x f fuel) (indexRules f) w.jobs.length j
        ((indexLogic f).contract w.jobs.length j) (Resting w.jobs.length)
        ((indexSystem x f fuel).code j) fun _ => Resting w.jobs.length := by
      refine Triple.bind (M := fun _ => Resting w.jobs.length)
        (Triple.weaken_post (indexRequest_triple hj) fun r w _ hw => ?_) fun _ => ?_
      swap
      · exact fun w hi hw u hu hi' => Resting.stable w u hi hi' hu hw
      cases r <;> exact hw
    obtain ⟨hun, hticket⟩ := hfresh w.jobs.length le_rfl
    refine hcode _ ⟨hinv', ?_⟩ ⟨hun, fun key => ?_⟩
    · show (w.jobs ++ [some j])[w.jobs.length]? = some (some j)
      rw [getElem?_append_right le_rfl, Nat.sub_self]
      rfl
    · show (w.shared.rebuilds key).ticket w.jobs.length ≤ _
      rw [hticket]
      exact Nat.zero_le _
  leave w i j hi _ := by
    refine ⟨(), ⟨hi.1, fun k hle => hi.2 k ?_⟩, fun k _ => IndexRely.refl k w.shared⟩
    have hle' : (w.jobs.set i none).length ≤ k := hle
    rwa [length_set] at hle'
  env w d s hi _ hs := by
    obtain rfl := Option.some.inj hs
    have hart : ({ w.shared with now := w.shared.now + d } : IndexState).artifacts =
        w.shared.artifacts := rfl
    have hkeep := fun key => keeps_artifacts (f := f) hart key
    refine ⟨(), ⟨hi.1.keeps rfl rfl hkeep (fun _ hf => hf) fun _ _ howed => .inr howed, hi.2⟩,
      fun k => rely_keeps rfl rfl rfl hkeep⟩

end

/-- A repository at rest: nobody owes anything, every index is stale or describes its
    packages, and its files and packages are where they belong. -/
structure AtRest (f : IndexFormat) (s : IndexState) : Prop where
  changed : ∀ key, s.changed key = false
  unflagged : ∀ i, s.unflagged i = none
  rebuilds : ∀ key, s.rebuilds key = {}
  fresh : ∀ key, f.named key = true → s.flagged f key = true ∨ Describes f s key
  published : ∀ key, f.named key = true → ∀ sk, Published f s key sk →
    ∃ paths, sk ∈ f.commits key paths ∧ ∀ p ∈ paths, (s.package f key p).isSome
  clean : ∀ key sk, (s.package f key sk).isSome →
    CleanPath sk ∧ f.prefixes.any (hasPrefix · sk) = true

theorem AtRest.inv {f : IndexFormat} {s : IndexState} (h : AtRest f s) :
    (indexLogic f).inv ⟨s, [], ()⟩ := by
  refine ⟨⟨fun key => ?_, fun key _ hc => ?_, fun key hn _ _ => h.fresh key hn, h.published,
    h.clean⟩, fun i _ => ⟨h.unflagged i, fun key => ?_⟩⟩
  · rw [show (⟨s, [], ()⟩ : IndexView f).shared.rebuilds key = {} from h.rebuilds key]
    exact Generations.valid_default
  · rw [show (⟨s, [], ()⟩ : IndexView f).shared.changed key = false from h.changed key] at hc
    cases hc
  · rw [show (⟨s, [], ()⟩ : IndexView f).shared.rebuilds key = {} from h.rebuilds key]

/-- No operation is in progress: every request has returned. -/
def AllReturned {f : IndexFormat}
    (p : Pool IndexOp IndexOp.Reply IndexState (IndexJob f)) : Prop :=
  ∀ i < p.threads.length, (p.returned i).isSome = true

variable {s : IndexState}

/-- When all requests have returned, the last rebuild of an index is done and no flag is
    owed. -/
theorem quiet_of_returned {x : IndexExt} {f : IndexFormat} {fuel : ℕ}
    (h0 : AtRest f s) {es : List (Event (IndexJob f) ℕ)}
    {p : Pool IndexOp IndexOp.Reply IndexState (IndexJob f)}
    (h : (Pool.init s).run (indexSystem x f fuel) (indexRules f) es = some p)
    (hall : AllReturned p) : IndexInv f p.shared ∧ (∀ i, p.shared.unflagged i = none) ∧
      ∀ key, (p.shared.rebuilds key).finished = (p.shared.rebuilds key).drawn := by
  obtain ⟨_, hinv, hfresh⟩ := (indexLogic_sound x f fuel).run_inv h0.inv h
  have hrest : ∀ i, p.shared.unflagged i = none ∧
      ∀ key, (p.shared.rebuilds key).ticket i ≤ (p.shared.rebuilds key).finished := by
    intro i
    by_cases hi : i < p.threads.length
    · obtain ⟨j, hj⟩ := Option.isSome_iff_exists.mp (hall i hi)
      obtain ⟨_, hpost⟩ := (indexLogic_sound x f fuel).run_post h0.inv h hj
      exact hpost
    · have hlen : p.jobs.length ≤ i := by
        rw [Pool.jobs, length_map]
        omega
      obtain ⟨hun, hticket⟩ := hfresh i hlen
      refine ⟨hun, fun key => ?_⟩
      have hzero : (p.shared.rebuilds key).ticket i = 0 := hticket key
      omega
  exact ⟨hinv, fun i => (hrest i).1, fun key => (hinv.rebuilds key).finished_eq fun i =>
    (hrest i).2 key⟩

/-- **Freshness.** Whenever all requests have returned and the flag of an index is absent,
    the published index describes exactly the packages that are stored. -/
theorem index_fresh (x : IndexExt) (fmt : PackageFormat) (fuel : ℕ) {s : IndexState}
    (h0 : AtRest (fmt.format x) s) {es : List (Event (IndexJob (fmt.format x)) ℕ)}
    {p : Pool IndexOp IndexOp.Reply IndexState (IndexJob (fmt.format x))}
    (h : (Pool.init s).run (indexSystem x (fmt.format x) fuel) (indexRules (fmt.format x)) es =
      some p)
    (hall : AllReturned p) {key : String} (hn : (fmt.format x).named key = true)
    (hflag : p.shared.flagged (fmt.format x) key = false) :
    Describes (fmt.format x) p.shared key := by
  obtain ⟨hinv, hun, hdone⟩ := quiet_of_returned h0 h hall
  have hunchanged : p.shared.changed key = false := by
    by_contra hc
    rcases hinv.owed key hn (Bool.eq_true_of_not_eq_false hc) with hf | ⟨i, hi⟩
    · rw [hflag] at hf
      cases hf
    · rw [hun i] at hi
      cases hi
  rcases hinv.fresh key hn (hdone key) hunchanged with hf | hd
  · rw [hflag] at hf
    cases hf
  · exact hd

/-! ## An upload that is lost -/

theorem IndexExt.sample_rfc3339 (now now' : DateTime) :
    IndexExt.sample.rfc3339 now = IndexExt.sample.rfc3339 now' := rfl

/-- A repository without records. -/
theorem atRest_empty (f : IndexFormat) : AtRest f {} where
  changed _ := rfl
  unflagged _ := rfl
  rebuilds _ := rfl
  fresh key _ := by
    refine .inr ⟨0, [], ⟨nodup_nil, fun e => ?_⟩, .inl ⟨rfl, fun sk hp => ?_⟩⟩
    · refine ⟨fun he => absurd he not_mem_nil, fun he => ?_⟩
      cases (package_eq_some.mp he).1
    · obtain ⟨-, r, hr, -⟩ := hp
      cases hr
  published _ _ _ hp := by
    obtain ⟨-, r, hr, -⟩ := hp
    cases hr
  clean _ _ hp := by cases hp

/-- The repository of the examples. -/
abbrev chartFormat : IndexFormat := PackageFormat.helm.format .sample

/-- The upload of a chart. -/
def chartUpload : Upload chartFormat :=
  helmUpload .sample { name := "app", version := "1.0.0" } [1, 2, 3]

section

variable (rules : Rules IndexOp IndexState (IndexJob chartFormat) ℕ)

/-- What task `i` does by itself. -/
def chartSolo {α : Type} (i : ℕ) (j : IndexJob chartFormat) (q : IndexTask α) (s : IndexState) :
    Option (IndexState × Except DepotError α) :=
  q.run.solo ((indexSystem .sample chartFormat 2).admitted rules i j) s

def chartScan : IndexTask (List (String × StoredRecord)) :=
  Fallible.fold (fun found skPrefix => do
    let part ← foldArtifacts 2 (chartFormat.lists "") skPrefix
    pure (found ++ part)) chartFormat.prefixes []

/-- The rest of the rebuild. -/
def chartPublish (pkgs : List (String × StoredRecord)) : IndexTask Unit := do
  let now ← indexNow
  let date ← releaseDate chartFormat now
  Fallible.each (storeIndexFile .sample chartFormat "" now) (chartFormat.plan "" date pkgs)
  Fallible.issue (IndexOp.endRebuild "")

/-- A rebuild scans the empty repository, and a chart is uploaded. -/
def overlap : Option (IndexState × List (String × StoredRecord)) := do
  match ← chartSolo rules 0 (.rebuild "") (clearStaleFlag chartFormat "") {} with
  | (_, .error _) => none
  | (cleared, .ok _) =>
    match ← chartSolo rules 0 (.rebuild "") chartScan cleared with
    | (_, .error _) => none
    | (scanned, .ok pkgs) =>
      let uploaded ← chartSolo rules 1 (.upload chartUpload)
        ((IndexJob.upload chartUpload).code .sample chartFormat 2) scanned
      some (uploaded.1, pkgs)

/-- A request finds the flag and rebuilds the index; then the first rebuild publishes the empty
    index that it has made. -/
def overtaken : Option IndexState := do
  let (uploaded, pkgs) ← overlap rules
  let fetched ← chartSolo rules 2 (.fetch "")
    ((IndexJob.fetch (f := chartFormat) "").code .sample chartFormat 2) uploaded
  let published ← chartSolo rules 0 (.rebuild "") (chartPublish pkgs) fetched.1
  some published.1

/-- The first rebuild publishes before the request. -/
def inOrder : Option IndexState := do
  let (uploaded, pkgs) ← overlap rules
  let published ← chartSolo rules 0 (.rebuild "") (chartPublish pkgs) uploaded
  let fetched ← chartSolo rules 2 (.fetch "")
    ((IndexJob.fetch (f := chartFormat) "").code .sample chartFormat 2) published.1
  some fetched.1

end

/-- The repository when the requests have returned. -/
abbrev chartPool (s : IndexState) : Pool IndexOp IndexOp.Reply IndexState (IndexJob chartFormat) :=
  ⟨s, [some (.rebuild "", .pure ()), some (.upload chartUpload, .pure ()),
    some (.fetch "", .pure ())]⟩

theorem chartPool_returned (s : IndexState) : AllReturned (chartPool s) := by
  intro i hi
  have hlt : i < 3 := hi
  match i, hlt with
  | 0, _ => rfl
  | 1, _ => rfl
  | 2, _ => rfl

variable {pkgs : List (String × StoredRecord)}

section

variable {rules : Rules IndexOp IndexState (IndexJob chartFormat) ℕ}

/-- What the first rebuild still has to do. -/
abbrev publishing (pkgs : List (String × StoredRecord)) : Prog IndexOp IndexOp.Reply Unit :=
  (chartPublish pkgs).run.flatten.bind fun _ => .pure ()

variable {s : IndexState}

variable (hspawn : ∀ s js j, j.key = "" → rules.spawn s js j = true)

include hspawn

theorem overlap_run (h : overlap rules = some (s, pkgs)) :
    ∃ es, (Pool.init {}).run (indexSystem .sample chartFormat 2) rules es =
      some ⟨s, [some (.rebuild "", publishing pkgs), some (.upload chartUpload, .pure ())]⟩ := by
  obtain ⟨⟨cleared, r⟩, hclear, h⟩ := bind_eq_some_iff.mp h
  cases r with
  | error e => cases h
  | ok u =>
    obtain ⟨⟨scanned, r⟩, hscan, h⟩ := bind_eq_some_iff.mp h
    cases r with
    | error e => cases h
    | ok pkgs' =>
      obtain ⟨⟨uploaded, r⟩, hupload, h⟩ := bind_eq_some_iff.mp h
      obtain ⟨rfl, rfl⟩ := some_mk_inj h
      refine Pool.run_then ⟨_, Pool.run_start (q := rebuildIndex .sample chartFormat 2 "") rfl
        (hspawn _ _ (.rebuild "") rfl)⟩ ?_
      refine Pool.run_then (Pool.run_solo_bind rfl hclear) ?_
      refine Pool.run_then (Pool.run_solo_bind rfl hscan) ?_
      exact Pool.run_call rfl (hspawn _ _ _ rfl) hupload

theorem overtaken_run (h : overtaken rules = some s) : ∃ es,
      (Pool.init {}).run (indexSystem .sample chartFormat 2) rules es = some (chartPool s) := by
  obtain ⟨⟨uploaded, pkgs⟩, hover, h⟩ := bind_eq_some_iff.mp h
  obtain ⟨⟨fetched, r⟩, hfetch, h⟩ := bind_eq_some_iff.mp h
  obtain ⟨⟨published, r'⟩, hpub, h⟩ := bind_eq_some_iff.mp h
  obtain rfl := Option.some.inj h
  refine Pool.run_then (overlap_run hspawn hover) ?_
  refine Pool.run_then (Pool.run_call rfl (hspawn _ _ _ rfl) hfetch) ?_
  exact Pool.run_then (Pool.run_solo rfl hpub) ⟨[], rfl⟩

theorem inOrder_run (h : inOrder rules = some s) : ∃ es,
      (Pool.init {}).run (indexSystem .sample chartFormat 2) rules es = some (chartPool s) := by
  obtain ⟨⟨uploaded, pkgs⟩, hover, h⟩ := bind_eq_some_iff.mp h
  obtain ⟨⟨published, r'⟩, hpub, h⟩ := bind_eq_some_iff.mp h
  obtain ⟨⟨fetched, r⟩, hfetch, h⟩ := bind_eq_some_iff.mp h
  obtain rfl := Option.some.inj h
  refine Pool.run_then (overlap_run hspawn hover) ?_
  refine Pool.run_then (Pool.run_solo rfl hpub) ?_
  exact Pool.run_call rfl (hspawn _ _ _ rfl) hfetch

end

/-- The chart as it is stored. -/
def storedChart : String × StoredRecord :=
  (normalizePath chartUpload.path, chartUpload.record .sample 0)

/-- The index without charts. -/
def emptyIndex : Bytes := utf8 (helmIndexText .sample 0 [])

variable {e : String × StoredRecord}

/-- The packages of a repository with one package. -/
theorem Lists.singleton {f : IndexFormat} {key : String}
    (h : Lists f s key pkgs)
    (he : s.artifacts.entries.filter (fun e => f.lists key e.2) = [e]) : pkgs = [e] := by
  have hmem : ∀ e', e' ∈ pkgs ↔ e' ∈ [e] := fun e' => by
    rw [h.mem, ← he, mem_filter, package_eq_some, IndexFormat.lists, decide_eq_true_eq]
    exact and_congr_left fun _ => SortedMap.mem_entries_iff.symm
  have hnodup : pkgs.Nodup := Nodup.of_map Prod.fst h.nodup
  exact perm_singleton.mp ((perm_ext_iff_of_nodup hnodup (nodup_singleton e)).mpr hmem)

/-- An index with another text than that of the only chart. -/
theorem helm_not_described {x : IndexExt} {data : Bytes}
    (he : s.artifacts.entries.filter (fun e => (helmFormat x).lists "" e.2) = [e])
    (hfile : s.file (normalizePath helmIndexPath) = some data)
    (hdata : ∀ now, data ≠ utf8 (helmIndexText x now [e])) : ¬ Describes (helmFormat x) s "" := by
  rintro ⟨now, pkgs, hlists, hfiles⟩
  rw [hlists.singleton he] at hfiles
  rcases hfiles with ⟨hnil, -⟩ | ⟨-, hplan⟩
  · cases hnil
  · have hindex := hplan _ (mem_singleton_self _)
    rw [IndexWrite.sk, hfile] at hindex
    exact hdata now (Option.some.inj hindex)

theorem helmIndexText_congr {x : IndexExt} {now now' : DateTime}
    (h : x.rfc3339 now = x.rfc3339 now') (pkgs : List (String × StoredRecord)) :
    helmIndexText x now pkgs = helmIndexText x now' pkgs := by
  rw [helmIndexText, helmIndexText, h]

/-- **Counterexample.** A rebuild that has scanned the repository before an upload publishes
    its index after a faster one that has consumed the flag of the upload: all requests have
    returned, no flag is set, and the index does not list the chart. -/
theorem index_overtaken : AtRest chartFormat {} ∧
    ∃ es p, (Pool.init {}).run (indexSystem .sample chartFormat 2) .free es = some p ∧
      AllReturned p ∧ chartFormat.named "" = true ∧ p.shared.flagged chartFormat "" = false ∧
      ¬ Describes chartFormat p.shared "" := by
  have hsolo : ((overtaken .free).any fun s => decide (s.flagged chartFormat "" = false ∧
      s.artifacts.entries.filter (fun e => chartFormat.lists "" e.2) = [storedChart] ∧
      s.file (normalizePath helmIndexPath) = some emptyIndex)) = true := by decide +kernel
  have htexts : emptyIndex ≠ utf8 (helmIndexText .sample 0 [storedChart]) := by decide +kernel
  obtain ⟨s, hs, hd⟩ := (Option.any_eq_true _ _).mp hsolo
  obtain ⟨hflag, hchart, hindex⟩ := of_decide_eq_true hd
  obtain ⟨es, hrun⟩ := overtaken_run (fun _ _ _ _ => rfl) hs
  refine ⟨atRest_empty chartFormat, es, chartPool s, hrun, chartPool_returned s, by decide,
    hflag, ?_⟩
  refine helm_not_described hchart hindex fun now => ?_
  rw [helmIndexText_congr (IndexExt.sample_rfc3339 now 0)]
  exact htexts

/-- Two rebuilds and an upload that overlap, in the order of their publications. -/
theorem index_fresh_in_order :
    ∃ es p, (Pool.init {}).run (indexSystem .sample chartFormat 2) (indexRules chartFormat) es =
        some p ∧
      (p.shared.record (normalizePath chartUpload.path)).isSome = true ∧
      Describes chartFormat p.shared "" := by
  have hsolo : ((inOrder (indexRules chartFormat)).any fun s =>
      decide (s.flagged chartFormat "" = false ∧
        (s.record (normalizePath chartUpload.path)).isSome = true)) = true := by decide +kernel
  obtain ⟨s, hs, hd⟩ := (Option.any_eq_true _ _).mp hsolo
  obtain ⟨hflag, hchart⟩ := of_decide_eq_true hd
  have hspawn : ∀ s js (j : IndexJob chartFormat), j.key = "" →
      (indexRules chartFormat).spawn s js j = true := fun _ _ _ hkey => decide_eq_true hkey
  obtain ⟨es, hrun⟩ := inOrder_run hspawn hs
  exact ⟨es, chartPool s, hrun, hchart, index_fresh .sample .helm 2 (atRest_empty _) hrun
    (chartPool_returned s) (by decide) hflag⟩

end Depot
