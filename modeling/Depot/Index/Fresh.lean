import Depot.Index.Store

/-!
# What the published index says

When the files of an index describe the packages that are stored, the invariant of a
repository whose index is rebuilt while packages are uploaded, and what each operation
does to it.

Results:
* `Describes`: the index lists exactly the packages.
* `IndexInv`: a flag is owed for every change, and the last rebuild has described what was
  there when it began.
* `put_step`, `setFlag_step`, `clearFlag_step`, `putFile_step`, `publish_step`, `end_step`:
  what each operation preserves, and what it leaves to the other tasks.
-/

namespace Depot

open Lib
open Option (some.inj)
open Function (update_of_ne update_self)
open Generations (Rely draw_drawn rely_draw)

section

variable (f : IndexFormat)

/-! ## The index and the packages -/

/-- The package at a key, if the index lists it. -/
def IndexState.package (s : IndexState) (key sk : String) : Option StoredRecord :=
  (s.record sk).filter (f.lists key)

/-- There is a file at a key that a rebuild of the index may write over. -/
def Published (s : IndexState) (key sk : String) : Prop :=
  (∃ paths, sk ∈ f.commits key paths) ∧
    ∃ r, s.record sk = some r ∧ f.keyOf r.packageMeta = none

/-- A list of the packages of an index, in any order. -/
structure Lists (s : IndexState) (key : String) (pkgs : List (String × StoredRecord)) : Prop where
  nodup : (pkgs.map Prod.fst).Nodup
  mem : ∀ e, e ∈ pkgs ↔ s.package f key e.1 = some e.2

/-- The published index describes exactly the packages that are stored: its files are those
    written for them, and none is left that was written for a group without a package. Where
    there is no package there may be no index. -/
def Describes (s : IndexState) (key : String) : Prop :=
  ∃ now pkgs, Lists f s key pkgs ∧
    (pkgs = [] ∧ (∀ sk, ¬ Published f s key sk) ∨
      (∀ sk, Published f s key sk → sk ∈ f.commits key (pkgs.map Prod.fst)) ∧
        ∀ w ∈ f.plan key now pkgs, s.file w.sk = some w.data)

/-- The index has the same packages to list. -/
def SamePackages (key : String) (s s' : IndexState) : Prop :=
  ∀ sk, s'.package f key sk = s.package f key sk

/-- No file of an index has appeared and none has changed. -/
structure KeepsFiles (key : String) (s s' : IndexState) : Prop where
  published : ∀ sk, Published f s' key sk → Published f s key sk
  file : ∀ now pkgs, ∀ w ∈ f.plan key now pkgs,
    s.file w.sk = some w.data → s'.file w.sk = some w.data

/-- There is no package at the key. -/
def NoPackage (s : IndexState) (sk : String) : Prop :=
  ∀ r, s.record sk = some r → f.keyOf r.packageMeta = none

end

section

variable {f : IndexFormat} {s s' s'' : IndexState} {key : String}

variable {sk : String}

theorem package_eq_some {r : StoredRecord} :
    s.package f key sk = some r ↔ s.record sk = some r ∧ f.keyOf r.packageMeta = some key := by
  rw [IndexState.package, Option.filter_eq_some_iff]
  simp [IndexFormat.lists]

/-- A package belongs to one index. -/
theorem package_unique {key' : String} (h : (s.package f key sk).isSome)
    (h' : (s.package f key' sk).isSome) : key = key' := by
  obtain ⟨r, hr⟩ := Option.isSome_iff_exists.mp h
  obtain ⟨r', hr'⟩ := Option.isSome_iff_exists.mp h'
  obtain ⟨hrec, hkey⟩ := package_eq_some.mp hr
  obtain ⟨hrec', hkey'⟩ := package_eq_some.mp hr'
  rw [hrec] at hrec'
  obtain rfl := some.inj hrec'
  exact some.inj (hkey.symm.trans hkey')

/-- An index file is no package. -/
theorem file_not_package {d : Bytes} (h : s.file sk = some d) : s.package f key sk = none := by
  obtain ⟨r, hr, hd⟩ := Option.bind_eq_some_iff.mp h
  have hother : r.packageMeta = .other := by
    unfold StoredRecord.file? at hd
    split at hd
    · assumption
    · cases hd
  rw [IndexState.package, hr, Option.filter_eq_none_iff]
  rintro r' ⟨⟩ hlists
  rw [IndexFormat.lists, hother, f.keyOf_other] at hlists
  cases of_decide_eq_true hlists

theorem KeepsFiles.refl (key : String) (s : IndexState) : KeepsFiles f key s s where
  published _ h := h
  file _ _ _ _ h := h

theorem KeepsFiles.trans (h : KeepsFiles f key s s') (h' : KeepsFiles f key s' s'') :
    KeepsFiles f key s s'' where
  published sk hp := h.published sk (h'.published sk hp)
  file now pkgs w hw hd := h'.file now pkgs w hw (h.file now pkgs w hw hd)

theorem Lists.keep {pkgs : List (String × StoredRecord)} (h : Lists f s key pkgs)
    (hpkg : SamePackages f key s s') : Lists f s' key pkgs where
  nodup := h.nodup
  mem e := by rw [hpkg, h.mem]

theorem Describes.keep (h : Describes f s key) (hpkg : SamePackages f key s s')
    (hk : KeepsFiles f key s s') : Describes f s' key := by
  obtain ⟨now, pkgs, hlists, hfiles⟩ := h
  refine ⟨now, pkgs, hlists.keep hpkg, hfiles.imp ?_ ?_⟩
  · exact fun ⟨hnil, hnone⟩ => ⟨hnil, fun sk hp => hnone sk (hk.published sk hp)⟩
  · exact fun ⟨hin, hdata⟩ => ⟨fun sk hp => hin sk (hk.published sk hp),
      fun w hw => hk.file now pkgs w hw (hdata w hw)⟩

/-! ## One record -/

theorem package_congr (h : s'.record sk = s.record sk) :
    s'.package f key sk = s.package f key sk := by
  rw [IndexState.package, IndexState.package, h]

theorem file_congr (h : s'.record sk = s.record sk) : s'.file sk = s.file sk := by
  rw [IndexState.file, IndexState.file, h]

theorem NoPackage.package (h : NoPackage f s sk) (key : String) : s.package f key sk = none := by
  refine Option.eq_none_iff_forall_ne_some.mpr fun r hr => ?_
  obtain ⟨hrec, hkey⟩ := package_eq_some.mp hr
  rw [h r hrec] at hkey
  cases hkey

/-- A record that neither was nor becomes a package. -/
theorem samePackages_record {k : String} (hsame : ∀ sk ≠ k, s'.record sk = s.record sk)
    (h : s'.package f key k = s.package f key k) : SamePackages f key s s' := by
  intro sk
  by_cases hsk : sk = k
  · rw [hsk, h]
  · exact package_congr (hsame sk hsk)

/-- A record that is no file of the index. -/
theorem keepsFiles_record {k : String} (hsame : ∀ sk ≠ k, s'.record sk = s.record sk)
    (hpub : Published f s' key k → Published f s key k)
    (hfile : ∀ now pkgs, ∀ w ∈ f.plan key now pkgs, w.sk = k →
      s.file k = some w.data → s'.file k = some w.data) : KeepsFiles f key s s' where
  published sk hp := by
    by_cases hsk : sk = k
    · rw [hsk] at hp ⊢
      exact hpub hp
    · obtain ⟨hcommit, r, hr, hnone⟩ := hp
      exact ⟨hcommit, r, (hsame sk hsk).symm.trans hr, hnone⟩
  file now pkgs w hw hd := by
    by_cases hsk : w.sk = k
    · rw [hsk] at hd ⊢
      exact hfile now pkgs w hw hsk hd
    · rw [file_congr (hsame w.sk hsk)]
      exact hd

/-- The keys of the files that publish an index. -/
theorem mem_commits_iff : (∃ paths, sk ∈ f.commits key paths) ↔
    ∃ now pkgs, ∃ w ∈ f.plan key now pkgs, w.commit = true ∧ w.sk = sk := by
  constructor
  · rintro ⟨paths, hsk⟩
    have hmap : (paths.map fun p => (p, (⟨recordAt 0 0 "" .raw false none, .other, none⟩ :
        StoredRecord))).map Prod.fst = paths := by
      rw [List.map_map]
      exact List.map_id _
    rw [← hmap] at hsk
    exact ⟨0, _, f.mem_commits.mp hsk⟩
  · rintro ⟨now, pkgs, hw⟩
    exact ⟨_, f.mem_commits.mpr hw⟩

/-- The index depends on nothing but the records. -/
theorem keeps_artifacts (h : s'.artifacts = s.artifacts) (key : String) :
    SamePackages f key s s' ∧ KeepsFiles f key s s' := by
  have hrec : ∀ sk, s'.record sk = s.record sk := fun sk => congrArg (·.get sk) h
  refine ⟨fun sk => package_congr (hrec sk), ⟨fun sk hp => ?_, fun now pkgs w hw hd => ?_⟩⟩
  · obtain ⟨hcommit, r, hr, hnone⟩ := hp
    exact ⟨hcommit, r, (hrec sk).symm.trans hr, hnone⟩
  · exact (file_congr (hrec w.sk)).trans hd

variable {key' : String}

theorem keeps_flag (hsame : ∀ sk ≠ f.staleSk key', s'.record sk = s.record sk)
    (hold : NoPackage f s (f.staleSk key')) (hnew : NoPackage f s' (f.staleSk key'))
    (key : String) : SamePackages f key s s' ∧ KeepsFiles f key s s' := by
  refine ⟨samePackages_record hsame ?_, keepsFiles_record hsame ?_ ?_⟩
  · rw [hold.package, hnew.package]
  · rintro ⟨hcommit, -⟩
    obtain ⟨now, pkgs, w, hw, -, hsk⟩ := mem_commits_iff.mp hcommit
    exact absurd hsk (f.stale_ne hw)
  · intro now pkgs w hw hsk
    exact absurd hsk (f.stale_ne hw)

/-- A package over none or over one of the same index. -/
theorem keeps_put {k : String} {r : StoredRecord}
    (hsame : ∀ sk ≠ k, s'.record sk = s.record sk) (hr : s'.record k = some r)
    (hkey : f.keyOf r.packageMeta = some key')
    (hold : s.record k = none ∨ (s.package f key' k).isSome) (key : String) :
    (key ≠ key' → SamePackages f key s s') ∧ KeepsFiles f key s s' := by
  refine ⟨fun hne => samePackages_record hsame ?_, keepsFiles_record hsame ?_ ?_⟩
  · have hnew : s'.package f key k = none := by
      refine Option.eq_none_iff_forall_ne_some.mpr fun r' hr' => ?_
      obtain ⟨hrec, hkey'⟩ := package_eq_some.mp hr'
      rw [hr] at hrec
      obtain rfl := some.inj hrec
      rw [hkey] at hkey'
      exact hne (some.inj hkey').symm
    rw [hnew]
    rcases hold with hnone | hsome
    · rw [IndexState.package, hnone]
      rfl
    · by_contra hpkg
      exact hne (package_unique (Option.isSome_iff_ne_none.mpr (Ne.symm hpkg)) hsome)
  · rintro ⟨-, r', hr', hnone⟩
    rw [hr] at hr'
    obtain rfl := some.inj hr'
    rw [hkey] at hnone
    cases hnone
  · intro now pkgs w hw _ hd
    rcases hold with hnone | hsome
    · rw [IndexState.file, hnone] at hd
      cases hd
    · rw [file_not_package hd] at hsome
      cases hsome

variable {pkgs' : List (String × StoredRecord)}

/-- A file under its hash where there was nothing. -/
theorem keeps_putFile {now' : DateTime}
    {w' : IndexWrite} (hw' : w' ∈ f.plan key' now' pkgs') (hc : w'.commit = false)
    (hsame : ∀ sk ≠ w'.sk, s'.record sk = s.record sk) (hold : s.record w'.sk = none)
    (hnew : NoPackage f s' w'.sk) (key : String) :
    SamePackages f key s s' ∧ KeepsFiles f key s s' := by
  refine ⟨samePackages_record hsame ?_, keepsFiles_record hsame ?_ ?_⟩
  · rw [hnew.package, IndexState.package, hold]
    rfl
  · rintro ⟨hcommit, -⟩
    obtain ⟨now, pkgs, w, hw, hwc, hsk⟩ := mem_commits_iff.mp hcommit
    exact absurd hsk.symm (f.file_ne_commit hw' hw hc hwc)
  · intro now pkgs w hw _ hd
    rw [IndexState.file, hold] at hd
    cases hd

/-- The file that publishes an index: the packages stay, and so do the files of the other
    indexes and those under their hashes. -/
theorem keeps_publish {now' : DateTime}
    {w' : IndexWrite} (hn' : f.named key' = true) (hw' : w' ∈ f.plan key' now' pkgs')
    (hc : w'.commit = true) (hsame : ∀ sk ≠ w'.sk, s'.record sk = s.record sk)
    (hold : NoPackage f s w'.sk) (hnew : NoPackage f s' w'.sk) (key : String)
    (hn : f.named key = true) : SamePackages f key s s' ∧ (key ≠ key' → KeepsFiles f key s s') ∧
      ∀ now pkgs, ∀ w ∈ f.plan key now pkgs, w.commit = false →
        s.file w.sk = some w.data → s'.file w.sk = some w.data := by
  refine ⟨samePackages_record hsame ?_, fun hne => keepsFiles_record hsame ?_ ?_, ?_⟩
  · rw [hold.package, hnew.package]
  · rintro ⟨hcommit, -⟩
    obtain ⟨now, pkgs, w, hw, hwc, hsk⟩ := mem_commits_iff.mp hcommit
    exact absurd (f.commit_key hn hn' hw hw' hwc hc hsk) hne
  · intro now pkgs w hw hsk _
    cases hwc : w.commit with
    | true => exact absurd (f.commit_key hn hn' hw hw' hwc hc hsk) hne
    | false => exact absurd hsk (f.file_ne_commit hw hw' hwc hc)
  · intro now pkgs w hw hwc hd
    rw [file_congr (hsame w.sk (f.file_ne_commit hw hw' hwc hc))]
    exact hd

end

/-! ## The invariant -/

section

variable (f : IndexFormat)

/-- The flag of an index is set. -/
def IndexState.flagged (s : IndexState) (key : String) : Bool := (s.record (f.staleSk key)).isSome

/-- The numbers of the rebuilds are in order. A package that was written since the flag was
    cleared has set it again, or is about to. If the last rebuild is done and nothing was
    written since it began, the index is described. The files that publish an index belong
    to packages, and the packages lie where rebuilds look for them. -/
structure IndexInv (s : IndexState) : Prop where
  rebuilds : ∀ key, (s.rebuilds key).Valid
  owed : ∀ key, f.named key = true → s.changed key = true →
    s.flagged f key = true ∨ ∃ i, s.unflagged i = some key
  fresh : ∀ key, f.named key = true → (s.rebuilds key).finished = (s.rebuilds key).drawn →
    s.changed key = false → s.flagged f key = true ∨ Describes f s key
  published : ∀ key, f.named key = true → ∀ sk, Published f s key sk →
    ∃ paths, sk ∈ f.commits key paths ∧ ∀ p ∈ paths, (s.package f key p).isSome
  clean : ∀ key sk, (s.package f key sk).isSome →
    CleanPath sk ∧ f.prefixes.any (hasPrefix · sk) = true

/-- What the other tasks leave to task `i`: what it has noted; the packages, as long as
    nothing was written since the last clear; and the files under their hashes, or all files
    it has published as the last one. -/
structure IndexRely (i : ℕ) (s s' : IndexState) : Prop where
  rebuilds : ∀ key, (s.rebuilds key).Rely i (s'.rebuilds key)
  unflagged : s'.unflagged i = s.unflagged i
  unchanged : ∀ key, f.named key = true → (s'.rebuilds key).drawn = (s.rebuilds key).drawn →
    s'.changed key = false → s.changed key = false ∧ SamePackages f key s s'
  stays : ∀ key, f.named key = true → ∀ sk, (s.package f key sk).isSome →
    (s'.package f key sk).isSome
  hashed : ∀ key, f.named key = true → ∀ now pkgs, ∀ w ∈ f.plan key now pkgs,
    w.commit = false → s.file w.sk = some w.data → s'.file w.sk = some w.data
  held : ∀ key, f.named key = true → (s.rebuilds key).ticket i ≠ 0 →
    (s'.rebuilds key).drawn = (s.rebuilds key).drawn →
    (s.rebuilds key).drawn = (s.rebuilds key).ticket i →
    (s.rebuilds key).published = (s.rebuilds key).ticket i →
    (s'.rebuilds key).published = (s.rebuilds key).ticket i ∧
      ∀ now pkgs, ∀ w ∈ f.plan key now pkgs, s.file w.sk = some w.data → s'.file w.sk = some w.data

end

section

variable {f : IndexFormat} {s s' s'' : IndexState} {i k : ℕ} {key : String}

theorem IndexRely.refl (i : ℕ) (s : IndexState) : IndexRely f i s s where
  rebuilds _ := Rely.refl _ _
  unflagged := rfl
  unchanged _ _ _ h := ⟨h, fun _ => rfl⟩
  stays _ _ _ h := h
  hashed _ _ _ _ _ _ _ h := h
  held _ _ _ _ _ h := ⟨h, fun _ _ _ _ hd => hd⟩

theorem IndexRely.trans (h : IndexRely f i s s') (h' : IndexRely f i s' s'') :
    IndexRely f i s s'' where
  rebuilds key := (h.rebuilds key).trans (h'.rebuilds key)
  unflagged := h'.unflagged.trans h.unflagged
  unchanged key hn hd hc := by
    have hle := (h.rebuilds key).drawn
    have hle' := (h'.rebuilds key).drawn
    obtain ⟨hc', hsame'⟩ := h'.unchanged key hn (by omega) hc
    obtain ⟨hc'', hsame⟩ := h.unchanged key hn (by omega) hc'
    exact ⟨hc'', fun sk => (hsame' sk).trans (hsame sk)⟩
  stays key hn sk hp := h'.stays key hn sk (h.stays key hn sk hp)
  hashed key hn now pkgs w hw hc hd :=
    h'.hashed key hn now pkgs w hw hc (h.hashed key hn now pkgs w hw hc hd)
  held key hn hne hd hlast hpub := by
    have hle := (h.rebuilds key).drawn
    have hle' := (h'.rebuilds key).drawn
    have hticket := (h.rebuilds key).ticket
    obtain ⟨hp, hfile⟩ := h.held key hn hne (by omega) hlast hpub
    have hheld := h'.held key hn
    rw [hticket] at hheld
    obtain ⟨hp', hfile'⟩ := hheld hne (by omega) (by omega) hp
    exact ⟨hp', fun now pkgs w hw hdata => hfile' now pkgs w hw (hfile now pkgs w hw hdata)⟩

/-- A step that only concerns the records, and keeps every index. -/
theorem rely_keeps (hreb : s'.rebuilds = s.rebuilds) (hun : s'.unflagged k = s.unflagged k)
    (hch : s'.changed = s.changed)
    (hk : ∀ key, SamePackages f key s s' ∧ KeepsFiles f key s s') : IndexRely f k s s' where
  rebuilds key := by
    rw [hreb]
    exact Rely.refl _ _
  unflagged := hun
  unchanged key _ _ hc := ⟨by rw [← hch]; exact hc, (hk key).1⟩
  stays key _ sk hp := by
    rw [(hk key).1]
    exact hp
  hashed key _ now pkgs w hw _ hd := (hk key).2.file now pkgs w hw hd
  held key _ _ _ _ hpub := by
    rw [hreb]
    exact ⟨hpub, (hk key).2.file⟩

/-- What such a step keeps of the invariant. -/
theorem IndexInv.keeps (h : IndexInv f s) (hreb : s'.rebuilds = s.rebuilds)
    (hch : s'.changed = s.changed)
    (hk : ∀ key, SamePackages f key s s' ∧ KeepsFiles f key s s')
    (hflag : ∀ key, s.flagged f key = true → s'.flagged f key = true)
    (howed : ∀ key, f.named key = true → (∃ i, s.unflagged i = some key) →
      s'.flagged f key = true ∨ ∃ i, s'.unflagged i = some key) : IndexInv f s' where
  rebuilds key := by
    rw [hreb]
    exact h.rebuilds key
  owed key hn hc := by
    rw [hch] at hc
    exact (h.owed key hn hc).elim (fun hf => .inl (hflag key hf)) (howed key hn)
  fresh key hn hf hc := by
    rw [hreb] at hf
    rw [hch] at hc
    exact (h.fresh key hn hf hc).imp (hflag key) fun hd => hd.keep (hk key).1 (hk key).2
  published key hn sk hp := by
    obtain ⟨paths, hsk, hpaths⟩ := h.published key hn sk ((hk key).2.published sk hp)
    refine ⟨paths, hsk, fun p hp => ?_⟩
    rw [(hk key).1]
    exact hpaths p hp
  clean key sk hp := by
    rw [(hk key).1] at hp
    exact h.clean key sk hp

/-! ## The operations -/

/-- What a step of task `i` has to preserve, and to leave to the others. -/
def IndexStep (f : IndexFormat) (i : ℕ) (s s' : IndexState) : Prop :=
  IndexInv f s' ∧ ∀ k ≠ i, IndexRely f k s s'

theorem IndexStep.refl (h : IndexInv f s) (i : ℕ) : IndexStep f i s s :=
  ⟨h, fun k _ => IndexRely.refl k s⟩

theorem record_setRecord_ne (s : IndexState) {k sk : String} (r : Option StoredRecord)
    (h : sk ≠ k) : (s.setRecord k r).record sk = s.record sk := by
  rw [IndexState.record_setRecord, if_neg h]

theorem record_setRecord_self (s : IndexState) (k : String) (r : Option StoredRecord) :
    (s.setRecord k r).record k = r := by
  rw [IndexState.record_setRecord, if_pos rfl]

/-- A record that is put does not take a flag away. -/
theorem flagged_setRecord (k : String) (r : StoredRecord) (h : s.flagged f key = true) :
    (s.setRecord k (some r)).flagged f key = true := by
  rw [IndexState.flagged, IndexState.record_setRecord]
  split_ifs
  · rfl
  · exact h

theorem noteFlag_unflagged (hki : k ≠ i) : (s.noteFlag i).unflagged k = s.unflagged k :=
  update_of_ne hki _ _

theorem noteChange_unflagged (hki : k ≠ i) :
    (s.noteChange i key).unflagged k = s.unflagged k := update_of_ne hki _ _

theorem noteChange_changed {key' : String} (h : (s.noteChange i key').changed key = false) :
    key ≠ key' ∧ s.changed key = false := by
  rw [IndexState.noteChange] at h
  dsimp only at h
  rw [Function.update_apply] at h
  split_ifs at h with hk
  exact ⟨hk, h⟩

variable {r : StoredRecord}

/-- A package is written. -/
theorem put_step (h : IndexInv f s) {sk : String}
    (hkey : f.keyOf r.packageMeta = some key) (hun : s.unflagged i = none)
    (hclean : CleanPath sk) (hpfx : f.prefixes.any (hasPrefix · sk) = true)
    (hold : (s.record sk).all (f.lists key) = true) :
    IndexStep f i s ((s.setRecord sk (some r)).noteChange i key) := by
  set s' := (s.setRecord sk (some r)).noteChange i key
  have hsame : ∀ sk' ≠ sk, s'.record sk' = s.record sk' :=
    fun sk' hne => record_setRecord_ne s _ hne
  have hr : s'.record sk = some r := record_setRecord_self s sk _
  have hold' : s.record sk = none ∨ (s.package f key sk).isSome := by
    rw [IndexState.package]
    cases hrec : s.record sk with
    | none => exact .inl rfl
    | some r0 =>
      rw [hrec] at hold
      have hlist : f.lists key r0 = true := hold
      right
      rw [Option.filter_some, if_pos hlist]
      rfl
  have hkeep := fun key' => keeps_put hsame hr hkey hold' key'
  have hput : (s'.package f key sk).isSome := by
    rw [package_eq_some.mpr ⟨hr, hkey⟩]
    rfl
  have hstays : ∀ key' sk', (s.package f key' sk').isSome → (s'.package f key' sk').isSome := by
    intro key' sk' hp
    by_cases hk : key' = key
    · by_cases hsk : sk' = sk
      · rw [hk, hsk]
        exact hput
      · rw [package_congr (hsame sk' hsk)]
        exact hp
    · rw [(hkeep key').1 hk sk']
      exact hp
  have hflag : ∀ key', s.flagged f key' = true → s'.flagged f key' = true :=
    fun key' hf => flagged_setRecord sk r hf
  refine ⟨⟨h.rebuilds, ?_, ?_, ?_, ?_⟩, fun k hki => ⟨?_, noteChange_unflagged hki, ?_, ?_, ?_, ?_⟩⟩
  · intro key' hn hc
    by_cases hk : key' = key
    · exact .inr ⟨i, by rw [hk]; exact update_self ..⟩
    · have hc' : s.changed key' = true := by
        rw [← hc]
        exact (update_of_ne hk _ _).symm
      refine (h.owed key' hn hc').imp (hflag key') fun ⟨k, hk'⟩ => ⟨k, ?_⟩
      have hki : k ≠ i := by
        rintro rfl
        rw [hun] at hk'
        cases hk'
      exact (noteChange_unflagged hki).trans hk'
  · intro key' hn hf hc
    obtain ⟨hk, hc'⟩ := noteChange_changed hc
    exact (h.fresh key' hn hf hc').imp (hflag key') fun hd =>
      hd.keep ((hkeep key').1 hk) (hkeep key').2
  · intro key' hn sk' hp
    obtain ⟨paths, hsk', hpaths⟩ := h.published key' hn sk' ((hkeep key').2.published sk' hp)
    exact ⟨paths, hsk', fun p hp' => hstays key' p (hpaths p hp')⟩
  · intro key' sk' hp
    by_cases hsk : sk' = sk
    · rw [hsk]
      exact ⟨hclean, hpfx⟩
    · rw [package_congr (hsame sk' hsk)] at hp
      exact h.clean key' sk' hp
  · exact fun key' => Rely.refl _ _
  · intro key' hn _ hc
    obtain ⟨hk, hc'⟩ := noteChange_changed hc
    exact ⟨hc', (hkeep key').1 hk⟩
  · exact fun key' _ sk' hp => hstays key' sk' hp
  · exact fun key' _ now pkgs w hw _ hd => (hkeep key').2.file now pkgs w hw hd
  · exact fun key' _ _ _ _ hpub => ⟨hpub, (hkeep key').2.file⟩

theorem noPackage_setRecord {k : String}
    (hr : f.keyOf r.packageMeta = none) : NoPackage f (s.setRecord k (some r)) k := by
  intro r' hr'
  rw [record_setRecord_self] at hr'
  obtain rfl := some.inj hr'
  exact hr

theorem putAbsent_ghosts (sk : String) (r : StoredRecord) :
    (if (s.record sk).isSome then s else s.setRecord sk (some r)).rebuilds = s.rebuilds ∧
      (if (s.record sk).isSome then s else s.setRecord sk (some r)).changed = s.changed ∧
      (if (s.record sk).isSome then s else s.setRecord sk (some r)).unflagged = s.unflagged := by
  split_ifs <;> exact ⟨rfl, rfl, rfl⟩

theorem setFlag_step (h : IndexInv f s) (hr : f.keyOf r.packageMeta = none)
    (hun : s.unflagged i = some key) :
    IndexStep f i s ((if (s.record (f.staleSk key)).isSome then s
      else s.setRecord (f.staleSk key) (some r)).noteFlag i) := by
  generalize hs0 : (if (s.record (f.staleSk key)).isSome then s
    else s.setRecord (f.staleSk key) (some r)) = s0
  have hghost : s0.rebuilds = s.rebuilds ∧ s0.changed = s.changed ∧
      s0.unflagged = s.unflagged := by
    rw [← hs0]
    exact putAbsent_ghosts _ r
  have hkeep : ∀ key', SamePackages f key' s s0 ∧ KeepsFiles f key' s s0 := by
    intro key'
    rw [← hs0]
    split_ifs with hf
    · exact ⟨fun _ => rfl, KeepsFiles.refl key' s⟩
    · have hnone : s.record (f.staleSk key) = none :=
        Option.not_isSome_iff_eq_none.mp hf
      refine keeps_flag (fun sk (hne : sk ≠ f.staleSk key) => record_setRecord_ne s _ hne) ?_
        (noPackage_setRecord hr) key'
      intro r' hr'
      rw [hnone] at hr'
      cases hr'
  have hset : s0.flagged f key = true := by
    rw [← hs0]
    split_ifs with hf
    · exact hf
    · rw [IndexState.flagged, record_setRecord_self]
      rfl
  have hflag : ∀ key', s.flagged f key' = true → s0.flagged f key' = true := by
    intro key' hf'
    rw [← hs0]
    split_ifs with hf
    · exact hf'
    · exact flagged_setRecord _ r hf'
  obtain ⟨hreb, hch, hunfl⟩ := hghost
  have hkeep' : ∀ key', SamePackages f key' s (s0.noteFlag i) ∧
      KeepsFiles f key' s (s0.noteFlag i) := by
    intro key'
    have hnote : SamePackages f key' s0 (s0.noteFlag i) ∧ KeepsFiles f key' s0 (s0.noteFlag i) :=
      keeps_artifacts (IndexState.noteFlag_artifacts ..) key'
    exact ⟨fun sk => (hnote.1 sk).trans ((hkeep key').1 sk), (hkeep key').2.trans hnote.2⟩
  refine ⟨h.keeps hreb hch hkeep' hflag ?_, fun k hki => ?_⟩
  · rintro key' - ⟨k, hk⟩
    by_cases hki : k = i
    · rw [hki, hun] at hk
      obtain rfl := some.inj hk
      exact .inl hset
    · refine .inr ⟨k, ?_⟩
      rw [noteFlag_unflagged hki, hunfl]
      exact hk
  · refine rely_keeps hreb ?_ hch hkeep'
    rw [noteFlag_unflagged hki, hunfl]

theorem clearFlag_step (h : IndexInv f s) (hn : f.named key = true)
    (hold : NoPackage f s (f.staleSk key)) :
    IndexStep f i s ((s.setRecord (f.staleSk key) none).noteClear i key) := by
  set s' := (s.setRecord (f.staleSk key) none).noteClear i key
  have hkeep : ∀ key', SamePackages f key' s s' ∧ KeepsFiles f key' s s' := by
    refine keeps_flag (fun sk (hne : sk ≠ f.staleSk key) => record_setRecord_ne s _ hne) hold ?_
    intro r hr
    rw [show s'.record (f.staleSk key) = none from record_setRecord_self s _ _] at hr
    cases hr
  have hother : ∀ key' ≠ key, s'.rebuilds key' = s.rebuilds key' ∧
      s'.changed key' = s.changed key' :=
    fun key' hne => ⟨update_of_ne hne _ _, update_of_ne hne _ _⟩
  have hself : s'.rebuilds key = (s.rebuilds key).draw i := update_self ..
  have hflag : ∀ key' ≠ key, f.named key' = true → s.flagged f key' = true →
      s'.flagged f key' = true := by
    intro key' hne hn' hf
    have hsk : f.staleSk key' ≠ f.staleSk key := fun heq => hne (f.stale_inj hn' hn heq)
    rw [IndexState.flagged, show s'.record (f.staleSk key') = s.record (f.staleSk key') from
      record_setRecord_ne s _ hsk]
    exact hf
  have hvalid := h.rebuilds key
  refine ⟨⟨?_, ?_, ?_, ?_, ?_⟩, fun k hki => ⟨?_, rfl, ?_, ?_, ?_, ?_⟩⟩
  · intro key'
    by_cases hk : key' = key
    · rw [hk, hself]
      exact hvalid.draw i
    · rw [(hother key' hk).1]
      exact h.rebuilds key'
  · intro key' hn' hc
    by_cases hk : key' = key
    · rw [hk] at hc
      have hfalse : s'.changed key = false := update_self ..
      rw [hfalse] at hc
      cases hc
    · rw [(hother key' hk).2] at hc
      exact (h.owed key' hn' hc).imp_left (hflag key' hk hn')
  · intro key' hn' hf hc
    by_cases hk : key' = key
    · -- The rebuild that has just begun is not done.
      rw [hk, hself, Generations.draw_finished, draw_drawn] at hf
      have h1 := hvalid.finished_le
      have h2 := hvalid.published_le
      omega
    · rw [(hother key' hk).1] at hf
      rw [(hother key' hk).2] at hc
      exact (h.fresh key' hn' hf hc).imp (hflag key' hk hn') fun hd =>
        hd.keep (hkeep key').1 (hkeep key').2
  · intro key' hn' sk hp
    obtain ⟨paths, hsk, hpaths⟩ := h.published key' hn' sk ((hkeep key').2.published sk hp)
    refine ⟨paths, hsk, fun p hp' => ?_⟩
    rw [(hkeep key').1]
    exact hpaths p hp'
  · intro key' sk hp
    rw [(hkeep key').1] at hp
    exact h.clean key' sk hp
  · intro key'
    by_cases hk : key' = key
    · rw [hk, hself]
      exact rely_draw hki
    · rw [(hother key' hk).1]
      exact Rely.refl _ _
  · intro key' _ hd hc
    by_cases hk : key' = key
    · rw [hk, hself, draw_drawn] at hd
      omega
    · rw [(hother key' hk).2] at hc
      exact ⟨hc, (hkeep key').1⟩
  · intro key' _ sk hp
    rw [(hkeep key').1]
    exact hp
  · exact fun key' _ now pkgs w hw _ hd => (hkeep key').2.file now pkgs w hw hd
  · intro key' _ _ hd _ hpub
    by_cases hk : key' = key
    · rw [hk, hself, draw_drawn] at hd
      omega
    · rw [(hother key' hk).1]
      exact ⟨hpub, (hkeep key').2.file⟩

variable {pkgs : List (String × StoredRecord)}

variable {now : DateTime} {w : IndexWrite}

theorem keeps_putAbsent (hw : w ∈ f.plan key now pkgs) (hc : w.commit = false)
    (hr : f.keyOf r.packageMeta = none) (key' : String) :
    SamePackages f key' s (if (s.record w.sk).isSome then s else s.setRecord w.sk (some r)) ∧
      KeepsFiles f key' s (if (s.record w.sk).isSome then s else s.setRecord w.sk (some r)) := by
  split_ifs with hsome
  · exact ⟨fun _ => rfl, KeepsFiles.refl key' s⟩
  · exact keeps_putFile hw hc (fun sk hne => record_setRecord_ne s _ hne)
      (Option.not_isSome_iff_eq_none.mp hsome) (noPackage_setRecord hr) key'

/-- A file is stored under its hash, unless it is there. -/
theorem putFile_step (h : IndexInv f s) (hw : w ∈ f.plan key now pkgs) (hc : w.commit = false)
    (hr : f.keyOf r.packageMeta = none) :
    IndexStep f i s (if (s.record w.sk).isSome then s else s.setRecord w.sk (some r)) := by
  have hkeep := keeps_putAbsent (s := s) hw hc hr
  obtain ⟨hreb, hch, hun⟩ := putAbsent_ghosts (s := s) w.sk r
  refine ⟨h.keeps hreb hch hkeep (fun key' hf => ?_) fun key' _ howed => .inr ?_,
    fun k _ => rely_keeps hreb (congrFun hun k) hch hkeep⟩
  · split_ifs
    · exact hf
    · exact flagged_setRecord _ r hf
  · rw [hun]
    exact howed

/-- An index is published. The last rebuild is not done while it publishes, and another one
    publishes only before it. -/
theorem publish_step (h : IndexInv f s) (hn : f.named key = true)
    (hw : w ∈ f.plan key now pkgs) (hc : w.commit = true) (hr : f.keyOf r.packageMeta = none)
    (hold : NoPackage f s w.sk) (hpkgs : ∀ e ∈ pkgs, (s.package f key e.1).isSome)
    (hrun : (s.rebuilds key).finished ≠ (s.rebuilds key).ticket i)
    (hlast : (s.rebuilds key).published ≤ (s.rebuilds key).ticket i) :
    IndexStep f i s ((s.setRecord w.sk (some r)).noteRebuild key (Generations.publish i)) := by
  set s' := (s.setRecord w.sk (some r)).noteRebuild key (Generations.publish i)
  have hsame : ∀ sk ≠ w.sk, s'.record sk = s.record sk := fun sk hne => record_setRecord_ne s _ hne
  have hnew : NoPackage f s' w.sk := noPackage_setRecord (s := s) (k := w.sk) hr
  have hkeep := fun key' => keeps_publish hn hw hc hsame hold hnew key'
  have hpkg : ∀ key', SamePackages f key' s s' := by
    refine fun key' => samePackages_record hsame ?_
    rw [hold.package, hnew.package]
  have hother : ∀ key' ≠ key, s'.rebuilds key' = s.rebuilds key' :=
    fun key' hne => update_of_ne hne _ _
  have hself : s'.rebuilds key = (s.rebuilds key).publish i := update_self ..
  have hflag : ∀ key', s.flagged f key' = true → s'.flagged f key' = true :=
    fun key' hf => flagged_setRecord _ r hf
  have hvalid := h.rebuilds key
  have hle := hvalid.finished_le
  have hle' := hvalid.ticket_le i
  refine ⟨⟨?_, ?_, ?_, ?_, ?_⟩, fun k hki => ⟨?_, rfl, ?_, ?_, ?_, ?_⟩⟩
  · intro key'
    by_cases hk : key' = key
    · rw [hk, hself]
      exact hvalid.publish i
    · rw [hother key' hk]
      exact h.rebuilds key'
  · exact fun key' hn' hch => (h.owed key' hn' hch).imp_left (hflag key')
  · intro key' hn' hf hch
    by_cases hk : key' = key
    · rw [hk, hself, Generations.publish_finished, Generations.publish_drawn] at hf
      omega
    · rw [hother key' hk] at hf
      exact (h.fresh key' hn' hf hch).imp (hflag key') fun hd =>
        hd.keep (hpkg key') ((hkeep key' hn').2.1 hk)
  · intro key' hn' sk hp
    by_cases hk : key' = key
    · rw [hk] at hp ⊢
      by_cases hsk : sk = w.sk
      · refine ⟨pkgs.map Prod.fst, ?_, fun p hp' => ?_⟩
        · rw [hsk]
          exact f.mem_commits.mpr ⟨w, hw, hc, rfl⟩
        · obtain ⟨e, he, rfl⟩ := List.mem_map.mp hp'
          rw [hpkg]
          exact hpkgs e he
      · obtain ⟨hcommit, r', hr', hnone⟩ := hp
        obtain ⟨paths, hin, hpaths⟩ :=
          h.published key hn sk ⟨hcommit, r', (hsame sk hsk).symm.trans hr', hnone⟩
        refine ⟨paths, hin, fun p hp' => ?_⟩
        rw [hpkg]
        exact hpaths p hp'
    · obtain ⟨paths, hin, hpaths⟩ :=
        h.published key' hn' sk (((hkeep key' hn').2.1 hk).published sk hp)
      refine ⟨paths, hin, fun p hp' => ?_⟩
      rw [hpkg]
      exact hpaths p hp'
  · intro key' sk hp
    rw [hpkg] at hp
    exact h.clean key' sk hp
  · intro key'
    by_cases hk : key' = key
    · rw [hk, hself]
      exact Generations.rely_publish k i _
    · rw [hother key' hk]
      exact Rely.refl _ _
  · exact fun key' _ _ hch => ⟨hch, hpkg key'⟩
  · intro key' _ sk hp
    rw [hpkg]
    exact hp
  · exact fun key' hn' now' pkgs' w' hw' hc' hd => (hkeep key' hn').2.2 now' pkgs' w' hw' hc' hd
  · intro key' hn' hne _ hlast' hpub
    by_cases hk : key' = key
    · -- The task with the last number has published, and its number is larger.
      rw [hk] at hne hlast' hpub
      exact absurd (hvalid.ticket_inj hne (by omega)) hki
    · rw [hother key' hk]
      exact ⟨hpub, ((hkeep key' hn').2.1 hk).file⟩

/-- A rebuild is done. -/
theorem end_step (h : IndexInv f s)
    (hdone : (s.rebuilds key).drawn = (s.rebuilds key).ticket i → s.changed key = false →
      Describes f s key) :
    IndexStep f i s (s.noteRebuild key (Generations.finish i)) := by
  set s' := s.noteRebuild key (Generations.finish i)
  have hkeep : ∀ key', SamePackages f key' s s' ∧ KeepsFiles f key' s s' :=
    fun key' => keeps_artifacts (IndexState.noteRebuild_artifacts ..) key'
  have hother : ∀ key' ≠ key, s'.rebuilds key' = s.rebuilds key' :=
    fun key' hne => update_of_ne hne _ _
  have hself : s'.rebuilds key = (s.rebuilds key).finish i := update_self ..
  have hvalid := h.rebuilds key
  refine ⟨⟨?_, h.owed, ?_, ?_, h.clean⟩, fun k hki => ⟨?_, rfl, ?_, ?_, ?_, ?_⟩⟩
  · intro key'
    by_cases hk : key' = key
    · rw [hk, hself]
      exact hvalid.finish i
    · rw [hother key' hk]
      exact h.rebuilds key'
  · intro key' hn' hf hch
    have hmove : s.flagged f key' = true ∨ Describes f s key' → s.flagged f key' = true ∨
        Describes f s' key' :=
      Or.imp_right fun hd => hd.keep (hkeep key').1 (hkeep key').2
    by_cases hk : key' = key
    · refine hmove ?_
      rw [hk] at hf hch ⊢
      rw [hself, Generations.finish_finished, Generations.finish_drawn] at hf
      rcases max_choice (s.rebuilds key).finished ((s.rebuilds key).ticket i) with hmax | hmax
      · rw [hk] at hn'
        exact h.fresh key hn' (hmax ▸ hf) hch
      · exact .inr (hdone (hmax ▸ hf).symm hch)
    · rw [hother key' hk] at hf
      exact hmove (h.fresh key' hn' hf hch)
  · exact fun key' hn' sk hp => h.published key' hn' sk ((hkeep key').2.published sk hp)
  · intro key'
    by_cases hk : key' = key
    · rw [hk, hself]
      exact Generations.rely_finish hvalid hki
    · rw [hother key' hk]
      exact Rely.refl _ _
  · exact fun key' _ _ hch => ⟨hch, (hkeep key').1⟩
  · exact fun key' _ sk hp => hp
  · exact fun key' _ now pkgs w hw _ hd => hd
  · intro key' _ _ _ hlast hpub
    refine ⟨?_, (hkeep key').2.file⟩
    by_cases hk : key' = key
    · have hle := hvalid.ticket_le i
      rw [hk] at hlast hpub ⊢
      rw [hself, Generations.finish_published]
      omega
    · rw [hother key' hk]
      exact hpub

end

end Depot
