import Depot.Apt.Metadata
import Depot.Apt.Release

/-!
# The files of a distribution

A rebuild stores each `Packages` file under its hash and then the release that lists them
(`rebuild_metadata`, `format/apt/src/store/store.rs` lines 575–654), and a request for one of them
finds its hash in the release (`resolve_via_release`, lines 444–464).

Results:
* `readArtifact_storeFiles`: what is read under the hashes.
* `release_round_trip_iff`: when the release is read as it was written and every file is found.
-/

namespace Depot

open Lib List

/-- Facts about all characters of a list are decided on the list. -/
local instance (priority := 2000) decidableReleaseChars (p : Char → Prop) [DecidablePred p]
    (l : List Char) : Decidable (∀ c ∈ l, p c) := List.decidableBAll p l

/-! ## What a rebuild stores -/

/-- What a rebuild has gathered about a distribution: the names of the components and of the
    architectures, of which there are always some, and the text of each `Packages` file. -/
structure DistContents where
  components : List String
  architectures : List String
  packages : String → String → Bytes
  components_ne : components ≠ []
  architectures_ne : architectures ≠ []

namespace DistContents

variable (x : IndexExt) (c : DistContents)

/-- The files, with their paths below the distribution (lines 577–624). -/
def files : List (String × Bytes) :=
  c.components.flatMap fun component => c.architectures.flatMap fun arch =>
    let dir := component ++ "/binary-" ++ arch
    [(dir ++ "/Packages", c.packages component arch),
      (dir ++ "/Packages.gz", x.gzip (c.packages component arch))]

/-- The entries that the `Release` has to list. -/
def entries : List (String × String × ℕ) :=
  (c.files x).map fun f => (f.1, x.sha256 f.2, f.2.length)

/-- The `Release` file of a distribution, as it is published. -/
def release (signing : Option ClearSignature) (distribution : String) (now : DateTime) : String :=
  publishedText signing (generateRelease x now distribution c.components c.architectures
    (releaseChecksums x (c.files x)))

end DistContents

namespace RecordTable

variable (x : IndexExt) (t : RecordTable StoredRecord) (distribution : String)

/-- The files are stored one after the other. -/
def storeFiles (files : List (String × Bytes)) (now : DateTime) : RecordTable StoredRecord :=
  files.foldl (fun t f => t.storeMetadataFile x distribution f.1 f.2 now) t

/-- The end of `rebuild_metadata` (lines 575–654): the files, then the release. -/
def storeRelease (c : DistContents) (signing : Option ClearSignature) (now : DateTime) :
    RecordTable StoredRecord :=
  (t.storeFiles x distribution (c.files x) now).storeInrelease x distribution
    (c.release x signing distribution now) now

end RecordTable

/-! ## What is read afterwards -/

/-- Where a file is stored. -/
def hashKey (x : IndexExt) (distribution : String) (f : String × Bytes) : String :=
  normalizePath (byHashPath distribution f.1 (x.sha256 f.2))

namespace RecordTable

variable {x : IndexExt} {t : RecordTable StoredRecord} {distribution : String} {now : DateTime}

theorem find_storeMetadataFile (f : String × Bytes) (path : String) :
    (t.storeMetadataFile x distribution f.1 f.2 now).find path =
      if normalizePath path = hashKey x distribution f ∧ t.find path = none then
        some ((metadataRecord x now f.2).prepared (byHashPath distribution f.1 (x.sha256 f.2)))
      else t.find path := by
  have hfind : normalizePath path = hashKey x distribution f →
      t.find path = t.find (byHashPath distribution f.1 (x.sha256 f.2)) := by
    intro h
    rw [find, h, find, hashKey]
  unfold storeMetadataFile putStoredIfAbsent putIfAbsent
  cases hstored : t.find (byHashPath distribution f.1 (x.sha256 f.2)) with
  | some r =>
    rw [Option.isSome_some, if_pos rfl, if_neg]
    rintro ⟨hkey, hnone⟩
    rw [hfind hkey, hstored] at hnone
    cases hnone
  | none =>
    rw [Option.isSome_none, if_neg Bool.false_ne_true, find_put, ← hashKey]
    by_cases hkey : normalizePath path = hashKey x distribution f
    · have hnone : t.find path = none := by rw [hfind hkey, hstored]
      rw [if_pos hkey, if_pos ⟨hkey, hnone⟩]
    · rw [if_neg hkey, if_neg fun h => hkey h.1]

/-- A path under which something is stored keeps it; else it has the first file with its hash. -/
theorem readArtifact_storeFiles (files : List (String × Bytes)) (path : String) :
    (t.storeFiles x distribution files now).readArtifact path =
      if t.find path = none then
        (files.find? fun f => hashKey x distribution f = normalizePath path).map Prod.snd
      else t.readArtifact path := by
  induction files generalizing t with
  | nil =>
    split_ifs with h
    · rw [storeFiles, foldl_nil, readArtifact, h]
      rfl
    · rfl
  | cons f files ih =>
    have hstep : t.storeFiles x distribution (f :: files) now =
        (t.storeMetadataFile x distribution f.1 f.2 now).storeFiles x distribution files now := rfl
    have hfind := @find_storeMetadataFile x t distribution now f path
    rw [hstep, ih]
    by_cases hnew : normalizePath path = hashKey x distribution f ∧ t.find path = none
    · rw [if_pos hnew] at hfind
      rw [if_neg (by rw [hfind]; exact Option.some_ne_none _), readArtifact, hfind, if_pos hnew.2,
        find?_cons_of_pos (by simpa using hnew.1.symm)]
      rfl
    · rw [if_neg hnew] at hfind
      rw [readArtifact, hfind]
      by_cases hnone : t.find path = none
      · have hkey : ¬ hashKey x distribution f = normalizePath path := fun h => hnew ⟨h.symm, hnone⟩
        rw [if_pos hnone, if_pos hnone, find?_cons_of_neg (by simpa using hkey)]
      · rw [if_neg hnone, if_neg hnone, readArtifact]

variable {c : DistContents} {signing : Option ClearSignature} {e : SnapshotExt}

/-- The release that is read is the one that was stored last. -/
theorem releaseEntries_storeRelease :
    (t.storeRelease x distribution c signing now).releaseEntries e.std distribution =
      parseReleaseSha256 e.std (extractRelease (c.release x signing distribution now)) := by
  have hread : (t.storeRelease x distribution c signing now).readArtifact
      (inReleasePath distribution) = some (utf8 (c.release x signing distribution now)) := by
    rw [storeRelease, storeInrelease, readArtifact_putStored, if_pos rfl]
  rw [releaseEntries, aptRelease, hread, Option.map_some, Option.map_some, Option.getD_some,
    SnapshotExt.lossy_utf8]

/-- The release is at none of the paths of the files. -/
theorem readArtifact_storeRelease (f : String × Bytes) :
    (t.storeRelease x distribution c signing now).readArtifact
        (byHashPath distribution f.1 (x.sha256 f.2)) =
      if t.find (byHashPath distribution f.1 (x.sha256 f.2)) = none then
        ((c.files x).find? fun g => hashKey x distribution g = hashKey x distribution f).map Prod.snd
      else t.readArtifact (byHashPath distribution f.1 (x.sha256 f.2)) := by
  rw [storeRelease, storeInrelease, readArtifact_putStored,
    if_neg (byHash_ne_inRelease x distribution distribution f.1 f.2), readArtifact_storeFiles]
  rfl

end RecordTable

/-! ## The round trip -/

theorem noSpace_append {a b : String} : NoSpace (a ++ b) ↔ NoSpace a ∧ NoSpace b := by
  unfold NoSpace
  rw [String.toList_append, forall_mem_append]

namespace DistContents

variable {x : IndexExt} {c : DistContents}

variable {f : String × Bytes}

theorem mem_files : f ∈ c.files x ↔ ∃ component ∈ c.components, ∃ arch ∈ c.architectures,
      f = (component ++ "/binary-" ++ arch ++ "/Packages", c.packages component arch) ∨
        f = (component ++ "/binary-" ++ arch ++ "/Packages.gz",
          x.gzip (c.packages component arch)) := by
  simp only [files, mem_flatMap, mem_cons, not_mem_nil, or_false]

/-- The paths have no whitespace exactly if the names have none. -/
theorem noSpace_files_iff : (∀ f ∈ c.files x, NoSpace f.1) ↔
    (∀ component ∈ c.components, NoSpace component) ∧ ∀ arch ∈ c.architectures, NoSpace arch := by
  have hpath : ∀ component arch end_ : String, NoSpace (component ++ "/binary-" ++ arch ++ end_) ↔
        ((NoSpace component ∧ NoSpace "/binary-") ∧ NoSpace arch) ∧ NoSpace end_ := by
    intro component arch end_
    rw [noSpace_append, noSpace_append, noSpace_append]
  constructor
  · intro h
    have hplain : ∀ component ∈ c.components, ∀ arch ∈ c.architectures,
        NoSpace component ∧ NoSpace arch := by
      intro component hcomponent arch harch
      have hfile := h _ (mem_files.mpr ⟨component, hcomponent, arch, harch, .inl rfl⟩)
      obtain ⟨⟨⟨hc, -⟩, ha⟩, -⟩ := (hpath _ _ _).mp hfile
      exact ⟨hc, ha⟩
    obtain ⟨component, hcomponent⟩ := exists_mem_of_ne_nil _ c.components_ne
    obtain ⟨arch, harch⟩ := exists_mem_of_ne_nil _ c.architectures_ne
    exact ⟨fun component' h' => (hplain component' h' arch harch).1,
      fun arch' h' => (hplain component hcomponent arch' h').2⟩
  · rintro ⟨hcomponents, harchitectures⟩ f hf
    have hdir : NoSpace "/binary-" := by unfold NoSpace; decide +kernel
    have hplain : NoSpace "/Packages" := by unfold NoSpace; decide +kernel
    have hgz : NoSpace "/Packages.gz" := by unfold NoSpace; decide +kernel
    obtain ⟨component, hcomponent, arch, harch, rfl | rfl⟩ := mem_files.mp hf
    · exact (hpath _ _ _).mpr ⟨⟨⟨hcomponents _ hcomponent, hdir⟩, harchitectures _ harch⟩, hplain⟩
    · exact (hpath _ _ _).mpr ⟨⟨⟨hcomponents _ hcomponent, hdir⟩, harchitectures _ harch⟩, hgz⟩

theorem path_ne_empty (h : f ∈ c.files x) : f.1 ≠ "" := by
  have hne : ∀ front back : String, back ≠ "" → front ++ back ≠ "" := by
    intro front back hback heq
    have hlist := congrArg String.toList heq
    rw [String.toList_append] at hlist
    exact hback (String.toList_eq_nil_iff.mp (append_eq_nil_iff.mp hlist).2)
  obtain ⟨component, -, arch, -, rfl | rfl⟩ := mem_files.mp h
  · exact hne _ _ (by decide)
  · exact hne _ _ (by decide)

/-- Files without whitespace in their paths can be listed. -/
theorem listable (hfits : ∀ f ∈ c.files x, f.2.length < 2 ^ 64)
    (hpaths : ∀ f ∈ c.files x, NoSpace f.1) :
    ∀ entry ∈ releaseChecksums x (c.files x), entry.Listable := by
  intro entry hentry
  obtain ⟨f, hf, rfl⟩ := mem_map.mp hentry
  refine ⟨⟨fun hnil => ?_, fun ch hch => isHex_noSpace (x.sha256_hex f.2 ch hch)⟩, hfits f hf,
    path_ne_empty hf, hpaths f hf⟩
  exact sha256_ne_nil x f.2 (String.toList_eq_nil_iff.mpr hnil)

/-- When the release is read as it was written: no component and no architecture has whitespace,
    and the name of the distribution has no line that the checksums seem to begin with, unless
    it lists the same entries there. -/
theorem release_entries_iff {e : SnapshotExt} {signing : Option ClearSignature}
    {distribution : String} {now : DateTime} (hdate : '\n' ∉ (x.releaseDate now).toList)
    (hfits : ∀ f ∈ c.files x, f.2.length < 2 ^ 64) :
    parseReleaseSha256 e.std (extractRelease (c.release x signing distribution now)) = c.entries x ↔
      ((∀ component ∈ c.components, NoSpace component) ∧ ∀ arch ∈ c.architectures, NoSpace arch) ∧
        ((∀ l ∈ ownLines distribution, isSha256Header l = false) ∨
          ListsItself e.std distribution (c.entries x)) := by
  have hentries : (releaseChecksums x (c.files x)).map
      (fun entry => (entry.path, entry.sha256, entry.size)) = c.entries x := by
    rw [releaseChecksums, map_map]
    rfl
  rw [release, parse_published]
  have hparse : ((∀ component ∈ c.components, NoSpace component) ∧
      ∀ arch ∈ c.architectures, NoSpace arch) →
      parseLines e.std (releaseLines x now distribution c.components c.architectures
          (releaseChecksums x (c.files x))) =
        if ∀ l ∈ ownLines distribution, isSha256Header l = false then c.entries x
        else parseLines e.std (ownLines distribution) := by
    rintro ⟨hcomponents, harchitectures⟩
    have hpaths := (noSpace_files_iff (x := x)).mpr ⟨hcomponents, harchitectures⟩
    rw [parseLines_release hdate hcomponents harchitectures (listable hfits hpaths), hentries]
  constructor
  · intro heq
    have hnames := (noSpace_files_iff (x := x)).mp fun f hf => by
      have hmem : (f.1, x.sha256 f.2, f.2.length) ∈ c.entries x := mem_map_of_mem hf
      rw [← heq] at hmem
      exact (path_of_mem_parseLines hmem).2
    refine ⟨hnames, ?_⟩
    rw [hparse hnames] at heq
    by_cases hown : ∀ l ∈ ownLines distribution, isSha256Header l = false
    · exact .inl hown
    · rw [if_neg hown] at heq
      exact .inr ((listsItself_iff hown).mpr heq)
  · rintro ⟨hnames, hown⟩
    rw [hparse hnames]
    split_ifs with h
    · rfl
    · exact (listsItself_iff h).mp (hown.resolve_left h)

/-- What is stored under the hashes when the files are: a file with the path of another one has
    its data, so has one that is stored at the same place, and nothing else is there before. -/
structure Apart (c : DistContents) (x : IndexExt) (t : RecordTable StoredRecord)
    (distribution : String) : Prop where
  samePath : ∀ f ∈ c.files x, ∀ g ∈ c.files x, f.1 = g.1 → f.2 = g.2
  sameKey : ∀ f ∈ c.files x, ∀ g ∈ c.files x,
    hashKey x distribution f = hashKey x distribution g → f.2 = g.2
  free : ∀ f ∈ c.files x, t.find (byHashPath distribution f.1 (x.sha256 f.2)) = none ∨
    t.readArtifact (byHashPath distribution f.1 (x.sha256 f.2)) = some f.2

/-- What a rebuild leaves: the entries are read as they were written, and each file is
    found. -/
structure ReadBack (c : DistContents) (x : IndexExt) (e : SnapshotExt)
    (t : RecordTable StoredRecord) (signing : Option ClearSignature) (distribution : String)
    (now : DateTime) : Prop where
  entries : parseReleaseSha256 e.std (extractRelease (c.release x signing distribution now)) =
    c.entries x
  found : ∀ f ∈ c.files x,
    (t.storeRelease x distribution c signing now).resolveViaRelease e.std distribution f.1 =
      some f.2

/-- The names in a release can be read back. -/
structure Readable (c : DistContents) (x : IndexExt) (e : SnapshotExt) (distribution : String) :
    Prop where
  components : ∀ component ∈ c.components, NoSpace component
  architectures : ∀ arch ∈ c.architectures, NoSpace arch
  distribution : (∀ l ∈ ownLines distribution, isSha256Header l = false) ∨
    ListsItself e.std distribution (c.entries x)

variable {e : SnapshotExt} {t : RecordTable StoredRecord} {signing : Option ClearSignature}
variable {distribution : String} {now : DateTime}

/-- The first file with a path is the one whose hash is taken. -/
theorem resolve_storeRelease
    (hentries : parseReleaseSha256 e.std
      (extractRelease (c.release x signing distribution now)) = c.entries x)
    (hf : f ∈ c.files x) : ∃ g ∈ c.files x, g.1 = f.1 ∧
      (t.storeRelease x distribution c signing now).resolveViaRelease e.std distribution f.1 =
        (t.storeRelease x distribution c signing now).readArtifact
          (byHashPath distribution g.1 (x.sha256 g.2)) := by
  cases hfirst : (c.files x).find? fun g => g.1 = f.1 with
  | none =>
    have hno := find?_eq_none.mp hfirst f hf
    simp at hno
  | some g =>
    have hpath : g.1 = f.1 := by simpa using find?_some hfirst
    refine ⟨g, mem_of_find?_eq_some hfirst, hpath, ?_⟩
    have hentry : (c.entries x).find? (fun entry => entry.1 = f.1) =
        some (g.1, x.sha256 g.2, g.2.length) := by
      have hfun : ((fun entry : String × String × ℕ => decide (entry.1 = f.1)) ∘
          fun f : String × Bytes => (f.1, x.sha256 f.2, f.2.length)) =
            fun g => decide (g.1 = f.1) := rfl
      rw [DistContents.entries, find?_map, hfun, hfirst]
      rfl
    rw [RecordTable.resolveViaRelease, RecordTable.releaseEntries_storeRelease, hentries, hentry]
    dsimp only
    rw [hpath]

theorem readArtifact_of_hashKey {g : String × Bytes} (t : RecordTable StoredRecord)
    (h : hashKey x distribution f = hashKey x distribution g) :
    t.readArtifact (byHashPath distribution f.1 (x.sha256 f.2)) =
      t.readArtifact (byHashPath distribution g.1 (x.sha256 g.2)) := by
  rw [RecordTable.readArtifact, RecordTable.find, ← hashKey, h]
  rfl

/-- Every file is found exactly if the files are apart. -/
theorem found_iff
    (hentries : parseReleaseSha256 e.std
      (extractRelease (c.release x signing distribution now)) = c.entries x) :
    (∀ f ∈ c.files x,
      (t.storeRelease x distribution c signing now).resolveViaRelease e.std distribution f.1 =
        some f.2) ↔ c.Apart x t distribution := by
  constructor
  · intro hfound
    have hdata : ∀ f ∈ c.files x, ∀ g ∈ c.files x, f.1 = g.1 → f.2 = g.2 := by
      intro f hf g hg hpath
      have heq := hfound f hf
      rw [hpath, hfound g hg] at heq
      exact (Option.some.inj heq).symm
    -- So each file is read at its own key.
    have hread : ∀ f ∈ c.files x, (t.storeRelease x distribution c signing now).readArtifact
        (byHashPath distribution f.1 (x.sha256 f.2)) = some f.2 := by
      intro f hf
      obtain ⟨g, hg, hpath, hresolve⟩ := resolve_storeRelease (t := t) hentries hf
      rw [hfound f hf, hpath, hdata g hg f hf hpath] at hresolve
      exact hresolve.symm
    refine ⟨hdata, fun f hf g hg hkey => ?_, fun f hf => ?_⟩
    · have heq := hread f hf
      rw [readArtifact_of_hashKey _ hkey, hread g hg] at heq
      exact (Option.some.inj heq).symm
    · have heq := hread f hf
      rw [RecordTable.readArtifact_storeRelease] at heq
      split_ifs at heq with hnone
      · exact .inl hnone
      · exact .inr heq
  · intro hapart f hf
    obtain ⟨g, hg, hpath, hresolve⟩ := resolve_storeRelease (t := t) hentries hf
    rw [hresolve, RecordTable.readArtifact_storeRelease, ← hapart.samePath g hg f hf hpath]
    split_ifs with hnone
    · cases hfirst : (c.files x).find? fun g' =>
          hashKey x distribution g' = hashKey x distribution g with
      | none =>
        have hno := find?_eq_none.mp hfirst g hg
        simp at hno
      | some g' =>
        have hkey : hashKey x distribution g' = hashKey x distribution g := by
          simpa using find?_some hfirst
        rw [Option.map_some, hapart.sameKey g' (mem_of_find?_eq_some hfirst) g hg hkey]
    · exact (hapart.free g hg).resolve_left hnone

/-- A rebuild's release is read as it was written and leads to every file if and only if its names
    can be read back and the files are apart, signed or not. -/
theorem release_round_trip_iff (hdate : '\n' ∉ (x.releaseDate now).toList)
    (hfits : ∀ f ∈ c.files x, f.2.length < 2 ^ 64) : c.ReadBack x e t signing distribution now ↔
      c.Readable x e distribution ∧ c.Apart x t distribution := by
  constructor
  · rintro ⟨hentries, hfound⟩
    obtain ⟨⟨hcomponents, harchitectures⟩, hown⟩ :=
      (release_entries_iff hdate hfits).mp hentries
    exact ⟨⟨hcomponents, harchitectures, hown⟩, (found_iff hentries).mp hfound⟩
  · rintro ⟨⟨hcomponents, harchitectures, hown⟩, hapart⟩
    have hentries := (@release_entries_iff x c e signing distribution now hdate hfits).mpr
      ⟨⟨hcomponents, harchitectures⟩, hown⟩
    exact ⟨hentries, (found_iff hentries).mpr hapart⟩

end DistContents

/-! ## Two rebuilds -/

/-- A distribution without packages and with one component. -/
def emptyContents (component : String) : DistContents where
  components := [component]
  architectures := ["amd64"]
  packages _ _ := []
  components_ne := cons_ne_nil _ _
  architectures_ne := cons_ne_nil _ _

theorem emptyContents_data {component : String} {f : String × Bytes}
    (h : f ∈ (emptyContents component).files .sample) : f.2 = [] := by
  obtain ⟨component, -, arch, -, rfl | rfl⟩ := DistContents.mem_files.mp h
  · rfl
  · rfl

/-- A signature with one armor header. -/
def plainSignature : ClearSignature where
  headers := ["Hash: SHA512"]
  headers_line := by decide +kernel
  escaped line := line.toList.head? = some '-'
  escaped_dash _ h := of_decide_eq_false h
  ownNewline := true
  signature := "\n\n-----END PGP SIGNATURE-----\n"

/-- The signed release of the component `main`. -/
theorem main_readBack : (emptyContents "main").ReadBack .sample .plain SortedMap.empty
    (some plainSignature) "stable" 0 := by
  refine (DistContents.release_round_trip_iff (by decide +kernel) fun f hf => ?_).mpr
    ⟨⟨?_, ?_, .inl ?_⟩, ⟨fun f hf g hg _ => ?_, fun f hf g hg _ => ?_, fun f _ => .inl rfl⟩⟩
  · rw [emptyContents_data hf]
    decide
  · unfold NoSpace
    decide
  · unfold NoSpace
    decide
  · decide
  · rw [emptyContents_data hf, emptyContents_data hg]
  · rw [emptyContents_data hf, emptyContents_data hg]

/-- The path of a component with a space is cut off. -/
theorem component_cut_off : ¬ (emptyContents "main contrib").ReadBack .sample .plain
    SortedMap.empty none "stable" 0 := by
  rintro ⟨hentries, -⟩
  have hfile : ("main contrib/binary-amd64/Packages", []) ∈
      (emptyContents "main contrib").files .sample :=
    DistContents.mem_files.mpr ⟨"main contrib", by decide, "amd64", by decide, .inl rfl⟩
  have hmem := mem_map_of_mem (f := fun f : String × Bytes =>
    (f.1, IndexExt.sample.sha256 f.2, f.2.length)) hfile
  rw [← DistContents.entries, ← hentries, DistContents.release, SnapshotExt.plain, parse_published]
    at hmem
  have hspace := (path_of_mem_parseLines hmem).2 ' ' (by decide +kernel)
  revert hspace
  decide

end Depot
