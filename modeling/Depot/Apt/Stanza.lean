import Depot.Apt.Control

/-!
# The stanza of a package

An uploaded package is listed with fields of its control file (`generate_packages_stanza`,
`format/apt/src/store/metadata.rs` lines 84–158), as a client reads them from the index.

Results:
* `packagesStanza_eq`: the fields of a stanza.
* `stanza_keeps_iff`: when the stanza has every field of the control file.
-/

namespace Depot

open Lib List

/-- Facts about all characters of a list are decided on the list. -/
local instance (priority := 2000) decidableLabelChars (p : Char → Prop) [DecidablePred p]
    (l : List Char) : Decidable (∀ c ∈ l, p c) := List.decidableBAll p l

/-! ## The fields of a stanza -/

/-- A field that is left out if it says nothing. -/
def optionalField (label text : String) : List (String × String) :=
  if text = "" then [] else [(label, text)]

/-- The fields before the file. -/
def stanzaHead (apt : AptPackageMeta) : List (String × String) :=
  ("Package", apt.package) :: ("Version", apt.version) :: ("Architecture", apt.architecture) ::
    (optionalField "Maintainer" apt.maintainer ++ (optionalField "Depends" apt.depends ++
      (optionalField "Section" apt.pkgSection ++ ("Priority", apt.priority) ::
        if apt.installedSize = "0" then []
        else optionalField "Installed-Size" apt.installedSize)))

/-- The fields after it. -/
def stanzaTail (apt : AptPackageMeta) (size : ℕ) : List (String × String) :=
  ("Size", toString size) :: ("SHA256", apt.sha256) :: optionalField "Description" apt.description

/-- The path of the file (lines 125–129). -/
def stanzaFilename (path : String) : String :=
  if path.startsWith "_pool/" then String.ofList (path.toList.drop 1) else path

/-- The fields of a stanza, in the order in which they are written. -/
def stanzaFields (apt : AptPackageMeta) (size : ℕ) (path : String) : List (String × String) :=
  stanzaHead apt ++ ("Filename", stanzaFilename path) :: stanzaTail apt size

theorem unlines_fields (fields : List (String × String)) :
    unlines (fields.flatMap fun f => linesOf (fieldText f)) =
      String.join (fields.map fun f => f.1 ++ ": " ++ f.2 ++ "\n") := by
  induction fields with
  | nil => rfl
  | cons f fields ih =>
    rw [flatMap_cons, unlines_append, unlines_linesOf, ih, map_cons, String.join_cons]
    rfl

theorem join_optionalField (label text : String) :
    String.join ((optionalField label text).map fun f => f.1 ++ ": " ++ f.2 ++ "\n") =
      optionalLine label text := by
  unfold optionalField optionalLine
  split_ifs
  · rfl
  · rw [map_singleton, String.join_cons, String.join_nil, String.append_empty]

/-- A stanza is written field by field. -/
theorem packagesStanza_eq (apt : AptPackageMeta) (size : ℕ) (path : String) :
    packagesStanza apt size path =
      unlines ((stanzaFields apt size path).flatMap fun f => linesOf (fieldText f)) := by
  have hinstalled : String.join ((if apt.installedSize = "0" then []
      else optionalField "Installed-Size" apt.installedSize).map
        fun f => f.1 ++ ": " ++ f.2 ++ "\n") =
      if apt.installedSize = "0" then "" else optionalLine "Installed-Size" apt.installedSize := by
    split_ifs
    · rfl
    · exact join_optionalField _ _
  have hpackage : "Package: " = "Package" ++ ": " := by decide +kernel
  have hversion : "Version: " = "Version" ++ ": " := by decide +kernel
  have harchitecture : "Architecture: " = "Architecture" ++ ": " := by decide +kernel
  have hpriority : "Priority: " = "Priority" ++ ": " := by decide +kernel
  have hfilename : "Filename: " = "Filename" ++ ": " := by decide +kernel
  have hsize : "Size: " = "Size" ++ ": " := by decide +kernel
  have hsha : "SHA256: " = "SHA256" ++ ": " := by decide +kernel
  rw [unlines_fields]
  unfold packagesStanza stanzaFields stanzaHead stanzaTail stanzaFilename
  simp only [map_cons, map_append, cons_append, append_assoc, String.join_cons,
    String.join_append, join_optionalField, hinstalled, hpackage, hversion, harchitecture,
    hpriority, hfilename, hsize, hsha]
  simp only [String.append_assoc]

/-! ## Labels -/

/-- The names of the fields that a stanza can have. -/
def stanzaLabels : List String :=
  ["Package", "Version", "Architecture", "Maintainer", "Depends", "Section", "Priority",
    "Installed-Size", "Filename", "Size", "SHA256", "Description"]

/-- The keys they are read under. -/
def stanzaKeys : List String :=
  ["package", "version", "architecture", "maintainer", "depends", "section", "priority",
    "installed-size", "filename", "size", "sha256", "description"]

variable {label value : String}

theorem plainLabel_of_mem (h : label ∈ stanzaLabels) : PlainLabel label := by
  have hall : ∀ l ∈ stanzaLabels, l ≠ "" ∧ ∀ c ∈ l.toList, c ≠ ':' ∧ 33 ≤ c.toNat ∧ c.toNat ≤ 126 := by
    decide +kernel
  exact ⟨(hall label h).1, (hall label h).2⟩

theorem optionalField_sublist (label text : String) :
    ((optionalField label text).map Prod.fst).Sublist [label] := by
  unfold optionalField
  split_ifs
  · exact nil_sublist _
  · exact Sublist.refl _

theorem stanzaFields_labels (apt : AptPackageMeta) (size : ℕ) (path : String) :
    ((stanzaFields apt size path).map Prod.fst).Sublist stanzaLabels := by
  have hinstalled : ((if apt.installedSize = "0" then []
      else optionalField "Installed-Size" apt.installedSize).map Prod.fst).Sublist
        ["Installed-Size"] := by
    split_ifs
    · exact nil_sublist _
    · exact optionalField_sublist _ _
  have happend : ∀ {l₁ l₂ : List String} {a b : List (String × String)},
      (a.map Prod.fst).Sublist l₁ → (b.map Prod.fst).Sublist l₂ →
        ((a ++ b).map Prod.fst).Sublist (l₁ ++ l₂) := by
    intro l₁ l₂ a b ha hb
    rw [map_append]
    exact ha.append hb
  have hcons : ∀ {l : List String} {b : List (String × String)} (label text : String),
      (b.map Prod.fst).Sublist l → (((label, text) :: b).map Prod.fst).Sublist (label :: l) :=
    fun _ _ h => h.cons_cons _
  refine @happend ["Package", "Version", "Architecture", "Maintainer", "Depends", "Section",
    "Priority", "Installed-Size"] _ _ _ ?_ (hcons _ _ (hcons _ _ (hcons _ _ (optionalField_sublist _ _))))
  exact hcons _ _ (hcons _ _ (hcons _ _ (happend (optionalField_sublist _ _)
    (happend (optionalField_sublist _ _) (happend (optionalField_sublist _ _)
      (hcons _ _ hinstalled))))))

variable {x : LowerExt}

theorem toLowercase_label (h : label ∈ stanzaLabels) :
    x.toLowercase label = String.ofList (label.toList.map Char.toLower) := by
  refine x.toLowercase_ascii label fun c hc => ?_
  have hle := ((plainLabel_of_mem h).chars c hc).2.2
  omega

theorem toLowercase_labels : stanzaLabels.map x.toLowercase = stanzaKeys := by
  rw [map_congr_left fun l hl => toLowercase_label hl]
  decide +kernel

theorem toLowercase_keys : x.toLowercase "Package" = "package" ∧
    x.toLowercase "Version" = "version" ∧ x.toLowercase "Architecture" = "architecture" ∧
    x.toLowercase "Maintainer" = "maintainer" ∧ x.toLowercase "Depends" = "depends" ∧
    x.toLowercase "Section" = "section" ∧ x.toLowercase "Priority" = "priority" ∧
    x.toLowercase "Installed-Size" = "installed-size" ∧ x.toLowercase "Filename" = "filename" ∧
    x.toLowercase "Size" = "size" ∧ x.toLowercase "SHA256" = "sha256" ∧
    x.toLowercase "Description" = "description" := by
  simpa [stanzaLabels, stanzaKeys] using toLowercase_labels (x := x)

theorem nodup_stanza (apt : AptPackageMeta) (size : ℕ) (path : String) :
    ((stanzaFields apt size path).map fun f => x.toLowercase f.1).Nodup := by
  have hsub := (stanzaFields_labels apt size path).map x.toLowercase
  rw [toLowercase_labels, map_map] at hsub
  exact Nodup.sublist hsub (by decide +kernel)

/-! ## What is read of a stanza -/

/-- A value that can be read, if not as it was written. -/
def Continued (value : String) : Prop := ∀ l ∈ ownLines value, isContinuation l = true

theorem continued_of_notMem (h : '\n' ∉ value.toList) : Continued value := by
  rw [Continued, (firstLine_of_notMem h).2]
  exact nofun

variable {apt : AptPackageMeta} {size : ℕ} {path : String}

variable {f : String × String}

theorem mem_optionalField {text : String} :
    f ∈ optionalField label text ↔ text ≠ "" ∧ f = (label, text) := by
  unfold optionalField
  split_ifs with h
  · simp [h]
  · simp [h]

theorem mem_stanzaFields : f ∈ stanzaFields apt size path ↔
    f = ("Package", apt.package) ∨ f = ("Version", apt.version) ∨
      f = ("Architecture", apt.architecture) ∨
      (apt.maintainer ≠ "" ∧ f = ("Maintainer", apt.maintainer)) ∨
      (apt.depends ≠ "" ∧ f = ("Depends", apt.depends)) ∨
      (apt.pkgSection ≠ "" ∧ f = ("Section", apt.pkgSection)) ∨
      f = ("Priority", apt.priority) ∨
      (apt.installedSize ≠ "0" ∧ apt.installedSize ≠ "" ∧
        f = ("Installed-Size", apt.installedSize)) ∨
      f = ("Filename", stanzaFilename path) ∨ f = ("Size", toString size) ∨
      f = ("SHA256", apt.sha256) ∨
      (apt.description ≠ "" ∧ f = ("Description", apt.description)) := by
  have hinstalled : (f ∈ if apt.installedSize = "0" then []
      else optionalField "Installed-Size" apt.installedSize) ↔
        apt.installedSize ≠ "0" ∧ apt.installedSize ≠ "" ∧
          f = ("Installed-Size", apt.installedSize) := by
    split_ifs with h
    · simp [h]
    · rw [mem_optionalField]
      simp [h]
  simp only [stanzaFields, stanzaHead, stanzaTail, mem_append, mem_cons,
    mem_optionalField, hinstalled, or_assoc]

/-! ## Packages -/

/-- What an upload records of a control file (`put_package`, `store.rs` lines 98–118). -/
def debMeta (c : DebControl) (distribution component sha256 : String) : AptPackageMeta where
  package := c.package
  version := c.version
  architecture := c.architecture
  distribution := distribution
  component := component
  maintainer := c.maintainer
  depends := c.depends
  pkgSection := c.pkgSection
  priority := c.priority
  installedSize := c.installedSize
  description := c.description
  sha256 := sha256

/-- A stored package, with the text of its control file, which has been accepted. -/
structure ListedDeb (x : LowerExt) where
  text : String
  control : DebControl
  accepted : parseControlFile x text = .ok control
  distribution : String
  component : String
  path : String
  content : Bytes

namespace ListedDeb

variable (i : IndexExt) (p : ListedDeb x)

def controlFields : SortedMap String String := Depot.controlFields x p.text

/-- The metadata of its record. -/
def listedMeta : AptPackageMeta := debMeta p.control p.distribution p.component (i.sha256 p.content)

/-- The fields that are read of its stanza. -/
def listedFields : SortedMap String String :=
  Depot.controlFields x (packagesStanza (p.listedMeta i) p.content.length p.path)

/-- The stanza has every field of the control file, with its value, and where the package is. -/
structure Keeps : Prop where
  fields : ∀ k v, p.controlFields.get k = some v → (p.listedFields i).get k = some v
  filename : (p.listedFields i).get "filename" = some (stanzaFilename p.path)
  size : (p.listedFields i).get "size" = some (toString p.content.length)
  sha256 : (p.listedFields i).get "sha256" = some (i.sha256 p.content)

/-- A field of the control file that the stanza keeps: one of those that are always written, one
    of those that are written if they say something, or one that says what is known of the file;
    no line that goes on with it ends with a carriage return. -/
structure FieldKept (k v : String) : Prop where
  listed : k ∈ ["package", "version", "architecture", "priority"] ∨
    (k ∈ ["maintainer", "depends", "section", "description"] ∧ v ≠ "") ∨
    (k = "installed-size" ∧ v ≠ "" ∧ v ≠ "0") ∨
    (k = "filename" ∧ v = stanzaFilename p.path) ∨
    (k = "size" ∧ v = toString p.content.length) ∨ (k = "sha256" ∧ v = i.sha256 p.content)
  noReturn : NoReturn v

/-- What the parser has taken from the fields. -/
theorem control_eq : p.controlFields.get "package" = some p.control.package ∧
    p.controlFields.get "version" = some p.control.version ∧
    p.controlFields.get "architecture" = some p.control.architecture ∧
    p.control.maintainer = (p.controlFields.get "maintainer").getD "" ∧
    p.control.depends = (p.controlFields.get "depends").getD "" ∧
    p.control.pkgSection = (p.controlFields.get "section").getD "" ∧
    p.control.priority = (p.controlFields.get "priority").getD "" ∧
    p.control.installedSize = (p.controlFields.get "installed-size").getD "" ∧
    p.control.description = (p.controlFields.get "description").getD "" := by
  have haccepted := p.accepted
  unfold parseControlFile at haccepted
  dsimp only at haccepted
  rw [controlFields]
  cases hpackage : (Depot.controlFields x p.text).get "package" with
  | none =>
    rw [hpackage] at haccepted
    cases haccepted
  | some package =>
    cases hversion : (Depot.controlFields x p.text).get "version" with
    | none =>
      rw [hpackage, hversion] at haccepted
      cases haccepted
    | some version =>
      cases harchitecture : (Depot.controlFields x p.text).get "architecture" with
      | none =>
        rw [hpackage, hversion, harchitecture] at haccepted
        cases haccepted
      | some architecture =>
        rw [hpackage, hversion, harchitecture] at haccepted
        have hcontrol := Except.ok.inj haccepted
        rw [← hcontrol]
        exact ⟨rfl, rfl, rfl, rfl, rfl, rfl, rfl, rfl, rfl⟩

/-! ### What is read -/

theorem noSpace_toString (n : ℕ) : NoSpace (toString n) := (noSpace_repr n).2

/-- Names without whitespace are read as they were written. -/
theorem rereadValue_of_noSpace (h : NoSpace value) : rereadValue value = value := by
  obtain ⟨hfirst, hown⟩ := firstLine_of_notMem h.newline
  refine rereadValue_eq_iff.mpr ⟨?_, ?_⟩
  · rw [hfirst, trimText, strip_of_none h, String.ofList_toList]
  · rw [NoReturn, hown]
    exact List.forall_mem_nil _

theorem noSpace_sha256 (data : Bytes) : NoSpace (i.sha256 data) :=
  fun c hc => isHex_noSpace (i.sha256_hex data c hc)

variable {i p}

/-- The value of a field, or nothing. -/
theorem continued_getD (k : String) : Continued ((p.controlFields.get k).getD "") := by
  cases h : p.controlFields.get k with
  | none => exact continued_of_notMem not_mem_nil
  | some v => exact (controlFields_folded h).others

/-- All values but the path can be read. -/
theorem continued_stanza (hf : f ∈ stanzaFields (p.listedMeta i) p.content.length p.path) :
    f = ("Filename", stanzaFilename p.path) ∨ Continued f.2 := by
  obtain ⟨h₁, h₂, h₃, h₄, h₅, h₆, h₇, h₈, h₉⟩ := p.control_eq
  have hsome : ∀ {k v : String}, p.controlFields.get k = some v → Continued v :=
    fun h => (controlFields_folded h).others
  have hget : ∀ {k v : String}, v = (p.controlFields.get k).getD "" → Continued v :=
    fun h => h ▸ continued_getD _
  rcases mem_stanzaFields.mp hf with rfl | rfl | rfl | ⟨-, rfl⟩ | ⟨-, rfl⟩ | ⟨-, rfl⟩ | rfl |
    ⟨-, -, rfl⟩ | rfl | rfl | rfl | ⟨-, rfl⟩
  · exact .inr (hsome h₁)
  · exact .inr (hsome h₂)
  · exact .inr (hsome h₃)
  · exact .inr (hget h₄)
  · exact .inr (hget h₅)
  · exact .inr (hget h₆)
  · exact .inr (hget h₇)
  · exact .inr (hget h₈)
  · exact .inl rfl
  · exact .inr (continued_of_notMem (noSpace_toString _).newline)
  · exact .inr (continued_of_notMem (noSpace_sha256 i _).newline)
  · exact .inr (hget h₉)

theorem label_of_mem (hf : f ∈ stanzaFields (p.listedMeta i) p.content.length p.path) :
    PlainLabel f.1 ∧ x.toLowercase f.1 ∈ stanzaKeys := by
  have hlabel : f.1 ∈ stanzaLabels :=
    (stanzaFields_labels _ _ _).subset (mem_map_of_mem hf)
  exact ⟨plainLabel_of_mem hlabel, toLowercase_labels (x := x) ▸ mem_map_of_mem hlabel⟩

theorem key_ne_empty {key : String} (h : key ∈ stanzaKeys) : key ≠ "" := by
  rintro rfl
  exact absurd h (by decide +kernel)

/-- The fields that are read, if the path can be read. -/
theorem listedFields_get_iff (hpath : Continued (stanzaFilename p.path)) (k v : String) :
    (p.listedFields i).get k = some v ↔ ∃ f ∈ stanzaFields (p.listedMeta i) p.content.length p.path,
        x.toLowercase f.1 = k ∧ rereadValue f.2 = v := by
  have hfields : ∀ f ∈ stanzaFields (p.listedMeta i) p.content.length p.path,
      PlainLabel f.1 ∧ x.toLowercase f.1 ≠ "" ∧ Continued f.2 := by
    intro f hf
    obtain ⟨hlabel, hkey⟩ := label_of_mem hf
    refine ⟨hlabel, key_ne_empty hkey, ?_⟩
    rcases continued_stanza hf with rfl | hcont
    · exact hpath
    · exact hcont
  rw [listedFields, Depot.controlFields, packagesStanza_eq, textLines_fields,
    get_fold_fields hfields (nodup_stanza _ _ _)]
  simp

/-- A path that cannot be read is not what is read for it. -/
theorem filename_cut (hpath : ¬ Continued (stanzaFilename p.path)) :
    ∃ w, (p.listedFields i).get "filename" = some w ∧ w.length < (stanzaFilename p.path).length := by
  obtain ⟨-, -, -, -, -, -, -, -, hkey, -⟩ := toLowercase_keys (x := x)
  have hlabel : PlainLabel "Filename" := plainLabel_of_mem (by decide)
  have hothers : ∃ l ∈ ownLines (stanzaFilename p.path), isContinuation l = false := by
    by_contra hnone
    exact hpath fun l hl => by
      rw [← Bool.not_eq_false]
      exact fun hl' => hnone ⟨l, hl, hl'⟩
  have hnodup := nodup_stanza (x := x) (p.listedMeta i) p.content.length p.path
  rw [stanzaFields, map_append, map_cons] at hnodup
  obtain ⟨hnot, htail⟩ := nodup_cons.mp (nodup_append.mp hnodup).2.1
  have hfields : ∀ f ∈ stanzaTail (p.listedMeta i) p.content.length,
      PlainLabel f.1 ∧ x.toLowercase f.1 ≠ "" ∧ Continued f.2 := by
    intro f hf
    have hmem : f ∈ stanzaFields (p.listedMeta i) p.content.length p.path :=
      mem_append_right _ (mem_cons_of_mem _ hf)
    obtain ⟨hplain, hkey'⟩ := label_of_mem hmem
    refine ⟨hplain, key_ne_empty hkey', ?_⟩
    rcases continued_stanza hmem with rfl | hcont
    · exact absurd (mem_map_of_mem hf) hnot
    · exact hcont
  rw [listedFields, Depot.controlFields, packagesStanza_eq, textLines_fields, stanzaFields,
    flatMap_append, flatMap_cons, map_append, map_append, List.foldl_append,
    List.foldl_append]
  obtain ⟨w, hget, hlen⟩ := @fold_field_shorter x ("Filename", stanzaFilename p.path) hlabel hothers
    (((stanzaHead (p.listedMeta i)).flatMap fun f => linesOf (fieldText f)).map chomp |>.foldl
      (controlStep x) ⟨.empty, ""⟩)
  rw [hkey] at hget hnot
  exact ⟨w, (get_fold_fields hfields htail _ _ _).mpr (.inr ⟨hnot, hget⟩), hlen⟩

/-- The path that is read, if it can be read. -/
theorem filename_get (hpath : Continued (stanzaFilename p.path)) :
    (p.listedFields i).get "filename" = some (rereadValue (stanzaFilename p.path)) := by
  obtain ⟨-, -, -, -, -, -, -, -, hkey, -⟩ := toLowercase_keys (x := x)
  exact (listedFields_get_iff hpath _ _).mpr ⟨("Filename", stanzaFilename p.path),
    mem_append_right _ mem_cons_self, hkey, rfl⟩

/-- When the path is read as it was written. -/
theorem filename_iff : (p.listedFields i).get "filename" = some (stanzaFilename p.path) ↔
    Folded (stanzaFilename p.path) ∧ NoReturn (stanzaFilename p.path) := by
  constructor
  · intro h
    by_cases hpath : Continued (stanzaFilename p.path)
    · rw [filename_get hpath, Option.some_inj, rereadValue_eq_iff] at h
      exact ⟨⟨h.1, hpath⟩, h.2⟩
    · obtain ⟨w, hget, hlen⟩ := filename_cut (i := i) hpath
      rw [h] at hget
      rw [Option.some.inj hget] at hlen
      exact absurd hlen (lt_irrefl _)
  · rintro ⟨hfolded, hreturn⟩
    rw [filename_get hfolded.others, rereadValue_eq_iff.mpr ⟨hfolded.first, hreturn⟩]

/-- A field of the control file is read from the stanza if and only if the stanza keeps it. -/
theorem field_iff (hfolded : Folded (stanzaFilename p.path)) (hreturn : NoReturn (stanzaFilename p.path))
    {k v : String} (hfield : p.controlFields.get k = some v) :
    (p.listedFields i).get k = some v ↔ FieldKept i p k v := by
  obtain ⟨h₁, h₂, h₃, h₄, h₅, h₆, h₇, h₈, h₉⟩ := p.control_eq
  have hread : NoReturn v → rereadValue v = v := fun hv =>
    rereadValue_eq_iff.mpr ⟨(controlFields_folded hfield).first, hv⟩
  have hpath := rereadValue_eq_iff.mpr ⟨hfolded.first, hreturn⟩
  obtain ⟨k₁, k₂, k₃, k₄, k₅, k₆, k₇, k₈, k₉, k₁₀, k₁₁, k₁₂⟩ := toLowercase_keys (x := x)
  have hget : ∀ {value : String}, value = (p.controlFields.get k).getD "" → value = v := by
    intro value hvalue
    rw [hvalue, hfield, Option.getD_some]
  have hsome : ∀ {value : String}, p.controlFields.get k = some value → value = v := by
    intro value hvalue
    rw [hfield] at hvalue
    exact (Option.some.inj hvalue).symm
  rw [listedFields_get_iff hfolded.others]
  constructor
  · rintro ⟨f, hf, hkey, hval⟩
    -- Whichever field it is, its value is the one of the control file.
    have hkept : f.2 = v → NoReturn v := fun heq =>
      (rereadValue_eq_iff.mp (heq ▸ hval : rereadValue v = v)).2
    rcases mem_stanzaFields.mp hf with rfl | rfl | rfl | ⟨hne, rfl⟩ | ⟨hne, rfl⟩ | ⟨hne, rfl⟩ |
      rfl | ⟨hne, hne', rfl⟩ | rfl | rfl | rfl | ⟨hne, rfl⟩
    · obtain rfl := k₁.symm.trans hkey
      exact ⟨.inl (by simp), hkept (hsome h₁)⟩
    · obtain rfl := k₂.symm.trans hkey
      exact ⟨.inl (by simp), hkept (hsome h₂)⟩
    · obtain rfl := k₃.symm.trans hkey
      exact ⟨.inl (by simp), hkept (hsome h₃)⟩
    · obtain rfl := k₄.symm.trans hkey
      exact ⟨.inr (.inl ⟨by simp, hget h₄ ▸ hne⟩), hkept (hget h₄)⟩
    · obtain rfl := k₅.symm.trans hkey
      exact ⟨.inr (.inl ⟨by simp, hget h₅ ▸ hne⟩), hkept (hget h₅)⟩
    · obtain rfl := k₆.symm.trans hkey
      exact ⟨.inr (.inl ⟨by simp, hget h₆ ▸ hne⟩), hkept (hget h₆)⟩
    · obtain rfl := k₇.symm.trans hkey
      exact ⟨.inl (by simp), hkept (hget h₇)⟩
    · obtain rfl := k₈.symm.trans hkey
      exact ⟨.inr (.inr (.inl ⟨rfl, hget h₈ ▸ hne', hget h₈ ▸ hne⟩)), hkept (hget h₈)⟩
    · obtain rfl := k₉.symm.trans hkey
      have heq := hpath.symm.trans hval
      exact ⟨.inr (.inr (.inr (.inl ⟨rfl, heq.symm⟩))), hkept heq⟩
    · obtain rfl := k₁₀.symm.trans hkey
      have heq := (rereadValue_of_noSpace (noSpace_toString _)).symm.trans hval
      exact ⟨.inr (.inr (.inr (.inr (.inl ⟨rfl, heq.symm⟩)))), hkept heq⟩
    · obtain rfl := k₁₁.symm.trans hkey
      have heq := (rereadValue_of_noSpace (noSpace_sha256 i _)).symm.trans hval
      exact ⟨.inr (.inr (.inr (.inr (.inr ⟨rfl, heq.symm⟩)))), hkept heq⟩
    · obtain rfl := k₁₂.symm.trans hkey
      exact ⟨.inr (.inl ⟨by simp, hget h₉ ▸ hne⟩), hkept (hget h₉)⟩
  · rintro ⟨hlisted, hv⟩
    have hfound : ∀ {label : String}, x.toLowercase label = k →
        (label, v) ∈ stanzaFields (p.listedMeta i) p.content.length p.path →
        ∃ f ∈ stanzaFields (p.listedMeta i) p.content.length p.path,
          x.toLowercase f.1 = k ∧ rereadValue f.2 = v :=
      fun hkey hmem => ⟨_, hmem, hkey, hread hv⟩
    simp only [mem_stanzaFields, listedMeta, debMeta] at hfound ⊢
    rcases hlisted with hk | ⟨hk, hne⟩ | ⟨rfl, hne, hne'⟩ | ⟨rfl, rfl⟩ | ⟨rfl, rfl⟩ | ⟨rfl, rfl⟩
    · simp only [mem_cons, not_mem_nil, or_false] at hk
      rcases hk with rfl | rfl | rfl | rfl
      · exact hfound k₁ (by simp [hsome h₁])
      · exact hfound k₂ (by simp [hsome h₂])
      · exact hfound k₃ (by simp [hsome h₃])
      · exact hfound k₇ (by simp [hget h₇])
    · simp only [mem_cons, not_mem_nil, or_false] at hk
      rcases hk with rfl | rfl | rfl | rfl
      · exact hfound k₄ (by simp [hget h₄, hne])
      · exact hfound k₅ (by simp [hget h₅, hne])
      · exact hfound k₆ (by simp [hget h₆, hne])
      · exact hfound k₁₂ (by simp [hget h₉, hne])
    · exact hfound k₈ (by simp [hget h₈, hne, hne'])
    · exact hfound k₉ (by simp)
    · exact hfound k₁₀ (by simp)
    · exact hfound k₁₁ (by simp)

/-- The stanza of a package keeps its control data if and only if each field of the control file is
    one that it keeps, and the path is read as it was written. -/
theorem stanza_keeps_iff (i : IndexExt) (p : ListedDeb x) : p.Keeps i ↔
    (∀ k v, p.controlFields.get k = some v → FieldKept i p k v) ∧
      Folded (stanzaFilename p.path) ∧ NoReturn (stanzaFilename p.path) := by
  constructor
  · intro h
    obtain ⟨hfolded, hreturn⟩ := filename_iff.mp h.filename
    exact ⟨fun k v hfield => (field_iff hfolded hreturn hfield).mp (h.fields k v hfield),
      hfolded, hreturn⟩
  · rintro ⟨hfields, hfolded, hreturn⟩
    obtain ⟨-, -, -, -, -, -, -, -, -, hsize, hsha, -⟩ := toLowercase_keys (x := x)
    refine ⟨fun k v hfield => (field_iff hfolded hreturn hfield).mpr (hfields k v hfield),
      filename_iff.mpr ⟨hfolded, hreturn⟩, ?_, ?_⟩
    · exact (listedFields_get_iff hfolded.others _ _).mpr ⟨("Size", toString p.content.length),
        mem_stanzaFields.mpr (by simp), hsize, rereadValue_of_noSpace (noSpace_toString _)⟩
    · exact (listedFields_get_iff hfolded.others _ _).mpr ⟨("SHA256", i.sha256 p.content),
        mem_stanzaFields.mpr (by simp [listedMeta, debMeta]), hsha,
        rereadValue_of_noSpace (noSpace_sha256 i _)⟩

end ListedDeb

/-! ## A field that is lost -/

/-- ASCII letters only. -/
def LowerExt.ascii : LowerExt where
  toLowercase s := String.ofList (s.toList.map Char.toLower)
  toLowercase_ascii _ _ := rfl

/-- A package that provides another one. -/
def providesText : String := "Package: a\nVersion: 1\nArchitecture: all\nProvides: b\n"

def providesControl : DebControl where
  package := "a"
  version := "1"
  architecture := "all"
  maintainer := ""
  depends := ""
  pkgSection := ""
  priority := ""
  installedSize := ""
  description := ""
  fullControl := providesText

def providesFields : SortedMap String String :=
  ⟨[("architecture", "all"), ("package", "a"), ("provides", "b"), ("version", "1")], by decide⟩

theorem providesText_fields : controlFields .ascii providesText = providesFields :=
  SortedMap.ext_entries (by decide +kernel)

/-- The package as it is stored. -/
def providesDeb : ListedDeb .ascii where
  text := providesText
  control := providesControl
  accepted := by
    rw [parseControlFile, providesText_fields]
    rfl
  distribution := "stable"
  component := "main"
  path := "pool/main/a/a/a.deb"
  content := []

/-- It is listed without the field. -/
theorem provides_lost : ¬ providesDeb.Keeps .sample := by
  intro h
  have hprovides : providesDeb.controlFields.get "provides" = some "b" := by
    rw [ListedDeb.controlFields, providesDeb, providesText_fields]
    decide
  have hkept := h.fields "provides" "b" hprovides
  have hpath := (ListedDeb.filename_iff.mp h.filename).1
  rw [ListedDeb.listedFields_get_iff hpath.others] at hkept
  obtain ⟨f, hf, hkey, -⟩ := hkept
  have hmem := (ListedDeb.label_of_mem hf).2
  rw [hkey] at hmem
  exact absurd hmem (by decide)

end Depot
