import Depot.Go.Modules
import Depot.Lib.Pep440

/-!
# Versions in the file names of Python packages

A cache of Python packages takes the version of a file from its name
(`extract_version_from_filename` of `format/pypi/src/store.rs`, lines 751–781). The name is
normalized before the version is cut out of it, which turns the dots of the version into dashes;
for a wheel the version ends at the first of them.

Results:
* `extract_sdist`, `extract_wheel`: what is cut out.
* `recovered_iff`: the versions of files are recovered if and only if each release has one
  number, and the version of a wheel has no dots.
* `dotted_lost`: of `2.3.1` only `2` is read from the name of a wheel.
-/

namespace Depot.Pypi

open Lib Lib.Pep440 List
open Nat (toDigits)
open String (ofList toList_ofList)

/-- Facts about all characters of a list are decided on the list. -/
local instance (priority := 2000) decidableNameChars (p : Char → Prop) [DecidablePred p]
    (l : List Char) : Decidable (∀ c ∈ l, p c) := List.decidableBAll p l

/-! ## The code -/

/-- `str::to_lowercase`, as far as it is used: on ASCII texts. -/
def LowersAscii (toLowercase : String → String) : Prop :=
  ∀ s, (∀ c ∈ s.toList, c.toNat < 128) → (toLowercase s).toList = s.toList.map Char.toLower

/-- The loop of `normalize_name`: a run of separators becomes one dash. -/
def collapseSeps : Bool → List Char → List Char
  | _, [] => []
  | prevSep, c :: cs =>
      if isSep c then
        if prevSep then collapseSeps true cs else '-' :: collapseSeps true cs
      else c :: collapseSeps false cs

section

variable (toLowercase : String → String)

/-- `normalize_name` (lines 80–97). -/
def normalizeName (name : String) : String :=
  ofList (collapseSeps false (toLowercase name).toList)

/-- The name of a file without its ending. -/
def fileStem (filename : String) : String :=
  (((stripSuffix ".whl".toList filename.toList).or
    (stripSuffix ".tar.gz".toList filename.toList)).or
    (stripSuffix ".zip".toList filename.toList)).elim filename ofList

/-- `str::strip_prefix`. -/
def stripStart (start cs : List Char) : Option (List Char) :=
  if start.isPrefixOf cs then some (cs.drop start.length) else none

/-- `extract_version_from_filename` (lines 753–781). -/
def extractVersionFromFilename (project filename : String) : String :=
  match stripStart (normalizeName toLowercase project).toList
      (normalizeName toLowercase (fileStem filename)).toList with
  | some ('-' :: ver) =>
      if ".whl".toList <:+ filename.toList then ofList (ver.takeWhile (· ≠ '-'))
      else ofList ver
  | _ => "unknown"

end

/-! ## File names -/

/-- A name of a project, in any spelling. -/
structure DistName where
  chars : List Char
  valid : ∀ c ∈ chars, c.isAlphanum = true ∨ isSep c = true
  last : ∃ front c, chars = front ++ [c] ∧ isSep c = false

/-- What a file is: sources in one of two formats, or a wheel with its tags. -/
inductive DistKind where
  | sdist (zip : Bool)
  | wheel (tags : List Char) (h : ∀ c ∈ tags, c.toNat < 128)

/-- What the name of a file ends with, after the stem. -/
def DistKind.ext : DistKind → List Char
  | .sdist false => ".tar.gz".toList
  | .sdist true => ".zip".toList
  | .wheel .. => ".whl".toList

/-- What follows the version. -/
def DistKind.tail : DistKind → List Char
  | .sdist _ => []
  | .wheel tags _ => '-' :: tags

/-- A file of a project, as the standard tools name it. -/
structure DistFile where
  name : DistName
  version : Pep440
  kind : DistKind

/-- The file name without its extension. -/
def DistFile.stem (f : DistFile) : List Char :=
  f.name.chars ++ '-' :: (f.version.spell '.' ++ f.kind.tail)

/-- The name of the file. -/
def DistFile.fileName (f : DistFile) : String := ofList (f.stem ++ f.kind.ext)

/-- The files belong to a project: their names for it are spellings of its name. -/
def OfProject (toLowercase : String → String) (project : String) (files : List DistFile) : Prop :=
  ∀ f ∈ files, normalizeName toLowercase (ofList f.name.chars) =
    normalizeName toLowercase project

/-- The versions that are read from the names are those of the files, however they are spelled,
    and distinct versions are read as distinct texts. -/
structure Recovered (toLowercase : String → String) (project : String) (files : List DistFile) :
    Prop where
  version : ∀ f ∈ files,
    parse (extractVersionFromFilename toLowercase project f.fileName).toList = some f.version
  distinct : ∀ f ∈ files, ∀ g ∈ files, f.version ≠ g.version →
    extractVersionFromFilename toLowercase project f.fileName ≠
      extractVersionFromFilename toLowercase project g.fileName

/-- A release of one number, and for a wheel no further dot. -/
def DistFile.Kept (f : DistFile) : Prop :=
  f.version.rest = [] ∧ match f.kind with
    | .sdist _ => True
    | .wheel .. => f.version.post = none ∧ f.version.dev = none ∧ f.version.loc.length ≤ 1

/-! ## Collapsing -/

variable {c : Char}

theorem collapseSeps_append {front cs : List Char} (hc : isSep c = false) (b : Bool) :
    collapseSeps b (front ++ c :: cs) = collapseSeps b (front ++ [c]) ++ collapseSeps false cs := by
  induction front generalizing b with
  | nil => simp [collapseSeps, hc]
  | cons d front ih =>
    simp only [cons_append, collapseSeps, ih]
    split_ifs <;> rfl

variable {word : List Char}

/-- A text without separators is kept. -/
theorem collapseSeps_word (hne : word ≠ []) (h : ∀ c ∈ word, isSep c = false)
    (b : Bool) (cs : List Char) : collapseSeps b (word ++ cs) = word ++ collapseSeps false cs := by
  induction word generalizing b with
  | nil => exact absurd rfl hne
  | cons c word ih =>
    obtain ⟨hc, hword⟩ := forall_mem_cons.mp h
    have hstep : collapseSeps b (c :: word ++ cs) = c :: collapseSeps false (word ++ cs) := by
      simp [collapseSeps, hc]
    rw [hstep]
    by_cases hnil : word = []
    · rw [hnil]
      rfl
    · rw [ih hnil hword]
      rfl

theorem collapseSeps_dot (cs : List Char) :
    collapseSeps false ('.' :: cs) = '-' :: collapseSeps true cs := rfl

theorem dot_notMem_collapseSeps (b : Bool) (cs : List Char) : '.' ∉ collapseSeps b cs := by
  induction cs generalizing b with
  | nil => exact not_mem_nil
  | cons c cs ih =>
    rw [collapseSeps]
    split_ifs with hc hb
    · exact ih true
    · exact fun hmem => (mem_cons.mp hmem).elim (by decide) (ih true)
    · refine fun hmem => (mem_cons.mp hmem).elim ?_ (ih false)
      rintro rfl
      exact hc rfl

/-- What stands before the first dash. -/
theorem takeWhile_collapseSeps (cs : List Char) :
    (collapseSeps false cs).takeWhile (· ≠ '-') = cs.takeWhile (fun c => !isSep c) := by
  induction cs with
  | nil => rfl
  | cons c cs ih =>
    rw [collapseSeps]
    by_cases hc : isSep c = true
    · simp [hc]
    · have hdash : c ≠ '-' := by
        rintro rfl
        exact hc rfl
      simp only [hc, if_false, Bool.false_eq_true, takeWhile_cons, ne_eq, hdash,
        not_false_eq_true, decide_true, if_true, Bool.not_false, ih]

/-! ## Versions in a name -/

theorem notSep_of_isDigit (h : c.isDigit = true) : isSep c = false := by
  rw [Bool.eq_false_iff]
  intro hsep
  rw [isDigit_of_isSep hsep] at h
  cases h

theorem notSep_digits (n : ℕ) : ∀ c ∈ toDigits 10 n, isSep c = false := fun _ hc =>
  notSep_of_isDigit (isDigit_of_mem_digits hc)

theorem notSep_pre (kind : PreKind) (n : ℕ) :
    ∀ c ∈ kind.chars ++ toDigits 10 n, isSep c = false := by
  refine forall_mem_append.mpr ⟨?_, notSep_digits n⟩
  cases kind <;> decide

theorem LocalSeg.chars_ne_nil (seg : LocalSeg) : seg.chars ≠ [] := by
  cases seg with
  | number n => exact Nat.toDigits_ne_nil
  | word chars h =>
    rintro rfl
    cases h.2

/-- The dot before a word becomes a dash. -/
theorem collapseSeps_marked (hword : ∀ c ∈ word, isSep c = false) (n : Option ℕ) (cs : List Char) :
    collapseSeps false (marked ('.' :: word) n ++ cs) =
      marked ('-' :: word) n ++ collapseSeps false cs := by
  cases n with
  | none => rfl
  | some n =>
    have hplain : ∀ c ∈ word ++ toDigits 10 n, isSep c = false :=
      forall_mem_append.mpr ⟨hword, notSep_digits n⟩
    have hne : word ++ toDigits 10 n ≠ [] :=
      append_ne_nil_of_right_ne_nil _ Nat.toDigits_ne_nil
    rw [marked, cons_append, cons_append, collapseSeps_dot, collapseSeps_word hne hplain]
    rfl

theorem collapseSeps_segs (seg : LocalSeg) (segs : List LocalSeg) (b : Bool) :
    collapseSeps b (['.'].intercalate ((seg :: segs).map LocalSeg.chars)) =
      ['-'].intercalate ((seg :: segs).map LocalSeg.chars) := by
  induction segs generalizing seg b with
  | nil =>
    have hword := collapseSeps_word (LocalSeg.chars_ne_nil seg) notSep_of_mem_seg b []
    simpa [collapseSeps] using hword
  | cons next segs ih =>
    rw [map_cons, intercalate_cons_of_ne_nil (by simp), append_assoc,
      singleton_append, collapseSeps_word (LocalSeg.chars_ne_nil seg) notSep_of_mem_seg,
      collapseSeps_dot, ih, intercalate_cons_of_ne_nil (by simp), append_assoc,
      singleton_append]

theorem collapseSeps_preText (v : Pep440) : collapseSeps false (v.preText '.') = v.preText '-' := by
  have hlocal : collapseSeps false (localText '.' v.loc) = localText '-' v.loc := by
    cases v.loc with
    | nil => rfl
    | cons seg segs => exact congrArg (List.cons '+') (collapseSeps_segs seg segs false)
  have hpost : collapseSeps false (v.postText '.') = v.postText '-' := by
    rw [postText, devText, collapseSeps_marked (by decide), collapseSeps_marked (by decide),
      hlocal, postText, devText]
  rw [preText, preText]
  cases v.pre with
  | none => exact hpost
  | some p =>
    obtain ⟨kind, n⟩ := p
    have hne : kind.chars ++ toDigits 10 n ≠ [] :=
      append_ne_nil_of_right_ne_nil _ Nat.toDigits_ne_nil
    rw [collapseSeps_word hne (notSep_pre kind n), hpost]

/-- The epoch and the first number of a release. -/
def startText (v : Pep440) : List Char :=
  (if v.epoch = 0 then [] else toDigits 10 v.epoch ++ ['!']) ++ toDigits 10 v.first

theorem spell_eq (sep : Char) (v : Pep440) : v.spell sep = startText v ++ v.restText sep :=
  (append_assoc _ _ _).symm

theorem notSep_startText (v : Pep440) : ∀ c ∈ startText v, isSep c = false := by
  refine forall_mem_append.mpr ⟨?_, notSep_digits v.first⟩
  split_ifs
  · exact nofun
  · exact forall_mem_append.mpr ⟨notSep_digits v.epoch, by decide⟩

theorem startText_ne_nil (v : Pep440) : startText v ≠ [] :=
  append_ne_nil_of_right_ne_nil _ Nat.toDigits_ne_nil

/-- A version with one number in its release is spelled with dashes. -/
theorem collapseSeps_spell {v : Pep440} (h : v.rest = []) :
    collapseSeps true (v.spell '.') = v.spell '-' := by
  rw [spell_eq, spell_eq, collapseSeps_word (startText_ne_nil v) (notSep_startText v), restText,
    restText, h, flatMap_nil, nil_append, nil_append, collapseSeps_preText]

/-- A version up to the first dot of its spelling. -/
def cutVersion (v : Pep440) : Pep440 :=
  if v.rest ≠ [] then { epoch := v.epoch, first := v.first }
  else if v.post.isSome || v.dev.isSome then { epoch := v.epoch, first := v.first, pre := v.pre }
  else { epoch := v.epoch, first := v.first, pre := v.pre, loc := v.loc.take 1 }

theorem takeWhile_word (h : ∀ c ∈ word, isSep c = false) (cs : List Char) :
    (word ++ cs).takeWhile (fun c => !isSep c) = word ++ cs.takeWhile (fun c => !isSep c) :=
  takeWhile_append_of_pos fun c hc => by rw [h c hc]; rfl

theorem takeWhile_dot (cs : List Char) : ('.' :: cs).takeWhile (fun c => !isSep c) = [] := rfl

theorem takeWhile_localText (segs : List LocalSeg) :
    (localText '.' segs).takeWhile (fun c => !isSep c) = localText '.' (segs.take 1) := by
  cases segs with
  | nil => rfl
  | cons seg segs =>
    have hseg : (['.'].intercalate ((seg :: segs).map LocalSeg.chars)).takeWhile
        (fun c => !isSep c) = seg.chars := by
      cases segs with
      | nil =>
        have hword : ∀ c ∈ seg.chars, isSep c = false := notSep_of_mem_seg
        simpa using takeWhile_word hword []
      | cons next segs =>
        rw [map_cons, intercalate_cons_of_ne_nil (by simp), append_assoc,
          takeWhile_word notSep_of_mem_seg, singleton_append, takeWhile_dot, append_nil]
    rw [localText, takeWhile_cons_of_pos rfl, hseg]
    · simp [localText]
    · exact cons_ne_nil seg segs

theorem takeWhile_postText (v : Pep440) : (v.postText '.').takeWhile (fun c => !isSep c) =
    if v.post.isSome || v.dev.isSome then [] else localText '.' (v.loc.take 1) := by
  rw [postText, devText]
  cases v.post with
  | some n => rfl
  | none =>
    cases v.dev with
    | some n => rfl
    | none => exact takeWhile_localText v.loc

/-- What stands before the first dot of a spelling. -/
theorem takeWhile_spell (v : Pep440) :
    (v.spell '.').takeWhile (fun c => !isSep c) = (cutVersion v).spell '.' := by
  have hstart : startText (cutVersion v) = startText v := by
    unfold cutVersion
    split_ifs <;> rfl
  rw [spell_eq, spell_eq, takeWhile_word (notSep_startText v), hstart]
  congr 1
  cases hrest : v.rest with
  | cons n ns =>
    rw [restText, hrest, flatMap_cons, cons_append, cons_append, takeWhile_dot,
      cutVersion, if_pos (by rw [hrest]; exact cons_ne_nil n ns)]
    rfl
  | nil =>
    have htail := takeWhile_postText v
    rw [restText, hrest, flatMap_nil, nil_append, preText, cutVersion, if_neg (not_not.mpr hrest)]
    cases hmarks : v.post.isSome || v.dev.isSome with
    | true =>
      rw [hmarks, if_pos rfl] at htail
      cases hp : v.pre with
      | none => exact htail
      | some p => exact (takeWhile_word (notSep_pre p.1 p.2) _).trans (by rw [htail]; rfl)
    | false =>
      rw [hmarks, if_neg Bool.false_ne_true] at htail
      cases hp : v.pre with
      | none => exact htail
      | some p => exact (takeWhile_word (notSep_pre p.1 p.2) _).trans (by rw [htail]; rfl)

/-- A version has no dots if and only if nothing is cut off. -/
theorem cutVersion_eq_iff (v : Pep440) : cutVersion v = v ↔
    v.rest = [] ∧ v.post = none ∧ v.dev = none ∧ v.loc.length ≤ 1 := by
  obtain ⟨epoch, first, rest, pre, post, dev, loc⟩ := v
  unfold cutVersion
  cases rest with
  | cons n ns => simp
  | nil =>
    cases post with
    | some n => simp
    | none =>
      cases dev with
      | some n => simp
      | none => cases loc <;> simp [eq_comm]

/-! ## The characters of a name -/

/-- Characters that are ASCII and in lower case. -/
def isPlainChar (c : Char) : Bool := decide (c.toNat < 128) && c.toLower = c

/-- A property of the first 128 characters. -/
theorem ascii_cases {P : Char → Prop} (h : ∀ n : Fin 128, P (Char.ofNat n)) (c : Char)
    (hc : c.toNat < 128) : P c := by
  have hn := h ⟨c.toNat, hc⟩
  rwa [Char.ofNat_toNat] at hn

theorem isPlainChar_of_isLocalChar (h : isLocalChar c = true) : isPlainChar c = true := by
  have hbound : c.toNat < 128 := by
    have h9 : '9'.val.toNat = 57 := rfl
    have hz : 'z'.val.toNat = 122 := rfl
    unfold isLocalChar Char.isDigit Char.isLower at h
    simp only [Bool.or_eq_true, Bool.and_eq_true, decide_eq_true_eq, UInt32.le_iff_toNat_le] at h
    rw [Char.toNat]
    omega
  revert h
  exact ascii_cases (P := fun c => isLocalChar c = true → isPlainChar c = true) (by decide) c hbound

theorem isPlainChar_spell (v : Pep440) : ∀ c ∈ v.spell '.', isPlainChar c = true := by
  have hdigits : ∀ n : ℕ, ∀ c ∈ toDigits 10 n, isPlainChar c = true := fun n c hc =>
    isPlainChar_of_isLocalChar (by simp [isLocalChar, isDigit_of_mem_digits hc])
  have hmarked : ∀ start : List Char, (∀ c ∈ start, isPlainChar c = true) → ∀ n : Option ℕ,
      ∀ c ∈ marked start n, isPlainChar c = true := by
    intro start hstart n
    cases n with
    | none => exact forall_mem_nil _
    | some n => exact forall_mem_append.mpr ⟨hstart, hdigits n⟩
  have hseg : ∀ seg : LocalSeg, ∀ c ∈ seg.chars, isPlainChar c = true := by
    intro seg
    cases seg with
    | number n => exact hdigits n
    | word chars h =>
      exact fun c hc => isPlainChar_of_isLocalChar (all_eq_true.mp h.1 c hc)
  have hlocal : ∀ c ∈ localText '.' v.loc, isPlainChar c = true := by
    cases v.loc with
    | nil => exact forall_mem_nil _
    | cons seg segs =>
      refine forall_mem_cons.mpr ⟨by decide, fun c hc => ?_⟩
      rcases mem_intercalate hc with rfl | ⟨part, hpart, hmem⟩
      · decide
      · obtain ⟨seg', -, rfl⟩ := mem_map.mp hpart
        exact hseg seg' c hmem
  have hpre : ∀ c ∈ v.preText '.', isPlainChar c = true := by
    refine forall_mem_append.mpr ⟨?_, forall_mem_append.mpr
      ⟨hmarked _ (by decide) v.post, forall_mem_append.mpr
        ⟨hmarked _ (by decide) v.dev, hlocal⟩⟩⟩
    cases v.pre with
    | none => exact forall_mem_nil _
    | some p =>
      obtain ⟨kind, n⟩ := p
      refine forall_mem_append.mpr ⟨?_, hdigits n⟩
      cases kind <;> decide
  have hrest : ∀ c ∈ v.rest.flatMap fun n => '.' :: toDigits 10 n, isPlainChar c = true := by
    intro c hc
    obtain ⟨n, -, hmem⟩ := mem_flatMap.mp hc
    rcases mem_cons.mp hmem with rfl | hmem
    · decide
    · exact hdigits n c hmem
  refine forall_mem_append.mpr ⟨?_, forall_mem_append.mpr
    ⟨hdigits v.first, forall_mem_append.mpr ⟨hrest, hpre⟩⟩⟩
  split_ifs
  · exact forall_mem_nil _
  · exact forall_mem_append.mpr ⟨hdigits v.epoch, by decide⟩

theorem map_toLower_spell (v : Pep440) : (v.spell '.').map Char.toLower = v.spell '.' := by
  conv_rhs => rw [← map_id (v.spell '.')]
  refine map_congr_left fun c hc => ?_
  have hplain := isPlainChar_spell v c hc
  rw [isPlainChar, Bool.and_eq_true, decide_eq_true_eq] at hplain
  exact of_decide_eq_true hplain.2

theorem toNat_lt_of_plain (h : isPlainChar c = true) : c.toNat < 128 := by
  rw [isPlainChar, Bool.and_eq_true, decide_eq_true_eq] at h
  exact h.1

theorem DistName.ascii (name : DistName) : ∀ c ∈ name.chars, c.toNat < 128 := by
  intro c hc
  rcases name.valid c hc with h | h
  · have h9 : '9'.val.toNat = 57 := rfl
    have hz : 'z'.val.toNat = 122 := rfl
    have hZ : 'Z'.val.toNat = 90 := rfl
    unfold Char.isAlphanum Char.isAlpha Char.isDigit Char.isLower Char.isUpper at h
    simp only [Bool.or_eq_true, Bool.and_eq_true, decide_eq_true_eq, ge_iff_le,
      UInt32.le_iff_toNat_le] at h
    rw [Char.toNat]
    omega
  · rcases isSep_cases h with rfl | rfl | rfl <;> decide

theorem DistFile.stem_ascii (f : DistFile) : ∀ c ∈ f.stem, c.toNat < 128 := by
  refine forall_mem_append.mpr ⟨f.name.ascii, forall_mem_cons.mpr ⟨by decide,
    forall_mem_append.mpr
      ⟨fun c hc => toNat_lt_of_plain (isPlainChar_spell f.version c hc), ?_⟩⟩⟩
  cases f.kind with
  | sdist zip => exact nofun
  | wheel tags h => exact forall_mem_cons.mpr ⟨by decide, h⟩

/-! ## What is cut out -/

section

variable {toLowercase : String → String} {project : String} {f : DistFile}

theorem DistFile.toList_fileName (f : DistFile) : f.fileName.toList = f.stem ++ f.kind.ext :=
  toList_ofList

theorem fileStem_fileName (f : DistFile) : fileStem f.fileName = ofList f.stem := by
  have hlast : ∀ tail : List Char, tail ≠ [] → tail.getLast? ≠ f.kind.ext.getLast? →
      stripSuffix tail (f.stem ++ f.kind.ext) = none := by
    intro tail hne htail
    refine stripSuffix_ne ?_ hne
    rw [getLast?_append_of_ne_nil]
    · exact htail
    · cases f.kind with
      | sdist zip => cases zip <;> exact cons_ne_nil _ _
      | wheel tags h => exact cons_ne_nil _ _
  rw [fileStem, f.toList_fileName]
  cases hkind : f.kind with
  | wheel tags h => rw [DistKind.ext, stripSuffix_append, Option.some_or, Option.some_or]; rfl
  | sdist zip =>
    rw [hkind] at hlast
    cases zip with
    | false =>
      rw [hlast ".whl".toList (by decide) (by decide), DistKind.ext, stripSuffix_append]
      rfl
    | true =>
      rw [hlast ".whl".toList (by decide) (by decide), hlast ".tar.gz".toList (by decide)
        (by decide), DistKind.ext, stripSuffix_append]
      rfl

/-- The version and what follows it in the normalized name. -/
def normalTail (f : DistFile) : List Char :=
  collapseSeps true (f.version.spell '.' ++ f.kind.tail.map Char.toLower)

/-- The normalized name starts with that of the project. -/
theorem toList_normalizeName (hlower : LowersAscii toLowercase)
    (h : normalizeName toLowercase (ofList f.name.chars) =
      normalizeName toLowercase project) :
    (normalizeName toLowercase (fileStem f.fileName)).toList =
      (normalizeName toLowercase project).toList ++ '-' :: normalTail f := by
  obtain ⟨front, c, hname, hc⟩ := f.name.last
  have hascii : c.toNat < 128 := f.name.ascii c (by rw [hname]; simp)
  have hlast : isSep c.toLower = false := by
    revert hc
    exact ascii_cases (P := fun c => isSep c = false → isSep c.toLower = false) (by decide) c hascii
  have hpre : (normalizeName toLowercase project).toList =
      collapseSeps false (front.map Char.toLower ++ [c.toLower]) := by
    rw [← h, normalizeName, toList_ofList, hlower _ (by simpa using f.name.ascii),
      toList_ofList, hname, map_append]
    rfl
  have hstem : f.stem.map Char.toLower = front.map Char.toLower ++ c.toLower ::
      '-' :: (f.version.spell '.' ++ f.kind.tail.map Char.toLower) := by
    rw [DistFile.stem, hname]
    simp [map_toLower_spell]
  rw [normalizeName, fileStem_fileName, toList_ofList,
    hlower _ (by simpa using f.stem_ascii), toList_ofList, hstem,
    collapseSeps_append hlast, hpre]
  rfl

theorem stripStart_append (start cs : List Char) : stripStart start (start ++ cs) = some cs := by
  simp [stripStart]

section

variable (hlower : LowersAscii toLowercase)
variable (h : normalizeName toLowercase (ofList f.name.chars) = normalizeName toLowercase project)

include hlower h

theorem extract_eq : extractVersionFromFilename toLowercase project f.fileName =
      if ".whl".toList <:+ f.stem ++ f.kind.ext then
        ofList ((normalTail f).takeWhile (· ≠ '-'))
      else ofList (normalTail f) := by
  rw [extractVersionFromFilename, toList_normalizeName hlower h, stripStart_append,
    f.toList_fileName]
  rfl

/-- From the name of a source archive the version is cut out with dashes for dots. -/
theorem extract_sdist {zip : Bool} (hkind : f.kind = .sdist zip) :
    (extractVersionFromFilename toLowercase project f.fileName).toList =
      collapseSeps true (f.version.spell '.') := by
  have hext : ¬".whl".toList <:+ f.stem ++ f.kind.ext := by
    rintro ⟨front, hfront⟩
    have hlast := congrArg getLast? hfront
    rw [hkind] at hlast
    cases zip <;> simp [DistKind.ext] at hlast
  rw [extract_eq hlower h, if_neg hext, toList_ofList, normalTail, hkind]
  exact congrArg _ (append_nil _)

end

theorem takeWhile_append_dash (cs tags : List Char) :
    (cs ++ '-' :: tags).takeWhile (fun c => !isSep c) = cs.takeWhile (fun c => !isSep c) := by
  induction cs with
  | nil => rfl
  | cons c cs ih => rw [cons_append, takeWhile_cons, takeWhile_cons, ih]

section

variable (hlower : LowersAscii toLowercase)
variable (h : normalizeName toLowercase (ofList f.name.chars) = normalizeName toLowercase project)

include hlower h

/-- From the name of a wheel it is cut out up to its first dot. -/
theorem extract_wheel {tags : List Char} {htags} (hkind : f.kind = .wheel tags htags) :
    (extractVersionFromFilename toLowercase project f.fileName).toList =
      (cutVersion f.version).spell '.' := by
  have hext : ".whl".toList <:+ f.stem ++ f.kind.ext := by
    rw [hkind]
    exact List.suffix_append _ _
  have hstate : normalTail f = collapseSeps false (f.version.spell '.' ++
      '-' :: tags.map Char.toLower) := by
    rw [normalTail, hkind, spell_eq, append_assoc,
      collapseSeps_word (startText_ne_nil _) (notSep_startText _), append_assoc,
      collapseSeps_word (startText_ne_nil _) (notSep_startText _)]
    rfl
  rw [extract_eq hlower h, if_pos hext, toList_ofList, hstate, takeWhile_collapseSeps,
    takeWhile_append_dash, takeWhile_spell]

/-- The version of a file is read from its name if and only if no dot of it is lost. -/
theorem parse_extract_iff :
    parse (extractVersionFromFilename toLowercase project f.fileName).toList = some f.version ↔
      f.Kept := by
  rw [DistFile.Kept]
  cases hkind : f.kind with
  | sdist zip =>
    rw [extract_sdist hlower h hkind, and_true]
    constructor
    · exact rest_of_parse (dot_notMem_collapseSeps _ _)
    · intro hrest
      rw [collapseSeps_spell hrest]
      exact parse_spell rfl f.version
  | wheel tags htags =>
    rw [extract_wheel hlower h hkind, parse_spell rfl, Option.some.injEq, cutVersion_eq_iff]

end

/-- **Main theorem.** The versions of the files of a project are recovered if and only if each
    release has one number, and the versions of wheels have no further dots. -/
theorem recovered_iff {files : List DistFile} (hlower : LowersAscii toLowercase)
    (h : OfProject toLowercase project files) :
    Recovered toLowercase project files ↔ ∀ f ∈ files, f.Kept := by
  constructor
  · exact fun hrec f hf => (parse_extract_iff hlower (h f hf)).mp (hrec.version f hf)
  · intro hkept
    have hversion : ∀ f ∈ files, parse
        (extractVersionFromFilename toLowercase project f.fileName).toList = some f.version :=
      fun f hf => (parse_extract_iff hlower (h f hf)).mpr (hkept f hf)
    refine ⟨hversion, fun f hf g hg hne heq => hne ?_⟩
    have hf' := hversion f hf
    rw [heq, hversion g hg] at hf'
    exact (Option.some.inj hf').symm

end

/-! ## Examples -/

/-- Texts in which the ASCII letters are in lower case. -/
def asciiLowercase (s : String) : String := ofList (s.toList.map Char.toLower)

theorem lowersAscii_asciiLowercase : LowersAscii asciiLowercase := fun _ _ => toList_ofList

/-- The name `my_pkg`. -/
def myPkg : DistName := ⟨"my_pkg".toList, by decide, "my_pk".toList, 'g', rfl, rfl⟩

def anyWheel (version : Pep440) : DistFile :=
  ⟨myPkg, version, .wheel "py3-none-any".toList (by decide)⟩

theorem myPkg_normal :
    normalizeName asciiLowercase (ofList myPkg.chars) =
      normalizeName asciiLowercase "My-Pkg" := by decide +kernel

/-- The sources and the wheel of version 3 of `My-Pkg`, and the sources of a pre-release. -/
theorem myPkg_recovered : Recovered asciiLowercase "My-Pkg"
    [anyWheel { first := 3 }, ⟨myPkg, { first := 3 }, .sdist false⟩,
      ⟨myPkg, { first := 4, pre := some (.rc, 1), dev := some 2 }, .sdist true⟩] := by
  refine (recovered_iff lowersAscii_asciiLowercase ?_).mpr ?_
  · simp [OfProject, anyWheel, myPkg_normal]
  · simp [DistFile.Kept, anyWheel]

/-- Only `2` of the version `2.3.1` is left in the name of a wheel. -/
theorem dotted_lost : ¬∀ toLowercase : String → String, LowersAscii toLowercase →
    ∀ (project : String) (files : List DistFile), OfProject toLowercase project files →
      Recovered toLowercase project files := by
  intro hall
  have hrec := hall asciiLowercase lowersAscii_asciiLowercase "My-Pkg"
    [anyWheel { first := 2, rest := [3, 1] }] (by simp [OfProject, anyWheel, myPkg_normal])
  have hversion := hrec.version _ mem_cons_self
  have hlost : (parse (extractVersionFromFilename asciiLowercase "My-Pkg"
      (anyWheel { first := 2, rest := [3, 1] }).fileName).toList).map rest = some [] := by
    decide +kernel
  rw [hversion] at hlost
  cases hlost

end Depot.Pypi
