import Depot.Core.Async
import Depot.Core.Paths

/-!
# Paths of Go modules

How the files of a Go module are addressed: the escaping of upper-case letters, the paths of
requests (`golang/src/store.rs` and `golang/src/api.rs`), and the path of a request after
`normalize_artifact_path` (`server/src/server/api/artifacts.rs`).

Results:
* `decodeModulePath_encode`: a path without an exclamation mark is decoded to what it was.
* `splitOnce_marker`: the marker `/@v/` is found where the path of a module ends.
* `normalizeArtifactPath_segments`: a path of proper segments stays as it is.
* `suffix_normalizeArtifactPath`: a path keeps its end.
-/

namespace Depot

open List
open String (ofList toList_ofList)

/-! ## Escapes -/

/-- `encode_module_path` (`golang/src/store.rs`, lines 27–38). -/
def encodeModulePath (module : String) : String :=
  ofList (module.toList.flatMap fun c => if c.isUpper then ['!', c.toLower] else [c])

/-- `decode_module_path` (lines 41–54), on characters. -/
def decodeChars : List Char → List Char
  | [] => []
  | [c] => if c = '!' then [] else [c]
  | c :: next :: rest =>
      if c = '!' then next.toUpper :: decodeChars rest else c :: decodeChars (next :: rest)

/-- `decode_module_path`. -/
def decodeModulePath (encoded : String) : String := ofList (decodeChars encoded.toList)

/-- `module_file_path` (lines 57–60). -/
def moduleFilePath (module version ext : String) : String :=
  "_modules/" ++ encodeModulePath module ++ "/@v/" ++ version ++ "." ++ ext

/-! ## Requests -/

/-- `str::strip_suffix`. -/
def stripSuffix (tail cs : List Char) : Option (List Char) :=
  if tail <:+ cs then some (cs.take (cs.length - tail.length)) else none

/-- `str::split_once`. -/
def splitOnce (marker : List Char) : List Char → Option (List Char × List Char)
  | [] => none
  | c :: cs =>
      if marker <+: c :: cs then some ([], (c :: cs).drop marker.length)
      else (splitOnce marker cs).map fun p => (c :: p.1, p.2)

/-- `"/@v/"`. -/
def versionMarker : List Char := ['/', '@', 'v', '/']

/-- The files of a version. -/
inductive GoFile where
  | info
  | mod
  | zip
  deriving DecidableEq

/-- The extension of a file. -/
def GoFile.ext : GoFile → String
  | .info => "info"
  | .mod => "mod"
  | .zip => "zip"

/-- `GoAction` (`golang/src/api.rs`, lines 193–199). -/
inductive GoAction where
  | list
  | latest
  | file (kind : GoFile) (version : String)
  deriving DecidableEq

/-- What is requested of a module (lines 216–227). -/
def parseGoFile (rest : List Char) : Option GoAction :=
  if rest = "list".toList then some .list
  else match stripSuffix ".info".toList rest with
    | some v => some (.file .info (ofList v))
    | none => match stripSuffix ".mod".toList rest with
      | some v => some (.file .mod (ofList v))
      | none => (stripSuffix ".zip".toList rest).map fun v => .file .zip (ofList v)

/-- The patterns with `/@v/` (lines 211–228). -/
def parseGoVersions (path : List Char) : Option (String × GoAction) :=
  match splitOnce versionMarker path with
  | some (module, rest) =>
      if module = [] then none
      else (parseGoFile rest).map fun action => (ofList module, action)
  | none => none

/-- `parse_goproxy_path` (lines 202–231). -/
def parseGoproxyPath (path : String) : Option (String × GoAction) :=
  match stripSuffix "/@latest".toList path.toList with
  | some (c :: module) => some (ofList (c :: module), .latest)
  | _ => parseGoVersions path.toList

/-- `normalize_artifact_path` (`server/src/server/api/artifacts.rs`, lines 272–287). -/
def normalizeArtifactPath (path : String) : Except DepotError String :=
  let segments := path.toList.splitOn '/'
  if ['.', '.'] ∈ segments then .error (.badRequest "path traversal not allowed")
  else .ok (ofList (['/'].intercalate
    (segments.filter fun segment => segment ≠ [] ∧ segment ≠ ['.'])))

/-! ## What a client requests -/

/-- The path under which a client requests a file: module and version are escaped. -/
def goFileRequest (module version : String) (kind : GoFile) : String :=
  encodeModulePath module ++ "/@v/" ++ encodeModulePath version ++ "." ++ kind.ext

/-- The path under which a client requests the list of versions. -/
def goListRequest (module : String) : String := encodeModulePath module ++ "/@v/list"

/-! ## Escapes and their inverse -/

/-- `encode_module_path`, on characters. -/
def escapeChars (cs : List Char) : List Char :=
  cs.flatMap fun c => if c.isUpper then ['!', c.toLower] else [c]

theorem toList_encodeModulePath (module : String) :
    (encodeModulePath module).toList = escapeChars module.toList := toList_ofList

theorem escapeChars_cons (c : Char) (cs : List Char) :
    escapeChars (c :: cs) = (if c.isUpper then ['!', c.toLower] else [c]) ++ escapeChars cs :=
  flatMap_cons

theorem escapeChars_append (a b : List Char) :
    escapeChars (a ++ b) = escapeChars a ++ escapeChars b := flatMap_append

/-- There are 26 upper-case letters. -/
theorem upper_cases {P : Char → Prop} (h : ∀ n : Fin 26, P (Char.ofNat (65 + n))) {c : Char}
    (hc : c.isUpper = true) : P c := by
  have hbounds : 65 ≤ c.toNat ∧ c.toNat ≤ 90 := by
    unfold Char.isUpper at hc
    simp only [decide_eq_true_eq] at hc
    exact hc
  have hn := h ⟨c.toNat - 65, by omega⟩
  have hsum : 65 + (c.toNat - 65) = c.toNat := by omega
  dsimp only at hn
  rwa [hsum, Char.ofNat_toNat] at hn

variable {c : Char}

theorem toUpper_toLower (h : c.isUpper = true) : c.toLower.toUpper = c := by
  have hall : ∀ n : Fin 26, (Char.ofNat (65 + n)).toLower.toUpper = Char.ofNat (65 + n) := by
    decide
  exact @upper_cases (fun c => c.toLower.toUpper = c) hall c h

theorem isLower_toLower (h : c.isUpper = true) : c.toLower.isLower = true := by
  have hall : ∀ n : Fin 26, (Char.ofNat (65 + n)).toLower.isLower = true := by decide
  exact @upper_cases (fun c => c.toLower.isLower = true) hall c h

variable {cs : List Char}

theorem mem_escapeChars (h : c ∈ escapeChars cs) : c = '!' ∨ c.isLower = true ∨ c ∈ cs := by
  obtain ⟨d, hd, hc⟩ := mem_flatMap.mp h
  split_ifs at hc with hup
  · rcases mem_cons.mp hc with rfl | hc
    · exact .inl rfl
    · refine .inr (.inl ?_)
      rw [mem_singleton.mp hc]
      exact isLower_toLower hup
  · rw [mem_singleton.mp hc]
    exact .inr (.inr hd)

theorem decodeChars_cons (h : c ≠ '!') (cs : List Char) :
    decodeChars (c :: cs) = c :: decodeChars cs := by
  cases cs with
  | nil => simp [decodeChars, h]
  | cons next rest => rw [decodeChars, if_neg h]

/-- A path without an exclamation mark is decoded to what it was. -/
theorem decodeChars_escape (h : '!' ∉ cs) : decodeChars (escapeChars cs) = cs := by
  induction cs with
  | nil => rfl
  | cons c cs ih =>
    rw [mem_cons, not_or] at h
    rw [escapeChars_cons]
    split_ifs with hup
    · show decodeChars ('!' :: c.toLower :: escapeChars cs) = c :: cs
      rw [decodeChars, if_pos rfl, toUpper_toLower hup, ih h.2]
    · show decodeChars (c :: escapeChars cs) = c :: cs
      rw [decodeChars_cons (Ne.symm h.1), ih h.2]

theorem decodeModulePath_encode {module : String} (h : '!' ∉ module.toList) :
    decodeModulePath (encodeModulePath module) = module := by
  rw [decodeModulePath, toList_encodeModulePath, decodeChars_escape h, String.ofList_toList]

/-- What has no upper-case letter is not escaped. -/
theorem escapeChars_eq (h : ∀ c ∈ cs, c.isUpper = false) : escapeChars cs = cs := by
  induction cs with
  | nil => rfl
  | cons c cs ih =>
    rw [escapeChars_cons, h c mem_cons_self, ih fun d hd => h d (mem_cons_of_mem c hd)]
    rfl

/-- Where there is no exclamation mark nothing was escaped. -/
theorem eq_of_escapeChars (h : '!' ∉ escapeChars cs) : escapeChars cs = cs := by
  refine escapeChars_eq fun c hc => ?_
  by_contra hup
  refine h (mem_flatMap.mpr ⟨c, hc, ?_⟩)
  rw [if_pos (Bool.eq_true_of_not_eq_false hup)]
  exact mem_cons_self

theorem escapeChars_intercalate (segments : List (List Char)) :
    escapeChars (['/'].intercalate segments) = ['/'].intercalate (segments.map escapeChars) := by
  induction segments with
  | nil => rfl
  | cons segment segments ih =>
    cases segments with
    | nil => simp
    | cons next rest =>
      rw [intercalate_cons_cons, escapeChars_append, escapeChars_append, ih, map_cons,
        map_cons, map_cons, intercalate_cons_cons]
      rfl

/-! ## Segments -/

/-- Segments of a path that `normalize_artifact_path` and `normalize_path` leave alone. -/
def ProperSegment (segment : List Char) : Prop :=
  segment ≠ [] ∧ '/' ∉ segment ∧ segment ≠ ['.'] ∧ segment ≠ ['.', '.']

instance (segment : List Char) : Decidable (ProperSegment segment) :=
  inferInstanceAs (Decidable (_ ∧ _ ∧ _ ∧ _))

/-- The segments of the path of a module: none but the first is `@v`. -/
structure ModuleSegments (segments : List (List Char)) : Prop where
  ne_nil : segments ≠ []
  proper : ∀ segment ∈ segments, ProperSegment segment
  marker : ∀ segment ∈ segments.tail, segment ≠ ['@', 'v']

theorem ProperSegment.escape {segment : List Char} (h : ProperSegment segment) :
    ProperSegment (escapeChars segment) := by
  obtain ⟨hne, hslash, hdot, hdots⟩ := h
  have hself : '!' ∉ escapeChars segment → escapeChars segment = segment := eq_of_escapeChars
  refine ⟨fun hnil => ?_, fun hmem => ?_, fun hone => ?_, fun htwo => ?_⟩
  · rw [hnil] at hself
    exact hne (hself not_mem_nil).symm
  · rcases mem_escapeChars hmem with h | h | h
    · exact absurd h (by decide)
    · exact absurd h (by decide)
    · exact hslash h
  · rw [hone] at hself
    exact hdot (hself (by decide)).symm
  · rw [htwo] at hself
    exact hdots (hself (by decide)).symm

theorem ModuleSegments.escape {segments : List (List Char)} (h : ModuleSegments segments) :
    ModuleSegments (segments.map escapeChars) := by
  refine ⟨fun hnil => h.ne_nil (map_eq_nil_iff.mp hnil), fun segment hmem => ?_,
    fun segment hmem => ?_⟩
  · obtain ⟨s, hs, rfl⟩ := mem_map.mp hmem
    exact (h.proper s hs).escape
  · rw [← map_tail] at hmem
    obtain ⟨s, hs, rfl⟩ := mem_map.mp hmem
    intro hv
    have hself : escapeChars s = s := eq_of_escapeChars (by rw [hv]; decide)
    exact h.marker s hs (hself.symm.trans hv)

/-- The search for the marker passes what has no slash. -/
theorem splitOnce_segment {segment : List Char} (h : '/' ∉ segment) (rest : List Char) :
    splitOnce versionMarker (segment ++ rest) =
      (splitOnce versionMarker rest).map fun p => (segment ++ p.1, p.2) := by
  induction segment with
  | nil => simp
  | cons c cs ih =>
    rw [mem_cons, not_or] at h
    have hnot : ¬versionMarker <+: c :: (cs ++ rest) :=
      fun hpre => h.1 (cons_prefix_cons.mp hpre).1
    rw [cons_append, splitOnce, if_neg hnot, ih h.2, Option.map_map]
    rfl

variable {segments : List (List Char)}

/-- The marker is found where the path of a module ends. -/
theorem splitOnce_marker (h : ModuleSegments segments) (rest : List Char) :
    splitOnce versionMarker (['/'].intercalate segments ++ (versionMarker ++ rest)) =
      some (['/'].intercalate segments, rest) := by
  obtain ⟨hne, hproper, hmarker⟩ := h
  induction segments with
  | nil => exact absurd rfl hne
  | cons segment segments ih =>
    have hslash : '/' ∉ segment := (hproper segment mem_cons_self).2.1
    cases segments with
    | nil =>
      rw [intercalate_singleton, splitOnce_segment hslash]
      show (splitOnce versionMarker ('/' :: '@' :: 'v' :: '/' :: rest)).map _ = _
      rw [splitOnce, if_pos ⟨rest, rfl⟩]
      simp [versionMarker]
    | cons next others =>
      have ih := ih (cons_ne_nil _ _) (fun s hs => hproper s (mem_cons_of_mem segment hs))
        (fun s hs => hmarker s (mem_of_mem_tail hs))
      have hnext : next ≠ ['@', 'v'] := hmarker next mem_cons_self
      have hfree : '/' ∉ next :=
        (hproper next (mem_cons_of_mem segment mem_cons_self)).2.1
      have htail : ∃ tail, ['/'].intercalate (next :: others) ++ (versionMarker ++ rest) =
          next ++ '/' :: tail := by
        cases others with
        | nil => exact ⟨'@' :: 'v' :: '/' :: rest, by simp [versionMarker]⟩
        | cons s ss => exact ⟨['/'].intercalate (s :: ss) ++ (versionMarker ++ rest),
            by simp [intercalate_cons_cons]⟩
      have hnot : ¬versionMarker <+: '/' :: (['/'].intercalate (next :: others) ++
          (versionMarker ++ rest)) := by
        obtain ⟨tail, htail⟩ := htail
        rw [htail]
        intro hpre
        obtain ⟨tail', htail'⟩ := (cons_prefix_cons.mp hpre).2
        have heq : ['@', 'v'] ++ '/' :: tail' = next ++ '/' :: tail := htail'
        exact hnext (segment_unique (by decide) hfree heq).1.symm
      rw [intercalate_cons_cons, append_assoc, append_assoc,
        splitOnce_segment hslash]
      show (splitOnce versionMarker ('/' :: (['/'].intercalate (next :: others) ++
        (versionMarker ++ rest)))).map _ = _
      rw [splitOnce, if_neg hnot, ih]
      simp

/-! ## Paths of proper segments -/

/-- A path of proper segments stays as it is. -/
theorem normalizeArtifactPath_segments {path : String}
    (hpath : path.toList = ['/'].intercalate segments) (hne : segments ≠ [])
    (h : ∀ segment ∈ segments, ProperSegment segment) : normalizeArtifactPath path = .ok path := by
  have hsplit : path.toList.splitOn '/' = segments := by
    rw [hpath]
    exact splitOn_intercalate '/' (fun s hs => (h s hs).2.1) hne
  have hfilter : segments.filter (fun segment => segment ≠ [] ∧ segment ≠ ['.']) = segments := by
    refine filter_eq_self.mpr fun s hs => ?_
    simp [(h s hs).1, (h s hs).2.2.1]
  unfold normalizeArtifactPath
  rw [hsplit]
  dsimp only
  rw [if_neg fun hmem => (h _ hmem).2.2.2 rfl, hfilter, ← hpath, String.ofList_toList]

/-- What a path ends with, it ends with still: the last segment is kept. -/
theorem suffix_normalizeArtifactPath {path path' : String} {suf : List Char} (hslash : '/' ∉ suf)
    (hnil : suf ≠ []) (hdot : suf ≠ ['.']) (hsuf : suf <:+ path.toList)
    (h : normalizeArtifactPath path = .ok path') : suf <:+ path'.toList := by
  have hkept : ∀ segments : List (List Char), segments ≠ [] →
      suf <:+ ['/'].intercalate segments → suf <:+ ['/'].intercalate
        (segments.filter fun segment => segment ≠ [] ∧ segment ≠ ['.']) := by
    intro segments
    induction segments with
    | nil => exact fun hne => absurd rfl hne
    | cons s segments ih =>
      intro _ hend
      cases segments with
      | nil =>
        rw [intercalate_singleton] at hend
        have hs : s ≠ [] ∧ s ≠ ['.'] := by
          refine ⟨fun hs => hnil (suffix_nil.mp (hs ▸ hend)), fun hs => ?_⟩
          rw [hs, suffix_cons_iff, suffix_nil] at hend
          exact hend.elim hdot hnil
        rw [filter_singleton, decide_eq_true hs, cond_true, intercalate_singleton]
        exact hend
      | cons s' rest =>
        rw [intercalate_cons_cons] at hend
        have htail : suf <:+ ['/'].intercalate (s' :: rest) := by
          have hsuffix : '/' :: ['/'].intercalate (s' :: rest) <:+
              s ++ ['/'] ++ ['/'].intercalate (s' :: rest) :=
            ⟨s, by simp⟩
          rcases suffix_or_suffix_of_suffix hend hsuffix with hle | hle
          · rcases suffix_cons_iff.mp hle with heq | hle
            · exact absurd (heq ▸ mem_cons_self) hslash
            · exact hle
          · exact absurd (hle.subset mem_cons_self) hslash
        have hrest := ih (cons_ne_nil _ _) htail
        rw [filter_cons]
        split_ifs
        · cases hfilter : (s' :: rest).filter fun segment => segment ≠ [] ∧ segment ≠ ['.'] with
          | nil =>
            rw [hfilter] at hrest
            exact absurd (suffix_nil.mp hrest) hnil
          | cons f fs =>
            rw [hfilter] at hrest
            rw [intercalate_cons_cons]
            exact hrest.trans (suffix_append _ _)
        · exact hrest
  unfold normalizeArtifactPath at h
  dsimp only at h
  split_ifs at h
  obtain rfl := Except.ok.inj h
  rw [String.toList_ofList]
  refine hkept _ (splitOn_ne_nil _ _) ?_
  rwa [intercalate_splitOn]

theorem clean_segments (hne : segments ≠ []) (h : ∀ segment ∈ segments, ProperSegment segment) :
    CleanChars (['/'].intercalate segments) ∧ ['/'].intercalate segments ≠ [] := by
  induction segments with
  | nil => exact absurd rfl hne
  | cons segment segments ih =>
    obtain ⟨hnil, hslash, -, -⟩ := h segment mem_cons_self
    have hsegment : CleanChars segment := by
      have hname := @clean_name (ofList segment) (by rwa [toList_ofList])
      rwa [toList_ofList] at hname
    cases segments with
    | nil =>
      rw [intercalate_singleton]
      exact ⟨hsegment, hnil⟩
    | cons next others =>
      obtain ⟨hclean, hrest⟩ := ih (cons_ne_nil _ _) fun s hs => h s (mem_cons_of_mem segment hs)
      rw [intercalate_cons_cons, append_assoc]
      exact ⟨clean_append hsegment hnil hclean hrest, by simp⟩

theorem intercalate_append {a b : List (List Char)} (ha : a ≠ []) (hb : b ≠ []) :
    ['/'].intercalate (a ++ b) = ['/'].intercalate a ++ '/' :: ['/'].intercalate b := by
  induction a with
  | nil => exact absurd rfl ha
  | cons segment segments ih =>
    cases segments with
    | nil =>
      rw [singleton_append, intercalate_cons_of_ne_nil hb, intercalate_singleton]
      simp
    | cons next others =>
      rw [cons_append, cons_append, intercalate_cons_cons,
        intercalate_cons_cons, ← cons_append, ih (cons_ne_nil _ _)]
      simp

/-- The path of a file below the path of a module. -/
theorem intercalate_marker (h : segments ≠ []) (file : List Char) :
    ['/'].intercalate (segments ++ [['@', 'v'], file]) =
      ['/'].intercalate segments ++ (versionMarker ++ file) := by
  rw [intercalate_append h (cons_ne_nil _ _), intercalate_cons_cons, intercalate_singleton]
  rfl

theorem ModuleSegments.file (h : ModuleSegments segments)
    {file : List Char} (hfile : ProperSegment file) :
    ∀ segment ∈ segments ++ [['@', 'v'], file], ProperSegment segment := by
  intro segment hmem
  simp only [mem_append, mem_cons, not_mem_nil, or_false] at hmem
  rcases hmem with hmem | rfl | rfl
  · exact h.proper segment hmem
  · decide
  · exact hfile

/-! ## Plain names -/

/-- The path of a module without exclamation marks, of proper segments of which none but the
    first is `@v`. -/
def plainModule (module : String) : Bool :=
  let segments := module.toList.splitOn '/'
  !module.toList.contains '!' && segments.all (fun segment => decide (ProperSegment segment)) &&
    segments.tail.all (· ≠ ['@', 'v'])

/-- A version of a single line, without slashes and without upper-case letters. -/
def plainVersion (version : String) : Bool :=
  !version.isEmpty && version.toList.all fun c => c ≠ '/' && c ≠ '\n' && !c.isUpper

section

variable {module version : String}

theorem plainModule_bang (h : plainModule module = true) : '!' ∉ module.toList := by
  simp only [plainModule, Bool.and_eq_true, Bool.not_eq_true', contains_eq_mem,
    decide_eq_false_iff_not] at h
  exact h.1.1

theorem plainModule_segments (h : plainModule module = true) :
    ModuleSegments (module.toList.splitOn '/') := by
  simp only [plainModule, Bool.and_eq_true, all_eq_true, decide_eq_true_eq] at h
  exact ⟨splitOn_ne_nil _ _, h.1.2, h.2⟩

theorem plainVersion_chars (h : plainVersion version = true) :
    ∀ c ∈ version.toList, c ≠ '/' ∧ c ≠ '\n' ∧ c.isUpper = false := by
  simp only [plainVersion, Bool.and_eq_true, all_eq_true, decide_eq_true_eq, Bool.not_eq_true'] at h
  intro c hc
  obtain ⟨⟨hslash, hline⟩, hupper⟩ := h.2 c hc
  exact ⟨hslash, hline, hupper⟩

theorem plainVersion_ne_nil (h : plainVersion version = true) : version.toList ≠ [] := by
  simp only [plainVersion, Bool.and_eq_true, Bool.not_eq_true', String.isEmpty_eq_false_iff] at h
  exact fun hnil => h.1 (String.toList_eq_nil_iff.mp hnil)

/-- The file name in the path. -/
def fileSegment (version : String) (kind : GoFile) : List Char :=
  version.toList ++ '.' :: kind.ext.toList

theorem fileSegment_proper (h : plainVersion version = true) (kind : GoFile) :
    ProperSegment (fileSegment version kind) := by
  have hlen : 4 ≤ (fileSegment version kind).length := by
    rw [fileSegment, length_append, length_cons]
    cases kind <;> simp [GoFile.ext]
  refine ⟨fun hnil => ?_, fun hslash => ?_, fun hdot => ?_, fun hdots => ?_⟩
  · rw [hnil] at hlen
    simp at hlen
  · rcases mem_append.mp hslash with hv | hext
    · exact (plainVersion_chars h _ hv).1 rfl
    · cases kind <;> exact absurd hext (by decide)
  · rw [hdot] at hlen
    simp at hlen
  · rw [hdots] at hlen
    simp at hlen

end

end Depot
