import Depot.Go.Paths
import Depot.Service.Scan
import Mathlib.Data.List.Dedup

/-!
# Files of Go modules

The repositories for Go modules: uploads store the files of a version, requests fetch them and
list the versions (`golang/src/store.rs` and `golang/src/api.rs`).

Results:
* `goModules_served`: as long as the uploads have plain names, each version is served to a
  client and is listed.
* `goVersion_lost`: a version with an upper-case letter is not found.
-/

namespace Depot

open Lib List
open Option (some.inj)
open String (ofList toList)

/-! ## The store -/

/-- `GoModuleMeta` and the content of a file. -/
structure GoRecord where
  module : String
  version : String
  fileType : GoFile
  contentType : String
  content : Bytes
  deriving DecidableEq

/-- The records of a repository by their keys. -/
abbrev GoStore := SortedMap String GoRecord

/-- The fields of an upload. -/
structure GoForm where
  module : Option String := none
  version : Option String := none
  info : Option Bytes := none
  mod : Option Bytes := none
  zip : Option Bytes := none
  deriving DecidableEq

/-- The content of a field with a file. -/
def GoForm.file (form : GoForm) : GoFile → Option Bytes
  | .info => form.info
  | .mod => form.mod
  | .zip => form.zip

/-- The content type of a file (`store.rs`, lines 87–92; `api.rs`, lines 285–290). -/
def GoFile.contentType : GoFile → String
  | .info => "application/json"
  | .mod => "text/plain"
  | .zip => "application/zip"

/-- The key of a file of a module version. -/
def goKey (module version : String) (kind : GoFile) : String :=
  normalizePath (moduleFilePath module version kind.ext)

namespace GoStore

/-- `put_module_file` and `commit_module_file` (lines 73–222), for a file that is given. -/
def putModuleFile (s : GoStore) (module version : String) (kind : GoFile) :
    Option Bytes → GoStore
  | some content =>
      s.insert (goKey module version kind) ⟨module, version, kind, kind.contentType, content⟩
  | none => s

/-- `handle_upload` (`api.rs`, lines 69–190). -/
def handleUpload (s : GoStore) (form : GoForm) : Except DepotError GoStore :=
  match form.module with
  | none => .error (.badRequest "missing 'module' field")
  | some module =>
      match form.version with
      | none => .error (.badRequest "missing 'version' field")
      | some version =>
          let s := putModuleFile s module version .info form.info
          let s := putModuleFile s module version .mod form.mod
          .ok (putModuleFile s module version .zip form.zip)

/-- The store after a request; one that is refused changes nothing. -/
def upload (s : GoStore) (form : GoForm) : GoStore := (handleUpload s form).toOption.getD s

/-! ## Requests -/

/-- The version in the key of an `.info` file (`store.rs`, lines 258–262). -/
def infoVersion (sk : String) : Option String :=
  (stripSuffix ".info".toList (splitLast sk.toList).2).map ofList

/-- The prefix of the keys of a module. -/
def versionsPrefix (module : String) : String := "_modules/" ++ encodeModulePath module ++ "/@v/"

/-- `list_versions` (lines 247–274); the set is sorted. -/
def listVersions (s : GoStore) (module : String) : List String :=
  ((s.entries.filter fun e => hasPrefix (versionsPrefix module) e.1).filterMap fun e =>
    infoVersion e.1).dedup.insertionSort (· ≤ ·)

/-- `u64::from_str`, zero for what is no number. -/
def semverNumber (part : List Char) : ℕ :=
  let digits := match part with
    | '+' :: ds => ds
    | ds => ds
  if digits ≠ [] ∧ digits.all Char.isDigit then
    let n := digits.foldl (fun n c => 10 * n + (c.toNat - '0'.toNat)) 0
    if n < 2 ^ 64 then n else 0
  else 0

/-- The numbers that `compare_semver` compares (lines 308–316). -/
def semverKey (version : String) : ℕ × ℕ × ℕ :=
  let text := match version.toList with
    | 'v' :: cs => cs
    | cs => cs
  match text.splitOn '.' with
  | [] => (0, 0, 0)
  | [major] => (semverNumber major, 0, 0)
  | [major, minor] => (semverNumber major, semverNumber minor, 0)
  | major :: minor :: patch =>
      (semverNumber major, semverNumber minor, semverNumber (['.'].intercalate patch))

/-- `compare_semver`, as an order. -/
def semverLe (a b : String) : Bool :=
  let (x, y, z) := semverKey a
  let (x', y', z') := semverKey b
  x < x' || x = x' && (y < y' || y = y' && z ≤ z')

/-- `get_latest` (lines 277–283). -/
def getLatest (s : GoStore) (module : String) : Option String :=
  ((listVersions s module).mergeSort semverLe).getLast?

/-- The list of versions, one on a line. -/
def versionsBody (s : GoStore) (module : String) : String :=
  ofList (['\n'].intercalate ((listVersions s module).map toList))

/-- What a request is answered with. -/
inductive Response where
  | text (body : String)
  | file (contentType : String) (content : Bytes)
  deriving DecidableEq

/-- `serve_module_file` (`api.rs`, lines 277–307). -/
def serveModuleFile (s : GoStore) (module version : String) (kind : GoFile) :
    Except DepotError Response :=
  match s.get (goKey module version kind) with
  | some record => .ok (.file kind.contentType record.content)
  | none => .error (.notFound "not found")

/-- `handle_hosted` (lines 235–275). -/
def handleHosted (s : GoStore) (module : String) : GoAction → Except DepotError Response
  | .list => .ok (.text (versionsBody s module))
  | .latest =>
      match getLatest s module with
      | some version => serveModuleFile s module version .info
      | none => .error (.notFound "no versions found")
  | .file kind version => serveModuleFile s module version kind

/-- A request for a path (`server/src/server/api/artifacts.rs`, lines 812–980, and
    `try_handle_repository_path`); nothing for a path that is none of a proxy for modules. -/
def respond (s : GoStore) (path : String) : Option (Except DepotError Response) :=
  match normalizeArtifactPath path with
  | .error e => some (.error e)
  | .ok path => (parseGoproxyPath path).map fun request =>
      handleHosted s (decodeModulePath request.1) request.2

end GoStore

variable {a b version' module' : String}

/-! ## Plain names -/

section

variable {module version : String}

theorem toList_moduleFilePath (module version : String) (kind : GoFile) :
    (moduleFilePath module version kind.ext).toList = "_modules/".toList ++
      (escapeChars module.toList ++ (versionMarker ++ fileSegment version kind)) := by
  simp [moduleFilePath, toList_encodeModulePath, versionMarker, fileSegment]

theorem escape_segments (module : String) : escapeChars module.toList =
    ['/'].intercalate ((module.toList.splitOn '/').map escapeChars) := by
  rw [← escapeChars_intercalate, intercalate_splitOn]

/-- The key of a file with plain names is its path. -/
theorem toList_goKey (hm : plainModule module = true) (hv : plainVersion version = true)
    (kind : GoFile) : (goKey module version kind).toList = "_modules/".toList ++
      (escapeChars module.toList ++ (versionMarker ++ fileSegment version kind)) := by
  have hsegments := (plainModule_segments hm).escape
  have hpath : (moduleFilePath module version kind.ext).toList = ['/'].intercalate
      ("_modules".toList :: ((module.toList.splitOn '/').map escapeChars ++
        [['@', 'v'], fileSegment version kind])) := by
    rw [toList_moduleFilePath, escape_segments, ← intercalate_marker hsegments.ne_nil,
      intercalate_cons_of_ne_nil (append_ne_nil_of_left_ne_nil hsegments.ne_nil _)]
    simp
  have hproper : ∀ segment ∈ "_modules".toList :: ((module.toList.splitOn '/').map escapeChars ++
      [['@', 'v'], fileSegment version kind]), ProperSegment segment := by
    intro segment hmem
    rcases mem_cons.mp hmem with rfl | hmem
    · decide
    · exact hsegments.file (fileSegment_proper hv kind) segment hmem
  have hclean := (clean_segments (cons_ne_nil _ _) hproper).1
  rw [← hpath] at hclean
  rw [goKey, normalizePath, String.toList_ofList, normalizeChars_clean hclean,
    toList_moduleFilePath]

theorem parseGoFile_list : parseGoFile "list".toList = some .list := if_pos rfl

theorem stripSuffix_append (cs tail : List Char) : stripSuffix tail (cs ++ tail) = some cs := by
  rw [stripSuffix, if_pos (List.suffix_append cs tail), length_append, Nat.add_sub_cancel,
    take_left']
  rfl

/-- Texts with different last characters. -/
theorem stripSuffix_ne {tail cs : List Char} (h : tail.getLast? ≠ cs.getLast?)
    (hne : tail ≠ []) : stripSuffix tail cs = none := by
  refine if_neg ?_
  rintro ⟨front, rfl⟩
  exact h (getLast?_append_of_ne_nil _ hne).symm

theorem getLast?_fileSegment (version : String) (kind : GoFile) :
    (fileSegment version kind).getLast? = kind.ext.toList.getLast? := by
  rw [fileSegment, getLast?_append_of_ne_nil _ (cons_ne_nil _ _)]
  cases kind <;> rfl

theorem parseGoFile_fileSegment (version : String) (kind : GoFile) :
    parseGoFile (fileSegment version kind) = some (.file kind version) := by
  have hlist : fileSegment version kind ≠ "list".toList := by
    intro h
    have hdot : '.' ∈ "list".toList := h ▸ mem_append_right _ mem_cons_self
    exact absurd hdot (by decide)
  have hlast := getLast?_fileSegment version kind
  rw [parseGoFile, if_neg hlist]
  cases kind with
  | info =>
    have hstrip : stripSuffix ".info".toList (fileSegment version .info) = some version.toList :=
      stripSuffix_append _ _
    rw [hstrip]
    simp
  | mod =>
    have hinfo : stripSuffix ".info".toList (fileSegment version .mod) = none :=
      stripSuffix_ne (by rw [hlast]; decide) (by decide)
    have hstrip : stripSuffix ".mod".toList (fileSegment version .mod) = some version.toList :=
      stripSuffix_append _ _
    rw [hinfo, hstrip]
    simp
  | zip =>
    have hinfo : stripSuffix ".info".toList (fileSegment version .zip) = none :=
      stripSuffix_ne (by rw [hlast]; decide) (by decide)
    have hmod : stripSuffix ".mod".toList (fileSegment version .zip) = none :=
      stripSuffix_ne (by rw [hlast]; decide) (by decide)
    have hstrip : stripSuffix ".zip".toList (fileSegment version .zip) = some version.toList :=
      stripSuffix_append _ _
    rw [hinfo, hmod, hstrip]
    simp

/-- A request for what lies below a module. -/
theorem respond_below {s : GoStore} {path : String} {file : List Char}
    (hm : plainModule module = true) (hfile : ProperSegment file)
    (hlatest : file ≠ "@latest".toList)
    (hpath : path.toList = escapeChars module.toList ++ (versionMarker ++ file)) :
    s.respond path = (parseGoFile file).map (s.handleHosted module) := by
  have hsegments := (plainModule_segments hm).escape
  have hnormal : normalizeArtifactPath path = .ok path := by
    refine normalizeArtifactPath_segments ?_ ?_ (hsegments.file hfile)
    · rw [hpath, escape_segments, intercalate_marker hsegments.ne_nil]
    · exact append_ne_nil_of_left_ne_nil hsegments.ne_nil _
  have hne : escapeChars module.toList ≠ [] := by
    rw [escape_segments]
    exact (clean_segments hsegments.ne_nil hsegments.proper).2
  have hstrip : stripSuffix "/@latest".toList path.toList = none := by
    refine if_neg ?_
    rintro ⟨front, hfront⟩
    have hlast := @splitLast_append "@latest".toList (by decide) front
    have hlast' := splitLast_append hfile.2.1 (escapeChars module.toList ++ ['/', '@', 'v'])
    have heq : front ++ '/' :: "@latest".toList =
        escapeChars module.toList ++ ['/', '@', 'v'] ++ '/' :: file := by
      rw [append_assoc]
      exact hfront.trans hpath
    rw [heq, hlast'] at hlast
    exact hlatest (Prod.mk.inj hlast).2
  have hparse : parseGoproxyPath path =
      (parseGoFile file).map fun action => (encodeModulePath module, action) := by
    have hsplit := splitOnce_marker hsegments file
    rw [← escape_segments, ← hpath] at hsplit
    rw [parseGoproxyPath, hstrip]
    show parseGoVersions path.toList = _
    rw [parseGoVersions, hsplit]
    dsimp only
    rw [if_neg hne, ← toList_encodeModulePath, String.ofList_toList]
  rw [GoStore.respond, hnormal]
  dsimp only
  rw [hparse, Option.map_map, Function.comp_def]
  simp only [decodeModulePath_encode (plainModule_bang hm)]

theorem respond_goFileRequest (s : GoStore) (hm : plainModule module = true)
    (hv : plainVersion version = true) (kind : GoFile) :
    s.respond (goFileRequest module version kind) = some (s.serveModuleFile module version kind) := by
  have hself : escapeChars version.toList = version.toList :=
    escapeChars_eq fun c hc => (plainVersion_chars hv c hc).2.2
  have hlatest : fileSegment version kind ≠ "@latest".toList := by
    intro h
    have hdot : '.' ∈ "@latest".toList := h ▸ mem_append_right _ mem_cons_self
    exact absurd hdot (by decide)
  have hpath : (goFileRequest module version kind).toList =
      escapeChars module.toList ++ (versionMarker ++ fileSegment version kind) := by
    simp [goFileRequest, toList_encodeModulePath, hself, versionMarker, fileSegment]
  rw [respond_below hm (fileSegment_proper hv kind) hlatest hpath, parseGoFile_fileSegment]
  rfl

theorem respond_goListRequest (s : GoStore) (hm : plainModule module = true) :
    s.respond (goListRequest module) = some (.ok (.text (s.versionsBody module))) := by
  have hpath : (goListRequest module).toList =
      escapeChars module.toList ++ (versionMarker ++ "list".toList) := by
    simp [goListRequest, toList_encodeModulePath, versionMarker]
  rw [respond_below hm (by decide) (by decide) hpath, parseGoFile_list]
  rfl

/-! ## Keys -/

theorem escapeChars_inj (ha : plainModule a = true) (hb : plainModule b = true)
    (h : escapeChars a.toList = escapeChars b.toList) : a = b := by
  have hdecode := congrArg decodeChars h
  rw [decodeChars_escape (plainModule_bang ha), decodeChars_escape (plainModule_bang hb)] at hdecode
  exact String.toList_inj.mp hdecode

/-- The path of a module and what follows the marker are determined. -/
theorem below_inj {rest rest' : List Char} (ha : plainModule a = true)
    (hb : plainModule b = true) (h : escapeChars a.toList ++ (versionMarker ++ rest) =
      escapeChars b.toList ++ (versionMarker ++ rest')) : a = b ∧ rest = rest' := by
  have hsplit := splitOnce_marker (plainModule_segments ha).escape rest
  have hsplit' := splitOnce_marker (plainModule_segments hb).escape rest'
  rw [← escape_segments] at hsplit hsplit'
  rw [h, hsplit'] at hsplit
  obtain ⟨hmodule, hrest⟩ := some_mk_inj hsplit
  exact ⟨escapeChars_inj ha hb hmodule.symm, hrest.symm⟩

theorem fileSegment_inj {kind kind' : GoFile}
    (h : fileSegment version kind = fileSegment version' kind') :
    version = version' ∧ kind = kind' := by
  have hparse := parseGoFile_fileSegment version kind
  rw [h, parseGoFile_fileSegment] at hparse
  obtain ⟨hkind, hversion⟩ := GoAction.file.inj (some.inj hparse)
  exact ⟨hversion.symm, hkind.symm⟩

/-- A key determines the module, the version and the file. -/
theorem goKey_inj {kind kind' : GoFile}
    (hm : plainModule module = true) (hv : plainVersion version = true)
    (hm' : plainModule module' = true) (hv' : plainVersion version' = true)
    (h : goKey module version kind = goKey module' version' kind') :
    module = module' ∧ version = version' ∧ kind = kind' := by
  have hchars := congrArg toList h
  rw [toList_goKey hm hv, toList_goKey hm' hv'] at hchars
  obtain ⟨hmodule, hfile⟩ := below_inj hm hm' (append_cancel_left hchars)
  exact ⟨hmodule, fileSegment_inj hfile⟩

/-- The keys of a module are those with its prefix. -/
theorem hasPrefix_goKey (kind : GoFile) (hm : plainModule module = true)
    (hm' : plainModule module' = true) (hv : plainVersion version = true) :
    hasPrefix (GoStore.versionsPrefix module) (goKey module' version kind) = true ↔
      module' = module := by
  have hpre : (GoStore.versionsPrefix module).toList =
      "_modules/".toList ++ (escapeChars module.toList ++ versionMarker) := by
    simp [GoStore.versionsPrefix, toList_encodeModulePath, versionMarker]
  rw [hasPrefix, decide_eq_true_eq, hpre, toList_goKey hm' hv, prefix_append_right_inj]
  constructor
  · rintro ⟨rest, hrest⟩
    rw [append_assoc] at hrest
    exact (below_inj hm hm' hrest).1.symm
  · rintro rfl
    exact ⟨fileSegment version kind, by rw [append_assoc]⟩

/-- The version that is read back from a key. -/
theorem infoVersion_goKey (kind : GoFile) (hm : plainModule module = true)
    (hv : plainVersion version = true) :
    GoStore.infoVersion (goKey module version kind) =
      if kind = .info then some version else none := by
  have hlast : (splitLast (goKey module version kind).toList).2 = fileSegment version kind := by
    have hfile := splitLast_append (fileSegment_proper hv kind).2.1
      ("_modules/".toList ++ (escapeChars module.toList ++ ['/', '@', 'v']))
    rw [toList_goKey hm hv]
    have hassoc : "_modules/".toList ++ (escapeChars module.toList ++ ['/', '@', 'v']) ++
        '/' :: fileSegment version kind = "_modules/".toList ++
          (escapeChars module.toList ++ (versionMarker ++ fileSegment version kind)) := by
      simp [versionMarker]
    rw [← hassoc, hfile]
  rw [GoStore.infoVersion, hlast]
  have hend := getLast?_fileSegment version kind
  cases kind with
  | info =>
    have hstrip : stripSuffix ".info".toList (fileSegment version .info) = some version.toList :=
      stripSuffix_append _ _
    rw [hstrip]
    simp
  | mod =>
    rw [stripSuffix_ne (by rw [hend]; decide) (by decide)]
    rfl
  | zip =>
    rw [stripSuffix_ne (by rw [hend]; decide) (by decide)]
    rfl

end

/-! ## Runs -/

/-- A request that names a module and a version. -/
def GoForm.names (form : GoForm) (module version : String) : Bool :=
  form.module = some module && form.version = some version

/-- A version was uploaded. -/
def Uploaded (forms : List GoForm) (module version : String) : Prop :=
  ∃ form ∈ forms, form.names module version = true

/-- The content that was uploaded last for a file of a version. -/
def lastUploaded (forms : List GoForm) (module version : String) (kind : GoFile) : Option Bytes :=
  (forms.filterMap fun form => if form.names module version then form.file kind else none).getLast?

/-- The names of a request are plain, and the version has an `.info` file afterwards. -/
def GoStore.admits (s : GoStore) (form : GoForm) : Bool :=
  match form.module, form.version with
  | some module, some version => plainModule module && plainVersion version &&
      (form.info.isSome || (s.get (goKey module version .info)).isSome)
  | _, _ => true

/-- The uploads, as long as they are admitted. -/
def GoStore.run (s : GoStore) : List GoForm → Option GoStore
  | [] => some s
  | form :: forms => if s.admits form then (s.upload form).run forms else none

/-- The versions that a client reads from a list. -/
def versionLines (body : String) : List String :=
  ((body.toList.splitOn '\n').filter (· ≠ [])).map ofList

/-- Each file that was uploaded is served as it was uploaded last, the others are not found, and
    the list of a module names exactly its versions. -/
structure GoServed (forms : List GoForm) (s : GoStore) : Prop where
  file : ∀ module version, Uploaded forms module version → ∀ kind,
    s.respond (goFileRequest module version kind) = some
      (match lastUploaded forms module version kind with
      | some content => .ok (.file kind.contentType content)
      | none => .error (.notFound "not found"))
  list : ∀ module version, Uploaded forms module version → ∃ body,
    s.respond (goListRequest module) = some (.ok (.text body)) ∧
      ∀ version', version' ∈ versionLines body ↔ Uploaded forms module version'

section

variable {s : GoStore} {forms : List GoForm}

/-- What an upload leaves at a key. -/
theorem get_putModuleFile (module version : String) (kind : GoFile) (given : Option Bytes)
    (sk : String) : (s.putModuleFile module version kind given).get sk =
      (if sk = goKey module version kind then
        given.map fun content => ⟨module, version, kind, kind.contentType, content⟩ else none).or
      (s.get sk) := by
  unfold GoStore.putModuleFile
  cases given with
  | none => simp
  | some content =>
    rw [SortedMap.get_insert]
    split_ifs <;> rfl

variable {form : GoForm} {module version : String}

theorem get_upload (hmodule : form.module = some module)
    (hversion : form.version = some version) (sk : String) :
    (s.upload form).get sk =
      ((if sk = goKey module version .zip then form.zip.map fun content =>
          ⟨module, version, .zip, GoFile.contentType .zip, content⟩ else none).or
        ((if sk = goKey module version .mod then form.mod.map fun content =>
            ⟨module, version, .mod, GoFile.contentType .mod, content⟩ else none).or
          ((if sk = goKey module version .info then form.info.map fun content =>
              ⟨module, version, .info, GoFile.contentType .info, content⟩ else none).or
            (s.get sk)))) := by
  unfold GoStore.upload GoStore.handleUpload
  rw [hmodule, hversion]
  simp only [Except.toOption, Option.getD_some, get_putModuleFile]

/-- A request that names no version is refused. -/
theorem upload_refused (h : form.module = none ∨ form.version = none) : s.upload form = s := by
  unfold GoStore.upload GoStore.handleUpload
  rcases h with h | h
  · rw [h]
    rfl
  · rw [h]
    cases form.module <;> rfl

/-! ## The invariant of a run -/

theorem names_iff :
    form.names module version = true ↔ form.module = some module ∧ form.version = some version := by
  simp [GoForm.names]

theorem uploaded_append : Uploaded (forms ++ [form]) module version ↔
      Uploaded forms module version ∨ form.names module version = true := by
  simp [Uploaded, or_and_right, exists_or]

theorem lastUploaded_append (form : GoForm) (module version : String) (kind : GoFile) :
    lastUploaded (forms ++ [form]) module version kind =
      (if form.names module version then form.file kind else none).or
        (lastUploaded forms module version kind) := by
  unfold lastUploaded
  rw [filterMap_append, getLast?_append]
  congr 1
  rw [filterMap_cons, filterMap_nil]
  split <;> simp_all

/-- The store has what was uploaded, under plain names. -/
structure GoInv (forms : List GoForm) (s : GoStore) : Prop where
  plain : ∀ module version, Uploaded forms module version →
    plainModule module = true ∧ plainVersion version = true
  content : ∀ module version kind, plainModule module = true → plainVersion version = true →
    (s.get (goKey module version kind)).map GoRecord.content =
      lastUploaded forms module version kind
  keys : ∀ sk r, s.get sk = some r → ∃ module version kind,
    Uploaded forms module version ∧ sk = goKey module version kind
  info : ∀ module version, Uploaded forms module version →
    (s.get (goKey module version .info)).isSome = true

theorem GoInv.empty : GoInv [] SortedMap.empty := by
  refine ⟨fun _ _ h => ?_, fun _ _ _ _ _ => rfl, fun _ _ h => ?_, fun _ _ h => ?_⟩
  · obtain ⟨form, hform, -⟩ := h
    exact absurd hform not_mem_nil
  · cases h
  · obtain ⟨form, hform, -⟩ := h
    exact absurd hform not_mem_nil

/-- What an upload does to the content of a file. -/
theorem content_upload {form : GoForm} {a b : String} (ha : form.module = some a)
    (hb : form.version = some b) (hpa : plainModule a = true) (hpb : plainVersion b = true)
    {module version : String} (hm : plainModule module = true)
    (hv : plainVersion version = true) (kind : GoFile) :
    ((s.upload form).get (goKey module version kind)).map GoRecord.content =
      (if form.names module version then form.file kind else none).or
        ((s.get (goKey module version kind)).map GoRecord.content) := by
  have hkey : ∀ kind', goKey module version kind = goKey a b kind' ↔
      form.names module version = true ∧ kind = kind' := by
    intro kind'
    rw [names_iff, ha, hb]
    constructor
    · intro h
      obtain ⟨rfl, rfl, rfl⟩ := goKey_inj hm hv hpa hpb h
      exact ⟨⟨rfl, rfl⟩, rfl⟩
    · rintro ⟨⟨hma, hvb⟩, rfl⟩
      rw [some.inj hma, some.inj hvb]
  rw [get_upload ha hb]
  simp only [hkey]
  cases hn : form.names module version with
  | false => simp
  | true => cases kind <;> simp [GoForm.file, Option.map_or, Function.comp_def]

/-- A request that is refused uploads nothing. -/
theorem GoInv.refused (h : GoInv forms s)
    (hnone : form.module = none ∨ form.version = none) : GoInv (forms ++ [form]) s := by
  have hnames : ∀ module version, form.names module version = false := by
    intro module version
    rcases hnone with hnone | hnone <;> simp [GoForm.names, hnone]
  have hup : ∀ module version, Uploaded (forms ++ [form]) module version ↔
      Uploaded forms module version := by
    intro module version
    rw [uploaded_append, hnames, or_iff_left Bool.false_ne_true]
  refine ⟨fun module version hu => h.plain module version ((hup _ _).mp hu), ?_, ?_,
    fun module version hu => h.info module version ((hup _ _).mp hu)⟩
  · intro module version kind hm hv
    rw [lastUploaded_append, hnames, h.content module version kind hm hv]
    rfl
  · intro sk r hr
    obtain ⟨module, version, kind, hu, hsk⟩ := h.keys sk r hr
    exact ⟨module, version, kind, (hup _ _).mpr hu, hsk⟩

/-- An upload with plain names keeps the invariant. -/
theorem GoInv.accepted (h : GoInv forms s) (ha : form.module = some a) (hb : form.version = some b)
    (hadmits : s.admits form = true) : GoInv (forms ++ [form]) (s.upload form) := by
  simp only [GoStore.admits, ha, hb, Bool.and_eq_true, Bool.or_eq_true] at hadmits
  obtain ⟨⟨hpa, hpb⟩, hinfo⟩ := hadmits
  have hself : Uploaded (forms ++ [form]) a b :=
    uploaded_append.mpr (.inr (names_iff.mpr ⟨ha, hb⟩))
  have hnamed : ∀ module version, form.names module version = true → a = module ∧ b = version := by
    intro module version hn
    obtain ⟨hm, hv⟩ := names_iff.mp hn
    rw [ha] at hm
    rw [hb] at hv
    exact ⟨some.inj hm, some.inj hv⟩
  have hcontent := @content_upload s form a b ha hb hpa hpb
  refine ⟨fun module version hu => ?_, fun module version kind hm hv => ?_, fun sk r hr => ?_,
    fun module version hu => ?_⟩
  · rcases uploaded_append.mp hu with hu | hn
    · exact h.plain module version hu
    · obtain ⟨rfl, rfl⟩ := hnamed module version hn
      exact ⟨hpa, hpb⟩
  · rw [hcontent hm hv, h.content module version kind hm hv, lastUploaded_append]
  · rw [get_upload ha hb] at hr
    by_cases hkey : ∃ kind, sk = goKey a b kind
    · obtain ⟨kind, hsk⟩ := hkey
      exact ⟨a, b, kind, hself, hsk⟩
    · rw [not_exists] at hkey
      simp only [hkey, if_false, Option.none_or] at hr
      obtain ⟨module, version, kind, hu, hsk⟩ := h.keys sk r hr
      exact ⟨module, version, kind, uploaded_append.mpr (.inl hu), hsk⟩
  · have hpresent : ∀ o : Option GoRecord, o.isSome = (o.map GoRecord.content).isSome := fun o => by
      cases o <;> rfl
    rcases uploaded_append.mp hu with hu | hn
    · obtain ⟨hm, hv⟩ := h.plain module version hu
      have hold := h.info module version hu
      rw [hpresent] at hold ⊢
      rw [hcontent hm hv, Option.isSome_or, hold, Bool.or_true]
    · obtain ⟨rfl, rfl⟩ := hnamed module version hn
      rw [hpresent, hcontent hpa hpb, if_pos hn, Option.isSome_or, ← hpresent]
      exact Bool.or_eq_true_iff.mpr hinfo

theorem GoInv.step (h : GoInv forms s) (hadmits : s.admits form = true) :
    GoInv (forms ++ [form]) (s.upload form) := by
  cases ha : form.module with
  | none =>
    rw [upload_refused (.inl ha)]
    exact h.refused (.inl ha)
  | some a =>
    cases hb : form.version with
    | none =>
      rw [upload_refused (.inr hb)]
      exact h.refused (.inr hb)
    | some b => exact h.accepted ha hb hadmits

/-- Uploads with plain names keep the invariant. -/
theorem GoInv.run {more : List GoForm} {s' : GoStore} (h : GoInv forms s)
    (hrun : s.run more = some s') : GoInv (forms ++ more) s' := by
  induction more generalizing forms s with
  | nil =>
    obtain rfl := some.inj hrun
    rwa [append_nil]
  | cons form more ih =>
    rw [GoStore.run] at hrun
    split_ifs at hrun with hadmits
    have hstep := ih (h.step hadmits) hrun
    rwa [append_assoc, singleton_append] at hstep

/-! ## Requests after a run -/

theorem mem_listVersions : version ∈ s.listVersions module ↔ ∃ sk r, s.get sk = some r ∧
      hasPrefix (GoStore.versionsPrefix module) sk = true ∧
      GoStore.infoVersion sk = some version := by
  unfold GoStore.listVersions
  rw [mem_insertionSort, mem_dedup, mem_filterMap]
  simp only [mem_filter, Prod.exists, SortedMap.mem_entries_iff]
  constructor
  · rintro ⟨sk, r, ⟨hr, hpre⟩, hinfo⟩
    exact ⟨sk, r, hr, hpre, hinfo⟩
  · rintro ⟨sk, r, hr, hpre, hinfo⟩
    exact ⟨sk, r, ⟨hr, hpre⟩, hinfo⟩

/-- The versions that are listed for a module. -/
theorem GoInv.listed (h : GoInv forms s) (hm : plainModule module = true)
    (version : String) : version ∈ s.listVersions module ↔ Uploaded forms module version := by
  rw [mem_listVersions]
  constructor
  · rintro ⟨sk, r, hr, hpre, hinfo⟩
    obtain ⟨module', version', kind, hu, rfl⟩ := h.keys sk r hr
    obtain ⟨hm', hv'⟩ := h.plain module' version' hu
    obtain rfl := (hasPrefix_goKey kind hm hm' hv').mp hpre
    rw [infoVersion_goKey kind hm' hv'] at hinfo
    split_ifs at hinfo
    rwa [← some.inj hinfo]
  · intro hu
    obtain ⟨-, hv⟩ := h.plain module version hu
    obtain ⟨r, hr⟩ := Option.isSome_iff_exists.mp (h.info module version hu)
    exact ⟨_, r, hr, (hasPrefix_goKey .info hm hm hv).mpr rfl, infoVersion_goKey .info hm hv⟩

/-- A client reads the versions back from the list. -/
theorem versionLines_body (versions : List String) (h : ∀ v ∈ versions, plainVersion v = true) :
    versionLines (ofList (['\n'].intercalate (versions.map toList))) = versions := by
  unfold versionLines
  rw [String.toList_ofList]
  by_cases hnil : versions = []
  · rw [hnil]
    rfl
  · have hsplit : (['\n'].intercalate (versions.map toList)).splitOn '\n' =
        versions.map toList := by
      refine splitOn_intercalate '\n' (fun l hl => ?_) (by simpa using hnil)
      obtain ⟨v, hv, rfl⟩ := mem_map.mp hl
      exact fun hmem => (plainVersion_chars (h v hv) _ hmem).2.1 rfl
    have hfilter : (versions.map toList).filter (· ≠ []) = versions.map toList := by
      refine filter_eq_self.mpr fun l hl => ?_
      obtain ⟨v, hv, rfl⟩ := mem_map.mp hl
      exact decide_eq_true (plainVersion_ne_nil (h v hv))
    rw [hsplit, hfilter, map_map]
    simp [Function.comp_def]

theorem GoInv.served (h : GoInv forms s) : GoServed forms s := by
  refine ⟨fun module version hu kind => ?_, fun module version hu => ?_⟩
  · obtain ⟨hm, hv⟩ := h.plain module version hu
    rw [respond_goFileRequest s hm hv kind, ← h.content module version kind hm hv,
      GoStore.serveModuleFile]
    cases s.get (goKey module version kind) <;> rfl
  · obtain ⟨hm, -⟩ := h.plain module version hu
    refine ⟨s.versionsBody module, respond_goListRequest s hm, fun version' => ?_⟩
    have hplain : ∀ v ∈ s.listVersions module, plainVersion v = true := fun v hv =>
      (h.plain module v ((h.listed hm v).mp hv)).2
    rw [GoStore.versionsBody, versionLines_body _ hplain, h.listed hm]

end

/-- **Main theorem.** As long as the names of the uploads are plain, each file of each version
    is served to a client as it was uploaded last, and the lists name exactly the versions. -/
theorem goModules_served {forms : List GoForm} {s : GoStore}
    (h : GoStore.run SortedMap.empty forms = some s) : GoServed forms s :=
  (GoInv.empty.run h).served

/-- The uploads of two versions, one of them twice. -/
def plainUploads : List GoForm :=
  [⟨some "example.com/Lib", some "v1.0.0", some [1], some [2], some [3]⟩,
    ⟨some "example.com/Lib", some "v1.1.0", some [4], some [5], some [6]⟩,
    ⟨some "example.com/Lib", some "v1.0.0", none, none, some [7]⟩]

/-- A file is served as it was uploaded last. -/
theorem plainUploads_served : ∃ s, GoStore.run SortedMap.empty plainUploads = some s ∧
    GoServed plainUploads s := by
  have hsome : (GoStore.run SortedMap.empty plainUploads).isSome = true := by decide +kernel
  obtain ⟨s, hs⟩ := Option.isSome_iff_exists.mp hsome
  exact ⟨s, hs, goModules_served hs⟩

/-! ## A version that is lost -/

/-- A version with upper-case letters. -/
def upperUpload : GoForm :=
  ⟨some "example.com/lib", some "v1.0.0-RC1", some [1], some [2], some [3]⟩

/-- It is stored, but is not found under the escaped version. -/
theorem goVersion_lost :
    ¬∀ forms : List GoForm, GoServed forms (forms.foldl GoStore.upload SortedMap.empty) := by
  intro hall
  have hserved := (hall [upperUpload]).file "example.com/lib" "v1.0.0-RC1"
    ⟨upperUpload, mem_cons_self, by decide⟩ .info
  have hlost : GoStore.respond ([upperUpload].foldl GoStore.upload SortedMap.empty)
      (goFileRequest "example.com/lib" "v1.0.0-RC1" .info) =
      some (.error (.notFound "not found")) := by
    decide +kernel
  rw [hlost] at hserved
  have hlast : lastUploaded [upperUpload] "example.com/lib" "v1.0.0-RC1" .info = some [1] := by
    decide +kernel
  rw [hlast] at hserved
  cases hserved

end Depot
