import Depot.Index.Lines
import Depot.Yum.Merge

/-!
# Reading the metadata of a Yum repository

What a client finds in the files of a group: `repomd.xml` names the file with the packages, which
has an element for each of them, with a path below the directory of the group
(`generate_repomd_xml` and `generate_primary_xml`, `format/yum/src/store/metadata.rs`).

Results:
* `xmlUnescape_escape`: an escaped text is read back.
* `packagesIn_entries`: the elements of a document that has one after the other.
* `listedPaths_primary`: the paths that are read are those of the packages, in their order.
* `packagesAttr_primary`: the attribute of the root element is their number.
* `primaryLocation_repomd`: the file that `repomd.xml` names.
-/

namespace Depot

open Lib List
open Option (bind_some map_some)
open String (join_cons ofList ofList_toList toList_append toList_join toList_ofList)

/-! ## The reader -/

def quoteMark : Char := Char.ofNat 34

/-- The attribute that starts with a text, up to the quotation mark at its end. -/
def attrAfter (marker text : List Char) : Option (List Char) :=
  (fromFirst marker text).map fun rest => (rest.drop marker.length).takeWhile (· ≠ quoteMark)

/-- The text that an escaped one stands for. -/
def xmlUnescape : List Char → List Char
  | '&' :: 'a' :: 'm' :: 'p' :: ';' :: cs => '&' :: xmlUnescape cs
  | '&' :: 'l' :: 't' :: ';' :: cs => '<' :: xmlUnescape cs
  | '&' :: 'g' :: 't' :: ';' :: cs => '>' :: xmlUnescape cs
  | '&' :: 'q' :: 'u' :: 'o' :: 't' :: ';' :: cs => Char.ofNat 34 :: xmlUnescape cs
  | '&' :: 'a' :: 'p' :: 'o' :: 's' :: ';' :: cs => Char.ofNat 39 :: xmlUnescape cs
  | c :: cs => c :: xmlUnescape cs
  | [] => []

/-- What the path of a package, and that of a file of a group, starts with. -/
def locationMark : List Char := "<location href=\"".toList

/-- The path in an element. -/
def hrefOf (piece : List Char) : Option String :=
  (attrAfter locationMark piece).map fun href => ofList (xmlUnescape href)

/-- A path below the directory of a group. -/
def joinPath (pfx href : String) : String := if pfx = "" then href else pfx ++ "/" ++ href

/-- The paths of the packages that a document lists. -/
def listedPaths (pfx text : String) : List String :=
  (packagesIn text.toList).filterMap fun piece => (hrefOf piece.toList).map (joinPath pfx)

/-- The number of packages that it says it has. -/
def packagesAttr (text : String) : Option String :=
  (attrAfter "packages=\"".toList text.toList).map ofList

/-- The path of the document that a `repomd.xml` names. -/
def primaryLocation (repomd : String) : Option String :=
  (fromFirst "<data type=\"primary\">".toList repomd.toList).bind fun rest =>
    (attrAfter locationMark rest).map ofList

/-! ## Escaped texts -/

/-- A character as `xml_escape` writes it. -/
def escapeChar (c : Char) : String :=
  if c = '&' then "&amp;" else if c = '<' then "&lt;" else if c = '>' then "&gt;"
  else if c = Char.ofNat 34 then "&quot;" else if c = Char.ofNat 39 then "&apos;"
  else String.singleton c

theorem toList_xmlEscape (s : String) :
    (xmlEscape s).toList = s.toList.flatMap fun c => (escapeChar c).toList := by
  rw [xmlEscape, toList_join, flatMap_map]
  rfl

/-- What a character is escaped to has no markup. -/
theorem notMem_escapeChar (c : Char) :
    '<' ∉ (escapeChar c).toList ∧ quoteMark ∉ (escapeChar c).toList := by
  unfold escapeChar
  split_ifs with h₁ h₂ h₃ h₄ h₅
  · decide
  · decide
  · decide
  · decide
  · decide
  · rw [String.toList_singleton, mem_singleton, mem_singleton]
    exact ⟨fun h => h₂ h.symm, fun h => h₄ h.symm⟩

theorem notMem_xmlEscape (s : String) :
    '<' ∉ (xmlEscape s).toList ∧ quoteMark ∉ (xmlEscape s).toList := by
  rw [toList_xmlEscape, mem_flatMap, mem_flatMap]
  constructor
  · rintro ⟨c, -, hc⟩
    exact (notMem_escapeChar c).1 hc
  · rintro ⟨c, -, hc⟩
    exact (notMem_escapeChar c).2 hc

theorem xmlUnescape_cons {c : Char} (h : c ≠ '&') (cs : List Char) :
    xmlUnescape (c :: cs) = c :: xmlUnescape cs := by
  rw [xmlUnescape] <;> intros <;> simp_all

/-- An escaped text is read back. -/
theorem xmlUnescape_escape (s : String) : ofList (xmlUnescape (xmlEscape s).toList) = s := by
  have hback : ∀ cs : List Char,
      xmlUnescape (cs.flatMap fun c => (escapeChar c).toList) = cs := by
    intro cs
    induction cs with
    | nil => rfl
    | cons c cs ih =>
      rw [flatMap_cons]
      unfold escapeChar
      split_ifs with h₁ h₂ h₃ h₄ h₅
      · have hlit : "&amp;".toList = ['&', 'a', 'm', 'p', ';'] := by decide
        rw [hlit, h₁]
        exact congrArg ('&' :: ·) ih
      · have hlit : "&lt;".toList = ['&', 'l', 't', ';'] := by decide
        rw [hlit, h₂]
        exact congrArg ('<' :: ·) ih
      · have hlit : "&gt;".toList = ['&', 'g', 't', ';'] := by decide
        rw [hlit, h₃]
        exact congrArg ('>' :: ·) ih
      · have hlit : "&quot;".toList = ['&', 'q', 'u', 'o', 't', ';'] := by decide
        rw [hlit, h₄]
        exact congrArg (Char.ofNat 34 :: ·) ih
      · have hlit : "&apos;".toList = ['&', 'a', 'p', 'o', 's', ';'] := by decide
        rw [hlit, h₅]
        exact congrArg (Char.ofNat 39 :: ·) ih
      · rw [String.toList_singleton, singleton_append, xmlUnescape_cons h₁]
        exact congrArg (c :: ·) ih
  rw [toList_xmlEscape, hback, ofList_toList]

/-! ## Texts without markup -/

/-- A text in which no occurrence of `<p` begins. -/
structure NoTag (p : List Char) (s : String) : Prop where
  clear : Lib.Clear '<' p s.toList

instance (p : List Char) (s : String) : Decidable (NoTag p s) :=
  decidable_of_iff (Lib.Clear '<' p s.toList) ⟨NoTag.mk, NoTag.clear⟩

section

variable {p : List Char} {s s' : String}

theorem NoTag.append (h : NoTag p s) (h' : NoTag p s') : NoTag p (s ++ s') := by
  constructor
  rw [toList_append]
  exact h.clear.append h'.clear

theorem noTag_of_notMem (h : '<' ∉ s.toList) : NoTag p s := ⟨clear_of_notMem h⟩

theorem noTag_escape (s : String) : NoTag p (xmlEscape s) := noTag_of_notMem (notMem_xmlEscape s).1

theorem noTag_repr (n : ℕ) : NoTag p (toString n) := by
  refine noTag_of_notMem fun h => ?_
  have hlist : (toString n).toList = Nat.toDigits 10 n := by
    show n.repr.toList = _
    rw [Nat.repr, toList_ofList]
  rw [hlist] at h
  have hdigit := Nat.isDigit_of_mem_toDigits (by omega) (by omega) h
  revert hdigit
  decide

theorem noTag_intRepr (n : ℤ) : NoTag p (toString n) := by
  cases n with
  | ofNat n => exact noTag_repr n
  | negSucc n =>
    have htext : toString (Int.negSucc n) = "-" ++ toString (n + 1) := rfl
    rw [htext]
    exact (noTag_of_notMem (by decide)).append (noTag_repr _)

theorem noTag_join {texts : List String} (h : ∀ text ∈ texts, NoTag p text) :
    NoTag p (String.join texts) := by
  constructor
  rw [toList_join]
  refine clear_flatten fun text htext => ?_
  obtain ⟨s, hs, rfl⟩ := mem_map.mp htext
  exact (h s hs).clear

/-- An element with a text, if its tags are not `<p`. -/
theorem noTag_elementXml {indent tag : String} (hopen : NoTag p (indent ++ "<" ++ tag ++ ">"))
    (hclose : NoTag p ("</" ++ tag ++ ">\n")) (text : String) :
    NoTag p (elementXml indent tag text) := by
  have hshape : elementXml indent tag text =
      indent ++ "<" ++ tag ++ ">" ++ xmlEscape text ++ ("</" ++ tag ++ ">\n") := by
    rw [elementXml]
    simp only [String.append_assoc]
  rw [hshape]
  exact (hopen.append (noTag_escape text)).append hclose

end

/-! ## The element of a package -/

/-- The rest of what is searched for in an element: its close tag, and the path. -/
def entryPatterns : List (List Char) := ["/package>\n".toList, "location href=\"".toList]

/-- An element up to the path. -/
def entryFront (rpm : RpmPackageMeta) (record : ArtifactRecord) : String :=
  String.join ["<package type=\"rpm\">\n", elementXml "  " "name" rpm.name,
    elementXml "  " "arch" rpm.arch, versionXml rpm,
    "  <checksum type=\"sha256\" pkgid=\"YES\">", rpm.sha256, "</checksum>\n",
    elementXml "  " "summary" rpm.summary, elementXml "  " "description" rpm.description,
    elementXml "  " "packager" rpm.packager, elementXml "  " "url" rpm.url, "  <time file=\"",
    toString (timestamp record.createdAt), "\" build=\"", toString rpm.buildtime, "\"/>\n",
    "  <size package=\"", toString record.size, "\" installed=\"", toString rpm.installedSize,
    "\" archive=\"", toString rpm.archiveSize, "\"/>\n", "  "]

/-- An element after the path, up to its close tag. -/
def entryBack (rpm : RpmPackageMeta) : String :=
  String.join ["/>\n", "  <format>\n", elementXml "    " "rpm:license" rpm.license,
    elementXml "    " "rpm:vendor" rpm.vendor, elementXml "    " "rpm:group" rpm.group,
    elementXml "    " "rpm:buildhost" rpm.buildhost, depsXml "rpm:requires" rpm.requires,
    depsXml "rpm:provides" rpm.provides, depsXml "rpm:conflicts" rpm.conflicts,
    depsXml "rpm:obsoletes" rpm.obsoletes, "  </format>\n"]

/-- An element without its close tag. -/
def entryBody (rpm : RpmPackageMeta) (record : ArtifactRecord) (href : String) : String :=
  entryFront rpm record ++ ("<location href=\"" ++ (xmlEscape href ++ ("\"" ++ entryBack rpm)))

theorem primaryEntryXml_eq (rpm : RpmPackageMeta) (record : ArtifactRecord) (href : String) :
    primaryEntryXml rpm record href = entryBody rpm record href ++ "</package>\n" := by
  have hlocation : ∀ rest : String,
      "  " ++ ("<location href=\"" ++ rest) = "  <location href=\"" ++ rest := by
    intro rest
    have hlit : "  " ++ "<location href=\"" = "  <location href=\"" := by decide
    rw [← String.append_assoc, hlit]
  have hquote : ∀ rest : String, "\"" ++ ("/>\n" ++ rest) = "\"/>\n" ++ rest := by
    intro rest
    have hlit : "\"" ++ "/>\n" = "\"/>\n" := by decide
    rw [← String.append_assoc, hlit]
  unfold primaryEntryXml entryBody entryFront entryBack
  simp only [join_cons, String.join_nil, String.append_empty, String.append_assoc,
    hlocation, hquote]

section

variable {p : List Char} {rpm : RpmPackageMeta}

theorem noTag_versionXml (hp : p ∈ entryPatterns) (rpm : RpmPackageMeta) :
    NoTag p (versionXml rpm) := by
  have hlit : ∀ q ∈ entryPatterns, ∀ text ∈ ["  <version epoch=\"", "\" ver=\"", "\" rel=\"",
      "\"/>\n"], NoTag q text := by decide
  unfold versionXml
  repeat' with_reducible refine NoTag.append ?_ ?_
  all_goals first
    | with_reducible exact noTag_escape _
    | with_reducible exact noTag_repr _
    | exact hlit p hp _ (by simp)

theorem noTag_depsXml {tag : String} (hp : p ∈ entryPatterns)
    (hopen : NoTag p ("    <" ++ tag ++ ">\n")) (hclose : NoTag p ("    </" ++ tag ++ ">\n"))
    (deps : List RpmDep) : NoTag p (depsXml tag deps) := by
  have hlit : ∀ q ∈ entryPatterns, ∀ text ∈ ["      <rpm:entry name=\"", "\"/>\n", "\" flags=\"",
      "\" epoch=\"", "\" ver=\"", "\" rel=\""], NoTag q text := by decide
  unfold depsXml
  split_ifs
  · exact noTag_of_notMem (by decide)
  · have hshape : ∀ entries : String, "    <" ++ tag ++ ">\n" ++ entries ++ "    </" ++ tag ++ ">\n" =
        "    <" ++ tag ++ ">\n" ++ entries ++ ("    </" ++ tag ++ ">\n") := by
      intro entries
      simp only [String.append_assoc]
    rw [hshape]
    refine (hopen.append (noTag_join fun text htext => ?_)).append hclose
    obtain ⟨dep, -, rfl⟩ := mem_map.mp htext
    split_ifs
    all_goals
      repeat' with_reducible refine NoTag.append ?_ ?_
      all_goals first
        | with_reducible exact noTag_escape _
        | exact hlit p hp _ (by simp)

/-- Nothing that is searched for begins before the path. -/
theorem noTag_entryFront (hp : p ∈ entryPatterns) (hsha : '<' ∉ rpm.sha256.toList)
    (record : ArtifactRecord) : NoTag p (entryFront rpm record) := by
  have hlit : ∀ q ∈ entryPatterns, ∀ text ∈ ["<package type=\"rpm\">\n",
      "  <checksum type=\"sha256\" pkgid=\"YES\">", "</checksum>\n", "\" build=\"", "\"/>\n",
      "  <time file=\"", "  <size package=\"", "\" installed=\"", "\" archive=\"", "  "],
      NoTag q text := by decide
  have htags : ∀ q ∈ entryPatterns, ∀ tag ∈ ["name", "arch", "summary", "description", "packager",
      "url"], NoTag q ("  " ++ "<" ++ tag ++ ">") ∧ NoTag q ("</" ++ tag ++ ">\n") := by
    decide
  have helement : ∀ tag ∈ ["name", "arch", "summary", "description", "packager", "url"],
      ∀ value, NoTag p (elementXml "  " tag value) := fun tag htag value =>
    noTag_elementXml (htags p hp tag htag).1 (htags p hp tag htag).2 value
  have hsha' : NoTag p rpm.sha256 := noTag_of_notMem hsha
  refine noTag_join ?_
  simp only [forall_mem_cons, not_mem_nil, false_implies, implies_true, and_true]
  refine ⟨?_, ?_, ?_, noTag_versionXml hp rpm, ?_, hsha', ?_, ?_, ?_, ?_, ?_, ?_, noTag_intRepr _,
    ?_, noTag_repr _, ?_, ?_, noTag_repr _, ?_, noTag_repr _, ?_, noTag_repr _, ?_, ?_⟩
  all_goals first
    | exact helement _ (by simp) _
    | exact hlit p hp _ (by simp)

/-- Nor after it, before the close tag. -/
theorem noTag_entryBack (hp : p ∈ entryPatterns) (rpm : RpmPackageMeta) :
    NoTag p (entryBack rpm) := by
  have hlit : ∀ q ∈ entryPatterns, ∀ text ∈ ["/>\n", "  <format>\n", "  </format>\n"],
      NoTag q text := by decide
  have htags : ∀ q ∈ entryPatterns, ∀ tag ∈ ["rpm:license", "rpm:vendor", "rpm:group",
      "rpm:buildhost"], NoTag q ("    " ++ "<" ++ tag ++ ">") ∧ NoTag q ("</" ++ tag ++ ">\n") := by
    decide
  have hdepTags : ∀ q ∈ entryPatterns, ∀ tag ∈ ["rpm:requires", "rpm:provides", "rpm:conflicts",
      "rpm:obsoletes"], NoTag q ("    <" ++ tag ++ ">\n") ∧ NoTag q ("    </" ++ tag ++ ">\n") := by
    decide
  have helement : ∀ tag ∈ ["rpm:license", "rpm:vendor", "rpm:group", "rpm:buildhost"],
      ∀ value, NoTag p (elementXml "    " tag value) := fun tag htag value =>
    noTag_elementXml (htags p hp tag htag).1 (htags p hp tag htag).2 value
  have hdeps : ∀ tag ∈ ["rpm:requires", "rpm:provides", "rpm:conflicts", "rpm:obsoletes"],
      ∀ deps, NoTag p (depsXml tag deps) := fun tag htag deps =>
    noTag_depsXml hp (hdepTags p hp tag htag).1 (hdepTags p hp tag htag).2 deps
  refine noTag_join ?_
  simp only [forall_mem_cons, not_mem_nil, false_implies, implies_true, and_true]
  refine ⟨?_, ?_, ?_, ?_, ?_, ?_, ?_, ?_, ?_, ?_, ?_⟩
  all_goals first
    | exact helement _ (by simp) _
    | exact hdeps _ (by simp) _
    | exact hlit p hp _ (by simp)

/-- The close tag is not in an element before its end. -/
theorem noTag_entryBody (hsha : '<' ∉ rpm.sha256.toList) (record : ArtifactRecord)
    (href : String) : NoTag "/package>\n".toList (entryBody rpm record href) := by
  have hp : "/package>\n".toList ∈ entryPatterns := mem_cons_self
  have hlocation : NoTag "/package>\n".toList "<location href=\"" := by decide
  have hquote : NoTag "/package>\n".toList "\"" := by decide
  exact (noTag_entryFront hp hsha record).append
    (hlocation.append ((noTag_escape href).append (hquote.append (noTag_entryBack hp rpm))))

end

/-- An element begins with the open tag. -/
theorem openTag_entryBody (rpm : RpmPackageMeta) (record : ArtifactRecord) (href : String) :
    openTag <+: (entryBody rpm record href).toList := by
  have hopen : openTag <+: "<package type=\"rpm\">\n".toList := by decide
  rw [entryBody, entryFront, join_cons, toList_append, toList_append]
  exact (hopen.trans (prefix_append _ _)).trans (prefix_append _ _)

/-! ## Documents -/

/-- Elements one after the other, each on lines of its own, are cut out one by one. -/
theorem packagesIn_entries {bodies : List String} {lead tail : List Char}
    (hlead : Lib.Clear '<' "package ".toList lead) (htail : Lib.Clear '<' "package ".toList tail)
    (hbodies : ∀ b ∈ bodies, openTag <+: b.toList ∧ NoTag "/package>\n".toList b) :
    packagesIn (lead ++ (bodies.flatMap (fun b => b.toList ++ closeLine) ++ tail)) =
      bodies.map fun b => ofList (b.toList ++ closeLine) := by
  have hopenTag : openTag = '<' :: "package ".toList := by decide
  have hcloseLine : closeLine = '<' :: "/package>\n".toList := by decide
  induction bodies generalizing lead with
  | nil =>
    rw [flatMap_nil, nil_append, packagesIn_eq]
    have hnone : nextElement (lead ++ tail) = none := by
      rw [nextElement_eq_none_iff]
      intro a b heq
      refine absurd ?_ (hlead.append htail).notInfix
      rw [← hopenTag]
      exact ⟨a, b, heq.symm⟩
    rw [hnone]
    rfl
  | cons b bodies ih =>
    obtain ⟨hopen, hbody⟩ := hbodies b mem_cons_self
    rw [flatMap_cons, append_assoc, packagesIn_eq]
    have hend : OnlyEnds closeLine (b.toList ++ closeLine) := by
      rw [hcloseLine]
      exact throughFirst_clear hbody.clear
    have hfrom := fromFirst_lead (hopenTag ▸ hlead.notInfix)
      (hopen.trans (prefix_append b.toList (closeLine ++
        (bodies.flatMap (fun b => b.toList ++ closeLine) ++ tail))))
    rw [← append_assoc b.toList] at hfrom
    have hnext := nextElement_eq_some_iff.mpr ⟨hfrom, .inl (throughFirst_append.mpr hend)⟩
    have hrest := @ih [] .nil fun b' hb' => hbodies b' (mem_cons_of_mem _ hb')
    rw [nil_append] at hrest
    rw [hnext]
    exact congrArg (ofList (b.toList ++ closeLine) :: ·) hrest

/-- An attribute is read if its name does not begin before it. -/
theorem attrAfter_clear {mark : Char} {p lead value : List Char} (hlead : Lib.Clear mark p lead)
    (hvalue : quoteMark ∉ value) (rest : List Char) :
    attrAfter (mark :: p) (lead ++ (mark :: p ++ (value ++ quoteMark :: rest))) = some value := by
  have hplain : ∀ c ∈ value, decide (c ≠ quoteMark) = true := by
    intro c hc
    rw [decide_eq_true_eq]
    rintro rfl
    exact hvalue hc
  rw [attrAfter, fromFirst_clear hlead, map_some, drop_left,
    takeWhile_append_of_pos hplain, takeWhile_cons_of_neg (by simp), append_nil]

/-- The path in the element of a package. -/
theorem hrefOf_entry {rpm : RpmPackageMeta} (hsha : '<' ∉ rpm.sha256.toList)
    (record : ArtifactRecord) (href : String) :
    hrefOf ((entryBody rpm record href).toList ++ closeLine) = some href := by
  have hmark : locationMark = '<' :: "location href=\"".toList := by decide
  have hquote : "\"".toList = [quoteMark] := by decide
  have hp : "location href=\"".toList ∈ entryPatterns := mem_cons_of_mem _ mem_cons_self
  have hshape : (entryBody rpm record href).toList ++ closeLine =
      (entryFront rpm record).toList ++ (locationMark ++ ((xmlEscape href).toList ++
        quoteMark :: ((entryBack rpm).toList ++ closeLine))) := by
    have hlit : "<location href=\"".toList = locationMark := rfl
    simp only [entryBody, toList_append, append_assoc, hquote, cons_append, nil_append, hlit]
  have hattr := attrAfter_clear (noTag_entryFront hp hsha record).clear (notMem_xmlEscape href).2
    ((entryBack rpm).toList ++ closeLine)
  rw [← hmark, ← hshape] at hattr
  rw [hrefOf, hattr, map_some, xmlUnescape_escape]

/-- The bytes with which every RPM file begins; `rpm::Package::parse` takes no other. -/
def rpmLead : Bytes := [0xed, 0xab, 0xee, 0xdb]

/-- A package of a repository, an RPM file with a checksum in hexadecimal digits. -/
structure YumEntry (e : String × StoredRecord) : Prop where
  yum : e.2.packageMeta.isYum = true
  hex : ∀ rpm, e.2.packageMeta = .yum rpm → ∀ c ∈ rpm.sha256.toList, isHex c = true
  lead : ∀ data, e.2.content = some data → rpmLead <+: data

/-- The packages of a primary, as text. -/
def groupBodies (pfx : String) (group : List (String × StoredRecord)) : List String :=
  group.filterMap fun e =>
    match e.2.packageMeta with
    | .yum rpm => some (entryBody rpm e.2.record (locationHref e.1 pfx))
    | _ => none

theorem exists_rpm {e : String × StoredRecord} (h : YumEntry e) :
    ∃ rpm, e.2.packageMeta = .yum rpm ∧ '<' ∉ rpm.sha256.toList := by
  have hyum := h.yum
  cases hmeta : e.2.packageMeta with
  | yum rpm =>
    refine ⟨rpm, rfl, fun hmem => ?_⟩
    have hhex := h.hex rpm hmeta '<' hmem
    revert hhex
    decide
  | _ =>
    rw [hmeta] at hyum
    cases hyum

theorem toList_primaryEntries (pfx : String) (group : List (String × StoredRecord)) :
    (rpmEntries (fun rpm record path => primaryEntryXml rpm record (locationHref path pfx))
      group).toList = (groupBodies pfx group).flatMap fun b => b.toList ++ closeLine := by
  have hclose : "</package>\n".toList = closeLine := by decide
  rw [rpmEntries, toList_join, flatMap_map, groupBodies, filterMap_eq_flatMap_toList, flatMap_assoc]
  refine flatMap_congr fun e _ => ?_
  cases e.2.packageMeta with
  | yum rpm =>
    dsimp only
    rw [primaryEntryXml_eq, toList_append, hclose, Option.toList_some, flatMap_singleton]
  | _ => rfl

/-- The head of `primary.xml` up to the attribute. -/
def primaryHead : String :=
  xmlHeader ++ "<metadata xmlns=\"http://linux.duke.edu/metadata/common\" " ++
    "xmlns:rpm=\"http://linux.duke.edu/metadata/rpm\" "

theorem generatePrimaryXml_eq (group : List (String × StoredRecord)) (pfx : String) :
    generatePrimaryXml group pfx = primaryHead ++ "packages=\"" ++ toString group.length ++ "\">\n" ++
      rpmEntries (fun rpm record path => primaryEntryXml rpm record (locationHref path pfx)) group ++
      "</metadata>\n" := by
  have hlit : "xmlns:rpm=\"http://linux.duke.edu/metadata/rpm\" packages=\"" =
      "xmlns:rpm=\"http://linux.duke.edu/metadata/rpm\" " ++ "packages=\"" := by decide
  unfold generatePrimaryXml primaryHead
  simp only [hlit, String.append_assoc]

section

variable {group : List (String × StoredRecord)} (hgroup : ∀ e ∈ group, YumEntry e)
include hgroup

theorem packagesIn_primary (pfx : String) : packagesIn (generatePrimaryXml group pfx).toList =
    (groupBodies pfx group).map fun b => ofList (b.toList ++ closeLine) := by
  have hlead : NoTag "package ".toList
      (primaryHead ++ "packages=\"" ++ toString group.length ++ "\">\n") := by
    have hhead : NoTag "package ".toList (primaryHead ++ "packages=\"") := by decide +kernel
    exact (hhead.append (noTag_repr _)).append (noTag_of_notMem (by decide))
  have htail : NoTag "package ".toList "</metadata>\n" := by decide
  have hbodies : ∀ b ∈ groupBodies pfx group,
      openTag <+: b.toList ∧ NoTag "/package>\n".toList b := by
    intro b hb
    obtain ⟨e, he, hbody⟩ := mem_filterMap.mp hb
    obtain ⟨rpm, hrpm, hsha⟩ := exists_rpm (hgroup e he)
    rw [hrpm] at hbody
    obtain rfl := Option.some.inj hbody
    exact ⟨openTag_entryBody _ _ _, noTag_entryBody hsha _ _⟩
  rw [generatePrimaryXml_eq, toList_append, toList_append, toList_primaryEntries, append_assoc]
  exact packagesIn_entries hlead.clear htail.clear hbodies

theorem length_groupBodies (pfx : String) : (groupBodies pfx group).length = group.length := by
  induction group with
  | nil => rfl
  | cons e group ih =>
    obtain ⟨rpm, hrpm, -⟩ := exists_rpm (hgroup e mem_cons_self)
    have hrest := ih fun e he => hgroup e (mem_cons_of_mem _ he)
    rw [groupBodies, filterMap_cons, hrpm]
    exact congrArg (· + 1) hrest

/-- The paths that are read are those of the packages, in their order. -/
theorem listedPaths_primary (pfx : String) : listedPaths pfx (generatePrimaryXml group pfx) =
    group.map fun e => joinPath pfx (locationHref e.1 pfx) := by
  rw [listedPaths, packagesIn_primary hgroup, filterMap_map, groupBodies,
    filterMap_filterMap, ← filterMap_eq_map]
  refine filterMap_congr fun e he => ?_
  obtain ⟨rpm, hrpm, hsha⟩ := exists_rpm (hgroup e he)
  rw [hrpm, bind_some, Function.comp_apply, toList_ofList, hrefOf_entry hsha, map_some]
  rfl

/-- The attribute of the root element is their number. -/
theorem packagesAttr_primary (pfx : String) :
    packagesAttr (generatePrimaryXml group pfx) = some (toString group.length) ∧
      (packagesIn (generatePrimaryXml group pfx).toList).length = group.length := by
  constructor
  · have hhead : Lib.Clear 'p' "ackages=\"".toList primaryHead.toList := by decide +kernel
    have hmark : "packages=\"".toList = 'p' :: "ackages=\"".toList := by decide
    have hquote : "\">\n".toList = quoteMark :: ">\n".toList := by decide
    have hnumber : quoteMark ∉ (toString group.length).toList := by
      intro hmem
      have hlist : (toString group.length).toList = Nat.toDigits 10 group.length := by
        show (group.length.repr).toList = _
        rw [Nat.repr, toList_ofList]
      rw [hlist] at hmem
      have hdigit := Nat.isDigit_of_mem_toDigits (by omega) (by omega) hmem
      revert hdigit
      decide
    have hattr := attrAfter_clear hhead hnumber (">\n".toList ++ ((rpmEntries
      (fun rpm record path => primaryEntryXml rpm record (locationHref path pfx)) group).toList ++
        "</metadata>\n".toList))
    rw [← hmark] at hattr
    rw [packagesAttr, generatePrimaryXml_eq]
    simp only [toList_append, append_assoc, hquote, cons_append]
    rw [hattr, map_some, ofList_toList]
  · rw [packagesIn_primary hgroup, length_map, length_groupBodies hgroup]

end

/-! ## The published file -/

/-- A `repomd.xml` up to the first file. -/
def repomdHead (revision : ℤ) : String :=
  xmlHeader ++ "<repomd xmlns=\"http://linux.duke.edu/metadata/repo\">\n" ++ "  <revision>" ++
    toString revision ++ "</revision>\n" ++ "  "

/-- A file up to its path. -/
def dataHead (entry : RepoDataEntry) : String :=
  "\n" ++ "    <checksum type=\"sha256\">" ++ entry.checksum ++ "</checksum>\n" ++
    "    <open-checksum type=\"sha256\">" ++ entry.openChecksum ++ "</open-checksum>\n" ++ "    "

/-- A file from the end of its path. -/
def dataRest (timestamp : ℤ) (entry : RepoDataEntry) : String :=
  "/>\n" ++ "    <timestamp>" ++ toString timestamp ++ "</timestamp>\n" ++ "    <size>" ++
    toString entry.size ++ "</size>\n" ++ "    <open-size>" ++ toString entry.openSize ++
    "</open-size>\n" ++ "  </data>\n"

theorem repoDataXml_eq (timestamp : ℤ) (entry : RepoDataEntry) :
    repoDataXml timestamp "primary" entry = "  " ++ "<data type=\"primary\">" ++ dataHead entry ++
      "<location href=\"" ++ ("repodata/" ++ entry.filename) ++ "\"" ++ dataRest timestamp entry := by
  have hopen : "  <data type=\"" ++ "primary" ++ "\">\n" =
      "  " ++ "<data type=\"primary\">" ++ "\n" := by decide
  have hlocation : "    <location href=\"repodata/" = "    " ++ "<location href=\"" ++ "repodata/" := by
    decide
  have hquote : "\"/>\n" = "\"" ++ "/>\n" := by decide
  unfold repoDataXml dataHead dataRest
  rw [hopen, hlocation, hquote]
  simp only [String.append_assoc]

theorem generateRepomdXml_eq (revision : ℤ) (primary filelists other : RepoDataEntry) (ts : ℤ) :
    generateRepomdXml revision primary filelists other ts =
      repomdHead revision ++ ("<data type=\"primary\">" ++ (dataHead primary ++
        ("<location href=\"" ++ (("repodata/" ++ primary.filename) ++ ("\"" ++
          (dataRest ts primary ++ repoDataXml ts "filelists" filelists ++
            repoDataXml ts "other" other ++ "</repomd>\n")))))) := by
  unfold generateRepomdXml repomdHead
  rw [repoDataXml_eq]
  generalize repoDataXml ts "filelists" filelists = filelistsXml
  generalize repoDataXml ts "other" other = otherXml
  generalize dataHead primary = head
  generalize dataRest ts primary = rest
  simp only [String.append_assoc]

/-- The file that `repomd.xml` names. -/
theorem primaryLocation_repomd {primary : RepoDataEntry} (hsum : '<' ∉ primary.checksum.toList)
    (hopen : '<' ∉ primary.openChecksum.toList) (hname : quoteMark ∉ primary.filename.toList)
    (revision : ℤ) (filelists other : RepoDataEntry) (ts : ℤ) :
    primaryLocation (generateRepomdXml revision primary filelists other ts) =
      some ("repodata/" ++ primary.filename) := by
  have htext := generateRepomdXml_eq revision primary filelists other ts
  generalize dataRest ts primary ++ repoDataXml ts "filelists" filelists ++
    repoDataXml ts "other" other ++ "</repomd>\n" = rest at htext
  have hhead : NoTag "data type=\"primary\">".toList (repomdHead revision) := by
    have hlit : ∀ text ∈ [xmlHeader ++ "<repomd xmlns=\"http://linux.duke.edu/metadata/repo\">\n" ++
        "  <revision>", "</revision>\n", "  "], NoTag "data type=\"primary\">".toList text := by
      decide +kernel
    exact (((hlit _ (by simp)).append (noTag_intRepr revision)).append (hlit _ (by simp))).append
      (hlit _ (by simp))
  have hdata : NoTag "location href=\"".toList ("<data type=\"primary\">" ++ dataHead primary) := by
    have hlit : ∀ text ∈ ["<data type=\"primary\">", "\n" ++ "    <checksum type=\"sha256\">",
        "</checksum>\n", "    <open-checksum type=\"sha256\">", "</open-checksum>\n", "    "],
        NoTag "location href=\"".toList text := by decide
    have hplain : ∀ {text : String}, '<' ∉ text.toList → NoTag "location href=\"".toList text :=
      noTag_of_notMem
    refine (hlit _ (by simp)).append ?_
    exact ((((((hlit _ (by simp)).append (hplain hsum)).append (hlit _ (by simp))).append
      (hlit _ (by simp))).append (hplain hopen)).append (hlit _ (by simp))).append
      (hlit _ (by simp))
  have hmark : "<data type=\"primary\">".toList = '<' :: "data type=\"primary\">".toList := by
    decide
  have hlocation : locationMark = '<' :: "location href=\"".toList := by decide
  have hquote : "\"".toList = [quoteMark] := by decide
  have hvalue : quoteMark ∉ ("repodata/" ++ primary.filename).toList := by
    have hdir : quoteMark ∉ "repodata/".toList := by decide
    rw [toList_append, mem_append, not_or]
    exact ⟨hdir, hname⟩
  have hattr := attrAfter_clear hdata.clear hvalue rest.toList
  rw [← hlocation] at hattr
  have hfrom := fromFirst_clear hhead.clear ((dataHead primary).toList ++ (locationMark ++
    (("repodata/" ++ primary.filename).toList ++ quoteMark :: rest.toList)))
  rw [← hmark] at hfrom
  have hlit : "<location href=\"".toList = locationMark := rfl
  have hshape : (generateRepomdXml revision primary filelists other ts).toList =
      (repomdHead revision).toList ++ ("<data type=\"primary\">".toList ++
        ((dataHead primary).toList ++ (locationMark ++
          (("repodata/" ++ primary.filename).toList ++ quoteMark :: rest.toList)))) := by
    rw [htext]
    generalize "repodata/" ++ primary.filename = name
    simp only [toList_append, hquote, hlit, singleton_append]
  rw [toList_append, append_assoc] at hattr
  rw [primaryLocation, hshape, hfrom, bind_some, hattr, map_some, ofList_toList]

end Depot
