import Depot.Index.Formats
import Depot.Lib.Occurs

/-!
# Merging the metadata of Yum repositories

The documents of the members of a proxy are merged by cutting out their `<package>` elements
(`format/yum/src/store/metadata.rs`, lines 258–340). A document is a sequence of elements with
any text before, between and after them.

Results:
* `nextElement_eq_some_iff`: what one iteration of the loop cuts out.
* `extract_of_length_le`: the loop ends on any text.
* `extracted_iff`: when the elements of a document are cut out one by one.
* `merge_keeps_iff`: when the merged document has the elements of all members.
-/

namespace Depot

open Lib List
open String (ofList toList_ofList)

/-! ## The code -/

/-- `extract_xml_elements` (lines 319–340). -/
def extractXmlElements (openTag closeTag : List Char) : ℕ → List Char → List String
  | 0, _ => []
  | fuel + 1, xml =>
      let start := (xml.tails.find? fun t => openTag.isPrefixOf t).getD []
      let before (stop : List Char) : Option (List Char) :=
        (start.inits.find? fun front => stop.isSuffixOf front)
      match (before (closeTag ++ ['\n'])).or (before closeTag) with
      | some element =>
          ofList element ::
            extractXmlElements openTag closeTag fuel (start.drop element.length)
      | none => []

/-- `merge_primary_xml`, `merge_filelists_xml` and `merge_other_xml` (lines 259–316). -/
def mergeXml (root attributes : String) (texts : List String) : String :=
  let packages := texts.flatMap fun xml =>
    extractXmlElements "<package ".toList "</package>".toList xml.length xml.toList
  xmlHeader ++ "<" ++ root ++ " " ++ attributes ++ " packages=\"" ++
    toString packages.length ++ "\">\n" ++
    String.join (packages.map (· ++ "\n")) ++ "</" ++ root ++ ">\n"

def primaryAttributes : String :=
  "xmlns=\"http://linux.duke.edu/metadata/common\" " ++
    "xmlns:rpm=\"http://linux.duke.edu/metadata/rpm\""

def filelistsAttributes : String := "xmlns=\"http://linux.duke.edu/metadata/filelists\""

def otherAttributes : String := "xmlns=\"http://linux.duke.edu/metadata/other\""

/-- `merge_primary_xml`. -/
def mergePrimaryXml : List String → String := mergeXml "metadata" primaryAttributes

/-- `merge_filelists_xml`. -/
def mergeFilelistsXml : List String → String := mergeXml "filelists" filelistsAttributes

/-- `merge_other_xml`. -/
def mergeOtherXml : List String → String := mergeXml "otherdata" otherAttributes

/-! ## The loop -/

/-- What an element is found by. -/
def openTag : List Char := "<package ".toList

/-- What it ends with. -/
def closeTag : List Char := "</package>".toList

/-- The close tag at the end of a line. -/
def closeLine : List Char := closeTag ++ ['\n']

/-- `extract_xml_elements(xml, "<package ", "</package>")` after some iterations. -/
abbrev extract (fuel : ℕ) (xml : List Char) : List String :=
  extractXmlElements openTag closeTag fuel xml

/-- One iteration of the loop (lines 322–338): the text that is cut out, and the rest. -/
def nextElement (xml : List Char) : Option (List Char × List Char) :=
  let start := (fromFirst openTag xml).getD []
  ((throughFirst closeLine start).or (throughFirst closeTag start)).map fun el =>
    (el, start.drop el.length)

theorem extract_succ (fuel : ℕ) (xml : List Char) : extract (fuel + 1) xml =
    match nextElement xml with
    | some (el, rest) => ofList el :: extract fuel rest
    | none => [] := by
  have hstep : extract (fuel + 1) xml =
      match (throughFirst closeLine ((fromFirst openTag xml).getD [])).or
          (throughFirst closeTag ((fromFirst openTag xml).getD [])) with
      | some el =>
          ofList el :: extract fuel (((fromFirst openTag xml).getD []).drop el.length)
      | none => [] := rfl
  rw [hstep, nextElement]
  cases (throughFirst closeLine ((fromFirst openTag xml).getD [])).or
    (throughFirst closeTag ((fromFirst openTag xml).getD [])) <;> rfl

/-! ## The tags -/

theorem openTag_mark : '<' ∉ openTag.tail := by decide

theorem closeTag_mark : '<' ∉ closeTag.tail := by decide

theorem closeLine_mark : '<' ∉ closeLine.tail := by decide

theorem closeTag_suffix_ne {el : List Char} (h : closeTag <:+ el) : el.getLast? = some '>' := by
  obtain ⟨front, rfl⟩ := h
  rw [getLast?_append_of_ne_nil _ (by decide)]
  decide

theorem closeLine_suffix {el : List Char} (h : closeLine <:+ el) :
    ∃ el', el = el' ++ ['\n'] ∧ closeTag <:+ el' := by
  obtain ⟨front, rfl⟩ := h
  exact ⟨front ++ closeTag, by simp [closeLine], List.suffix_append _ _⟩

/-! ## One iteration -/

/-- Where the text that is cut out ends: at the first close tag that ends a line, or, if there is
    none, at the first close tag. -/
def EndsAt (text el : List Char) : Prop :=
  throughFirst closeLine text = some el ∨
    (¬ closeLine <:+: text ∧ throughFirst closeTag text = some el)

theorem endsAt_iff {text el : List Char} : EndsAt text el ↔
    (throughFirst closeLine text).or (throughFirst closeTag text) = some el := by
  unfold EndsAt
  rw [← throughFirst_eq_none_iff]
  cases throughFirst closeLine text with
  | some el' => simp
  | none => simp

theorem EndsAt.isPrefix {text el : List Char} (h : EndsAt text el) : el <+: text := by
  rcases h with h | ⟨-, h⟩
  · exact (throughFirst_eq_some_iff.mp h).1
  · exact (throughFirst_eq_some_iff.mp h).1

/-- What is cut out is longer than the open tag it begins with. -/
theorem EndsAt.length {text el : List Char} (h : EndsAt text el) : openTag.length ≤ el.length := by
  have hclose : openTag.length ≤ closeTag.length := by decide
  have hline : openTag.length ≤ closeLine.length := by decide
  rcases h with h | ⟨-, h⟩
  · exact hline.trans (throughFirst_eq_some_iff.mp h).2.1.length_le
  · exact hclose.trans (throughFirst_eq_some_iff.mp h).2.1.length_le

variable {xml el rest : List Char}

theorem nextElement_eq_some_iff : nextElement xml = some (el, rest) ↔
      fromFirst openTag xml = some (el ++ rest) ∧ EndsAt (el ++ rest) el := by
  unfold nextElement
  rw [endsAt_iff]
  cases hfrom : fromFirst openTag xml with
  | none =>
    have hline : throughFirst closeLine [] = none := throughFirst_eq_none_iff.mpr (by decide)
    have hclose : throughFirst closeTag [] = none := throughFirst_eq_none_iff.mpr (by decide)
    simp [hline, hclose]
  | some start =>
    rw [Option.getD_some, Option.map_eq_some_iff]
    constructor
    · rintro ⟨el', hel, heq⟩
      obtain ⟨rfl, rfl⟩ := Prod.mk.inj heq
      obtain ⟨tail, rfl⟩ := (endsAt_iff.mpr hel).isPrefix
      rw [drop_left]
      exact ⟨rfl, hel⟩
    · rintro ⟨hstart, hel⟩
      obtain rfl := Option.some.inj hstart
      exact ⟨el, hel, by rw [drop_left]⟩

/-- A close tag does not begin within the open tag. -/
theorem suffix_after_open {stop tail : List Char} (hstop : stop.head? = some '<')
    (hopen : ¬ openTag <+: stop) (h : stop <:+ openTag ++ tail) : stop <:+ tail := by
  by_contra hnot
  have htail : tail <:+ stop := by
    refine suffix_of_suffix_length_le (List.suffix_append _ _) h (not_lt.mp fun hlt => ?_)
    exact hnot (suffix_of_suffix_length_le h (List.suffix_append _ _) hlt.le)
  obtain ⟨w, rfl⟩ := htail
  have hw : w ≠ [] := by
    rintro rfl
    exact hnot suffix_rfl
  have hwopen : w <:+ openTag := by
    obtain ⟨front, hfront⟩ := h
    rw [← append_assoc] at hfront
    exact ⟨front, append_cancel_right hfront⟩
  have heq := mark_not_mem hstop openTag_mark (prefix_append w tail) hw hwopen
  exact hopen (heq ▸ prefix_append w tail)

/-- Nothing is cut out of a text in which no open tag is followed by a close tag. -/
theorem nextElement_eq_none_iff :
    nextElement xml = none ↔ ∀ a b, xml = a ++ openTag ++ b → ¬ closeTag <:+: b := by
  constructor
  · intro hnone a b hxml hclose
    cases hfrom : fromFirst openTag xml with
    | none => exact fromFirst_eq_none_iff.mp hfrom ⟨a, b, hxml.symm⟩
    | some start =>
      obtain ⟨before, hbefore, -, hfirst⟩ := fromFirst_eq_some_iff.mp hfrom
      have hle := hfirst a (openTag ++ b) (by rw [hxml, append_assoc])
        (prefix_append _ _)
      -- The close tag is in the rest from the first open tag on.
      have hin : closeTag <:+: start := by
        rw [hxml, append_assoc, append_eq_append_iff] at hbefore
        rcases hbefore with ⟨mid, rfl, hmid⟩ | ⟨mid, rfl, rfl⟩
        · have hnil : mid = [] := by
            rw [length_append] at hle
            exact length_eq_zero_iff.mp (by omega)
          subst hnil
          rw [nil_append] at hmid
          rw [← hmid]
          exact hclose.trans (List.suffix_append _ _).isInfix
        · exact hclose.trans ((List.suffix_append _ _).trans (List.suffix_append _ _)).isInfix
      rw [nextElement, hfrom, Option.getD_some, Option.map_eq_none_iff, Option.or_eq_none_iff] at hnone
      exact throughFirst_eq_none_iff.mp hnone.2 hin
  · intro h
    cases hnext : nextElement xml with
    | none => rfl
    | some next =>
      obtain ⟨el, rest⟩ := next
      obtain ⟨hfrom, hend⟩ := nextElement_eq_some_iff.mp hnext
      obtain ⟨before, hxml, hopen, -⟩ := fromFirst_eq_some_iff.mp hfrom
      obtain ⟨tail, rfl⟩ := prefix_of_prefix_length_le hopen (prefix_append el rest) hend.length
      have hclose : closeTag <:+: tail := by
        rcases hend with hend | ⟨-, hend⟩
        · have hline := suffix_after_open (by decide) (by decide)
            (throughFirst_eq_some_iff.mp hend).2.1
          exact (prefix_append closeTag ['\n']).isInfix.trans hline.isInfix
        · exact (suffix_after_open (by decide) (by decide)
            (throughFirst_eq_some_iff.mp hend).2.1).isInfix
      refine absurd (hclose.trans (prefix_append tail rest).isInfix) (h before _ ?_)
      rw [hxml, append_assoc, append_assoc]

/-! ## The loop ends -/

theorem nextElement_nil : nextElement [] = none := by
  refine nextElement_eq_none_iff.mpr fun a b h => ?_
  have hlen := congrArg List.length h
  have hopen : 0 < openTag.length := by decide
  simp only [length_append, length_nil] at hlen
  omega

/-- Each iteration shortens the text. -/
theorem nextElement_shortens (h : nextElement xml = some (el, rest)) :
    rest.length < xml.length := by
  obtain ⟨hfrom, hend⟩ := nextElement_eq_some_iff.mp h
  obtain ⟨before, rfl, -, -⟩ := fromFirst_eq_some_iff.mp hfrom
  have hlen := hend.length
  have hopen : 0 < openTag.length := by decide
  simp only [length_append]
  omega

/-- The loop ends on any text, after at most as many iterations as it has characters: more of
    them change nothing. -/
theorem extract_of_length_le {fuel : ℕ} (h : xml.length ≤ fuel) :
    extract fuel xml = extract xml.length xml := by
  have hstable : ∀ n xml fuel fuel', xml.length ≤ n → xml.length ≤ fuel → xml.length ≤ fuel' →
      extract fuel xml = extract fuel' xml := by
    intro n
    induction n with
    | zero =>
      intro xml fuel fuel' hn _ _
      have hnil := length_eq_zero_iff.mp (Nat.le_zero.mp hn)
      subst hnil
      have hempty : ∀ fuel, extract fuel [] = [] := by
        intro fuel
        cases fuel with
        | zero => rfl
        | succ fuel => rw [extract_succ, nextElement_nil]
      rw [hempty, hempty]
    | succ n ih =>
      intro xml fuel fuel' hn hfuel hfuel'
      cases hnext : nextElement xml with
      | none =>
        have hnil : ∀ fuel, extract fuel xml = [] := by
          intro fuel
          cases fuel with
          | zero => rfl
          | succ fuel => rw [extract_succ, hnext]
        rw [hnil, hnil]
      | some next =>
        obtain ⟨el, rest⟩ := next
        have hlt := nextElement_shortens hnext
        obtain ⟨f, rfl⟩ : ∃ f, fuel = f + 1 := ⟨fuel - 1, by omega⟩
        obtain ⟨f', rfl⟩ : ∃ f', fuel' = f' + 1 := ⟨fuel' - 1, by omega⟩
        rw [extract_succ, extract_succ, hnext]
        exact congrArg (ofList el :: ·) (ih rest f f' (by omega) (by omega) (by omega))
  exact hstable _ _ _ _ le_rfl h le_rfl

/-- What is cut out of a text. -/
def packagesIn (xml : List Char) : List String := extract xml.length xml

theorem packagesIn_eq (xml : List Char) : packagesIn xml =
    match nextElement xml with
    | some (el, rest) => ofList el :: packagesIn rest
    | none => [] := by
  have hlong : packagesIn xml = extract (xml.length + 1) xml :=
    (extract_of_length_le (Nat.le_succ _)).symm
  rw [hlong, extract_succ]
  cases hnext : nextElement xml with
  | none => rfl
  | some next =>
    obtain ⟨el, rest⟩ := next
    exact congrArg (ofList el :: ·) (extract_of_length_le (nextElement_shortens hnext).le)

/-! ## Documents -/

/-- An element with the text after it: it begins with `<` and ends with `>`, as all do. -/
structure PackageElement where
  element : List Char
  gap : List Char
  starts : element.head? = some '<'
  ends : element.getLast? = some '>'

/-- The text of the elements, each with its gap. -/
def elementsText : List PackageElement → List Char
  | [] => []
  | e :: es => e.element ++ (e.gap ++ elementsText es)

/-- A document: the text before its first element, and the elements. -/
structure PackageDocument where
  lead : List Char
  elements : List PackageElement

/-- The text of a document. -/
def PackageDocument.text (d : PackageDocument) : List Char := d.lead ++ elementsText d.elements

/-- An element as it is cut out: itself, perhaps with the newline after it. -/
def CutOut (e : PackageElement) (piece : String) : Prop :=
  piece.toList = e.element ∨ piece.toList = e.element ++ ['\n']

/-- The elements are cut out one by one, unchanged. -/
def Extracted (es : List PackageElement) (pieces : List String) : Prop :=
  Forall₂ CutOut es pieces

/-- A text that ends with `stop` has it nowhere else. -/
def OnlyEnds (stop text : List Char) : Prop := throughFirst stop text = some text

/-- What follows a newline at the start of a text. -/
def afterNewline : List Char → Option (List Char)
  | '\n' :: text => some text
  | _ => none

/-- When the elements after some text are cut out one by one. An element begins with the open tag
    and ends with the close tag. If a newline follows, the close tag ends no line before; else it
    is nowhere else in the element and ends no line in all that follows. The open tag is in no
    text before an element, and after the last one no close tag follows it. -/
def Separated : List Char → List PackageElement → Prop
  | lead, [] => ∀ a b, lead = a ++ openTag ++ b → ¬ closeTag <:+: b
  | lead, e :: es =>
      ¬ openTag <:+: lead ∧ openTag <+: e.element ∧ closeTag <:+ e.element ∧
        match afterNewline e.gap with
        | some gap => OnlyEnds closeLine (e.element ++ ['\n']) ∧ Separated gap es
        | none => ¬ closeLine <:+: e.element ++ (e.gap ++ elementsText es) ∧
            OnlyEnds closeTag e.element ∧ Separated e.gap es

/-! ## Where an element is cut out -/

theorem afterNewline_eq_some {text gap : List Char} (h : afterNewline text = some gap) :
    text = '\n' :: gap := by
  unfold afterNewline at h
  split at h
  · rw [Option.some.inj h]
  · cases h

theorem throughFirst_append {stop : List Char} :
    throughFirst stop (el ++ rest) = some el ↔ OnlyEnds stop el := by
  rw [OnlyEnds, throughFirst_eq_some_iff, throughFirst_eq_some_iff]
  constructor
  · rintro ⟨-, hend, hfirst⟩
    exact ⟨prefix_rfl, hend, fun f hf => hfirst f (hf.trans (prefix_append _ _))⟩
  · rintro ⟨-, hend, hfirst⟩
    refine ⟨prefix_append _ _, hend, fun f hf hf' => ?_⟩
    rcases Nat.le_total f.length el.length with hle | hle
    · exact hfirst f (prefix_of_prefix_length_le hf (prefix_append _ _) hle) hf'
    · exact hle

/-- The search finds an element after a text without open tags. -/
theorem fromFirst_lead {lead : List Char} (hlead : ¬ openTag <:+: lead)
    (hopen : openTag <+: el) : fromFirst openTag (lead ++ el) = some el := by
  refine fromFirst_eq_some_iff.mpr ⟨lead, rfl, hopen, fun a t heq ht => ?_⟩
  by_contra hlt
  rw [append_eq_append_iff] at heq
  rcases heq with ⟨mid, rfl, -⟩ | ⟨c, rfl, rfl⟩
  · rw [length_append] at hlt
    omega
  have hc : c ≠ [] := by
    rintro rfl
    simp at hlt
  rcases Nat.le_total openTag.length c.length with hle | hle
  · have hin := prefix_of_prefix_length_le ht (prefix_append c el) hle
    exact hlead (hin.isInfix.trans (List.suffix_append a c).isInfix)
  · obtain ⟨w, hw⟩ := prefix_of_prefix_length_le (prefix_append c el) ht hle
    have hwel : w <+: el := by
      rwa [← hw, prefix_append_right_inj] at ht
    have hmark : el.head? = some '<' := by
      obtain ⟨tail, rfl⟩ := hopen
      rfl
    have hwne : w ≠ [] := by
      rintro rfl
      rw [append_nil] at hw
      exact hlead ⟨a, [], by rw [hw, append_nil]⟩
    have heq := mark_not_mem hmark openTag_mark hwel hwne ⟨c, hw⟩
    rw [heq] at hw
    exact hc (append_left_eq_self.mp hw)

/-- The text before what is found has no open tag. -/
theorem not_open_of_fromFirst {lead : List Char}
    (h : fromFirst openTag (lead ++ el) = some el) : ¬ openTag <:+: lead := by
  rintro ⟨a, b, rfl⟩
  obtain ⟨before, heq, -, hfirst⟩ := fromFirst_eq_some_iff.mp h
  have hle := hfirst a (openTag ++ (b ++ el)) (by simp) (prefix_append _ _)
  have hlen := congrArg List.length heq
  have hopen : 0 < openTag.length := by decide
  simp only [length_append] at hlen
  omega

/-- What is cut out as an element is the element, with the newline after it if its close tag ends
    a line. -/
theorem CutOut.cases {e : PackageElement} {text : List Char} (h : CutOut e (ofList el))
    (hend : EndsAt text el) :
    (el = e.element ∧ closeTag <:+ e.element ∧ ¬ closeLine <:+: text ∧
        throughFirst closeTag text = some el) ∨
      (el = e.element ++ ['\n'] ∧ closeTag <:+ e.element ∧
        throughFirst closeLine text = some el) := by
  have hnewline : ∀ {l : List Char}, closeLine <:+ l → l.getLast? = some '\n' := by
    intro l hl
    obtain ⟨l', rfl, -⟩ := closeLine_suffix hl
    simp
  rw [CutOut, toList_ofList] at h
  rcases h with rfl | rfl
  · left
    rcases hend with hend | ⟨hno, hend⟩
    · have hlast := hnewline (throughFirst_eq_some_iff.mp hend).2.1
      rw [e.ends] at hlast
      cases hlast
    · exact ⟨rfl, (throughFirst_eq_some_iff.mp hend).2.1, hno, hend⟩
  · right
    rcases hend with hend | ⟨-, hend⟩
    · obtain ⟨el', heq, hclose⟩ := closeLine_suffix (throughFirst_eq_some_iff.mp hend).2.1
      rw [append_left_inj] at heq
      exact ⟨rfl, heq ▸ hclose, hend⟩
    · have hlast := closeTag_suffix_ne (throughFirst_eq_some_iff.mp hend).2.1
      rw [getLast?_concat] at hlast
      cases hlast

variable {e : PackageElement}

/-- What is cut out begins with the element, which begins with the open tag. -/
theorem CutOut.open (h : CutOut e (ofList el))
    (hopen : openTag <+: el) : e.element <+: el ∧ el.length ≤ e.element.length + 1 ∧
      openTag <+: e.element := by
  have hlast : ¬ '\n' ∈ openTag := by decide
  rw [CutOut, toList_ofList] at h
  rcases h with rfl | rfl
  · exact ⟨prefix_rfl, Nat.le_succ _, hopen⟩
  · refine ⟨prefix_append _ _, by simp, ?_⟩
    rcases prefix_concat_iff.mp hopen with heq | hin
    · exact absurd (by rw [heq]; simp) hlast
    · exact hin

theorem PackageElement.ne_nil (e : PackageElement) : e.element ≠ [] := by
  intro h
  have hstarts := e.starts
  rw [h] at hstarts
  cases hstarts

/-- The search stops at the first open tag, so not after an element that begins with one. -/
theorem found_before {lead text : List Char} (hopen : openTag <+: text)
    (hnext : nextElement (lead ++ text) = some (el, rest)) :
    ∃ before c, lead = before ++ c ∧ c ++ text = el ++ rest := by
  obtain ⟨hfrom, -⟩ := nextElement_eq_some_iff.mp hnext
  obtain ⟨before, htext, -, hfirst⟩ := fromFirst_eq_some_iff.mp hfrom
  have hbefore : before <+: lead ++ text := by
    rw [htext]
    exact prefix_append _ _
  obtain ⟨c, rfl⟩ := prefix_of_prefix_length_le hbefore (prefix_append _ _)
    (hfirst lead text rfl hopen)
  rw [append_assoc, append_right_inj] at htext
  exact ⟨before, c, rfl, htext⟩

/-- An element that is cut out has the two tags. -/
theorem CutOut.tags (h : CutOut e (ofList el)) (hnext : nextElement xml = some (el, rest)) :
    e.element <+: el ∧ el.length ≤ e.element.length + 1 ∧ openTag <+: e.element ∧
      closeTag <:+ e.element := by
  obtain ⟨hfrom, hend⟩ := nextElement_eq_some_iff.mp hnext
  obtain ⟨-, -, hopen, -⟩ := fromFirst_eq_some_iff.mp hfrom
  obtain ⟨hpre, hlen, hopenE⟩ := h.open
    (prefix_of_prefix_length_le hopen (prefix_append el rest) hend.length)
  have hclose : closeTag <:+ e.element := by
    rcases h.cases hend with ⟨-, hclose, -⟩ | ⟨-, hclose, -⟩
    · exact hclose
    · exact hclose
  exact ⟨hpre, hlen, hopenE, hclose⟩

/-- What is cut out at or before an earlier place does not reach into a later element that it
    equals: the element is in the rest. -/
theorem rest_before {c y : List Char}
    (htext : c ++ (e.element ++ y) = el ++ rest) (hend : EndsAt (el ++ rest) el) (hc : c ≠ [])
    (he : e.element <+: el) (hlen : el.length ≤ e.element.length + 1) :
    ∃ c', rest = c' ++ (e.element ++ y) := by
  have hpos := length_pos_iff.mpr hc
  rw [← htext, ← append_assoc] at hend
  have hshort : el.length ≤ c.length := by
    rcases hend with hend | ⟨-, hend⟩
    · obtain ⟨hf, hstop, hfirst⟩ := throughFirst_eq_some_iff.mp hend
      exact not_overlapping e.starts closeLine_mark hc hf hstop hfirst he (by omega)
    · obtain ⟨hf, hstop, hfirst⟩ := throughFirst_eq_some_iff.mp hend
      exact not_overlapping e.starts closeTag_mark hc hf hstop hfirst he (by omega)
  obtain ⟨c', rfl⟩ := prefix_of_prefix_length_le (htext ▸ prefix_append el rest)
    (prefix_append c (e.element ++ y)) hshort
  rw [append_assoc, append_right_inj] at htext
  exact ⟨c', htext.symm⟩

variable {es : List PackageElement}

/-- If the search is at or before an element that is not to be cut out any more, then what is cut
    out are not just the elements after it: something is cut out for it too. -/
theorem not_extracted_behind {lead e gap : List Char}
    (hopen : openTag <+: e) (hclose : closeTag <:+ e) :
    ¬ Extracted es (packagesIn (lead ++ (e ++ (gap ++ elementsText es)))) := by
  induction es generalizing lead e gap with
  | nil =>
    intro h
    obtain ⟨tail, rfl⟩ := hopen
    have htail : closeTag <:+ tail := suffix_after_open (by decide) (by decide) hclose
    rw [packagesIn_eq] at h
    cases hnext : nextElement (lead ++ (openTag ++ tail ++ (gap ++ elementsText []))) with
    | none =>
      refine nextElement_eq_none_iff.mp hnext lead (tail ++ (gap ++ elementsText [])) ?_ ?_
      · simp only [append_assoc]
      · exact htail.isInfix.trans (prefix_append _ _).isInfix
    | some next =>
      rw [hnext] at h
      cases h
  | cons e' es ih =>
    intro h
    rw [packagesIn_eq] at h
    cases hnext : nextElement (lead ++ (e ++ (gap ++ elementsText (e' :: es)))) with
    | none =>
      rw [hnext] at h
      cases h
    | some next =>
      obtain ⟨el, rest⟩ := next
      rw [hnext] at h
      obtain ⟨hcut, hrest⟩ := forall₂_cons.mp h
      obtain ⟨hpre, hlen, hopenE, hcloseE⟩ := hcut.tags hnext
      obtain ⟨-, c, -, htext⟩ := found_before (hopen.trans (prefix_append _ _)) hnext
      have hshape : c ++ e ++ gap ++ (e'.element ++ (e'.gap ++ elementsText es)) = el ++ rest := by
        rw [← htext, elementsText]
        simp only [append_assoc]
      have hne : c ++ e ++ gap ≠ [] := by
        obtain ⟨tail, rfl⟩ := hopen
        intro hnil
        obtain ⟨hce, -⟩ := append_eq_nil_iff.mp hnil
        obtain ⟨-, hnil⟩ := append_eq_nil_iff.mp hce
        obtain ⟨hopenNil, -⟩ := append_eq_nil_iff.mp hnil
        exact absurd hopenNil (by decide)
      obtain ⟨c', rfl⟩ := rest_before hshape (nextElement_eq_some_iff.mp hnext).2 hne hpre hlen
      exact ih hopenE hcloseE hrest

/-- The first element of a document is cut out at its own place. -/
theorem starts_at_lead {lead : List Char} (hcut : CutOut e (ofList el))
    (hnext : nextElement (lead ++ (e.element ++ (e.gap ++ elementsText es))) = some (el, rest))
    (hrest : Extracted es (packagesIn rest)) :
    e.element ++ (e.gap ++ elementsText es) = el ++ rest ∧ ¬ openTag <:+: lead := by
  obtain ⟨hfrom, hend⟩ := nextElement_eq_some_iff.mp hnext
  obtain ⟨hpre, hlen, hopen, hclose⟩ := hcut.tags hnext
  obtain ⟨before, c, rfl, htext⟩ := found_before (hopen.trans (prefix_append _ _)) hnext
  have hnil : c = [] := by
    by_contra hne
    -- Else the search goes on before the element.
    obtain ⟨c', rfl⟩ := rest_before htext hend hne hpre hlen
    exact not_extracted_behind hopen hclose hrest
  subst hnil
  rw [nil_append] at htext
  rw [← htext] at hfrom
  exact ⟨htext, not_open_of_fromFirst hfrom⟩

/-- What follows an element is not a newline that belongs to another one. -/
theorem newline_of_rest {gap : List Char} (h : gap ++ elementsText es = '\n' :: rest) :
    ∃ gap', afterNewline gap = some gap' ∧ rest = gap' ++ elementsText es := by
  cases gap with
  | nil =>
    cases es with
    | nil => cases h
    | cons e es =>
      have hhead : (e.element ++ (e.gap ++ elementsText es)).head? = some '\n' := by
        rw [nil_append, elementsText] at h
        rw [h, head?_cons]
      rw [head?_append_of_ne_nil _ e.ne_nil, e.starts] at hhead
      cases hhead
  | cons c gap =>
    obtain ⟨rfl, rfl⟩ := List.cons.inj h
    exact ⟨gap, rfl, rfl⟩

/-- The elements of a document are cut out one by one exactly if they are laid out so. -/
theorem extracted_iff (lead : List Char) (es : List PackageElement) :
    Extracted es (packagesIn (lead ++ elementsText es)) ↔ Separated lead es := by
  induction es generalizing lead with
  | nil =>
    rw [Separated, elementsText, append_nil, ← nextElement_eq_none_iff, packagesIn_eq]
    cases hnext : nextElement lead with
    | none => exact ⟨fun _ => rfl, fun _ => .nil⟩
    | some next =>
      constructor
      · intro h
        cases h
      · intro h
        cases h
  | cons e es ih =>
    rw [elementsText, packagesIn_eq]
    constructor
    · intro h
      cases hnext : nextElement (lead ++ (e.element ++ (e.gap ++ elementsText es))) with
      | none =>
        rw [hnext] at h
        cases h
      | some next =>
        obtain ⟨el, rest⟩ := next
        rw [hnext] at h
        obtain ⟨hcut, hrest⟩ := forall₂_cons.mp h
        obtain ⟨-, -, hopen, hclose⟩ := hcut.tags hnext
        obtain ⟨hfirst, hlead⟩ := starts_at_lead hcut hnext hrest
        refine ⟨hlead, hopen, hclose, ?_⟩
        rcases hcut.cases (nextElement_eq_some_iff.mp hnext).2 with
          ⟨rfl, -, hno, hthrough⟩ | ⟨rfl, -, hthrough⟩
        · obtain rfl := append_cancel_left hfirst
          have hgap : afterNewline e.gap = none := by
            cases hgap : afterNewline e.gap with
            | none => rfl
            | some gap =>
              obtain ⟨front, hfront⟩ := hclose
              refine absurd ⟨front, gap ++ elementsText es, ?_⟩ hno
              rw [afterNewline_eq_some hgap, ← hfront]
              simp [closeLine]
          rw [hgap]
          exact ⟨hno, throughFirst_append.mp hthrough, (ih _).mp hrest⟩
        · rw [append_assoc, append_right_inj] at hfirst
          obtain ⟨gap, hgap, rfl⟩ := newline_of_rest hfirst
          rw [hgap]
          exact ⟨throughFirst_append.mp hthrough, (ih _).mp hrest⟩
    · rintro ⟨hlead, hopen, hclose, hgap⟩
      have hfrom := fromFirst_lead hlead (hopen.trans (prefix_append _ (e.gap ++ elementsText es)))
      cases hafter : afterNewline e.gap with
      | none =>
        rw [hafter] at hgap
        obtain ⟨hno, honly, hrest⟩ := hgap
        have hnext := nextElement_eq_some_iff.mpr ⟨hfrom, .inr ⟨hno, throughFirst_append.mpr honly⟩⟩
        rw [hnext]
        exact .cons (.inl toList_ofList) ((ih _).mpr hrest)
      | some gap =>
        rw [hafter] at hgap
        obtain ⟨honly, hrest⟩ := hgap
        have hshape : e.element ++ (e.gap ++ elementsText es) =
            e.element ++ ['\n'] ++ (gap ++ elementsText es) := by
          rw [afterNewline_eq_some hafter]
          simp only [append_assoc, cons_append, nil_append]
        rw [hshape] at hfrom ⊢
        have hnext := nextElement_eq_some_iff.mpr ⟨hfrom, .inl (throughFirst_append.mpr honly)⟩
        rw [hnext]
        exact .cons (.inr toList_ofList) ((ih _).mpr hrest)

/-! ## The merged document -/

/-- A merged document with the given number of packages and pieces (lines 285–311). -/
def mergedText (root attributes : String) (count : ℕ) (pieces : List String) : String :=
  xmlHeader ++ "<" ++ root ++ " " ++ attributes ++ " packages=\"" ++ toString count ++ "\">\n" ++
    String.join (pieces.map (· ++ "\n")) ++ "</" ++ root ++ ">\n"

/-- The merged document has the elements of all members in order, each once and unchanged, and its
    `packages` attribute is their number. -/
def MergeKeeps (root attributes : String) (docs : List PackageDocument) : Prop :=
  ∃ pieces : List (List String),
    Forall₂ (fun doc ps => ps = packagesIn doc.text ∧ Extracted doc.elements ps) docs pieces ∧
      mergeXml root attributes (docs.map fun doc => ofList doc.text) =
        mergedText root attributes (docs.flatMap (·.elements)).length pieces.flatten

theorem mergeXml_eq (root attributes : String) (texts : List String) :
    mergeXml root attributes texts =
      mergedText root attributes (texts.flatMap (packagesIn ·.toList)).length
        (texts.flatMap (packagesIn ·.toList)) := by
  have hpieces : ∀ xml : String,
      extractXmlElements "<package ".toList "</package>".toList xml.length xml.toList =
        packagesIn xml.toList := by
    intro xml
    rw [packagesIn, String.length_toList]
    rfl
  simp only [mergeXml, mergedText, hpieces]

/-- As many pieces as elements are cut out. -/
theorem length_extracted {docs : List PackageDocument}
    (h : ∀ doc ∈ docs, Extracted doc.elements (packagesIn doc.text)) :
    (docs.flatMap fun doc => packagesIn doc.text).length = (docs.flatMap (·.elements)).length := by
  induction docs with
  | nil => rfl
  | cons doc docs ih =>
    have hdoc := (h doc mem_cons_self).length_eq
    have hdocs := ih fun doc' hmem => h doc' (mem_cons_of_mem _ hmem)
    rw [flatMap_cons, flatMap_cons, length_append, length_append, hdoc, hdocs]

/-- Whatever the root element: the merged document has exactly the packages of all members if and
    only if the elements of each member are laid out as the searches expect it. The three kinds of
    documents are merged in this way. The loop ends on any text. -/
theorem merge_keeps_iff (root attributes : String) (docs : List PackageDocument) :
    (MergeKeeps root attributes docs ↔ ∀ doc ∈ docs, Separated doc.lead doc.elements) ∧
      (mergePrimaryXml = mergeXml "metadata" primaryAttributes ∧
        mergeFilelistsXml = mergeXml "filelists" filelistsAttributes ∧
        mergeOtherXml = mergeXml "otherdata" otherAttributes) ∧
      ∀ xml fuel, xml.length ≤ fuel → extract fuel xml = extract xml.length xml := by
  refine ⟨⟨?_, ?_⟩, ⟨rfl, rfl, rfl⟩, fun xml fuel h => extract_of_length_le h⟩
  · rintro ⟨pieces, hpieces, -⟩ doc hmem
    obtain ⟨i, hi, rfl⟩ := getElem_of_mem hmem
    obtain ⟨heq, hextracted⟩ := hpieces.get hi (hpieces.length_eq ▸ hi)
    exact (extracted_iff _ _).mp (heq ▸ hextracted)
  · intro h
    have hextracted : ∀ doc ∈ docs, Extracted doc.elements (packagesIn doc.text) :=
      fun doc hmem => (extracted_iff _ _).mpr (h doc hmem)
    refine ⟨docs.map fun doc => packagesIn doc.text, ?_, ?_⟩
    · rw [forall₂_map_right_iff, forall₂_same]
      exact fun doc hmem => ⟨rfl, hextracted doc hmem⟩
    · rw [mergeXml_eq, flatMap_map, ← flatMap_def]
      simp only [toList_ofList]
      rw [length_extracted hextracted]

/-- A document of a member with its two packages on one line. -/
def oneLine : PackageDocument where
  lead := (xmlHeader ++ "<metadata " ++ primaryAttributes ++ " packages=\"2\">\n").toList
  elements :=
    [⟨"<package type=\"rpm\"><name>a</name></package>".toList, [], rfl, rfl⟩,
      ⟨"<package type=\"rpm\"><name>b</name></package>".toList, "\n</metadata>\n".toList,
        rfl, rfl⟩]

/-- They are cut out as one, and counted as one. -/
theorem merge_counts_one : ¬ MergeKeeps "metadata" primaryAttributes [oneLine] ∧
    mergePrimaryXml [ofList oneLine.text] = mergedText "metadata" primaryAttributes 1
      ["<package type=\"rpm\"><name>a</name></package>" ++
        "<package type=\"rpm\"><name>b</name></package>\n"] := by
  have hone : packagesIn oneLine.text = ["<package type=\"rpm\"><name>a</name></package>" ++
      "<package type=\"rpm\"><name>b</name></package>\n"] := by decide +kernel
  constructor
  · rintro ⟨pieces, hpieces, -⟩
    obtain ⟨ps, _, ⟨hps, hextracted⟩, -, -⟩ := forall₂_cons_left_iff.mp hpieces
    have hlength := hextracted.length_eq
    rw [hps, hone] at hlength
    exact absurd hlength (by decide)
  · rw [mergePrimaryXml, mergeXml_eq, flatMap_singleton, toList_ofList, hone]
    rfl

end Depot
