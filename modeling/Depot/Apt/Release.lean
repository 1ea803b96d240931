import Depot.Index.Lines

/-!
# Release files

A `Release` file as it is written by `generate_release`, signed or not, and as it is read by
`extract_release_from_inrelease` and `parse_release_sha256` (`format/apt/src/store/metadata.rs`).

Results:
* `parse_extract_sign`: the signature takes no part in what is read.
* `parseLines_release`: what is read from a release.
* `listsItself_iff`: when the name of a distribution lists entries itself.
-/

namespace Depot

open Lib List
open Bool (eq_false_iff not_eq_true')

/-! ## Reading lines -/

/-- Whether the checksums begin with a line. -/
def isSha256Header (line : String) : Bool := (dropStart "SHA256:" line).isSome

/-- Whether a line can be one of the checksums. -/
def isChecksumLine (line : String) : Bool := (dropStart " " line).isSome

/-- Whether the checksums go on with a line. -/
def inChecksums (line : String) : Bool := isSha256Header line || isChecksumLine line

variable (e : SnapshotExt)

/-- The entry of a line within the checksums. -/
def lineEntry (line : String) : Option (String × String × ℕ) :=
  if isSha256Header line then none else releaseEntry e line

/-- The loop of `parse_release_sha256` (lines 52–70). -/
def parseLines (lines : List String) : List (String × String × ℕ) :=
  ((lines.dropWhile fun l => !isSha256Header l).takeWhile inChecksums).filterMap (lineEntry e)

theorem parseReleaseSha256_eq (release : String) :
    parseReleaseSha256 e release = parseLines e (textLines release) := by
  have hdrop : (fun l => (dropStart "SHA256:" l).isNone) = fun l => !isSha256Header l := by
    funext l
    rw [isSha256Header, Option.not_isSome]
  unfold parseReleaseSha256 parseLines
  rw [hdrop]
  rfl

variable {e}

variable {lines : List String}

/-- Lines before the checksums are skipped. -/
theorem parseLines_skip (h : ∀ l ∈ lines, isSha256Header l = false)
    (rest : List String) : parseLines e (lines ++ rest) = parseLines e rest := by
  have hdrop : ∀ l ∈ lines, (!isSha256Header l) = true := fun l hl => by rw [h l hl]; rfl
  rw [parseLines, dropWhile_append_of_pos hdrop, parseLines]

/-- The checksums: a header and the lines up to the first that is none of them. -/
theorem parseLines_header {header : String} (hheader : isSha256Header header = true)
    (lines : List String) :
    parseLines e (header :: lines) = (lines.takeWhile inChecksums).filterMap (lineEntry e) := by
  have hdrop : (header :: lines).dropWhile (fun l => !isSha256Header l) = header :: lines := by
    rw [dropWhile_cons, hheader]
    rfl
  have hin : inChecksums header = true := by rw [inChecksums, hheader]; rfl
  have hnone : lineEntry e header = none := by rw [lineEntry, hheader]; rfl
  rw [parseLines, hdrop, takeWhile_cons_of_pos hin, filterMap_cons_none hnone]

variable {line : String}

theorem takeWhile_stop (hline : inChecksums line = false) (lines rest : List String) :
    (lines ++ line :: rest).takeWhile inChecksums = lines.takeWhile inChecksums := by
  induction lines with
  | nil =>
    rw [nil_append, takeWhile_cons, hline]
    rfl
  | cons l lines ih => rw [cons_append, takeWhile_cons, takeWhile_cons, ih]

/-- After a line that is none of the checksums nothing is read, once they have begun. -/
theorem parseLines_stop (h : ∃ l ∈ lines, isSha256Header l = true)
    (hline : inChecksums line = false) (rest : List String) :
    parseLines e (lines ++ line :: rest) = parseLines e lines := by
  induction lines with
  | nil =>
    obtain ⟨l, hl, -⟩ := h
    cases hl
  | cons l lines ih =>
    cases hl : isSha256Header l with
    | false =>
      have hrest : ∃ l ∈ lines, isSha256Header l = true := by
        obtain ⟨l', hmem, hl'⟩ := h
        rcases mem_cons.mp hmem with rfl | hmem
        · rw [hl] at hl'
          cases hl'
        · exact ⟨l', hmem, hl'⟩
      have hskip : ∀ l' ∈ [l], isSha256Header l' = false := by
        intro l' hl'
        rwa [mem_singleton.mp hl']
      have h₁ := parseLines_skip (e := e) hskip (lines ++ line :: rest)
      have h₂ := parseLines_skip (e := e) hskip lines
      rw [singleton_append] at h₁ h₂
      rw [cons_append, h₁, h₂, ih hrest]
    | true =>
      rw [cons_append, parseLines_header hl, parseLines_header hl, takeWhile_stop hline]

/-! ## Entries -/

theorem isSha256Header_chomp (line : String) :
    isSha256Header (chomp line) = isSha256Header line := dropStart_chomp_isSome (by decide)

theorem inChecksums_chomp (line : String) : inChecksums (chomp line) = inChecksums line := by
  rw [inChecksums, isSha256Header_chomp, isChecksumLine, dropStart_chomp_isSome (by decide)]
  rfl

/-- A line is read by its words. -/
theorem releaseEntry_words (line : String) : releaseEntry e.std line =
    match words isWhitespace line.toList with
    | sha :: size :: path :: _ => some (String.ofList path, String.ofList sha,
        (parseDecimal (String.ofList size)).getD 0)
    | _ => none := rfl

theorem lineEntry_chomp (line : String) : lineEntry e.std (chomp line) = lineEntry e.std line := by
  rw [lineEntry, isSha256Header_chomp, releaseEntry_words, words_chomp, ← releaseEntry_words]
  rfl

/-- Carriage returns at the ends of lines change nothing. -/
theorem parseLines_chomp (lines : List String) :
    parseLines e.std (lines.map chomp) = parseLines e.std lines := by
  have hheader : (fun l => !isSha256Header l) ∘ chomp = fun l => !isSha256Header l := by
    funext l
    rw [Function.comp_apply, isSha256Header_chomp]
  have hin : inChecksums ∘ chomp = inChecksums := funext inChecksums_chomp
  have hentry : lineEntry e.std ∘ chomp = lineEntry e.std := funext lineEntry_chomp
  rw [parseLines, dropWhile_map, hheader, takeWhile_map, hin, filterMap_map, hentry, parseLines]

/-- A path that is read has no whitespace. -/
theorem path_of_mem_parseLines {entry : String × String × ℕ} (h : entry ∈ parseLines e.std lines) :
    entry.1 ≠ "" ∧ ∀ c ∈ entry.1.toList, isWhitespace c = false := by
  obtain ⟨line, -, hline⟩ := mem_filterMap.mp h
  unfold lineEntry at hline
  split_ifs at hline
  rw [releaseEntry_words] at hline
  split at hline
  · rename_i sha size path rest hwords
    obtain rfl := Option.some.inj hline
    have hword : path ∈ words isWhitespace line.toList := by
      rw [hwords]
      simp
    have hpath := mem_words hword
    refine ⟨fun hnil => hpath.1 ?_, by rw [String.toList_ofList]; exact hpath.2⟩
    have hlist := congrArg String.toList hnil
    rwa [String.toList_ofList] at hlist
  · cases hline

/-! ## Signatures -/

/-- What a clear-signed message has besides its text: the armor headers, the lines that are
    escaped, whether the newline before the signature is one more than the text's own, and the
    signature. -/
structure ClearSignature where
  headers : List String
  headers_line : ∀ h ∈ headers, '\n' ∉ h.toList ∧ chomp h ≠ ""
  escaped : String → Bool
  escaped_dash : ∀ line, escaped line = false → line.toList.head? ≠ some '-'
  ownNewline : Bool
  signature : String

namespace ClearSignature

variable (s : ClearSignature)

/-- A line of the message. -/
def escape (line : String) : String := if s.escaped line then "- " ++ line else line

/-- The lines of a text as they are signed. -/
def body (text : String) : List String :=
  if s.ownNewline then linesOf text else (linesOf text).dropLast

/-- The message for a text. -/
def sign (text : String) : String :=
  unlines ("-----BEGIN PGP SIGNED MESSAGE-----" :: (s.headers ++ "" :: (s.body text).map s.escape)) ++
    ("-----BEGIN PGP SIGNATURE-----" ++ s.signature)

end ClearSignature

/-- The text as it is published: signed if there is a key. -/
def publishedText (signing : Option ClearSignature) (text : String) : String :=
  match signing with
  | some s => s.sign text
  | none => text

namespace ClearSignature

variable (s : ClearSignature) {text : String}

theorem newline_notMem_body (h : line ∈ s.body text) : '\n' ∉ line.toList := by
  unfold body at h
  split_ifs at h
  · exact newline_notMem_linesOf h
  · exact newline_notMem_linesOf (dropLast_subset _ h)

theorem newline_notMem_escape (h : '\n' ∉ line.toList) : '\n' ∉ (s.escape line).toList := by
  unfold escape
  split_ifs
  · exact newline_notMem_append (by decide) h
  · exact h

/-- An escaped line is not taken for the signature, and is read without the escape. -/
theorem escape_read (line : String) :
    (dropStart "-----BEGIN PGP SIGNATURE-----" (chomp (s.escape line))).isSome = false ∧
      (dropStart "- " (chomp (s.escape line))).getD (chomp (s.escape line)) = chomp line := by
  have hdash : ∀ {start : String}, start.toList.head? = some '-' → '\r' ∉ start.toList →
      line.toList.head? ≠ some '-' → (dropStart start (chomp line)).isSome = false := by
    intro start hstart hcr hline
    rw [dropStart_chomp_isSome hcr, eq_false_iff, Ne, dropStart_isSome]
    rintro ⟨tail, htail⟩
    refine hline ?_
    rw [← htail, head?_append, hstart]
    rfl
  unfold escape
  cases hescaped : s.escaped line with
  | true =>
    have hchomp : chomp ("- " ++ line) = "- " ++ chomp line :=
      chomp_append (c := ' ') (by decide) (by decide) line
    rw [if_pos rfl, hchomp, dropStart_append]
    refine ⟨?_, rfl⟩
    rw [eq_false_iff, Ne, dropStart_isSome]
    intro hstop
    have hown : "- ".toList <+: ("- " ++ chomp line).toList := by
      rw [String.toList_append]
      exact prefix_append _ _
    have hshort := prefix_of_prefix_length_le hown hstop (by decide)
    exact absurd hshort (by decide)
  | false =>
    have hline := s.escaped_dash line hescaped
    rw [if_neg Bool.false_ne_true]
    refine ⟨hdash (by decide) (by decide) hline, ?_⟩
    have hnone : dropStart "- " (chomp line) = none :=
      Option.isSome_eq_false_iff.mp (hdash (by decide) (by decide) hline) |> Option.isNone_iff_eq_none.mp
    rw [hnone]
    rfl

/-- The lines of the text are read, up to the signature. -/
theorem signedBody_escape (lines : List String) {stop : String}
    (hstop : "-----BEGIN PGP SIGNATURE-----".toList <+: stop.toList) (rest : List String) :
    signedBody ((lines.map s.escape).map chomp ++ stop :: rest) = unlines (lines.map chomp) := by
  induction lines with
  | nil =>
    rw [map_nil, map_nil, nil_append, signedBody, if_pos (dropStart_isSome.mpr hstop)]
    rfl
  | cons line lines ih =>
    obtain ⟨hsome, hread⟩ := s.escape_read line
    rw [map_cons, map_cons, cons_append, signedBody, hsome,
      if_neg Bool.false_ne_true, hread, ih, map_cons, unlines_cons]

theorem extractRelease_sign (text : String) :
    extractRelease (s.sign text) = unlines ((s.body text).map chomp) := by
  have hbegin : '\n' ∉ "-----BEGIN PGP SIGNED MESSAGE-----".toList := by decide
  have hlines : ∀ l ∈ "-----BEGIN PGP SIGNED MESSAGE-----" ::
      (s.headers ++ "" :: (s.body text).map s.escape), '\n' ∉ l.toList := by
    intro l hl
    rcases mem_cons.mp hl with rfl | hl
    · exact hbegin
    rcases mem_append.mp hl with hl | hl
    · exact (s.headers_line l hl).1
    rcases mem_cons.mp hl with rfl | hl
    · exact not_mem_nil
    · obtain ⟨l', hl', rfl⟩ := mem_map.mp hl
      exact s.newline_notMem_escape (s.newline_notMem_body hl')
  have hsigned : (dropStart "-----BEGIN PGP SIGNED MESSAGE-----" (s.sign text)).isNone = false := by
    rw [Option.isNone_eq_false_iff, dropStart_isSome, sign, unlines_cons]
    simp only [String.toList_append, append_assoc]
    exact prefix_append _ _
  obtain ⟨stop, rest, hstop, hpre⟩ := @textLines_start "-----BEGIN PGP SIGNATURE-----"
    (by decide) (by decide) (by decide) s.signature
  have hskip : ∀ l ∈ ("-----BEGIN PGP SIGNED MESSAGE-----" :: s.headers).map chomp,
      decide (l ≠ "") = true := by
    intro l hl
    obtain ⟨l', hl', rfl⟩ := mem_map.mp hl
    rcases mem_cons.mp hl' with rfl | hl'
    · decide
    · exact decide_eq_true (s.headers_line l' hl').2
  rw [extractRelease, hsigned, if_neg Bool.false_ne_true, sign, textLines_unlines_append hlines, hstop,
    ← cons_append, map_append, append_assoc, dropWhile_append_of_pos hskip,
    map_cons]
  have hempty : chomp "" = "" := rfl
  rw [hempty, cons_append, dropWhile_cons_of_neg (by decide), tail_cons]
  exact s.signedBody_escape _ hpre rest

end ClearSignature

/-- An empty line at the end changes nothing. -/
theorem parseLines_empty (lines : List String) :
    parseLines e (lines ++ [""]) = parseLines e lines := by
  have hempty : parseLines e [""] = [] := rfl
  have hnil : parseLines e [] = [] := rfl
  by_cases h : ∃ l ∈ lines, isSha256Header l = true
  · exact parseLines_stop h rfl []
  · have hskip : ∀ l ∈ lines, isSha256Header l = false := by
      intro l hl
      rw [eq_false_iff]
      exact fun hheader => h ⟨l, hl, hheader⟩
    have hlines := parseLines_skip (e := e) hskip []
    rw [append_nil, hnil] at hlines
    rw [parseLines_skip hskip, hempty, hlines]

theorem parseReleaseSha256_unlines (h : ∀ l ∈ lines, '\n' ∉ l.toList) :
    parseReleaseSha256 e.std (unlines lines) = parseLines e.std lines := by
  rw [parseReleaseSha256_eq, textLines_unlines h, parseLines_chomp]

/-- The signature takes no part in what is read. -/
theorem parse_extract_sign (s : ClearSignature) (h : ∀ l ∈ lines, '\n' ∉ l.toList) :
    parseReleaseSha256 e.std (extractRelease (s.sign (unlines lines))) = parseLines e.std lines := by
  have hbody : ∀ l ∈ (s.body (unlines lines)).map chomp, '\n' ∉ l.toList := by
    intro l hl
    obtain ⟨l', hl', rfl⟩ := mem_map.mp hl
    exact fun hmem => s.newline_notMem_body hl' ((chomp_isPrefix l').subset hmem)
  rw [s.extractRelease_sign, parseReleaseSha256_unlines hbody, parseLines_chomp,
    ClearSignature.body, linesOf_unlines h]
  split_ifs
  · exact parseLines_empty lines
  · rw [dropLast_concat]

/-! ## The written text -/

/-- The line of a file in the checksums of a `Release`. -/
def checksumLine (entry : ReleaseFileEntry) : String :=
  " " ++ entry.sha256 ++ " " ++ padLeft 16 (toString entry.size) ++ " " ++ entry.path

/-- The lines before the checksums, but for the first. -/
def releaseHead (x : IndexExt) (now : DateTime) (distribution : String)
    (components architectures : List String) : List String :=
  linesOf ("Codename: " ++ distribution) ++
    (linesOf ("Components: " ++ " ".intercalate components) ++
      (linesOf ("Architectures: " ++ " ".intercalate architectures) ++
        (linesOf ("Date: " ++ x.releaseDate now) ++ ["Acquire-By-Hash: yes"])))

/-- The lines of a release. -/
def releaseLines (x : IndexExt) (now : DateTime) (distribution : String)
    (components architectures : List String) (checksums : List ReleaseFileEntry) : List String :=
  linesOf ("Suite: " ++ distribution) ++
    (releaseHead x now distribution components architectures ++
      "SHA256:" :: checksums.flatMap fun entry => linesOf (checksumLine entry))

theorem generateRelease_eq (x : IndexExt) (now : DateTime) (distribution : String)
    (components architectures : List String) (checksums : List ReleaseFileEntry) :
    generateRelease x now distribution components architectures checksums =
      unlines (releaseLines x now distribution components architectures checksums) := by
  have hchecksums : ∀ sums : List ReleaseFileEntry,
      String.join (sums.map fun entry => " " ++ entry.sha256 ++ " " ++
        padLeft 16 (toString entry.size) ++ " " ++ entry.path ++ "\n") =
        unlines (sums.flatMap fun entry => linesOf (checksumLine entry)) := by
    intro sums
    induction sums with
    | nil => rfl
    | cons entry sums ih =>
      rw [map_cons, String.join_cons, ih, flatMap_cons, unlines_append, unlines_linesOf]
      rfl
  have hhash : "Acquire-By-Hash: yes\n" = "Acquire-By-Hash: yes" ++ "\n" := by decide
  have hsha : "SHA256:\n" = "SHA256:" ++ "\n" := by decide
  unfold generateRelease releaseLines releaseHead
  simp only [← hchecksums, hhash, hsha, unlines_append, unlines_linesOf, unlines_cons, unlines_nil,
    String.append_assoc, String.append_empty]

variable {components architectures : List String} {distribution : String}

variable {checksums : List ReleaseFileEntry} {now : DateTime}

theorem newline_notMem_releaseLines {x : IndexExt}
    (h : line ∈ releaseLines x now distribution components architectures checksums) :
    '\n' ∉ line.toList := by
  simp only [releaseLines, releaseHead, mem_append, mem_cons, mem_flatMap] at h
  rcases h with h | (h | h | h | h | rfl | h) | rfl | ⟨entry, -, h⟩
  · exact newline_notMem_linesOf h
  · exact newline_notMem_linesOf h
  · exact newline_notMem_linesOf h
  · exact newline_notMem_linesOf h
  · exact newline_notMem_linesOf h
  · decide
  · cases h
  · decide
  · exact newline_notMem_linesOf h

/-! ## What is read from it -/

/-- An entry that can be listed in a line. -/
structure ReleaseFileEntry.Listable (entry : ReleaseFileEntry) : Prop where
  sha256 : entry.sha256 ≠ "" ∧ NoSpace entry.sha256
  size : entry.size < 2 ^ 64
  path : entry.path ≠ "" ∧ NoSpace entry.path

theorem toList_checksumLine (entry : ReleaseFileEntry) : (checksumLine entry).toList =
    ' ' :: (entry.sha256.toList ++ ' ' :: (replicate (16 - entry.size.repr.length) ' ' ++
      (entry.size.repr.toList ++ ' ' :: entry.path.toList))) := by
  simp [checksumLine, padLeft]

variable {entry : ReleaseFileEntry}

theorem newline_notMem_checksumLine (h : entry.Listable) : '\n' ∉ (checksumLine entry).toList := by
  rw [toList_checksumLine]
  simp only [mem_cons, mem_append, mem_replicate, not_or]
  exact ⟨by decide, h.sha256.2.newline, by decide, fun hpad => by simp at hpad,
    (noSpace_repr _).2.newline, by decide, h.path.2.newline⟩

theorem words_checksumLine (h : entry.Listable) : words isWhitespace (checksumLine entry).toList =
      [entry.sha256.toList, entry.size.repr.toList, entry.path.toList] := by
  have hspace : isWhitespace ' ' = true := by decide
  have hword : ∀ {name : String}, name ≠ "" ∧ NoSpace name →
      words isWhitespace name.toList = [name.toList] := by
    intro name hname
    exact words_singleton (fun hnil => hname.1 (String.toList_eq_nil_iff.mp hnil)) hname.2
  rw [toList_checksumLine, words_cons hspace, words_append_cons hspace, words_replicate hspace,
    words_append_cons hspace, hword h.sha256, hword (noSpace_repr _), hword h.path]
  rfl

theorem lineEntry_checksumLine (h : entry.Listable) :
    lineEntry e.std (checksumLine entry) = some (entry.path, entry.sha256, entry.size) := by
  have hheader : isSha256Header (checksumLine entry) = false := by
    rw [eq_false_iff, isSha256Header, Ne, dropStart_isSome]
    rintro ⟨tail, htail⟩
    have hhead := congrArg head? htail
    simp [checksumLine] at hhead
  rw [lineEntry, hheader, if_neg Bool.false_ne_true, releaseEntry_words, words_checksumLine h]
  simp only [String.ofList_toList, parseDecimal_repr h.size, Option.getD_some]

theorem inChecksums_checksumLine (entry : ReleaseFileEntry) :
    inChecksums (checksumLine entry) = true := by
  have hspace : isChecksumLine (checksumLine entry) = true := by
    rw [isChecksumLine, dropStart_isSome]
    simp [checksumLine]
  rw [inChecksums, hspace, Bool.or_true]

/-- A line that begins with the name of a field is none of the checksums. -/
theorem field_outside {field : String} (hlen : 2 ≤ field.toList.length)
    (hsha : ¬ ['S', 'H'] <+: field.toList) (hspace : ¬ [' '] <+: field.toList) (text : String) :
    inChecksums (field ++ text) = false := by
  have hfield : field.toList <+: (field ++ text).toList := by
    rw [String.toList_append]
    exact prefix_append _ _
  have houtside : ∀ (start : String) (cs : List Char), cs <+: start.toList → cs.length ≤ 2 →
      ¬ cs <+: field.toList → (dropStart start (field ++ text)).isSome = false := by
    intro start cs hcs hshort hno
    rw [eq_false_iff, Ne, dropStart_isSome]
    intro hstart
    exact hno (prefix_of_prefix_length_le (hcs.trans hstart) hfield (hshort.trans hlen))
  rw [inChecksums, isSha256Header, isChecksumLine,
    houtside "SHA256:" ['S', 'H'] (by decide) (by decide) hsha,
    houtside " " [' '] (by decide) (by decide) hspace]
  rfl

theorem not_header_of_outside (h : inChecksums line = false) :
    isSha256Header line = false := (Bool.or_eq_false_iff.mp h).1

/-- The fields of a list of names in one line. -/
theorem newline_notMem_names {names : List String} (h : ∀ name ∈ names, NoSpace name) :
    '\n' ∉ (" ".intercalate names).toList := by
  induction names with
  | nil => exact not_mem_nil
  | cons name names ih =>
    obtain ⟨hname, hnames⟩ := forall_mem_cons.mp h
    rcases eq_nil_or_concat' names with rfl | ⟨_, _, rfl⟩
    · rw [String.intercalate_singleton]
      exact hname.newline
    · rw [String.intercalate_cons_of_ne_nil (by simp)]
      exact newline_notMem_append (newline_notMem_append hname.newline (by decide)) (ih hnames)

section

variable {x : IndexExt} (hdate : '\n' ∉ (x.releaseDate now).toList)
variable (hcomponents : ∀ name ∈ components, NoSpace name)
variable (harchitectures : ∀ name ∈ architectures, NoSpace name)

include hdate hcomponents harchitectures

/-- The lines before the checksums: only those of the distribution's name can be taken for
    checksums. -/
theorem not_header_of_mem_releaseHead
    (hown : ∀ l ∈ ownLines distribution, isSha256Header l = false) :
    ∀ l ∈ releaseHead x now distribution components architectures, isSha256Header l = false := by
  intro l hl
  simp only [releaseHead, mem_append, mem_singleton] at hl
  have hsingle : ∀ {field text : String}, '\n' ∉ field.toList → '\n' ∉ text.toList →
      l ∈ linesOf (field ++ text) → l = field ++ text := by
    intro field text hfield htext hmem
    rwa [linesOf_of_notMem (newline_notMem_append hfield htext), mem_singleton] at hmem
  rcases hl with hl | hl | hl | hl | rfl
  · have hlines := @linesOf_field "Codename: " (by decide) distribution
    rw [hlines] at hl
    rcases mem_cons.mp hl with rfl | hl
    · exact not_header_of_outside (field_outside (by decide) (by decide) (by decide) _)
    · exact hown l hl
  · rw [hsingle (by decide) (newline_notMem_names hcomponents) hl]
    exact not_header_of_outside (field_outside (by decide) (by decide) (by decide) _)
  · rw [hsingle (by decide) (newline_notMem_names harchitectures) hl]
    exact not_header_of_outside (field_outside (by decide) (by decide) (by decide) _)
  · rw [hsingle (by decide) hdate hl]
    exact not_header_of_outside (field_outside (by decide) (by decide) (by decide) _)
  · decide

/-- What is read from a release: the checksums, unless the name of the distribution has a line
    that they seem to begin with; then only what follows in the name. -/
theorem parseLines_release (hchecksums : ∀ entry ∈ checksums, entry.Listable) :
    parseLines e.std (releaseLines x now distribution components architectures checksums) =
      if ∀ l ∈ ownLines distribution, isSha256Header l = false then
        checksums.map fun entry => (entry.path, entry.sha256, entry.size)
      else parseLines e.std (ownLines distribution) := by
  have hsuite := @linesOf_field "Suite: " (by decide) distribution
  have hfirst : isSha256Header ("Suite: " ++ firstLine distribution) = false :=
    not_header_of_outside (field_outside (by decide) (by decide) (by decide) _)
  have hskip : ∀ rest, parseLines e.std (("Suite: " ++ firstLine distribution) :: rest) =
      parseLines e.std rest := by
    have hone : ∀ l ∈ ["Suite: " ++ firstLine distribution], isSha256Header l = false := by
      simpa using hfirst
    exact fun rest => parseLines_skip hone rest
  rw [releaseLines, hsuite, cons_append, hskip]
  split_ifs with hown
  · have hlines : (checksums.flatMap fun entry => linesOf (checksumLine entry)) =
        checksums.map checksumLine := by
      rw [map_eq_flatMap]
      refine flatMap_congr fun entry hmem => ?_
      rw [linesOf_of_notMem (newline_notMem_checksumLine (hchecksums entry hmem))]
    have hin : ∀ l ∈ checksums.map checksumLine, inChecksums l = true := by
      intro l hl
      obtain ⟨entry, -, rfl⟩ := mem_map.mp hl
      exact inChecksums_checksumLine entry
    have hread : ∀ entry ∈ checksums, (lineEntry e.std ∘ checksumLine) entry =
        (some ∘ fun entry => (entry.path, entry.sha256, entry.size)) entry :=
      fun entry hmem => lineEntry_checksumLine (hchecksums entry hmem)
    rw [parseLines_skip hown,
      parseLines_skip (not_header_of_mem_releaseHead hdate hcomponents harchitectures hown),
      parseLines_header (by decide), hlines, takeWhile_eq_self_iff.mpr hin,
      filterMap_map, filterMap_congr hread, filterMap_eq_map]
  · have hheader : ∃ l ∈ ownLines distribution, isSha256Header l = true := by
      by_contra hnone
      exact hown fun l hl => eq_false_iff.mpr fun hl' => hnone ⟨l, hl, hl'⟩
    have hcodename := @linesOf_field "Codename: " (by decide) distribution
    rw [releaseHead, hcodename, cons_append, cons_append]
    exact parseLines_stop hheader (field_outside (by decide) (by decide) (by decide) _) _

end

/-- What is read from a published release. -/
theorem parse_published (signing : Option ClearSignature) (x : IndexExt) (now : DateTime)
    (distribution : String) (components architectures : List String)
    (checksums : List ReleaseFileEntry) :
    parseReleaseSha256 e.std (extractRelease (publishedText signing
        (generateRelease x now distribution components architectures checksums))) =
      parseLines e.std (releaseLines x now distribution components architectures checksums) := by
  have hlines : ∀ l ∈ releaseLines x now distribution components architectures checksums,
      '\n' ∉ l.toList := fun l hl => newline_notMem_releaseLines hl
  rw [generateRelease_eq]
  cases signing with
  | some s => exact parse_extract_sign s hlines
  | none =>
    have hsuite := @linesOf_field "Suite: " (by decide) distribution
    have hplain : (dropStart "-----BEGIN PGP SIGNED MESSAGE-----" (unlines
        (releaseLines x now distribution components architectures checksums))).isNone = true := by
      rw [← Option.not_isSome, not_eq_true', eq_false_iff, Ne, dropStart_isSome,
        releaseLines, hsuite, cons_append, unlines_cons]
      rintro ⟨tail, htail⟩
      have hhead := congrArg head? htail
      simp at hhead
    have hextract : extractRelease (publishedText none (unlines
        (releaseLines x now distribution components architectures checksums))) =
          unlines (releaseLines x now distribution components architectures checksums) := by
      rw [publishedText, extractRelease, if_pos hplain]
    rw [hextract, parseReleaseSha256_unlines hlines]

/-- The lines of a distribution's name after the first list exactly these entries: after a line
    with the name of the field, up to a line that is none of the checksums. -/
def ListsItself (e : SnapshotExt) (distribution : String) (entries : List (String × String × ℕ)) :
    Prop :=
  ∃ before header checksums after,
    ownLines distribution = before ++ header :: (checksums ++ after) ∧
      (∀ l ∈ before, isSha256Header l = false) ∧ isSha256Header header = true ∧
      (∀ l ∈ checksums, inChecksums l = true) ∧ (∀ l ∈ after.head?, inChecksums l = false) ∧
      checksums.filterMap (lineEntry e) = entries

theorem listsItself_iff {entries : List (String × String × ℕ)}
    (h : ¬ ∀ l ∈ ownLines distribution, isSha256Header l = false) :
    ListsItself e distribution entries ↔ parseLines e (ownLines distribution) = entries := by
  constructor
  · rintro ⟨before, header, checksums, after, hlines, hbefore, hheader, hin, hafter, rfl⟩
    have htake : (checksums ++ after).takeWhile inChecksums = checksums := by
      rw [takeWhile_append_of_pos hin]
      cases after with
      | nil => rw [takeWhile_nil, append_nil]
      | cons line after =>
        have hline : ¬ inChecksums line = true := by
          rw [hafter line (by simp)]
          exact Bool.false_ne_true
        rw [takeWhile_cons_of_neg hline, append_nil]
    rw [hlines, parseLines_skip hbefore, parseLines_header hheader, htake]
  · intro hparse
    cases hdrop : (ownLines distribution).dropWhile fun l => !isSha256Header l with
    | nil =>
      refine absurd (fun l hl => ?_) h
      have hall := dropWhile_eq_nil_iff.mp hdrop l hl
      rwa [not_eq_true'] at hall
    | cons header rest =>
      have hsplit := takeWhile_append_dropWhile
        (p := fun l => !isSha256Header l) (l := ownLines distribution)
      have hbefore : ∀ l ∈ (ownLines distribution).takeWhile (fun l => !isSha256Header l),
          isSha256Header l = false := by
        intro l hl
        have hnot := mem_takeWhile_imp hl
        rwa [not_eq_true'] at hnot
      have hheader : isSha256Header header = true := by
        have hhead := head?_dropWhile_not (fun l => !isSha256Header l) (ownLines distribution)
        rw [hdrop] at hhead
        simpa using hhead
      rw [hdrop] at hsplit
      refine ⟨_, header, rest.takeWhile inChecksums, rest.dropWhile inChecksums, ?_, hbefore,
        hheader, fun l hl => mem_takeWhile_imp hl, fun l hl => ?_, ?_⟩
      · rw [takeWhile_append_dropWhile, hsplit]
      · have hhead := head?_dropWhile_not inChecksums rest
        rw [Option.mem_def.mp hl] at hhead
        exact hhead
      · rw [← hparse, ← hsplit, parseLines_skip hbefore, parseLines_header hheader]

end Depot
