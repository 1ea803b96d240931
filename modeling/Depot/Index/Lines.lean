import Depot.Lib.Split
import Depot.Service.Pagination
import Depot.Writes.Snapshots

/-!
# Texts in lines

The functions of the standard library that the readers of index files use, and what they make
of texts that are written line by line.

Results:
* `SnapshotExt.lossy_utf8`: a text is decoded to itself.
* `textLines_unlines`: the lines of a text that is written line by line.
* `parseDecimal_repr`: a number is parsed from its digits.
-/

namespace Depot

open Lib List
open String (append_empty empty_append ofList ofList_append ofList_toList toList_append toList_inj
  toList_ofList)

/-! ## The standard library -/

/-- The text after a plus sign, if it starts with one. -/
def skipPlus : List Char → List Char
  | '+' :: cs => cs
  | cs => cs

/-- `parse::<u64>`: decimal digits, after a plus sign or none. -/
def parseDecimal (text : String) : Option ℕ :=
  let digits := skipPlus text.toList
  if digits ≠ [] ∧ digits.all Char.isDigit then
    let n := Nat.ofDigitChars 10 digits 0
    if n < 2 ^ 64 then some n else none
  else none

/-- The functions of the standard library are known. -/
def SnapshotExt.std (e : SnapshotExt) : SnapshotExt :=
  { e with
    lossy := fun data => fromUtf8Lossy ⟨data.toArray⟩
    whitespace := isWhitespace
    parseSize := parseDecimal }

/-- Functions that can be evaluated. -/
def SnapshotExt.plain : SnapshotExt :=
  SnapshotExt.std {
    aptRequest := fun _ => .error ""
    yumRequest := fun _ => .error ""
    lossy := fun _ => ""
    whitespace := fun _ => false
    parseSize := fun _ => none
    signInrelease := fun _ _ => none
    repodataDepth := fun _ => 0
    repodata := fun _ _ _ => ([], []) }

variable (e : SnapshotExt)

@[simp] theorem SnapshotExt.std_lossy (data : Bytes) :
    e.std.lossy data = fromUtf8Lossy ⟨data.toArray⟩ := rfl

/-- The bytes of an array, one after the other. -/
theorem toList_eq_data (bytes : ByteArray) : bytes.toList = bytes.data.toList := by
  have hloop : ∀ i acc, ByteArray.toList.loop bytes i acc =
      acc.reverse ++ bytes.data.toList.drop i := by
    intro i acc
    fun_induction ByteArray.toList.loop bytes i acc with
    | case1 i acc hlt ih =>
      have hget : bytes.data.toList.drop i = bytes.get! i :: bytes.data.toList.drop (i + 1) := by
        rw [drop_eq_getElem_cons (by simpa using hlt)]
        congr 1
        simp only [ByteArray.get!, Array.getElem!_eq_getD, Array.getD, Array.getElem_toList]
        rw [dif_pos (show i < bytes.data.size from hlt)]
        rfl
      rw [ih, hget]
      simp
    | case2 i acc hge =>
      rw [drop_eq_nil_of_le (by simpa using Nat.not_lt.mp hge), append_nil]
  exact (hloop 0 []).trans (by simp)

/-- A text is decoded to itself. -/
theorem SnapshotExt.lossy_utf8 (text : String) : e.std.lossy (utf8 text) = text := by
  have hbytes : (⟨(utf8 text).toArray⟩ : ByteArray) = text.toUTF8 := by
    rw [utf8, toList_eq_data]
  rw [SnapshotExt.std_lossy, hbytes, fromUtf8Lossy_toUTF8]

/-- A number that fits is parsed from its digits. -/
theorem parseDecimal_repr {n : ℕ} (h : n < 2 ^ 64) : parseDecimal n.repr = some n := by
  have hlist : n.repr.toList = Nat.toDigits 10 n := by
    rw [Nat.repr, toList_ofList]
  have hdigits : ∀ c ∈ Nat.toDigits 10 n, c.isDigit = true := fun c hc =>
    Nat.isDigit_of_mem_toDigits (by omega) (by omega) hc
  have hvalue : Nat.ofDigitChars 10 (Nat.toDigits 10 n) 0 = n :=
    Nat.ofDigitChars_toDigits (by omega) (by omega)
  have hplus : skipPlus (Nat.toDigits 10 n) = Nat.toDigits 10 n := by
    unfold skipPlus
    split
    · rename_i cs heq
      have hplus : ¬ '+'.isDigit = true := by decide
      exact absurd (hdigits '+' (by rw [heq]; exact mem_cons_self)) hplus
    · rfl
  simp only [parseDecimal, hlist, hplus, hvalue]
  rw [if_pos ⟨Nat.toDigits_ne_nil, all_eq_true.mpr hdigits⟩, if_pos h]

/-! ## Lines -/

/-- A line without the carriage return at its end. -/
def chomp (line : String) : String :=
  ofList (if line.toList.getLast? = some '\r' then line.toList.dropLast else line.toList)

/-- A text that is written line by line. -/
def unlines (lines : List String) : String := String.join (lines.map (· ++ "\n"))

/-- What is between the newlines of a text. -/
def linesOf (text : String) : List String := (text.toList.splitOn '\n').map ofList

theorem linesOf_ne_nil (text : String) : linesOf text ≠ [] := by
  rw [linesOf, Ne, map_eq_nil_iff]
  exact splitOn_ne_nil _ _

theorem newline_notMem_linesOf {text line : String} (h : line ∈ linesOf text) :
    '\n' ∉ line.toList := by
  obtain ⟨cs, hcs, rfl⟩ := mem_map.mp h
  rw [toList_ofList]
  exact notMem_of_mem_splitOn hcs

variable {text start line : String}

theorem linesOf_of_notMem (h : '\n' ∉ text.toList) : linesOf text = [text] := by
  rw [linesOf, splitOn_eq_singleton h, map_singleton, ofList_toList]

theorem linesOf_newline (text rest : String) :
    linesOf (text ++ "\n" ++ rest) = linesOf text ++ linesOf rest := by
  have hlist : (text ++ "\n" ++ rest).toList = text.toList ++ '\n' :: rest.toList := by simp
  rw [linesOf, hlist, splitOn_append_cons_self, map_append]
  rfl

/-- A text with something before its first line. -/
theorem linesOf_append (h : '\n' ∉ start.toList) :
    linesOf (start ++ text) = (linesOf text).modifyHead (start ++ ·) := by
  rw [linesOf, toList_append, splitOn_append h, linesOf]
  cases text.toList.splitOn '\n' with
  | nil => rfl
  | cons l ls =>
    rw [modifyHead_cons, map_cons, map_cons, modifyHead_cons, ofList_append, ofList_toList]

theorem unlines_nil : unlines [] = "" := rfl

theorem unlines_cons (line : String) (lines : List String) :
    unlines (line :: lines) = line ++ "\n" ++ unlines lines := by
  rw [unlines, map_cons, String.join_cons]
  rfl

theorem unlines_append (lines lines' : List String) :
    unlines (lines ++ lines') = unlines lines ++ unlines lines' := by
  induction lines with
  | nil => rw [nil_append, unlines_nil, empty_append]
  | cons line lines ih =>
    rw [cons_append, unlines_cons, unlines_cons, ih]
    simp only [String.append_assoc]

theorem unlines_linesOf (text : String) : unlines (linesOf text) = text ++ "\n" := by
  have hparts : ∀ parts : List (List Char), parts ≠ [] →
      unlines (parts.map ofList) = ofList (['\n'].intercalate parts) ++ "\n" := by
    intro parts
    induction parts with
    | nil => exact fun h => absurd rfl h
    | cons part parts ih =>
      intro _
      rw [map_cons, unlines_cons]
      rcases eq_nil_or_concat' parts with rfl | ⟨_, _, rfl⟩
      · rw [map_nil, unlines_nil, append_empty, intercalate_singleton]
      · rw [ih (by simp), intercalate_cons_of_ne_nil (by simp), ofList_append,
          ofList_append, String.append_assoc, String.append_assoc, String.append_assoc]
  rw [linesOf, hparts _ (splitOn_ne_nil _ _), intercalate_splitOn, ofList_toList]

variable {lines : List String}

theorem linesOf_unlines (h : ∀ l ∈ lines, '\n' ∉ l.toList) :
    linesOf (unlines lines) = lines ++ [""] := by
  induction lines with
  | nil => rfl
  | cons line lines ih =>
    rw [unlines_cons, linesOf_newline, linesOf_of_notMem (h line mem_cons_self),
      ih fun l hl => h l (mem_cons_of_mem _ hl)]
    rfl

theorem textLines_newline (h : '\n' ∉ line.toList) (rest : String) :
    textLines (line ++ "\n" ++ rest) = chomp line :: textLines rest := by
  have hlist : (line ++ "\n" ++ rest).toList = line.toList ++ '\n' :: rest.toList := by simp
  have hsplit : (line ++ "\n" ++ rest).toList.splitOn '\n' =
      line.toList :: rest.toList.splitOn '\n' := by
    rw [hlist, splitOn_append_cons_self_of_not_mem h]
  obtain ⟨first, others, hrest⟩ :=
    exists_cons_of_ne_nil (splitOn_ne_nil '\n' rest.toList)
  unfold textLines
  rw [hsplit, hrest]
  dsimp only
  rw [dropLast_cons_cons, map_cons, getLast?_cons_cons]
  cases (first :: others).getLast? with
  | none => rfl
  | some last =>
    dsimp only
    by_cases hlast : last = []
    · rw [if_pos hlast, if_pos hlast]
      rfl
    · rw [if_neg hlast, if_neg hlast]
      rfl

theorem textLines_empty : textLines "" = [] := rfl

/-- The lines that are read are those that were written, without carriage returns. -/
theorem textLines_unlines_append (h : ∀ l ∈ lines, '\n' ∉ l.toList)
    (rest : String) : textLines (unlines lines ++ rest) = lines.map chomp ++ textLines rest := by
  induction lines with
  | nil => rw [unlines_nil, empty_append, map_nil, nil_append]
  | cons line lines ih =>
    rw [unlines_cons, String.append_assoc, textLines_newline (h line mem_cons_self),
      ih fun l hl => h l (mem_cons_of_mem _ hl)]
    rfl

theorem textLines_unlines (h : ∀ l ∈ lines, '\n' ∉ l.toList) :
    textLines (unlines lines) = lines.map chomp := by
  have hlines := textLines_unlines_append h ""
  rwa [append_empty, textLines_empty, append_nil] at hlines

/-! ## What a line begins with -/

theorem dropStart_isSome : (dropStart start line).isSome = true ↔ start.toList <+: line.toList := by
  unfold dropStart
  split_ifs with h
  · simp [h]
  · simp [h]

theorem dropStart_append (start text : String) : dropStart start (start ++ text) = some text := by
  have hpre : start.toList <+: (start ++ text).toList := by
    rw [toList_append]
    exact prefix_append _ _
  rw [dropStart, if_pos hpre, toList_append, ← String.length_toList, drop_left, ofList_toList]

theorem chomp_cases (line : String) :
    chomp line = line ∨ line.toList = (chomp line).toList ++ ['\r'] := by
  unfold chomp
  split_ifs with h
  · right
    rw [toList_ofList]
    exact (dropLast_append_getLast? _ h).symm
  · exact .inl ofList_toList

theorem chomp_isPrefix (line : String) : (chomp line).toList <+: line.toList := by
  rcases chomp_cases line with h | h
  · simp only [h, prefix_rfl]
  · rw [h]
    exact prefix_append _ _

/-- A beginning without carriage returns stays. -/
theorem prefix_chomp_iff {start : List Char} (hstart : '\r' ∉ start) :
    start <+: (chomp line).toList ↔ start <+: line.toList := by
  refine ⟨fun h => h.trans (chomp_isPrefix line), fun h => ?_⟩
  rcases chomp_cases line with hline | hline
  · rwa [hline]
  · rw [hline] at h
    rcases prefix_concat_iff.mp h with heq | h
    · exact absurd (by rw [heq]; simp) hstart
    · exact h

theorem dropStart_chomp_isSome (hstart : '\r' ∉ start.toList) :
    (dropStart start (chomp line)).isSome = (dropStart start line).isSome := by
  rw [Bool.eq_iff_iff, dropStart_isSome, dropStart_isSome, prefix_chomp_iff hstart]

variable {c : Char}

theorem chomp_append (hlast : start.toList.getLast? = some c)
    (hc : c ≠ '\r') (text : String) : chomp (start ++ text) = start ++ chomp text := by
  refine toList_inj.mp ?_
  unfold chomp
  rw [toList_append, getLast?_append, hlast, toList_append, toList_ofList, toList_ofList]
  cases htext : text.toList.getLast? with
  | none =>
    rw [Option.none_or, if_neg fun h => hc (Option.some.inj h), if_neg nofun]
  | some d =>
    rw [Option.some_or]
    split_ifs with hd
    · refine dropLast_append_of_ne_nil ?_
      rintro hnil
      rw [hnil] at htext
      cases htext
    · rfl

/-- A carriage return at the end is no word. -/
theorem words_chomp (line : String) :
    words isWhitespace (chomp line).toList = words isWhitespace line.toList := by
  rcases chomp_cases line with h | h
  · rw [h]
  · have hcr : isWhitespace '\r' = true := by decide
    rw [h, words_append_cons hcr, words_nil, append_nil]

theorem newline_notMem_textLines (h : line ∈ textLines text) : '\n' ∉ line.toList := by
  have hpart : ∀ part ∈ text.toList.splitOn '\n', '\n' ∉ part := fun part hpart =>
    notMem_of_mem_splitOn hpart
  have hfull : ∀ l ∈ (text.toList.splitOn '\n').dropLast.map fun l =>
      ofList (if l.getLast? = some '\r' then l.dropLast else l), '\n' ∉ l.toList := by
    intro l hl
    obtain ⟨part, hmem, rfl⟩ := mem_map.mp hl
    have hno := hpart part (dropLast_subset _ hmem)
    rw [toList_ofList]
    split_ifs
    · exact fun hc => hno (dropLast_subset _ hc)
    · exact hno
  unfold textLines at h
  dsimp only at h
  split at h
  · exact hfull line h
  · rename_i last hlast
    split_ifs at h
    · exact hfull line h
    · rcases mem_append.mp h with h | h
      · exact hfull line h
      · rw [mem_singleton.mp h, toList_ofList]
        exact hpart last (mem_of_getLast? hlast)

/-- A text begins with a line. -/
theorem textLines_start {start : String} (hne : start ≠ "") (hnewline : '\n' ∉ start.toList)
    (hcr : '\r' ∉ start.toList) (rest : String) :
    ∃ line lines, textLines (start ++ rest) = line :: lines ∧ start.toList <+: line.toList := by
  have hpre : ∀ text : String, start.toList <+: (start ++ text).toList := by
    intro text
    rw [toList_append]
    exact prefix_append _ _
  by_cases hrest : '\n' ∈ rest.toList
  · obtain ⟨first, others, heq, hfirst⟩ := eq_append_cons_of_mem hrest
    have htext : start ++ rest = start ++ ofList first ++ "\n" ++ ofList others := by
      refine toList_inj.mp ?_
      simp [heq]
    have hline : '\n' ∉ (start ++ ofList first).toList := by
      rw [toList_append, toList_ofList, mem_append, not_or]
      exact ⟨hnewline, hfirst⟩
    rw [htext, textLines_newline hline]
    exact ⟨_, _, rfl, (prefix_chomp_iff hcr).mpr (hpre _)⟩
  · have hline : '\n' ∉ (start ++ rest).toList := by
      rw [toList_append, mem_append, not_or]
      exact ⟨hnewline, hrest⟩
    refine ⟨start ++ rest, [], ?_, hpre rest⟩
    unfold textLines
    rw [splitOn_eq_singleton hline]
    simp [hne]

/-- The first line of a text. -/
def firstLine (text : String) : String := (linesOf text).headD ""

/-- The lines of a name after the first. -/
def ownLines (name : String) : List String := (linesOf name).tail

theorem linesOf_eq (text : String) : linesOf text = firstLine text :: ownLines text := by
  obtain ⟨first, others, hlines⟩ := exists_cons_of_ne_nil (linesOf_ne_nil text)
  rw [firstLine, ownLines, hlines]
  rfl

/-- The lines of a field with a name that has newlines. -/
theorem linesOf_field {field : String} (h : '\n' ∉ field.toList) (name : String) :
    linesOf (field ++ name) = (field ++ firstLine name) :: ownLines name := by
  rw [linesOf_append h, linesOf_eq]
  rfl

/-! ## Names without whitespace -/

theorem newline_notMem_append {a b : String} (ha : '\n' ∉ a.toList) (hb : '\n' ∉ b.toList) :
    '\n' ∉ (a ++ b).toList := by
  rw [toList_append, mem_append, not_or]
  exact ⟨ha, hb⟩

/-- A name without whitespace. -/
def NoSpace (name : String) : Prop := ∀ c ∈ name.toList, isWhitespace c = false

theorem NoSpace.newline {name : String} (h : NoSpace name) : '\n' ∉ name.toList := fun hmem => by
  have hspace := h _ hmem
  revert hspace
  decide

theorem isWhitespace_of_graphic (h : 33 ≤ c.toNat) (h' : c.toNat ≤ 126) :
    isWhitespace c = false := by
  simp only [isWhitespace, Bool.or_eq_false_iff, Bool.and_eq_false_iff, decide_eq_false_iff_not]
  omega

theorem isDigit_noSpace (h : c.isDigit = true) : isWhitespace c = false := by
  rw [Char.isDigit_iff_toNat] at h
  have h₀ : '0'.toNat = 48 := rfl
  have h₉ : '9'.toNat = 57 := rfl
  exact isWhitespace_of_graphic (by omega) (by omega)

theorem isHex_noSpace (h : isHex c = true) : isWhitespace c = false := by
  rw [isHex, Bool.or_eq_true] at h
  rcases h with h | h
  · exact isDigit_noSpace h
  · rw [Bool.and_eq_true, decide_eq_true_iff, decide_eq_true_iff, Char.le_def, Char.le_def,
      UInt32.le_iff_toNat_le, UInt32.le_iff_toNat_le] at h
    have hlow : 97 ≤ c.toNat := h.1
    have hhigh : c.toNat ≤ 102 := h.2
    exact isWhitespace_of_graphic (by omega) (by omega)

theorem noSpace_repr (n : ℕ) : n.repr ≠ "" ∧ NoSpace n.repr := by
  have hlist : n.repr.toList = Nat.toDigits 10 n := by
    rw [Nat.repr, toList_ofList]
  refine ⟨fun h => ?_, fun c hc => ?_⟩
  · rw [h] at hlist
    exact Nat.toDigits_ne_nil hlist.symm
  · rw [hlist] at hc
    exact isDigit_noSpace (Nat.isDigit_of_mem_toDigits (by omega) (by omega) hc)

end Depot
