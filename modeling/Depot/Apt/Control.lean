import Depot.Index.Lines

/-!
# Control files

The fields of a control file as `parse_control_file` reads them (`format/apt/src/store/parse.rs`,
lines 105–146), and what it reads of fields that have been written one after the other.

Results:
* `controlFields_folded`: what the value of a field looks like.
* `fold_field`: what is read of a field.
* `get_fold_fields`: the fields that are read.
* `rereadValue_eq_iff`: when a value is read as it was written.
* `fold_field_shorter`: a value with a line that does not go on with it is cut.
-/

namespace Depot

open Lib List
open Option (some.inj)
open String (append_empty join_cons join_nil length_toList ofList toList toList_append toList_inj
  toList_ofList)
open SortedMap (get_insert get_insert_self)

/-! ## The parser -/

/-- `str::trim`. -/
def trimText (text : String) : String := ofList (strip isWhitespace text.toList)

/-- `str::split_once(':')`. -/
def splitColon (line : String) : Option (String × String) :=
  if ':' ∈ line.toList then
    some (ofList (line.toList.takeWhile (· ≠ ':')),
      ofList (line.toList.dropWhile (· ≠ ':')).tail)
  else none

/-- `str::to_lowercase`: on ASCII texts it changes the letters from `A` to `Z`. -/
structure LowerExt where
  toLowercase : String → String
  toLowercase_ascii : ∀ s, (∀ c ∈ s.toList, c.toNat < 128) →
    toLowercase s = ofList (s.toList.map Char.toLower)

/-- `DebControl`. -/
structure DebControl where
  package : String
  version : String
  architecture : String
  maintainer : String
  depends : String
  pkgSection : String
  priority : String
  installedSize : String
  description : String
  fullControl : String

/-- The fields that have been read, and the key of the last one. -/
structure ControlState where
  fields : SortedMap String String
  current : String

/-- Whether a line goes on with a field. -/
def isContinuation (line : String) : Bool :=
  line.toList.head? = some ' ' || line.toList.head? = some '\t'

section

variable (x : LowerExt)

/-- The loop over the lines (lines 109–121). -/
def controlStep (s : ControlState) (line : String) : ControlState :=
  if isContinuation line then
    if s.current = "" then s
    else { s with
      fields := s.fields.insert s.current ((s.fields.get s.current).getD "" ++ "\n" ++ line) }
  else
    match splitColon line with
    | some (key, value) =>
        let key := x.toLowercase (trimText key)
        { fields := s.fields.insert key (trimText value), current := key }
    | none => s

/-- The fields of a control file, by their names in lower case. -/
def controlFields (text : String) : SortedMap String String :=
  ((textLines text).foldl (controlStep x) ⟨.empty, ""⟩).fields

/-- `parse_control_file` (lines 106–146). -/
def parseControlFile (text : String) : Except DepotError DebControl := do
  let fields := controlFields x text
  let missing (field : String) : DepotError :=
    .badRequest ("missing " ++ field ++ " field in control file")
  let package ← (fields.get "package").elim (.error (missing "Package")) .ok
  let version ← (fields.get "version").elim (.error (missing "Version")) .ok
  let architecture ← (fields.get "architecture").elim (.error (missing "Architecture")) .ok
  pure {
    package := package
    version := version
    architecture := architecture
    maintainer := (fields.get "maintainer").getD ""
    depends := (fields.get "depends").getD ""
    pkgSection := (fields.get "section").getD ""
    priority := (fields.get "priority").getD ""
    installedSize := (fields.get "installed-size").getD ""
    description := (fields.get "description").getD ""
    fullControl := text }

end

/-! ## Values -/

/-- A value of a field: its first line without whitespace at its ends, and lines that go on with
    it. -/
structure Folded (value : String) : Prop where
  first : trimText (firstLine value) = firstLine value
  others : ∀ line ∈ ownLines value, isContinuation line = true

variable {text : String}

theorem firstLine_of_notMem (h : '\n' ∉ text.toList) :
    firstLine text = text ∧ ownLines text = [] := by
  rw [firstLine, ownLines, linesOf_of_notMem h]
  exact ⟨rfl, rfl⟩

variable {line : String}

theorem firstLine_newline (text : String) (h : '\n' ∉ line.toList) :
    firstLine (text ++ "\n" ++ line) = firstLine text ∧
      ownLines (text ++ "\n" ++ line) = ownLines text ++ [line] := by
  rw [firstLine, ownLines, linesOf_newline, linesOf_of_notMem h, linesOf_eq]
  exact ⟨rfl, rfl⟩

theorem trimText_trimText (text : String) : trimText (trimText text) = trimText text := by
  rw [trimText, trimText, toList_ofList, strip_strip]

theorem newline_notMem_trimText (h : '\n' ∉ text.toList) : '\n' ∉ (trimText text).toList := by
  rw [trimText, toList_ofList]
  exact fun hmem => h ((strip_sublist _).subset hmem)

theorem folded_trimText (h : '\n' ∉ text.toList) : Folded (trimText text) := by
  obtain ⟨hfirst, hothers⟩ := firstLine_of_notMem (newline_notMem_trimText h)
  refine ⟨?_, ?_⟩
  · rw [hfirst, trimText_trimText]
  · rw [hothers]
    exact nofun

variable {value key w : String}

theorem Folded.continued (h : Folded value) (hline : '\n' ∉ line.toList)
    (hcont : isContinuation line = true) : Folded (value ++ "\n" ++ line) := by
  obtain ⟨hfirst, hothers⟩ := firstLine_newline value hline
  refine ⟨?_, ?_⟩
  · rw [hfirst]
    exact h.first
  · rw [hothers]
    intro l hl
    rcases mem_append.mp hl with hl | hl
    · exact h.others l hl
    · rw [mem_singleton.mp hl]
      exact hcont

/-- The invariant of the loop. -/
structure ControlState.Inv (s : ControlState) : Prop where
  folded : ∀ k v, s.fields.get k = some v → Folded v
  current : s.current ≠ "" → (s.fields.get s.current).isSome

theorem newline_notMem_splitColon (h : splitColon line = some (key, value))
    (hline : '\n' ∉ line.toList) : '\n' ∉ value.toList := by
  unfold splitColon at h
  split_ifs at h
  obtain ⟨-, rfl⟩ := Prod.mk.inj (some.inj h)
  rw [toList_ofList]
  exact fun hmem => hline ((dropWhile_suffix _).subset (mem_of_mem_tail hmem))

variable {x : LowerExt}

variable {s : ControlState}

theorem controlStep_inv (h : s.Inv) (hline : '\n' ∉ line.toList) : (controlStep x s line).Inv := by
  unfold controlStep
  split_ifs with hcont hcurrent
  · exact h
  · obtain ⟨v, hv⟩ := Option.isSome_iff_exists.mp (h.current hcurrent)
    refine ⟨fun k w hk => ?_, fun _ => by simp⟩
    rw [get_insert] at hk
    split_ifs at hk
    · obtain rfl := some.inj hk
      rw [hv]
      exact (h.folded _ _ hv).continued hline hcont
    · exact h.folded k w hk
  · split
    · rename_i key value hsplit
      refine ⟨fun k w hk => ?_, fun _ => by simp⟩
      dsimp only at hk
      rw [get_insert] at hk
      split_ifs at hk
      · obtain rfl := some.inj hk
        exact folded_trimText (newline_notMem_splitColon hsplit hline)
      · exact h.folded k w hk
    · exact h

/-- What the value of a field looks like. -/
theorem controlFields_folded {k v : String} (h : (controlFields x text).get k = some v) :
    Folded v := by
  have hrun : ∀ lines : List String, (∀ l ∈ lines, '\n' ∉ l.toList) → ∀ s : ControlState, s.Inv →
      (lines.foldl (controlStep x) s).Inv := by
    intro lines
    induction lines with
    | nil => exact fun _ s hs => hs
    | cons line lines ih =>
      intro hlines s hs
      obtain ⟨hline, hrest⟩ := forall_mem_cons.mp hlines
      exact ih hrest _ (controlStep_inv hs hline)
  have hinit : (⟨.empty, ""⟩ : ControlState).Inv := ⟨nofun, fun hne => absurd rfl hne⟩
  exact (hrun _ (fun l hl => newline_notMem_textLines hl) _ hinit).folded k v h

/-! ## A field that has been written -/

/-- The label of a field: ASCII characters without whitespace and colons. -/
structure PlainLabel (label : String) : Prop where
  ne : label ≠ ""
  chars : ∀ c ∈ label.toList, c ≠ ':' ∧ 33 ≤ c.toNat ∧ c.toNat ≤ 126

/-- The line of a field. -/
def fieldText (field : String × String) : String := field.1 ++ ": " ++ field.2

/-- What is read of a value that has been written. -/
def rereadValue (value : String) : String :=
  trimText (firstLine value) ++ String.join ((ownLines value).map fun l => "\n" ++ chomp l)

theorem PlainLabel.head {label : String} (h : PlainLabel label) :
    ∃ c, label.toList.head? = some c ∧ 33 ≤ c.toNat := by
  cases hlist : label.toList with
  | nil => exact absurd (String.toList_eq_nil_iff.mp hlist) h.ne
  | cons c cs => exact ⟨c, rfl, (h.chars c (by rw [hlist]; exact mem_cons_self)).2.1⟩

variable {label : String}

theorem PlainLabel.newline (h : PlainLabel label) : '\n' ∉ label.toList :=
  fun hmem => absurd (h.chars _ hmem).2.1 (by decide)

theorem PlainLabel.not_continuation (h : PlainLabel label) (text : String) :
    isContinuation (label ++ text) = false := by
  obtain ⟨c, hhead, hc⟩ := h.head
  rw [isContinuation, toList_append, head?_append, hhead, Option.some_or,
    Bool.or_eq_false_iff, decide_eq_false_iff_not, decide_eq_false_iff_not]
  refine ⟨fun heq => ?_, fun heq => ?_⟩
  · rw [some.inj heq] at hc
    exact absurd hc (by decide)
  · rw [some.inj heq] at hc
    exact absurd hc (by decide)

theorem PlainLabel.trim (h : PlainLabel label) : trimText label = label := by
  rw [trimText, strip_of_none, String.ofList_toList]
  exact fun c hc => isWhitespace_of_graphic (h.chars c hc).2.1 (h.chars c hc).2.2

theorem PlainLabel.splitColon (h : PlainLabel label) (text : String) :
    splitColon (label ++ ":" ++ text) = some (label, text) := by
  have hlist : (label ++ ":" ++ text).toList = label.toList ++ ':' :: text.toList := by simp
  have hbefore : ∀ c ∈ label.toList, decide (c ≠ ':') = true :=
    fun c hc => decide_eq_true (h.chars c hc).1
  have hmem : ':' ∈ label.toList ++ ':' :: text.toList := by simp
  rw [Depot.splitColon, hlist, if_pos hmem, takeWhile_append_of_pos hbefore,
    dropWhile_append_of_pos hbefore]
  simp

theorem trimText_chomp (text : String) : trimText (" " ++ chomp text) = trimText text := by
  have hspace : isWhitespace ' ' = true := by decide
  have hcr : isWhitespace '\r' = true := by decide
  have hstrip : strip isWhitespace (chomp text).toList = strip isWhitespace text.toList := by
    rcases chomp_cases text with h | h
    · rw [h]
    · rw [h, strip_concat hcr]
  have hlist : (" " ++ chomp text).toList = ' ' :: (chomp text).toList := by simp
  rw [trimText, hlist, strip_cons hspace, hstrip, trimText]

theorem controlStep_label (h : PlainLabel label) (s : ControlState)
    (first : String) : controlStep x s (chomp (label ++ ": " ++ first)) =
      { fields := s.fields.insert (x.toLowercase label) (trimText first)
        current := x.toLowercase label } := by
  have hlast : (label ++ ": ").toList.getLast? = some ' ' := by simp
  have htext : label ++ ": " ++ chomp first = label ++ ":" ++ (" " ++ chomp first) := by
    refine toList_inj.mp ?_
    simp
  rw [chomp_append hlast (by decide), htext, controlStep, String.append_assoc,
    if_neg (by rw [h.not_continuation]; exact Bool.false_ne_true), ← String.append_assoc,
    h.splitColon]
  dsimp only
  rw [h.trim, trimText_chomp]

theorem isContinuation_chomp (line : String) :
    isContinuation (chomp line) = isContinuation line := by
  have hhead : ∀ {c : Char}, c ≠ '\r' →
      ((chomp line).toList.head? = some c ↔ line.toList.head? = some c) := by
    intro c hc
    have hpre : ∀ cs : List Char, cs.head? = some c ↔ [c] <+: cs := by
      intro cs
      cases cs with
      | nil => simp
      | cons d cs => simp [eq_comm]
    rw [hpre, hpre, prefix_chomp_iff]
    rintro hmem
    exact hc (mem_singleton.mp hmem).symm
  rw [isContinuation, isContinuation, decide_eq_decide.mpr (hhead (c := ' ') (by decide)),
    decide_eq_decide.mpr (hhead (c := '\t') (by decide))]

/-- The lines that go on with it. -/
theorem fold_continuation (hkey : key ≠ "") (lines : List String)
    (hlines : ∀ l ∈ lines, isContinuation l = true) (s : ControlState) (hcurrent : s.current = key)
    (hvalue : s.fields.get key = some value) :
    ((lines.map chomp).foldl (controlStep x) s).current = key ∧
      ∀ k, ((lines.map chomp).foldl (controlStep x) s).fields.get k =
        if k = key then some (value ++ String.join (lines.map fun l => "\n" ++ chomp l))
        else s.fields.get k := by
  induction lines generalizing s value with
  | nil =>
    refine ⟨hcurrent, fun k => ?_⟩
    split_ifs with hk
    · rw [hk, map_nil, foldl_nil, hvalue, map_nil, join_nil, append_empty]
    · rfl
  | cons line lines ih =>
    obtain ⟨hline, hrest⟩ := forall_mem_cons.mp hlines
    have hcont : isContinuation (chomp line) = true := by rw [isContinuation_chomp, hline]
    have hstep : controlStep x s (chomp line) =
        { s with fields := s.fields.insert key (value ++ "\n" ++ chomp line) } := by
      rw [controlStep, if_pos hcont, hcurrent, if_neg hkey, hvalue]
      rfl
    obtain ⟨hcur, hget⟩ := ih hrest (controlStep x s (chomp line))
      (by rw [hstep]; exact hcurrent) (by rw [hstep]; exact get_insert_self _ _ _)
    refine ⟨hcur, fun k => ?_⟩
    rw [map_cons, foldl_cons, hget k]
    split_ifs with hk
    · rw [map_cons, join_cons]
      simp only [String.append_assoc]
    · rw [hstep]
      exact (get_insert _ _ _ _).trans (if_neg hk)

/-- What is read of a field. -/
theorem fold_field {field : String × String} (hlabel : PlainLabel field.1)
    (hkey : x.toLowercase field.1 ≠ "") (hothers : ∀ l ∈ ownLines field.2, isContinuation l = true)
    (s : ControlState) (k : String) :
    (((linesOf (fieldText field)).map chomp).foldl (controlStep x) s).fields.get k =
      if k = x.toLowercase field.1 then some (rereadValue field.2) else s.fields.get k := by
  have hnewline : '\n' ∉ (field.1 ++ ": ").toList :=
    newline_notMem_append hlabel.newline (by decide)
  rw [fieldText, linesOf_field hnewline, map_cons, foldl_cons, controlStep_label hlabel,
    (fold_continuation hkey _ hothers _ rfl (get_insert_self _ _ _)).2 k]
  split_ifs with hk
  · rfl
  · exact (get_insert _ _ _ _).trans (if_neg hk)

/-- The fields that are read of a text with some fields, each of which can be read. -/
theorem get_fold_fields {fields : List (String × String)}
    (hfields : ∀ f ∈ fields, PlainLabel f.1 ∧ x.toLowercase f.1 ≠ "" ∧
      ∀ l ∈ ownLines f.2, isContinuation l = true)
    (hnodup : (fields.map fun f => x.toLowercase f.1).Nodup) (s : ControlState) (k v : String) :
    (((fields.flatMap fun f => linesOf (fieldText f)).map chomp).foldl (controlStep x) s).fields.get k
        = some v ↔
      (∃ f ∈ fields, x.toLowercase f.1 = k ∧ rereadValue f.2 = v) ∨
        (k ∉ fields.map fun f => x.toLowercase f.1) ∧ s.fields.get k = some v := by
  induction fields generalizing s with
  | nil => simp
  | cons field fields ih =>
    obtain ⟨⟨hlabel, hkey, hothers⟩, hrest⟩ := forall_mem_cons.mp hfields
    rw [map_cons, nodup_cons] at hnodup
    rw [flatMap_cons, map_append, List.foldl_append, ih hrest hnodup.2,
      fold_field hlabel hkey hothers]
    by_cases hk : k = x.toLowercase field.1
    · subst hk
      rw [if_pos rfl]
      constructor
      · rintro (⟨f, hf, heq, -⟩ | ⟨-, heq⟩)
        · exact absurd (mem_map.mpr ⟨f, hf, heq⟩) hnodup.1
        · exact .inl ⟨field, mem_cons_self, rfl, some.inj heq⟩
      · rintro (⟨f, hf, heq, hv⟩ | ⟨hno, -⟩)
        · rcases mem_cons.mp hf with rfl | hf
          · exact .inr ⟨hnodup.1, congrArg some hv⟩
          · exact absurd (mem_map.mpr ⟨f, hf, heq⟩) hnodup.1
        · exact absurd (by rw [map_cons]; exact mem_cons_self) hno
    · rw [if_neg hk]
      constructor
      · rintro (⟨f, hf, heq, hv⟩ | ⟨hno, hv⟩)
        · exact .inl ⟨f, mem_cons_of_mem _ hf, heq, hv⟩
        · refine .inr ⟨?_, hv⟩
          rw [map_cons, mem_cons, not_or]
          exact ⟨hk, hno⟩
      · rintro (⟨f, hf, heq, hv⟩ | ⟨hno, hv⟩)
        · rcases mem_cons.mp hf with rfl | hf
          · exact absurd heq.symm hk
          · exact .inl ⟨f, hf, heq, hv⟩
        · rw [map_cons, mem_cons, not_or] at hno
          exact .inr ⟨hno.2, hv⟩

theorem textLines_fields (fields : List (String × String)) :
    textLines (unlines (fields.flatMap fun f => linesOf (fieldText f))) =
      (fields.flatMap fun f => linesOf (fieldText f)).map chomp := by
  refine textLines_unlines fun l hl => ?_
  obtain ⟨f, -, hl⟩ := mem_flatMap.mp hl
  exact newline_notMem_linesOf hl

/-! ## Values that are read as they were written -/

theorem linesOf_join {first : String} (hfirst : '\n' ∉ first.toList) {lines : List String}
    (hlines : ∀ l ∈ lines, '\n' ∉ l.toList) :
    linesOf (first ++ String.join (lines.map fun l => "\n" ++ l)) = first :: lines := by
  induction lines generalizing first with
  | nil => rw [map_nil, join_nil, append_empty, linesOf_of_notMem hfirst]
  | cons line lines ih =>
    obtain ⟨hline, hrest⟩ := forall_mem_cons.mp hlines
    have htext : first ++ String.join ((line :: lines).map fun l => "\n" ++ l) =
        first ++ "\n" ++ (line ++ String.join (lines.map fun l => "\n" ++ l)) := by
      rw [map_cons, join_cons]
      simp only [String.append_assoc]
    rw [htext, linesOf_newline, linesOf_of_notMem hfirst, ih hline hrest]
    rfl

theorem linesOf_inj {a b : String} (h : linesOf a = linesOf b) : a = b := by
  have hunlines := congrArg unlines h
  rw [unlines_linesOf, unlines_linesOf] at hunlines
  have hlist := congrArg toList hunlines
  rw [toList_append, toList_append, append_left_inj] at hlist
  exact toList_inj.mp hlist

/-- No line after the first ends with a carriage return. -/
def NoReturn (value : String) : Prop := ∀ l ∈ ownLines value, l.toList.getLast? ≠ some '\r'

theorem chomp_eq_iff : chomp line = line ↔ line.toList.getLast? ≠ some '\r' := by
  constructor
  · intro h hlast
    have hlist := congrArg toList h
    rw [chomp, if_pos hlast, toList_ofList] at hlist
    have hlen := congrArg List.length hlist
    have hne : line.toList ≠ [] := by
      rintro hnil
      rw [hnil] at hlast
      cases hlast
    have hpos := length_pos_iff.mpr hne
    rw [length_dropLast] at hlen
    omega
  · intro h
    rw [chomp, if_neg h, String.ofList_toList]

/-- When a value is read as it was written. -/
theorem rereadValue_eq_iff :
    rereadValue value = value ↔ trimText (firstLine value) = firstLine value ∧ NoReturn value := by
  have hfirst : '\n' ∉ (firstLine value).toList := by
    refine @newline_notMem_linesOf value _ ?_
    rw [linesOf_eq]
    exact mem_cons_self
  have hothers : ∀ l ∈ (ownLines value).map chomp, '\n' ∉ l.toList := by
    intro l hl
    obtain ⟨l', hl', rfl⟩ := mem_map.mp hl
    refine fun hmem => @newline_notMem_linesOf value _ ?_ ((chomp_isPrefix l').subset hmem)
    rw [linesOf_eq]
    exact mem_cons_of_mem _ hl'
  have hlines : linesOf (rereadValue value) =
      trimText (firstLine value) :: (ownLines value).map chomp := by
    have hjoin := linesOf_join (newline_notMem_trimText hfirst) hothers
    rwa [map_map] at hjoin
  have hchomp : (ownLines value).map chomp = ownLines value ↔ NoReturn value := by
    conv_lhs => rhs; rw [← map_id (ownLines value)]
    rw [map_inj_left, NoReturn]
    simp only [id_eq, chomp_eq_iff]
  constructor
  · intro h
    rw [h, linesOf_eq] at hlines
    obtain ⟨hfirst, hown⟩ := List.cons.inj hlines
    exact ⟨hfirst.symm, hchomp.mp hown.symm⟩
  · rintro ⟨hfirst, hown⟩
    refine linesOf_inj ?_
    rw [hlines, hfirst, hchomp.mpr hown, linesOf_eq]

/-! ## Values that are cut -/

theorem length_trimText_le (text : String) : (trimText text).length ≤ text.length := by
  rw [trimText, String.length_ofList, ← length_toList]
  exact (strip_sublist _).length_le

theorem length_chomp_le (line : String) : (chomp line).length ≤ line.length := by
  rw [← length_toList, ← length_toList]
  exact (chomp_isPrefix line).length_le

theorem length_splitColon_lt
    (h : splitColon line = some (key, value)) : value.length < line.length := by
  unfold splitColon at h
  split_ifs at h with hcolon
  obtain ⟨-, rfl⟩ := Prod.mk.inj (some.inj h)
  have hne : line.toList.dropWhile (· ≠ ':') ≠ [] := by
    rw [Ne, dropWhile_eq_nil_iff]
    intro hall
    simpa using hall _ hcolon
  have hpos := length_pos_iff.mpr hne
  have hle := (dropWhile_suffix (l := line.toList) (· ≠ ':')).length_le
  rw [String.length_ofList, length_tail, ← length_toList]
  omega

theorem length_text (text : String) :
    text.length + 1 = ((linesOf text).map fun l => l.length + 1).sum := by
  have hsum : ∀ lines : List String,
      (unlines lines).length = (lines.map fun l => l.length + 1).sum := by
    intro lines
    induction lines with
    | nil => rfl
    | cons line lines ih =>
      rw [unlines_cons, String.length_append, String.length_append, ih, map_cons, sum_cons]
      rfl
  rw [← hsum, unlines_linesOf, String.length_append]
  rfl

/-- One line makes a value longer by no more than itself and a newline, and by less if it does not
    go on with it. -/
theorem controlStep_length (h : s.fields.get key = some w)
    (line : String) : ∃ w', (controlStep x s (chomp line)).fields.get key = some w' ∧
      w'.length ≤ w.length + (line.length + 1) ∧
        (isContinuation line = false → w'.length < w.length + (line.length + 1)) := by
  have hchomp := length_chomp_le line
  rw [controlStep, isContinuation_chomp]
  cases hcont : isContinuation line with
  | true =>
    rw [if_pos rfl]
    split_ifs with hcurrent
    · exact ⟨w, h, by omega, nofun⟩
    · dsimp only
      rw [get_insert]
      split_ifs with hkey
      · refine ⟨_, rfl, ?_, nofun⟩
        rw [← hkey, h, Option.getD_some, String.length_append, String.length_append]
        have hone : "\n".length = 1 := rfl
        omega
      · exact ⟨w, h, by omega, nofun⟩
  | false =>
    rw [if_neg Bool.false_ne_true]
    split
    · rename_i k value hsplit
      dsimp only
      rw [get_insert]
      have hlt := length_splitColon_lt hsplit
      have hle := length_trimText_le value
      split_ifs
      · exact ⟨_, rfl, by omega, fun _ => by omega⟩
      · exact ⟨w, h, by omega, fun _ => by omega⟩
    · exact ⟨w, h, by omega, fun _ => by omega⟩

theorem fold_length (lines : List String) (h : s.fields.get key = some w) :
    ∃ w', ((lines.map chomp).foldl (controlStep x) s).fields.get key = some w' ∧
      w'.length ≤ w.length + (lines.map fun l => l.length + 1).sum ∧
        ((∃ l ∈ lines, isContinuation l = false) →
          w'.length < w.length + (lines.map fun l => l.length + 1).sum) := by
  induction lines generalizing s w with
  | nil => exact ⟨w, h, by simp, nofun⟩
  | cons line lines ih =>
    obtain ⟨w₁, hget, hle, hlt⟩ := controlStep_length (x := x) h line
    obtain ⟨w₂, hget', hle', hlt'⟩ := ih hget
    have hsum : ((line :: lines).map fun l => l.length + 1).sum =
        line.length + 1 + (lines.map fun l => l.length + 1).sum := by
      rw [map_cons, sum_cons]
    rw [hsum]
    refine ⟨w₂, hget', by omega, ?_⟩
    rintro ⟨l, hl, hcont⟩
    rcases mem_cons.mp hl with rfl | hl
    · have hstrict := hlt hcont
      omega
    · have hstrict := hlt' ⟨l, hl, hcont⟩
      omega

/-- A value with a line that does not go on with it is cut. -/
theorem fold_field_shorter {field : String × String} (hlabel : PlainLabel field.1)
    (hothers : ∃ l ∈ ownLines field.2, isContinuation l = false) (s : ControlState) :
    ∃ w, (((linesOf (fieldText field)).map chomp).foldl (controlStep x) s).fields.get
        (x.toLowercase field.1) = some w ∧ w.length < field.2.length := by
  have hnewline : '\n' ∉ (field.1 ++ ": ").toList :=
    newline_notMem_append hlabel.newline (by decide)
  have hsum := length_text field.2
  rw [linesOf_eq, map_cons, sum_cons] at hsum
  have htrim := length_trimText_le (firstLine field.2)
  rw [fieldText, linesOf_field hnewline, map_cons, foldl_cons, controlStep_label hlabel]
  obtain ⟨w, hget, -, hlt⟩ := fold_length (x := x) (ownLines field.2)
    (s := ⟨s.fields.insert (x.toLowercase field.1) (trimText (firstLine field.2)),
      x.toLowercase field.1⟩) (get_insert_self _ _ _)
  have hstrict := hlt hothers
  exact ⟨w, hget, by omega⟩

end Depot
