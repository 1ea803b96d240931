import Depot.Lib.Digits
import Depot.Lib.Split

/-!
# Versions of Python packages

A version has an epoch, the numbers of a release, and perhaps a pre-release, a post-release, a
development release and a local part. Its parts may be spelled in several ways: with other words,
with other separators or without a number. Texts are in lower case and without surrounding
blanks.

Results:
* `Pep440.parse_spell`: a version is read from its spelling with any separator.
* `Pep440.rest_of_parse`: a text without dots has one number in its release.
-/

namespace Lib

open List
open Nat (toDigits)

/-! ## Versions -/

/-- The kinds of pre-releases. -/
inductive PreKind where
  | a | b | rc
  deriving DecidableEq

def PreKind.chars : PreKind → List Char
  | .a => ['a']
  | .b => ['b']
  | .rc => ['r', 'c']

/-- The characters of a local part. -/
def isLocalChar (c : Char) : Bool := c.isDigit || c.isLower

/-- A segment of a local part: a number, or one that is none. -/
inductive LocalSeg where
  | number (n : ℕ)
  | word (chars : List Char) (h : chars.all isLocalChar = true ∧ chars.all Char.isDigit = false)

def LocalSeg.chars : LocalSeg → List Char
  | .number n => toDigits 10 n
  | .word chars _ => chars

/-- A version; `first` and `rest` are the numbers of its release. -/
structure Pep440 where
  epoch : ℕ := 0
  first : ℕ
  rest : List ℕ := []
  pre : Option (PreKind × ℕ) := none
  post : Option ℕ := none
  dev : Option ℕ := none
  loc : List LocalSeg := []

variable {start cs : List Char}

namespace Pep440

/-! ## Spellings -/

/-- A number with a word in front of it. -/
def marked (start : List Char) : Option ℕ → List Char
  | none => []
  | some n => start ++ toDigits 10 n

def localText (sep : Char) : List LocalSeg → List Char
  | [] => []
  | segs => '+' :: [sep].intercalate (segs.map LocalSeg.chars)

/-- What follows the post-release. -/
def devText (sep : Char) (v : Pep440) : List Char :=
  marked [sep, 'd', 'e', 'v'] v.dev ++ localText sep v.loc

/-- What follows the pre-release. -/
def postText (sep : Char) (v : Pep440) : List Char :=
  marked [sep, 'p', 'o', 's', 't'] v.post ++ devText sep v

/-- What follows the release. -/
def preText (sep : Char) (v : Pep440) : List Char :=
  (match v.pre with
    | none => []
    | some (kind, n) => kind.chars ++ toDigits 10 n) ++ postText sep v

/-- What follows the first number of the release. -/
def restText (sep : Char) (v : Pep440) : List Char :=
  (v.rest.flatMap fun n => '.' :: toDigits 10 n) ++ preText sep v

/-- A version with a separator before its last parts; the normal one is a dot. -/
def spell (sep : Char) (v : Pep440) : List Char :=
  (if v.epoch = 0 then [] else toDigits 10 v.epoch ++ ['!']) ++
    (toDigits 10 v.first ++ restText sep v)

/-! ## Reading -/

/-- The separators between the parts. -/
def isSep (c : Char) : Bool := c = '-' || c = '_' || c = '.'

/-- A separator may be left out. -/
def dropSep : List Char → List Char
  | [] => []
  | c :: cs => if isSep c then cs else c :: cs

/-- One of some words at the start of a text. -/
def readWord {α : Type} (words : List (List Char × α)) (cs : List Char) :
    Option (α × List Char) :=
  words.findSome? fun e => if e.1.isPrefixOf cs then some (e.2, cs.drop e.1.length) else none

/-- A word and a number, which is zero where it is left out. -/
def readMarked {α : Type} (words : List (List Char × α)) (cs : List Char) :
    Option (α × ℕ) × List Char :=
  match readWord words (dropSep cs) with
  | none => (none, cs)
  | some (a, rest) =>
      match readNumber (dropSep rest) with
      | some (n, rest) => (some (a, n), rest)
      | none => (some (a, 0), dropSep rest)

def preWords : List (List Char × PreKind) :=
  [("alpha".toList, .a), ("a".toList, .a), ("beta".toList, .b), ("b".toList, .b),
    ("preview".toList, .rc), ("pre".toList, .rc), ("c".toList, .rc), ("rc".toList, .rc)]

def postWords : List (List Char × Unit) :=
  [("post".toList, ()), ("rev".toList, ()), ("r".toList, ())]

/-- The word of a development release. -/
def devWords : List (List Char × Unit) := [("dev".toList, ())]

/-- A post-release without a word. -/
def readDash : List Char → Option (ℕ × List Char)
  | '-' :: cs => readNumber cs
  | _ => none

def readPost (cs : List Char) : Option ℕ × List Char :=
  match readDash cs with
  | some (n, rest) => (some n, rest)
  | none => ((readMarked postWords cs).1.map Prod.snd, (readMarked postWords cs).2)

/-- The numbers of a release after the first one. -/
def readRelease : ℕ → List Char → List ℕ × List Char
  | fuel + 1, '.' :: cs =>
      match readNumber cs with
      | some (n, rest) => (n :: (readRelease fuel rest).1, (readRelease fuel rest).2)
      | none => ([], '.' :: cs)
  | _, cs => ([], cs)

def readSeg (cs : List Char) : Option LocalSeg :=
  if h : cs.all isLocalChar = true ∧ cs.all Char.isDigit = false then some (.word cs h)
  else match readNumber cs with
    | some (n, []) => some (.number n)
    | _ => none

def readLocal : List Char → Option (List LocalSeg)
  | [] => some []
  | '+' :: cs => (cs.splitOnP isSep).mapM readSeg
  | _ => none

/-- The epoch, which may be left out. -/
def readEpoch (cs : List Char) : ℕ × List Char :=
  match readNumber cs with
  | some (n, '!' :: rest) => (n, rest)
  | _ => (0, cs)

/-- What follows the first number of the release. -/
def readRest (epoch first : ℕ) (cs : List Char) : Option Pep440 :=
  let (rest, cs) := readRelease cs.length cs
  let (pre, cs) := readMarked preWords cs
  let (post, cs) := readPost cs
  let (dev, cs) := readMarked devWords cs
  (readLocal cs).map fun loc => { epoch, first, rest, pre, post, dev := dev.map Prod.snd, loc }

/-- The version that is spelled by a text, with or without a `v` in front of it. -/
def parse (cs : List Char) : Option Pep440 :=
  let cs := match cs with
    | 'v' :: cs => cs
    | cs => cs
  (readNumber (readEpoch cs).2).bind fun r => readRest (readEpoch cs).1 r.1 r.2

/-! ## Reading a spelling -/

variable {sep : Char} (hsep : isSep sep = true) (v : Pep440)

theorem noDigitAhead_cons {c : Char} (h : c.isDigit = false) (cs : List Char) :
    NoDigitAhead (c :: cs) := by
  rintro d hd
  obtain rfl : c = d := Option.some.inj hd
  exact h

theorem isSep_cases {c : Char} (h : isSep c = true) : c = '-' ∨ c = '_' ∨ c = '.' := by
  simpa [isSep, or_assoc] using h

theorem isSep_plus : isSep '+' = false := rfl

theorem isDigit_of_isSep {c : Char} (h : isSep c = true) : c.isDigit = false := by
  rcases isSep_cases h with rfl | rfl | rfl <;> decide

/-- The digits of a number start with a digit. -/
theorem exists_digit (n : ℕ) : ∃ d ds, toDigits 10 n = d :: ds ∧ d.isDigit = true := by
  obtain ⟨d, ds, h⟩ := exists_cons_of_ne_nil (Nat.toDigits_ne_nil (b := 10) (n := n))
  exact ⟨d, ds, h, isDigit_of_mem_digits (h ▸ mem_cons_self)⟩

theorem dropSep_digits (n : ℕ) (cs : List Char) :
    dropSep (toDigits 10 n ++ cs) = toDigits 10 n ++ cs := by
  obtain ⟨d, ds, h, hd⟩ := exists_digit n
  have hd' : ¬isSep d = true := fun hsep => by
    rw [isDigit_of_isSep hsep] at hd
    cases hd
  rw [h, cons_append, dropSep, if_neg hd']

theorem localText_cases (sep : Char) (segs : List LocalSeg) :
    localText sep segs = [] ∨ ∃ cs, localText sep segs = '+' :: cs := by
  cases segs with
  | nil => exact .inl rfl
  | cons seg segs => exact .inr ⟨_, rfl⟩

theorem devText_cases (sep : Char) (v : Pep440) : v.devText sep = [] ∨
    (∃ cs, v.devText sep = '+' :: cs) ∨ ∃ cs, v.devText sep = sep :: 'd' :: 'e' :: 'v' :: cs := by
  rw [devText]
  cases v.dev with
  | none =>
    rcases localText_cases sep v.loc with h | h
    · exact .inl h
    · exact .inr (.inl h)
  | some n => exact .inr (.inr ⟨_, rfl⟩)

theorem postText_cases (sep : Char) (v : Pep440) : v.postText sep = [] ∨
    (∃ cs, v.postText sep = '+' :: cs) ∨ (∃ cs, v.postText sep = sep :: 'd' :: 'e' :: 'v' :: cs) ∨
    ∃ cs, v.postText sep = sep :: 'p' :: 'o' :: 's' :: 't' :: cs := by
  rw [postText]
  cases v.post with
  | none =>
    rcases devText_cases sep v with h | h | h
    · exact .inl h
    · exact .inr (.inl h)
    · exact .inr (.inr (.inl h))
  | some n => exact .inr (.inr (.inr ⟨_, rfl⟩))

/-- A local part is read segment by segment. -/
theorem readSeg_chars (seg : LocalSeg) : readSeg seg.chars = some seg := by
  cases seg with
  | number n =>
    have hdigits : (toDigits 10 n).all Char.isDigit = true :=
      all_eq_true.mpr fun c hc => isDigit_of_mem_digits hc
    have hread := @readNumber_digits n [] nofun
    rw [append_nil] at hread
    simp [readSeg, LocalSeg.chars, hdigits, hread]
  | word chars h => rw [readSeg, LocalSeg.chars, dif_pos h]

theorem notSep_of_mem_seg {seg : LocalSeg} : ∀ c ∈ seg.chars, isSep c = false := by
  have hchar : ∀ c, isLocalChar c = true → isSep c = false := by
    intro c hc
    rw [Bool.eq_false_iff]
    intro h
    rcases isSep_cases h with rfl | rfl | rfl <;> exact absurd hc (by decide)
  cases seg with
  | number n => exact fun c hc => hchar c (by simp [isLocalChar, isDigit_of_mem_digits hc])
  | word chars h => exact fun c hc => hchar c (all_eq_true.mp h.1 c hc)

/-- A word with a number is read. -/
theorem readMarked_some {α : Type} {words : List (List Char × α)} {a : α}
    {n : ℕ} (hword : readWord words (dropSep (start ++ (toDigits 10 n ++ cs))) =
      some (a, toDigits 10 n ++ cs)) (hcs : NoDigitAhead cs) :
    readMarked words (start ++ (toDigits 10 n ++ cs)) = (some (a, n), cs) := by
  rw [readMarked, hword]
  simp only [dropSep_digits, readNumber_digits n hcs]

theorem noDigitAhead_localText (segs : List LocalSeg) : NoDigitAhead (localText sep segs) := by
  rcases localText_cases sep segs with h | ⟨cs, h⟩ <;> rw [h]
  · exact nofun
  · exact noDigitAhead_cons (by decide) cs

include hsep

theorem splitOnP_segs : ∀ segs : List LocalSeg, segs ≠ [] →
    ([sep].intercalate (segs.map LocalSeg.chars)).splitOnP isSep = segs.map LocalSeg.chars := by
  intro segs hne
  induction segs with
  | nil => exact absurd rfl hne
  | cons seg segs ih =>
    cases segs with
    | nil => simp [splitOnP_eq_singleton notSep_of_mem_seg]
    | cons next segs =>
      rw [map_cons, intercalate_cons_of_ne_nil (by simp), append_assoc,
        singleton_append,
        splitOnP_append_cons_of_forall_mem notSep_of_mem_seg sep hsep, ih (by simp)]

theorem readLocal_text (segs : List LocalSeg) : readLocal (localText sep segs) = some segs := by
  cases segs with
  | nil => rfl
  | cons seg segs =>
    have hmap : ∀ segs : List LocalSeg, (segs.map LocalSeg.chars).mapM readSeg = some segs := by
      intro segs
      induction segs with
      | nil => rfl
      | cons seg segs ih => simp [mapM_cons, readSeg_chars, ih]
    rw [localText, readLocal, splitOnP_segs hsep _ (cons_ne_nil seg segs), hmap]
    exact cons_ne_nil seg segs

theorem noDigitAhead_marked (hcs : NoDigitAhead cs) (n : Option ℕ) :
    NoDigitAhead (marked (sep :: start) n ++ cs) := by
  cases n with
  | none => exact hcs
  | some n => exact noDigitAhead_cons (isDigit_of_isSep hsep) _

theorem noDigitAhead_devText : NoDigitAhead (v.devText sep) :=
  noDigitAhead_marked hsep (noDigitAhead_localText v.loc) v.dev

theorem noDigitAhead_postText : NoDigitAhead (v.postText sep) :=
  noDigitAhead_marked hsep (noDigitAhead_devText hsep v) v.post

theorem noDigitAhead_preText : NoDigitAhead (v.preText sep) := by
  rw [preText]
  cases v.pre with
  | none => exact noDigitAhead_postText hsep v
  | some p =>
    obtain ⟨kind, n⟩ := p
    cases kind <;> exact noDigitAhead_cons (by decide) _

/-- The parts that are left out are not read as another one. -/
theorem readDev_text : readMarked devWords (v.devText sep) =
    (v.dev.map ((), ·), localText sep v.loc) := by
  rw [devText]
  cases v.dev with
  | none =>
    rcases localText_cases sep v.loc with h | ⟨cs, h⟩ <;>
      simp [marked, h, readMarked, readWord, dropSep, devWords, isSep_plus]
  | some n =>
    rw [marked, append_assoc]
    exact readMarked_some (by simp [dropSep, hsep, readWord, devWords])
      (noDigitAhead_localText v.loc)

theorem readPost_text : readPost (v.postText sep) = (v.post, v.devText sep) := by
  have hdash : readDash (v.postText sep) = none := by
    rcases postText_cases sep v with h | ⟨cs, h⟩ | ⟨cs, h⟩ | ⟨cs, h⟩ <;> rw [h]
    · rfl
    · rfl
    · rcases isSep_cases hsep with rfl | rfl | rfl <;> rfl
    · rcases isSep_cases hsep with rfl | rfl | rfl <;> rfl
  have hread : readMarked postWords (v.postText sep) = (v.post.map ((), ·), v.devText sep) := by
    cases hpost : v.post with
    | none =>
      rw [postText, hpost]
      rcases devText_cases sep v with h | ⟨cs, h⟩ | ⟨cs, h⟩ <;>
        simp [marked, h, readMarked, readWord, dropSep, postWords, hsep, isSep_plus]
    | some n =>
      rw [postText, hpost, marked, append_assoc]
      exact readMarked_some (by simp [dropSep, hsep, readWord, postWords])
        (noDigitAhead_devText hsep v)
  rw [readPost, hdash, hread]
  cases v.post <;> rfl

theorem readPre_text : readMarked preWords (v.preText sep) = (v.pre, v.postText sep) := by
  rw [preText]
  cases v.pre with
  | none =>
    rcases postText_cases sep v with h | ⟨cs, h⟩ | ⟨cs, h⟩ | ⟨cs, h⟩ <;>
      simp [h, readMarked, readWord, dropSep, preWords, hsep, isSep_plus]
  | some p =>
    obtain ⟨kind, n⟩ := p
    obtain ⟨d, ds, hdigits, hd⟩ := exists_digit n
    have hl : d ≠ 'l' := by rintro rfl; cases hd
    have he : d ≠ 'e' := by rintro rfl; cases hd
    refine (congrArg _ (append_assoc _ _ _)).trans
      (readMarked_some ?_ (noDigitAhead_postText hsep v))
    cases kind <;>
      simp [PreKind.chars, hdigits, dropSep, isSep, readWord, preWords, hl.symm, he.symm]

omit hsep in
/-- A point that no number follows does not belong to the release. -/
theorem readRelease_stop {cs : List Char} (h : ∀ rest, cs = '.' :: rest → NoDigitAhead rest)
    (fuel : ℕ) : readRelease fuel cs = ([], cs) := by
  cases fuel with
  | zero => rfl
  | succ fuel =>
    unfold readRelease
    split
    · rename_i rest heq
      rw [readNumber_none (h rest rfl)]
    · rfl

omit hsep in
theorem preText_point (rest : List Char) (h : v.preText sep = '.' :: rest) : NoDigitAhead rest := by
  have hpost : v.postText sep = '.' :: rest := by
    rw [preText] at h
    cases hpre : v.pre with
    | none => rwa [hpre] at h
    | some p =>
      obtain ⟨kind, n⟩ := p
      rw [hpre] at h
      cases kind <;> exact absurd (List.cons.inj h).1 (by decide)
  rcases postText_cases sep v with h' | ⟨cs, h'⟩ | ⟨cs, h'⟩ | ⟨cs, h'⟩ <;> rw [h'] at hpost
  · cases hpost
  · exact absurd (List.cons.inj hpost).1 (by decide)
  · obtain ⟨-, rfl⟩ := List.cons.inj hpost
    exact noDigitAhead_cons (by decide) _
  · obtain ⟨-, rfl⟩ := List.cons.inj hpost
    exact noDigitAhead_cons (by decide) _

/-- The numbers of a release, as far as the fuel goes. -/
theorem readRelease_text (ns : List ℕ) (fuel : ℕ) (hfuel : ns.length ≤ fuel) :
    readRelease fuel ((ns.flatMap fun n => '.' :: toDigits 10 n) ++ v.preText sep) =
      (ns, v.preText sep) := by
  induction ns generalizing fuel with
  | nil => exact readRelease_stop (preText_point v) fuel
  | cons n ns ih =>
    obtain ⟨fuel, rfl⟩ : ∃ k, fuel = k + 1 := ⟨fuel - 1, by simp at hfuel; omega⟩
    have hnext : NoDigitAhead
        ((ns.flatMap fun n => '.' :: toDigits 10 n) ++ v.preText sep) := by
      cases ns with
      | nil => exact noDigitAhead_preText hsep v
      | cons m ns => exact noDigitAhead_cons (by decide) _
    rw [flatMap_cons, cons_append, cons_append, append_assoc, readRelease,
      readNumber_digits n hnext]
    simp only [ih fuel (by simpa using hfuel)]

theorem readRest_text (epoch : ℕ) : readRest epoch v.first (v.restText sep) =
    some { v with epoch } := by
  have hlength : ∀ (ns : List ℕ) (cs : List Char),
      ns.length ≤ ((ns.flatMap fun n => '.' :: toDigits 10 n) ++ cs).length := by
    intro ns cs
    induction ns with
    | nil => exact Nat.zero_le _
    | cons n ns ih =>
      rw [flatMap_cons, append_assoc, length_append, length_cons, length_cons]
      omega
  rw [readRest, restText, readRelease_text hsep v _ _ (hlength _ _)]
  simp only [readPre_text hsep, readPost_text hsep, readDev_text hsep, readLocal_text hsep]
  cases v.dev <;> rfl

theorem restText_ne_bang (rest : List Char) : v.restText sep ≠ '!' :: rest := by
  have hne : ∀ {c : Char} {cs : List Char}, c ≠ '!' → c :: cs ≠ '!' :: rest := fun hc h =>
    hc (List.cons.inj h).1
  have hsep' : sep ≠ '!' := by
    rintro rfl
    cases hsep
  rw [restText]
  cases v.rest with
  | cons n ns => exact hne (by decide)
  | nil =>
    rw [flatMap_nil, nil_append, preText]
    cases v.pre with
    | some p =>
      obtain ⟨kind, n⟩ := p
      cases kind <;> exact hne (by decide)
    | none =>
      rw [nil_append]
      rcases postText_cases sep v with h | ⟨cs, h⟩ | ⟨cs, h⟩ | ⟨cs, h⟩ <;> rw [h]
      · exact nofun
      · exact hne (by decide)
      · exact hne hsep'
      · exact hne hsep'

theorem noDigitAhead_restText : NoDigitAhead (v.restText sep) := by
  rw [restText]
  cases v.rest with
  | nil => exact noDigitAhead_preText hsep v
  | cons n ns => exact noDigitAhead_cons (by decide) _

theorem readEpoch_spell : readEpoch (v.spell sep) =
    (v.epoch, toDigits 10 v.first ++ v.restText sep) := by
  rw [spell]
  by_cases h : v.epoch = 0
  · rw [if_pos h, nil_append, readEpoch,
      readNumber_digits v.first (noDigitAhead_restText hsep v), h]
    split
    · rename_i n rest heq
      exact absurd (Prod.mk.inj (Option.some.inj heq)).2 (restText_ne_bang hsep v rest)
    · rfl
  · rw [if_neg h, append_assoc, singleton_append, readEpoch,
      readNumber_digits v.epoch (noDigitAhead_cons (by decide) _)]
    rfl

/-- A version is read from its spelling. -/
theorem parse_spell : parse (v.spell sep) = some v := by
  have hdigit : ∃ d ds, v.spell sep = d :: ds ∧ d.isDigit = true := by
    rw [spell]
    by_cases h : v.epoch = 0
    · obtain ⟨d, ds, hds, hd⟩ := exists_digit v.first
      exact ⟨d, _, by rw [if_pos h, hds]; rfl, hd⟩
    · obtain ⟨d, ds, hds, hd⟩ := exists_digit v.epoch
      exact ⟨d, _, by rw [if_neg h, hds]; rfl, hd⟩
  obtain ⟨d, ds, hds, hd⟩ := hdigit
  unfold parse
  split
  · rename_i cs heq
    rw [hds] at heq
    obtain ⟨rfl, -⟩ := List.cons.inj heq
    cases hd
  · dsimp only
    rw [readEpoch_spell hsep, readNumber_digits v.first (noDigitAhead_restText hsep v),
      Option.bind_some, readRest_text hsep]

omit hsep

theorem mem_of_readNumber {rest : List Char} {n : ℕ} (h : readNumber cs = some (n, rest)) :
    rest ⊆ cs := by
  unfold readNumber at h
  split_ifs at h
  obtain ⟨-, rfl⟩ := Prod.mk.inj (Option.some.inj h)
  exact (dropWhile_sublist _).subset

theorem readEpoch_subset (cs : List Char) : (readEpoch cs).2 ⊆ cs := by
  unfold readEpoch
  split
  · rename_i n rest heq
    exact List.Subset.trans (subset_cons_self '!' rest) (mem_of_readNumber heq)
  · exact List.Subset.refl cs

/-- Without a dot there is one number. -/
theorem rest_of_parse {v : Pep440} (hdot : '.' ∉ cs) (h : parse cs = some v) : v.rest = [] := by
  have hread : ∀ ds : List Char, '.' ∉ ds →
      (readNumber (readEpoch ds).2).bind (fun r => readRest (readEpoch ds).1 r.1 r.2) = some v →
      v.rest = [] := by
    intro ds hds hbind
    obtain ⟨⟨first, rest⟩, hnumber, hrest⟩ := Option.bind_eq_some_iff.mp hbind
    have hstop : readRelease rest.length rest = ([], rest) := by
      refine readRelease_stop (fun tail heq => absurd ?_ hds) _
      exact readEpoch_subset ds (mem_of_readNumber hnumber (heq ▸ mem_cons_self))
    simp only [readRest, hstop] at hrest
    obtain ⟨loc, -, rfl⟩ := Option.map_eq_some_iff.mp hrest
    rfl
  unfold parse at h
  split at h
  · exact hread _ (fun hmem => hdot (mem_cons_of_mem _ hmem)) h
  · exact hread _ hdot h

end Pep440

end Lib
