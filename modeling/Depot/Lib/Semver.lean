import Depot.Lib.Digits
import Depot.Lib.Split
import Mathlib.Data.Char
import Mathlib.Data.List.Lex
import Mathlib.Data.List.MinMax
import Mathlib.Data.Prod.Lex
import Mathlib.Data.Sum.Order
import Mathlib.Order.WithBot

/-!
# Semantic versions

A version has three numbers, the identifiers of a pre-release and those of a build. Versions are
ordered by their precedence: by the numbers, a pre-release before its release, and pre-releases by
their identifiers; a build does not count.

Results:
* `Semver.chars_injective`: the text of a version determines it.
* `Semver.exists_isLatest`: a list of versions has a latest one.
-/

namespace Lib

open List

/-! ## Identifiers -/

def isIdentChar (c : Char) : Bool := c.isAlphanum || c = '-'

/-- An identifier. -/
structure Ident where
  chars : List Char
  nonempty : chars ≠ []
  valid : ∀ c ∈ chars, isIdentChar c = true

/-- An identifier of a pre-release: a number, or one that is none. -/
inductive PreIdent where
  | number (n : ℕ)
  | word (ident : Ident) (h : ∃ c ∈ ident.chars, c.isDigit = false)

/-- The text of an identifier of a pre-release. -/
def PreIdent.chars : PreIdent → List Char
  | .number n => Nat.toDigits 10 n
  | .word ident _ => ident.chars

/-- Numbers come before words. -/
def PreIdent.precedence : PreIdent → ℕ ⊕ₗ List Char
  | .number n => Sum.inlₗ n
  | .word ident _ => Sum.inrₗ ident.chars

theorem Ident.chars_injective {a b : Ident} (h : a.chars = b.chars) : a = b := by
  cases a
  cases b
  exact Ident.mk.injEq .. ▸ h

variable {c mark : Char}

theorem isIdentChar_of_isDigit (h : c.isDigit = true) : isIdentChar c = true := by
  simp [isIdentChar, Char.isAlphanum, h]

theorem PreIdent.valid (ident : PreIdent) : ∀ c ∈ ident.chars, isIdentChar c = true := by
  cases ident with
  | number n => exact fun c hc => isIdentChar_of_isDigit (isDigit_of_mem_digits hc)
  | word ident _ => exact ident.valid

theorem PreIdent.chars_injective {a b : PreIdent} (h : a.chars = b.chars) : a = b := by
  have hmixed : ∀ {n : ℕ} {ident : Ident}, (∃ c ∈ ident.chars, c.isDigit = false) →
      Nat.toDigits 10 n ≠ ident.chars := by
    rintro n ident ⟨c, hc, hdigit⟩ heq
    rw [← heq] at hc
    exact absurd (isDigit_of_mem_digits hc) (Bool.eq_false_iff.mp hdigit)
  cases a with
  | number m =>
    cases b with
    | number n => rw [toDigits_injective h]
    | word ident hword => exact absurd h (hmixed hword)
  | word ident hword =>
    cases b with
    | number n => exact absurd h.symm (hmixed hword)
    | word ident' _ =>
      obtain rfl := Ident.chars_injective h
      rfl

/-! ## Versions -/

/-- A semantic version. -/
structure Semver where
  major : ℕ
  minor : ℕ
  patch : ℕ
  pre : List PreIdent := []
  build : List Ident := []

namespace Semver

/-- The order of the versions: a release is above its pre-releases. -/
abbrev Precedence := ℕ ×ₗ ℕ ×ₗ ℕ ×ₗ WithTop (List (ℕ ⊕ₗ List Char))

def precedence (v : Semver) : Precedence :=
  toLex (v.major, toLex (v.minor, toLex (v.patch,
    if v.pre = [] then ⊤ else ↑(v.pre.map PreIdent.precedence))))

def isRelease (v : Semver) : Bool := v.pre.isEmpty

/-- The identifiers of a part after the mark with which it starts. -/
def part (mark : Char) : List (List Char) → List Char
  | [] => []
  | idents => mark :: ['.'].intercalate idents

/-- The pre-release and the build. -/
def suffix (v : Semver) : List Char :=
  part '-' (v.pre.map PreIdent.chars) ++ part '+' (v.build.map Ident.chars)

/-- The text of a version. -/
def chars (v : Semver) : List Char :=
  Nat.toDigits 10 v.major ++ '.' :: (Nat.toDigits 10 v.minor ++
    '.' :: (Nat.toDigits 10 v.patch ++ v.suffix))

/-! ## The text of a version -/

theorem part_injective {a b : List (List Char)}
    (ha : ∀ ident ∈ a, '.' ∉ ident) (hb : ∀ ident ∈ b, '.' ∉ ident)
    (h : part mark a = part mark b) : a = b := by
  cases a with
  | nil =>
    cases b with
    | nil => rfl
    | cons _ _ => cases h
  | cons first rest =>
    cases b with
    | nil => cases h
    | cons first' rest' =>
      have hsplit := congrArg (splitOn '.') (List.cons.inj h).2
      rwa [splitOn_intercalate '.' ha (cons_ne_nil _ _),
        splitOn_intercalate '.' hb (cons_ne_nil _ _)] at hsplit

/-- A character of no identifier, and neither the mark nor a dot. -/
theorem notMem_part {idents : List (List Char)} (hmark : c ≠ mark)
    (hdot : c ≠ '.') (h : ∀ ident ∈ idents, c ∉ ident) : c ∉ part mark idents := by
  have hjoined : c ∉ ['.'].intercalate idents := by
    intro hmem
    rcases mem_intercalate hmem with hc | ⟨ident, hident, hc⟩
    · exact hdot hc
    · exact h ident hident hc
  cases idents with
  | nil => exact not_mem_nil
  | cons first rest => exact fun hmem => (mem_cons.mp hmem).elim hmark hjoined

theorem notMem_ident (hc : isIdentChar c = false) (v : Semver) :
    (∀ ident ∈ v.pre.map PreIdent.chars, c ∉ ident) ∧
      ∀ ident ∈ v.build.map Ident.chars, c ∉ ident := by
  refine ⟨fun ident hident hmem => ?_, fun ident hident hmem => ?_⟩
  · obtain ⟨pre, -, rfl⟩ := mem_map.mp hident
    exact Bool.false_ne_true (hc.symm.trans (pre.valid c hmem))
  · obtain ⟨build, -, rfl⟩ := mem_map.mp hident
    exact Bool.false_ne_true (hc.symm.trans (build.valid c hmem))

/-- A part starts with its mark. -/
theorem noDigitAhead_part (hmark : mark.isDigit = false)
    (idents : List (List Char)) {cs : List Char} (hcs : NoDigitAhead cs) :
    NoDigitAhead (part mark idents ++ cs) := by
  cases idents with
  | nil => exact hcs
  | cons first rest =>
    rintro c hc
    obtain rfl : mark = c := Option.some.inj hc
    exact hmark

theorem noDigitAhead_suffix (v : Semver) : NoDigitAhead v.suffix := by
  refine noDigitAhead_part (by decide) _ ?_
  rw [← append_nil (part '+' _)]
  exact noDigitAhead_part (by decide) _ nofun

theorem noDigitAhead_dot (cs : List Char) : NoDigitAhead ('.' :: cs) := by
  rintro c hc
  obtain rfl : '.' = c := Option.some.inj hc
  decide

/-- The pre-release ends where the build starts. -/
theorem suffix_injective {v w : Semver} (h : v.suffix = w.suffix) :
    v.pre = w.pre ∧ v.build = w.build := by
  have hdot := notMem_ident (c := '.') (by decide)
  have hplus : ∀ v : Semver, ∀ c ∈ part '-' (v.pre.map PreIdent.chars), c ≠ '+' := by
    rintro v c hc rfl
    exact notMem_part (by decide) (by decide) (notMem_ident (by decide) v).1 hc
  have hstop : ∀ idents, (part '+' idents).takeWhile (· ≠ '+') = [] := by
    intro idents
    cases idents <;> rfl
  have htake : ∀ v : Semver, v.suffix.takeWhile (· ≠ '+') =
      part '-' (v.pre.map PreIdent.chars) := by
    intro v
    rw [suffix, takeWhile_append_of_pos fun c hc => by simpa using hplus v c hc, hstop,
      append_nil]
  have hpre := congrArg (takeWhile (· ≠ '+')) h
  rw [htake, htake] at hpre
  have hbuild : part '+' (v.build.map Ident.chars) = part '+' (w.build.map Ident.chars) := by
    rw [suffix, suffix, hpre] at h
    exact append_cancel_left h
  have hpres := part_injective (hdot v).1 (hdot w).1 hpre
  have hbuilds := part_injective (hdot v).2 (hdot w).2 hbuild
  exact ⟨map_injective_iff.mpr (fun _ _ => PreIdent.chars_injective) hpres,
    map_injective_iff.mpr (fun _ _ => Ident.chars_injective) hbuilds⟩

/-- The text of a version determines it. -/
theorem chars_injective {v w : Semver} (h : v.chars = w.chars) : v = w := by
  unfold chars at h
  obtain ⟨hmajor, h⟩ := digits_append_inj (noDigitAhead_dot _) (noDigitAhead_dot _) h
  obtain ⟨hminor, h⟩ := digits_append_inj (noDigitAhead_dot _) (noDigitAhead_dot _)
    (List.cons.inj h).2
  obtain ⟨hpatch, h⟩ := digits_append_inj v.noDigitAhead_suffix w.noDigitAhead_suffix
    (List.cons.inj h).2
  obtain ⟨hpre, hbuild⟩ := suffix_injective h
  cases v
  cases w
  simp_all

/-! ## The greatest version -/

/-- The greatest release, and if there is none the greatest pre-release. -/
structure IsLatest (versions : List Semver) (v : Semver) : Prop where
  mem : v ∈ versions
  release : (∃ w ∈ versions, w.isRelease = true) → v.isRelease = true
  greatest : ∀ w ∈ versions, w.isRelease = v.isRelease → w.precedence ≤ v.precedence

/-- One of the versions that are considered is the greatest. -/
theorem exists_isLatest {versions : List Semver} (hne : versions ≠ []) :
    ∃ v, IsLatest versions v := by
  have hmax : ∀ candidates : List Semver, candidates ≠ [] →
      ∃ v ∈ candidates, ∀ w ∈ candidates, w.precedence ≤ v.precedence := by
    intro candidates hsome
    have hfound : candidates.argmax precedence ≠ none := mt argmax_eq_none.mp hsome
    obtain ⟨v, hv⟩ := Option.ne_none_iff_exists'.mp hfound
    exact ⟨v, argmax_mem hv, fun w hw => le_of_mem_argmax hw hv⟩
  by_cases hrelease : versions.filter isRelease = []
  · have hnone : ∀ w ∈ versions, w.isRelease ≠ true := filter_eq_nil_iff.mp hrelease
    obtain ⟨v, hv, hgreatest⟩ := hmax versions hne
    refine ⟨v, hv, ?_, fun w hw _ => hgreatest w hw⟩
    rintro ⟨w, hw, hrel⟩
    exact absurd hrel (hnone w hw)
  · obtain ⟨v, hv, hgreatest⟩ := hmax _ hrelease
    obtain ⟨hmem, hrel⟩ := mem_filter.mp hv
    refine ⟨v, hmem, fun _ => hrel, fun w hw heq => ?_⟩
    exact hgreatest w (mem_filter.mpr ⟨hw, heq.trans hrel⟩)

end Semver

end Lib
