import Depot.Go.Modules
import Depot.Lib.Semver
import Depot.Lib.Stable

/-!
# The latest version of a module

A request for the latest version of a module is answered with the last version of a list that is
sorted by `compare_semver` (`golang/src/store.rs`, lines 277–316). The comparison reads three
numbers: a third part with a pre-release or a build is no number and counts as zero, and so does
a number that does not fit into 64 bits. Versions with the same numbers keep the order of their
texts.

Results:
* `GoStore.getLatest_iff`: the version that is answered.
* `getLatest_isLatest_iff`: it is the latest one by the precedence of the versions if and only if
  a latest version is above the others in the order of the code.
* `Ranked.of_below`: so it is if the latest version is plain and each pre-release is of lower
  numbers, where the third one counts as zero.
* `preRelease_preferred`: `v1.0.0-rc.1` is answered where `v1.0.0` is the latest version.
-/

namespace Depot

open Lib List
open Nat (toDigits)

/-! ## The order of the code -/

def goVersionText (v : Semver) : String := String.ofList ('v' :: v.chars)

/-- A number as it is read: it has to fit into 64 bits. -/
def fittingNumber (n : ℕ) : ℕ := if n < 2 ^ 64 then n else 0

/-- A version without a pre-release and a build. -/
def isPlain (v : Semver) : Bool := v.pre.isEmpty && v.build.isEmpty

/-- The numbers of a version as they are compared. -/
def comparedNumbers (v : Semver) : ℕ ×ₗ ℕ ×ₗ ℕ :=
  toLex (fittingNumber v.major, toLex (fittingNumber v.minor,
    if isPlain v then fittingNumber v.patch else 0))

/-- The place of a version in the sorted list: its numbers, and then its text. -/
def rank (v : Semver) : (ℕ ×ₗ ℕ ×ₗ ℕ) ×ₗ String := toLex (comparedNumbers v, goVersionText v)

def semverNumbers (version : String) : ℕ ×ₗ ℕ ×ₗ ℕ :=
  toLex ((GoStore.semverKey version).1,
    toLex ((GoStore.semverKey version).2.1, (GoStore.semverKey version).2.2))

theorem semverLe_eq : GoStore.semverLe = keyLe semverNumbers := by
  funext a b
  rw [keyLe, semverNumbers, semverNumbers, Bool.eq_iff_iff, decide_eq_true_eq,
    Prod.Lex.toLex_le_toLex, Prod.Lex.toLex_le_toLex]
  simp [GoStore.semverLe]

/-! ## Reading a version -/

variable {v w : Semver}

theorem goVersionText_injective (h : goVersionText v = goVersionText w) : v = w :=
  Semver.chars_injective (List.cons.inj (String.ofList_injective h)).2

theorem dot_notMem_digits (n : ℕ) : '.' ∉ toDigits 10 n := fun hmem =>
  Bool.false_ne_true (isDigit_of_mem_digits hmem)

/-- What is read of a text without a sign. -/
theorem semverNumber_eq {part : List Char} (h : ∀ ds, part ≠ '+' :: ds) :
    GoStore.semverNumber part = if part ≠ [] ∧ part.all Char.isDigit then
      fittingNumber (Nat.ofDigitChars 10 part 0) else 0 := by
  unfold GoStore.semverNumber
  split
  · exact absurd rfl (h _)
  · rfl

/-- A text that starts with the digits of a number has no sign. -/
theorem digits_no_sign (n : ℕ) (cs ds : List Char) : toDigits 10 n ++ cs ≠ '+' :: ds := by
  obtain ⟨d, digits, hdigits⟩ := exists_cons_of_ne_nil (Nat.toDigits_ne_nil (b := 10) (n := n))
  have hd : d.isDigit = true := isDigit_of_mem_digits (hdigits ▸ mem_cons_self)
  rw [hdigits, cons_append]
  intro heq
  rw [(List.cons.inj heq).1] at hd
  exact absurd hd (by decide)

theorem semverNumber_digits (n : ℕ) : GoStore.semverNumber (toDigits 10 n) = fittingNumber n := by
  have hsign : ∀ ds, toDigits 10 n ≠ '+' :: ds := fun ds =>
    append_nil (toDigits 10 n) ▸ digits_no_sign n [] ds
  have hdigits : (toDigits 10 n).all Char.isDigit = true :=
    all_eq_true.mpr fun c hc => isDigit_of_mem_digits hc
  rw [semverNumber_eq hsign, if_pos ⟨Nat.toDigits_ne_nil, hdigits⟩,
    Nat.ofDigitChars_toDigits (by omega) (by omega)]

/-- A number with more behind its digits is not read. -/
theorem semverNumber_suffix (n : ℕ) {cs : List Char} (hne : cs ≠ []) (h : NoDigitAhead cs) :
    GoStore.semverNumber (toDigits 10 n ++ cs) = 0 := by
  obtain ⟨c, rest, rfl⟩ := exists_cons_of_ne_nil hne
  have hc : c.isDigit = false := h c rfl
  rw [semverNumber_eq (digits_no_sign n _), if_neg]
  rintro ⟨-, hall⟩
  exact Bool.false_ne_true (hc.symm.trans (all_eq_true.mp hall c (by simp)))

theorem suffix_eq_nil_iff (v : Semver) : v.suffix = [] ↔ isPlain v = true := by
  obtain ⟨major, minor, patch, pre, build⟩ := v
  cases pre <;> cases build <;> simp [Semver.suffix, Semver.part, isPlain]

theorem semverNumber_patch (v : Semver) :
    GoStore.semverNumber (toDigits 10 v.patch ++ v.suffix) =
      if isPlain v then fittingNumber v.patch else 0 := by
  by_cases hsuffix : v.suffix = []
  · rw [hsuffix, append_nil, semverNumber_digits, if_pos ((suffix_eq_nil_iff v).mp hsuffix)]
  · rw [semverNumber_suffix _ hsuffix v.noDigitAhead_suffix,
      if_neg (mt (suffix_eq_nil_iff v).mpr hsuffix)]

/-- The numbers that are read from the text of a version. -/
theorem semverNumbers_text (v : Semver) : semverNumbers (goVersionText v) = comparedNumbers v := by
  have hsplit : v.chars.splitOn '.' = toDigits 10 v.major :: toDigits 10 v.minor ::
      (toDigits 10 v.patch ++ v.suffix).splitOn '.' := by
    rw [Semver.chars, splitOn_append_cons_self_of_not_mem (dot_notMem_digits _),
      splitOn_append_cons_self_of_not_mem (dot_notMem_digits _)]
  have hkey : GoStore.semverKey (goVersionText v) = (fittingNumber v.major,
      fittingNumber v.minor, if isPlain v then fittingNumber v.patch else 0) := by
    obtain ⟨patch, rest, hrest⟩ := exists_cons_of_ne_nil
      (splitOn_ne_nil '.' (toDigits 10 v.patch ++ v.suffix))
    have hjoined : ['.'].intercalate ((toDigits 10 v.patch ++ v.suffix).splitOn '.') =
        toDigits 10 v.patch ++ v.suffix := intercalate_splitOn '.'
    rw [hrest] at hsplit hjoined
    rw [GoStore.semverKey, goVersionText, String.toList_ofList]
    simp only [hsplit, hjoined, semverNumber_digits, semverNumber_patch]
  rw [semverNumbers, hkey, comparedNumbers]

/-! ## The answer -/

/-- The versions of a module that are stored. -/
def GoStore.Stores (s : GoStore) (module : String) (versions : List Semver) : Prop :=
  ∀ text, text ∈ s.listVersions module ↔ ∃ v ∈ versions, goVersionText v = text

/-- The answer is the latest version. -/
def GoStore.AnswersLatest (s : GoStore) (module : String) (versions : List Semver) : Prop :=
  ∃ v, v.IsLatest versions ∧ s.getLatest module = some (goVersionText v)

/-- A latest version is above all versions that are not, in the order of the code. -/
def Ranked (versions : List Semver) : Prop :=
  ∃ v, v.IsLatest versions ∧ ∀ w ∈ versions, ¬w.IsLatest versions → rank w < rank v

section

variable {s : GoStore} {module : String} {versions : List Semver}

theorem listVersions_increasing (s : GoStore) (module : String) :
    (s.listVersions module).Pairwise (· < ·) := by
  have hsorted : (s.listVersions module).Pairwise (· ≤ ·) := pairwise_insertionSort _ _
  have hnodup : (s.listVersions module).Nodup :=
    (perm_insertionSort _ _).nodup_iff.mpr (nodup_dedup _)
  exact (hsorted.and hnodup).imp fun h => lt_of_le_of_ne h.1 h.2

/-- The version that is answered is the greatest in the order of the code. -/
theorem GoStore.getLatest_iff (h : s.Stores module versions) (v : Semver) :
    s.getLatest module = some (goVersionText v) ↔
      v ∈ versions ∧ ∀ w ∈ versions, rank w ≤ rank v := by
  rw [GoStore.getLatest, semverLe_eq, mergeSort_last_iff (listVersions_increasing s module), h]
  refine and_congr ⟨?_, fun hv => ⟨v, hv, rfl⟩⟩ ?_
  · rintro ⟨w, hw, htext⟩
    rwa [← goVersionText_injective htext]
  · constructor
    · intro hmax w hw
      have hle := hmax (goVersionText w) ((h _).mpr ⟨w, hw, rfl⟩)
      rwa [semverNumbers_text, semverNumbers_text] at hle
    · intro hmax text htext
      obtain ⟨w, hw, rfl⟩ := (h text).mp htext
      rw [semverNumbers_text, semverNumbers_text]
      exact hmax w hw

/-- Some version is answered. -/
theorem exists_getLatest (h : s.Stores module versions) (hne : versions ≠ []) :
    ∃ v, s.getLatest module = some (goVersionText v) := by
  obtain ⟨v, hv⟩ := exists_mem_of_ne_nil versions hne
  have hlisted : s.listVersions module ≠ [] :=
    ne_nil_of_mem ((h (goVersionText v)).mpr ⟨v, hv, rfl⟩)
  obtain ⟨last, hlast⟩ := exists_mergeSort_last semverNumbers hlisted
  have hmem := mem_mergeSort.mp (mem_of_getLast? hlast)
  obtain ⟨w, -, rfl⟩ := (h last).mp hmem
  exact ⟨w, by rw [GoStore.getLatest, semverLe_eq, hlast]⟩

theorem rank_injective (h : rank v = rank w) : v = w :=
  goVersionText_injective (Prod.mk.inj (toLex.injective h)).2

/-- **Main theorem.** The answer is the latest version if and only if the order of the code has a
    latest version above all others. -/
theorem getLatest_isLatest_iff (hne : versions ≠ []) (h : s.Stores module versions) :
    s.AnswersLatest module versions ↔ Ranked versions := by
  constructor
  · rintro ⟨v, hlatest, hanswer⟩
    obtain ⟨-, hmax⟩ := (GoStore.getLatest_iff h v).mp hanswer
    refine ⟨v, hlatest, fun w hw hnot => lt_of_le_of_ne (hmax w hw) fun heq => ?_⟩
    rw [rank_injective heq] at hnot
    exact hnot hlatest
  · rintro ⟨v, hlatest, habove⟩
    obtain ⟨w, hanswer⟩ := exists_getLatest h hne
    obtain ⟨hw, hmax⟩ := (GoStore.getLatest_iff h w).mp hanswer
    refine ⟨w, ?_, hanswer⟩
    by_contra hnot
    exact (habove w hw hnot).not_ge (hmax v hlatest.mem)

/-! ## When the answer is right -/

/-- The latest version is plain, the numbers fit, and what is not plain has lower numbers when its
    third one counts as zero. -/
theorem Ranked.of_below (hlatest : v.IsLatest versions) (hplain : isPlain v = true)
    (hfit : ∀ w ∈ versions, w.major < 2 ^ 64 ∧ w.minor < 2 ^ 64 ∧ w.patch < 2 ^ 64)
    (hbelow : ∀ w ∈ versions, isPlain w = false →
      toLex (w.major, toLex (w.minor, 0)) < toLex (v.major, toLex (v.minor, v.patch))) :
    Ranked versions := by
  have hnumbers : ∀ w ∈ versions, comparedNumbers w =
      toLex (w.major, toLex (w.minor, if isPlain w then w.patch else 0)) := by
    intro w hw
    obtain ⟨hmajor, hminor, hpatch⟩ := hfit w hw
    rw [comparedNumbers, fittingNumber, fittingNumber, fittingNumber, if_pos hmajor,
      if_pos hminor, if_pos hpatch]
  have hrelease : ∀ w : Semver, isPlain w = true → w.pre = [] ∧ w.build = [] := by
    intro w hw
    simpa [isPlain, List.isEmpty_iff] using hw
  refine ⟨v, hlatest, fun w hw hnot => Prod.Lex.toLex_lt_toLex.mpr (.inl ?_)⟩
  rw [hnumbers w hw, hnumbers v hlatest.mem, if_pos hplain]
  cases hw' : isPlain w with
  | false => exact hbelow w hw hw'
  | true =>
    -- Plain versions are ordered by their numbers, and equal numbers are the same version.
    obtain ⟨hpre, hbuild⟩ := hrelease w hw'
    obtain ⟨hpre', hbuild'⟩ := hrelease v hplain
    have hle := hlatest.greatest w hw (by rw [Semver.isRelease, Semver.isRelease, hpre, hpre'])
    have hne : w.precedence ≠ v.precedence := by
      intro heq
      refine hnot ?_
      obtain ⟨major, minor, patch, pre, build⟩ := w
      obtain ⟨major', minor', patch', pre', build'⟩ := v
      subst hpre hbuild hpre' hbuild'
      obtain ⟨rfl, rfl, rfl⟩ : major = major' ∧ minor = minor' ∧ patch = patch' := by
        simpa [Semver.precedence] using heq
      exact hlatest
    have hlt := lt_of_le_of_ne hle hne
    rw [if_pos rfl]
    simpa [Semver.precedence, hpre, hpre', Prod.Lex.toLex_lt_toLex] using hlt

/-- Versions without suffixes. -/
theorem Ranked.of_plain (hne : versions ≠ []) (h : ∀ w ∈ versions, isPlain w = true ∧
    w.major < 2 ^ 64 ∧ w.minor < 2 ^ 64 ∧ w.patch < 2 ^ 64) : Ranked versions := by
  obtain ⟨v, hlatest⟩ := Semver.exists_isLatest hne
  refine .of_below hlatest (h v hlatest.mem).1 (fun w hw => (h w hw).2) fun w hw hnot => ?_
  rw [(h w hw).1] at hnot
  cases hnot

end

/-! ## Uploads -/

/-- The versions that were uploaded with plain names are stored. -/
theorem stores_of_run {forms : List GoForm} {s : GoStore} {module : String}
    {versions : List Semver} (hrun : GoStore.run SortedMap.empty forms = some s)
    (hm : plainModule module = true) (h : ∀ text, Uploaded forms module text ↔
      ∃ v ∈ versions, goVersionText v = text) : s.Stores module versions := fun text =>
  ((GoInv.empty.run hrun).listed hm text).trans (h text)

/-- A version without a pre-release and a build. -/
def release (major minor patch : ℕ) : Semver := { major, minor, patch }

/-- The uploads of `plainUploads` are answered with the second version. -/
theorem plainUploads_latest : ∃ s, GoStore.run SortedMap.empty plainUploads = some s ∧
    s.AnswersLatest "example.com/Lib" [release 1 0 0, release 1 1 0] := by
  have hsome : (GoStore.run SortedMap.empty plainUploads).isSome = true := by decide +kernel
  obtain ⟨s, hs⟩ := Option.isSome_iff_exists.mp hsome
  have hstores : s.Stores "example.com/Lib" [release 1 0 0, release 1 1 0] := by
    refine stores_of_run hs (by decide +kernel) fun text => ?_
    have hfirst : goVersionText (release 1 0 0) = "v1.0.0" := by decide +kernel
    have hsecond : goVersionText (release 1 1 0) = "v1.1.0" := by decide +kernel
    simp [Uploaded, plainUploads, GoForm.names, hfirst, hsecond, or_comm (b := "v1.0.0" = text)]
  exact ⟨s, hs, (getLatest_isLatest_iff (by simp) hstores).mpr
    (.of_plain (by simp) (by decide))⟩

/-! ## A pre-release that is preferred -/

/-- The first pre-release of a release. -/
def candidate (major minor patch : ℕ) : Semver :=
  { major, minor, patch, pre := [.word ⟨"rc".toList, by decide, all_eq_true.mp rfl⟩
    ⟨'r', mem_cons_self, rfl⟩, .number 1] }

/-- The uploads of a pre-release and of its release. -/
def candidateUploads : List GoForm :=
  [⟨some "example.com/lib", some "v1.0.0-rc.1", some [1], some [2], some [3]⟩,
    ⟨some "example.com/lib", some "v1.0.0", some [4], some [5], some [6]⟩]

/-- The third number of the pre-release counts as zero, as that of the release is, and the text
    of the pre-release is the greater one. -/
theorem preRelease_preferred : ¬∀ (s : GoStore) (module : String) (versions : List Semver),
    versions ≠ [] → s.Stores module versions → s.AnswersLatest module versions := by
  intro hall
  have hsome : (GoStore.run SortedMap.empty candidateUploads).isSome = true := by decide +kernel
  obtain ⟨s, hs⟩ := Option.isSome_iff_exists.mp hsome
  have hstores : s.Stores "example.com/lib" [candidate 1 0 0, release 1 0 0] := by
    refine stores_of_run hs (by decide +kernel) fun text => ?_
    have hfirst : goVersionText (candidate 1 0 0) = "v1.0.0-rc.1" := by decide +kernel
    have hsecond : goVersionText (release 1 0 0) = "v1.0.0" := by decide +kernel
    simp [Uploaded, candidateUploads, GoForm.names, hfirst, hsecond]
  obtain ⟨v, hlatest, hanswer⟩ := hall s _ _ (by simp) hstores
  have hrelease : v.isRelease = true := hlatest.release ⟨release 1 0 0, by simp, rfl⟩
  have hv : v = release 1 0 0 := by
    rcases mem_cons.mp hlatest.mem with rfl | hmem
    · cases hrelease
    · exact mem_singleton.mp hmem
  have hle := ((GoStore.getLatest_iff hstores v).mp hanswer).2 (candidate 1 0 0) (by simp)
  rw [hv] at hle
  revert hle
  decide +kernel

end Depot
