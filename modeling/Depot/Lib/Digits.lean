import Mathlib.Data.List.Basic
import Mathlib.Data.Nat.Notation

/-!
# Numbers at the start of a text

Results:
* `digits_append_inj`: a number is determined by a text that starts with its digits.
* `readNumber_digits`: it is read from there.
-/

namespace Lib

open List
open Nat (toDigits)

/-- A text does not go on with a digit. -/
def NoDigitAhead (cs : List Char) : Prop := ∀ c ∈ cs.head?, c.isDigit = false

theorem isDigit_of_mem_digits {n : ℕ} {c : Char} (h : c ∈ toDigits 10 n) : c.isDigit = true :=
  Nat.isDigit_of_mem_toDigits (by omega) (by omega) h

theorem takeWhile_digits (n : ℕ) {cs : List Char} (h : NoDigitAhead cs) :
    (toDigits 10 n ++ cs).takeWhile Char.isDigit = toDigits 10 n := by
  rw [takeWhile_append_of_pos fun c hc => isDigit_of_mem_digits hc]
  cases cs with
  | nil => exact append_nil _
  | cons c cs => rw [takeWhile_cons_of_neg (by simp [h c rfl]), append_nil]

theorem toDigits_injective {m n : ℕ} (h : toDigits 10 m = toDigits 10 n) : m = n := by
  have hparsed := congrArg (fun digits => Nat.ofDigitChars 10 digits 0) h
  simpa using hparsed

/-- A number is read back from its digits, and what follows is left. -/
theorem digits_append_inj {m n : ℕ} {cs ds : List Char} (hcs : NoDigitAhead cs)
    (hds : NoDigitAhead ds) (h : toDigits 10 m ++ cs = toDigits 10 n ++ ds) : m = n ∧ cs = ds := by
  have hdigits := congrArg (takeWhile Char.isDigit) h
  rw [takeWhile_digits m hcs, takeWhile_digits n hds] at hdigits
  rw [hdigits] at h
  exact ⟨toDigits_injective hdigits, append_cancel_left h⟩

/-- A number at the start of a text, and what follows. -/
def readNumber (cs : List Char) : Option (ℕ × List Char) :=
  if cs.takeWhile Char.isDigit = [] then none
  else some (Nat.ofDigitChars 10 (cs.takeWhile Char.isDigit) 0, cs.dropWhile Char.isDigit)

theorem readNumber_digits (n : ℕ) {cs : List Char} (h : NoDigitAhead cs) :
    readNumber (toDigits 10 n ++ cs) = some (n, cs) := by
  have hdrop : (toDigits 10 n ++ cs).dropWhile Char.isDigit = cs := by
    have hsplit := takeWhile_append_dropWhile (p := Char.isDigit) (l := toDigits 10 n ++ cs)
    rw [takeWhile_digits n h] at hsplit
    exact append_cancel_left hsplit
  rw [readNumber, takeWhile_digits n h, hdrop, if_neg Nat.toDigits_ne_nil,
    Nat.ofDigitChars_toDigits (by omega) (by omega)]

theorem readNumber_none {cs : List Char} (h : NoDigitAhead cs) : readNumber cs = none := by
  cases cs with
  | nil => rfl
  | cons c cs => rw [readNumber, takeWhile_cons_of_neg (by simp [h c rfl]), if_pos rfl]

end Lib
