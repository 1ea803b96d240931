import Mathlib.Data.Option.Basic
import Mathlib.Algebra.Order.Ring.Int
import Mathlib.Tactic.Linarith

/-!
# Times and durations

The program measures instants with `chrono::DateTime<Utc>` and spans with
`chrono::Duration`. Both have a fixed range, and the constructors and
operators the program uses panic outside it; here a panic is `none`.

Results:
* `asI64_eq`: what `as i64` does to a `u64`.
* `Chrono.delta_eq_some`, `Chrono.instant_eq_some`: when a span or an instant
  is representable.
-/

namespace Depot

/-- An instant, in nanoseconds since the Unix epoch. -/
abbrev DateTime := ℤ

/-- A span of time, in nanoseconds. -/
abbrev TimeDelta := ℤ

/-- A second, in nanoseconds. -/
def secondNs : ℤ := 1000000000

/-- A day, in nanoseconds. -/
def dayNs : ℤ := 86400 * secondNs

/-- The Rust cast `d as i64`. -/
def asI64 (d : UInt64) : ℤ := d.toBitVec.toInt

/-- The Rust cast `n as u64` of an `i64` that is not negative. -/
def asU64 (n : ℤ) : UInt64 := UInt64.ofNat n.toNat

theorem asI64_eq (d : UInt64) :
    asI64 d = if d.toNat < 2 ^ 63 then (d.toNat : ℤ) else (d.toNat : ℤ) - 2 ^ 64 := by
  have h := BitVec.toInt_eq_toNat_cond d.toBitVec
  rw [UInt64.toNat_toBitVec] at h
  rw [asI64, h]
  split_ifs <;> first | rfl | omega

/-- The cast does not wrap exactly below `2^63`. -/
theorem asI64_eq_iff (d : UInt64) : asI64 d = d.toNat ↔ d.toNat < 2 ^ 63 := by
  rw [asI64_eq]
  split_ifs with h
  · exact iff_of_true rfl h
  · exact iff_of_false (by omega) h

/-- The ranges of the crate's types: the longest `Duration`, which is shorter
    than `2^63` seconds, and the first and the last instant. -/
structure Chrono where
  maxDelta : TimeDelta
  minUtc : DateTime
  maxUtc : DateTime
  maxDelta_lt : maxDelta < 2 ^ 63 * secondNs

/-- The documented ranges: a `Duration` holds at most `i64::MAX` milliseconds,
    an instant lies in the years −262143 to 262142. -/
def chrono : Chrono where
  maxDelta := (2 ^ 63 - 1) * 1000000
  minUtc := -8334601228800 * secondNs
  maxUtc := 8210266876799 * secondNs + 999999999
  maxDelta_lt := by decide

namespace Chrono

variable (c : Chrono)

/-- A span of `n` nanoseconds, unless it is out of range. -/
def delta (n : ℤ) : Option TimeDelta :=
  if -c.maxDelta ≤ n ∧ n ≤ c.maxDelta then some n else none

/-- `Duration::days(n)`. -/
def days (n : ℤ) : Option TimeDelta := c.delta (n * dayNs)

/-- `Duration::seconds(n)`. -/
def seconds (n : ℤ) : Option TimeDelta := c.delta (n * secondNs)

/-- The instant `n`, unless it is out of range. -/
def instant (n : ℤ) : Option DateTime :=
  if c.minUtc ≤ n ∧ n ≤ c.maxUtc then some n else none

/-- `t - d`. -/
def sub (t : DateTime) (d : TimeDelta) : Option DateTime := c.instant (t - d)

/-- `t + d`. -/
def add (t : DateTime) (d : TimeDelta) : Option DateTime := c.instant (t + d)

theorem delta_eq_some {n : ℤ} {d : TimeDelta} :
    c.delta n = some d ↔ d = n ∧ -c.maxDelta ≤ n ∧ n ≤ c.maxDelta := by
  rw [delta]
  split_ifs with h
  · simp [h, eq_comm]
  · simp [h]

theorem instant_eq_some {n : ℤ} {t : DateTime} :
    c.instant n = some t ↔ t = n ∧ c.minUtc ≤ n ∧ n ≤ c.maxUtc := by
  rw [instant]
  split_ifs with h
  · simp [h, eq_comm]
  · simp [h]

end Chrono

end Depot
