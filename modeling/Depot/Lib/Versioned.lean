import Mathlib.Data.List.Basic

/-!
# Versioned cells

Optimistic concurrency control keeps a version next to each value: a write
raises it by one, and a conditional write or removal goes through only at the
version its caller has seen. A removal forgets the version, so the next write
starts again.

Results:
* `unchanged_of_version`: along a run that only raises versions, a version that
  is seen again means that nothing was written in between.
-/

namespace Lib

/-- A value and the version it was written at. -/
structure Versioned (ν : Type) where
  version : ℕ
  value : ν
  deriving DecidableEq

/-- The operations on one cell; `putIf none` creates, `putIf (some n)`
    replaces version `n`. -/
inductive CellOp (ν : Type) where
  | put (v : ν)
  | putIf (v : ν) (expected : Option ℕ)
  | remove
  | removeIf (expected : ℕ)
  deriving DecidableEq

namespace CellOp

variable {ν : Type}

/-- Whether the operation goes through. -/
def enabled : CellOp ν → Option (Versioned ν) → Bool
  | .put _, _ => true
  | .putIf _ none, c => c.isNone
  | .putIf _ (some n), c => c.any fun x => decide (x.version = n)
  | .remove, c => c.isSome
  | .removeIf n, c => c.any fun x => decide (x.version = n)

/-- The version an absent cell counts as having. -/
def versionOf (c : Option (Versioned ν)) : ℕ := (c.map Versioned.version).getD 0

/-- The cell after an operation that went through. -/
def written : CellOp ν → Option (Versioned ν) → Option (Versioned ν)
  | .put v, c => some ⟨versionOf c + 1, v⟩
  | .putIf v expected, _ => some ⟨expected.getD 0 + 1, v⟩
  | .remove, _ => none
  | .removeIf _, _ => none

/-- The cell after the operation. -/
def apply (o : CellOp ν) (c : Option (Versioned ν)) : Option (Versioned ν) :=
  if o.enabled c then o.written c else c

@[simp] theorem apply_remove (c : Option (Versioned ν)) : apply .remove c = none := by
  cases c <;> rfl

end CellOp

/-- `c'` is `c` after one or more writes. -/
def Rises {ν : Type} (c c' : Option (Versioned ν)) : Prop :=
  ∃ y, c' = some y ∧ CellOp.versionOf c < y.version

section

variable {ν : Type}

theorem Rises.trans {c c' c'' : Option (Versioned ν)} (h : Rises c c') (h' : Rises c' c'') :
    Rises c c'' := by
  obtain ⟨y, rfl, hy⟩ := h
  obtain ⟨z, rfl, hz⟩ := h'
  exact ⟨z, rfl, Nat.lt_trans hy hz⟩

/-! ## Runs -/

variable {S O : Type}

/-- The state after a list of operations. -/
def runOps (exec : S → O → S) (s : S) (ops : List O) : S := ops.foldl exec s

/-- `P` holds of every operation of a run and the state it meets. -/
def Along (exec : S → O → S) (P : S → O → Prop) : S → List O → Prop
  | _, [] => True
  | s, o :: os => P s o ∧ Along exec P (exec s o) os

variable {exec : S → O → S} {ops : List O}

instance Along.decidable {P : S → O → Prop} [∀ s o, Decidable (P s o)] :
    ∀ (s : S) (ops : List O), Decidable (Along exec P s ops)
  | _, [] => inferInstanceAs (Decidable True)
  | s, o :: os => @instDecidableAnd _ _ _ (Along.decidable (exec s o) os)

theorem Along.mono {P Q : S → O → Prop} (hPQ : ∀ s o, P s o → Q s o)
    {s : S} (h : Along exec P s ops) : Along exec Q s ops := by
  induction ops generalizing s with
  | nil => trivial
  | cons o os ih => exact ⟨hPQ s o h.1, ih h.2⟩

/-- What every step keeps holds at the end of a run. -/
theorem Along.preserves {P : S → O → Prop} {I : S → Prop}
    (hstep : ∀ s o, I s → P s o → I (exec s o)) {s : S} (h0 : I s)
    (h : Along exec P s ops) : I (runOps exec s ops) := by
  induction ops generalizing s with
  | nil => exact h0
  | cons o os ih => exact ih (hstep s o h0 h.1) h.2

variable {cell : S → Option (Versioned ν)} {untouched : S → O → Prop}

variable {s : S}
variable (h : Along exec (fun s o => (untouched s o ∧ cell (exec s o) = cell s) ∨ Rises (cell s) (cell (exec s o))) s ops)

include h

/-- **No reuse of versions.** Suppose every step of a run leaves a cell
    untouched or raises its version. Then its version does not fall, and a
    version that is seen again means that no step touched the cell. -/
theorem unchanged_of_version {x : Versioned ν} (hx : cell s = some x) :
    ∃ y, cell (runOps exec s ops) = some y ∧ x.version ≤ y.version ∧
      (y.version = x.version → y = x ∧ Along exec untouched s ops) := by
  induction ops generalizing s x with
  | nil => exact ⟨x, hx, Nat.le_refl _, fun _ => ⟨rfl, trivial⟩⟩
  | cons o os ih =>
    obtain ⟨hstep, hrest⟩ := h
    rcases hstep with ⟨hun, hsame⟩ | ⟨z, hz, hlt⟩
    · obtain ⟨y, hy, hle, heq⟩ := ih hrest (hsame.trans hx)
      exact ⟨y, hy, hle, fun h => ⟨(heq h).1, hun, (heq h).2⟩⟩
    · obtain ⟨y, hy, hle, _⟩ := ih hrest hz
      have hx' : CellOp.versionOf (cell s) = x.version := by rw [hx]; rfl
      exact ⟨y, hy, by omega, fun h => by omega⟩

/-- Two sightings of one version show the same value, and nothing touched the
    cell between them. -/
theorem same_of_version {n : ℕ} {v v' : ν} (hv : cell s = some ⟨n, v⟩)
    (hv' : cell (runOps exec s ops) = some ⟨n, v'⟩) : v' = v ∧ Along exec untouched s ops := by
  obtain ⟨y, hy, _, heq⟩ := unchanged_of_version h hv
  obtain rfl := Option.some.inj (hv'.symm.trans hy)
  obtain ⟨hsame, huntouched⟩ := heq rfl
  exact ⟨congrArg Versioned.value hsame, huntouched⟩

end

end Lib
