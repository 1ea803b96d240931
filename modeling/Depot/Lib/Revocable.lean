import Mathlib.Data.List.Basic

/-!
# Values that can be revoked

The history of something that takes values one after another and whose values so far can be
revoked: all values, those from before the last revocation, and the number of revocations. Of two
moments of a history, the number of revocations tells whether a value that was valid at the
earlier one is still valid at the later one.

Results:
* `Later.valid`: what was valid stays valid while nothing is revoked.
* `Later.not_valid`: what there was before a revocation is not valid after it.
* `valid_add`, `valid_revoke_add`: a new value is valid.
-/

namespace Lib

/-- A history. -/
structure Revocable (α : Type) where
  values : List α := []
  revoked : List α := []
  count : ℕ := 0
  subset : revoked ⊆ values := by simp
  deriving DecidableEq

namespace Revocable

variable {α : Type}

/-- A history that starts with some values. -/
def start (values : List α) : Revocable α := { values := values }

/-- A value is taken. -/
def add (r : Revocable α) (a : α) : Revocable α where
  values := a :: r.values
  revoked := r.revoked
  count := r.count
  subset := fun _ h => List.mem_cons_of_mem a (r.subset h)

/-- All values so far are revoked. -/
def revoke (r : Revocable α) : Revocable α where
  values := r.values
  revoked := r.values
  count := r.count + 1
  subset := fun _ h => h

@[simp] theorem count_add (r : Revocable α) (a : α) : (r.add a).count = r.count := rfl

@[simp] theorem values_add (r : Revocable α) (a : α) : (r.add a).values = a :: r.values := rfl

@[simp] theorem values_revoke (r : Revocable α) : r.revoke.values = r.values := rfl

@[simp] theorem count_revoke (r : Revocable α) : r.revoke.count = r.count + 1 := rfl

theorem ne_add (r : Revocable α) (a : α) : r ≠ r.add a := fun h => by
  have hlen := congrArg (fun r => r.values.length) h
  simp at hlen

theorem ne_revoke (r : Revocable α) : r ≠ r.revoke := fun h => by
  have hcount := congrArg Revocable.count h
  simp at hcount

/-- A value that was taken since the last revocation. -/
def Valid (r : Revocable α) (a : α) : Prop := a ∈ r.values ∧ a ∉ r.revoked

variable {a : α}

theorem valid_start {values : List α} (h : a ∈ values) : (start values).Valid a :=
  ⟨h, List.not_mem_nil⟩

theorem Valid.add {r : Revocable α} (h : r.Valid a) (b : α) : (r.add b).Valid a :=
  ⟨List.mem_cons_of_mem b h.1, h.2⟩

/-- A value that was not taken before. -/
theorem valid_add {r : Revocable α} (h : a ∉ r.values) : (r.add a).Valid a :=
  ⟨List.mem_cons_self, fun hr => h (r.subset hr)⟩

theorem valid_revoke_add {r : Revocable α} (h : a ∉ r.values) : (r.revoke.add a).Valid a :=
  valid_add h

/-! ## Two moments of a history -/

/-- `r'` is the history at a later time than `r`. -/
structure Later (r r' : Revocable α) : Prop where
  count : r.count ≤ r'.count
  values : r.values <:+ r'.values
  same : r.count = r'.count → r'.revoked = r.revoked
  revoked : r.count < r'.count → r.values ⊆ r'.revoked

theorem Later.refl (r : Revocable α) : r.Later r where
  count := Nat.le_refl _
  values := List.suffix_refl _
  same _ := rfl
  revoked h := absurd h (Nat.lt_irrefl _)

theorem Later.trans {r r' r'' : Revocable α} (h : r.Later r') (h' : r'.Later r'') :
    r.Later r'' where
  count := Nat.le_trans h.count h'.count
  values := h.values.trans h'.values
  same heq := by
    have hc := h.count
    have hc' := h'.count
    rw [h'.same (by omega), h.same (by omega)]
  revoked hlt a ha := by
    by_cases heq : r'.count = r''.count
    · rw [h'.same heq]
      exact h.revoked (by omega) ha
    · have hc' := h'.count
      exact h'.revoked (by omega) (h.values.subset ha)

theorem Later.add (r : Revocable α) (a : α) : r.Later (r.add a) where
  count := Nat.le_refl _
  values := List.suffix_cons a _
  same _ := rfl
  revoked h := absurd h (Nat.lt_irrefl _)

theorem Later.revoke (r : Revocable α) : r.Later r.revoke where
  count := Nat.le_succ _
  values := List.suffix_refl _
  same h := absurd h (Nat.ne_of_lt (Nat.lt_succ_self _))
  revoked _ _ h := h

variable {r r' : Revocable α}

/-- What was valid is valid while nothing is revoked. -/
theorem Later.valid (h : r.Later r') (hc : r.count = r'.count) (ha : r.Valid a) : r'.Valid a :=
  ⟨h.values.subset ha.1, by rw [h.same hc]; exact ha.2⟩

/-- The history at two times is the same if it is at both ends of what is between. -/
theorem Later.between {r'' : Revocable α} (h : r.Later r') (h' : r'.Later r'')
    (heq : r = r'') : r = r' := by
  have hc := h.count
  have hc' := h'.count
  have hcount : r.count = r'.count := by rw [heq] at hc ⊢; omega
  have hvalues : r.values = r'.values := by
    refine h.values.eq_of_length_le ?_
    rw [heq]
    exact h'.values.length_le
  have hrevoked : r'.revoked = r.revoked := h.same hcount
  cases r
  cases r'
  simp_all

/-- What was not revoked is not revoked while nothing is revoked. -/
theorem Later.not_revoked (h : r.Later r') (hc : r.count = r'.count)
    (ha : a ∉ r.revoked) : a ∉ r'.revoked := by
  rwa [h.same hc]

/-- What there was before a revocation is not valid after it. -/
theorem Later.not_valid (h : r.Later r') (hc : r.count < r'.count)
    (ha : a ∈ r.values) : ¬ r'.Valid a :=
  fun hv => hv.2 (h.revoked hc ha)

end Revocable

end Lib
