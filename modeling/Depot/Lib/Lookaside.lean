import Mathlib.Logic.Function.Basic
import Mathlib.Order.Nat

/-!
# Look-aside caches

A cache beside a store of versioned records. Readers look in the cache; on a
miss they fetch from the store and insert what they got, which are two steps.
Writers change the store and invalidate the cache afterwards. An insert is late
when the record was fetched before the last invalidation of its key.

Results:
* `Lookaside.Inv`: without late inserts, no cached record is older than the last
  invalidation of its key, and no record a reader uses is older than the last
  invalidation before the reader began.
* `Lookaside.Inv.hit`, `.fetch`, `.change`, `.insert`, `.invalidate`, `.evict`,
  `.enter`: the operations keep the invariant.
-/

namespace Lib

open Function (update update_apply update_of_ne update_self)

variable {K : Type} {V : K → Type}

/-- The versions of the records, the cache, and for the proof: the version of a
    record at its last invalidation, the same when a reader began, what a reader has
    fetched since the last invalidation, and all it has read. -/
structure Lookaside (K : Type) (V : K → Type) where
  value : (k : K) → ℕ → V k
  version : K → ℕ := fun _ => 0
  cache : (k : K) → Option (V k) := fun _ => none
  acked : K → ℕ := fun _ => 0
  floor : ℕ → K → ℕ := fun _ _ => 0
  fetched : ℕ → (k : K) → List (V k) := fun _ _ => []
  used : ℕ → (k : K) → List (V k) := fun _ _ => []

variable {i i' : ℕ}

namespace Lookaside

variable [DecidableEq K]

/-- The record the store has now. -/
def current (t : Lookaside K V) (k : K) : V k := t.value k (t.version k)

/-- Reader `i` has read `v`. -/
def use (t : Lookaside K V) (i : ℕ) (k : K) (v : V k) : Lookaside K V :=
  { t with used := update t.used i (update (t.used i) k (v :: t.used i k)) }

/-- Reader `i` begins; it has read nothing yet. -/
def enter (t : Lookaside K V) (i : ℕ) : Lookaside K V :=
  { t with
    floor := update t.floor i t.acked
    used := update t.used i fun _ => [] }

/-- Reader `i` looks in the cache. -/
def hit (t : Lookaside K V) (i : ℕ) (k : K) : Lookaside K V :=
  match t.cache k with
  | some v => t.use i k v
  | none => t

/-- Reader `i` fetches the current record. -/
def fetch (t : Lookaside K V) (i : ℕ) (k : K) : Lookaside K V :=
  { t.use i k (t.current k) with
    fetched := update t.fetched i
      (update (t.fetched i) k (t.current k :: t.fetched i k)) }

/-- A writer changes a record. -/
def change (t : Lookaside K V) (k : K) (v : V k) : Lookaside K V :=
  { t with
    value := update t.value k (update (t.value k) (t.version k + 1) v)
    version := update t.version k (t.version k + 1) }

/-- A record is put into the cache. -/
def insert (t : Lookaside K V) (k : K) (v : V k) : Lookaside K V :=
  { t with cache := update t.cache k (some v) }

/-- The records of some keys are removed from the cache, after their changes. -/
def invalidate (t : Lookaside K V) (p : K → Bool) : Lookaside K V :=
  { t with
    cache := fun k => if p k then none else t.cache k
    acked := fun k => if p k then t.version k else t.acked k
    fetched := fun i k => if p k then [] else t.fetched i k }

/-- A record drops out of the cache: it has expired, or there was no room. -/
def evict (t : Lookaside K V) (k : K) : Lookaside K V :=
  { t with cache := update t.cache k none }

/-- `v` is the record of a version from `n` on. -/
def From (t : Lookaside K V) (k : K) (n : ℕ) (v : V k) : Prop :=
  ∃ m, n ≤ m ∧ m ≤ t.version k ∧ t.value k m = v

/-- Reader `i` has not fetched `v` since the last invalidation. -/
def Late (t : Lookaside K V) (i : ℕ) (k : K) (v : V k) : Prop := v ∉ t.fetched i k

instance [∀ k, DecidableEq (V k)] (t : Lookaside K V) (i : ℕ) (k : K) (v : V k) :
    Decidable (t.Late i k v) := inferInstanceAs (Decidable (v ∉ t.fetched i k))

/-- What is cached, or has been fetched since, is not older than the last invalidation;
    what a reader has read is not older than the last one before it began. -/
structure Inv (t : Lookaside K V) : Prop where
  acked : ∀ k, t.acked k ≤ t.version k
  floor : ∀ i k, t.floor i k ≤ t.acked k
  cache : ∀ k v, t.cache k = some v → t.From k (t.acked k) v
  fetched : ∀ i k, ∀ v ∈ t.fetched i k, t.From k (t.acked k) v
  used : ∀ i k, ∀ v ∈ t.used i k, t.From k (t.floor i k) v

/-! ## The small lemmas -/

variable {t : Lookaside K V}

omit [DecidableEq K] in
theorem From.mono {k : K} {n n' : ℕ} {v : V k} (h : t.From k n v) (hn : n' ≤ n) :
    t.From k n' v := by
  obtain ⟨m, hm, hle, hv⟩ := h
  exact ⟨m, hn.trans hm, hle, hv⟩

omit [DecidableEq K] in
theorem from_current {k : K} {n : ℕ} (h : n ≤ t.version k) : t.From k n (t.current k) :=
  ⟨t.version k, h, le_rfl, rfl⟩

theorem change_version_le (t : Lookaside K V) (k k' : K) (v : V k) :
    t.version k' ≤ (t.change k v).version k' := by
  show t.version k' ≤ update t.version k (t.version k + 1) k'
  rw [update_apply]
  split_ifs with h
  · rw [h]
    exact Nat.le_succ _
  · exact le_rfl

variable {k k' : K}

theorem change_value (t : Lookaside K V) (v : V k) {m : ℕ} (h : m ≤ t.version k') :
    (t.change k v).value k' m = t.value k' m := by
  show update t.value k _ k' m = t.value k' m
  by_cases hk : k' = k
  · subst hk
    rw [update_self, update_of_ne (by omega)]
  · rw [update_of_ne hk]

/-- A change leaves the older versions. -/
theorem From.change {n : ℕ} {v : V k'} (h : t.From k' n v) (v' : V k) :
    (t.change k v').From k' n v := by
  obtain ⟨m, hm, hle, hv⟩ := h
  exact ⟨m, hm, hle.trans (change_version_le t k k' v'), (change_value t v' hle).trans hv⟩

theorem mem_use {v : V k} {v' : V k'} :
    v' ∈ (t.use i k v).used i' k' ↔ (i' = i ∧ ∃ h : k' = k, h ▸ v' = v) ∨ v' ∈ t.used i' k' := by
  show v' ∈ update t.used i _ i' k' ↔ _
  by_cases hi : i' = i
  · subst hi
    rw [update_self]
    by_cases hk : k' = k
    · subst hk
      simp
    · simp [hk]
  · simp [hi]

/-- Reading only adds to what is read. -/
theorem used_use {v : V k} {v' : V k'} (h : v' ∈ t.used i' k') :
    v' ∈ (t.use i k v).used i' k' := mem_use.mpr (.inr h)

theorem mem_fetch {v' : V k'} (h : v' ∈ (t.fetch i k).fetched i' k') :
    v' = t.current k' ∨ v' ∈ t.fetched i' k' := by
  have h' : v' ∈ update t.fetched i
    (update (t.fetched i) k (t.current k :: t.fetched i k)) i' k' := h
  by_cases hi : i' = i
  · subst hi
    rw [update_self] at h'
    by_cases hk : k' = k
    · subst hk
      rw [update_self] at h'
      exact List.mem_cons.mp h'
    · rw [update_of_ne hk] at h'
      exact .inr h'
  · rw [update_of_ne hi] at h'
    exact .inr h'

/-! ## The operations keep the invariant -/

namespace Inv

theorem use (h : t.Inv) (i : ℕ) {k : K} {v : V k} (hv : t.From k (t.acked k) v) :
    (t.use i k v).Inv where
  acked := h.acked
  floor := h.floor
  cache := h.cache
  fetched := h.fetched
  used i' k' v' hv' := by
    rcases mem_use.mp hv' with ⟨-, rfl, rfl⟩ | hv'
    · exact hv.mono (h.floor i' k')
    · exact h.used i' k' v' hv'

theorem hit (h : t.Inv) (i : ℕ) (k : K) : (t.hit i k).Inv := by
  unfold Lookaside.hit
  cases hc : t.cache k with
  | none => exact h
  | some v => exact h.use i (h.cache k v hc)

theorem fetch (h : t.Inv) (i : ℕ) (k : K) : (t.fetch i k).Inv where
  acked := h.acked
  floor := h.floor
  cache := h.cache
  fetched i' k' v' hv' := by
    rcases mem_fetch hv' with rfl | hv'
    · exact from_current (h.acked k')
    · exact h.fetched i' k' v' hv'
  used := (h.use i (from_current (h.acked k))).used

theorem change (h : t.Inv) (k : K) (v : V k) : (t.change k v).Inv where
  acked k' := (h.acked k').trans (change_version_le t k k' v)
  floor := h.floor
  cache k' v' hv' := (h.cache k' v' hv').change v
  fetched i k' v' hv' := (h.fetched i k' v' hv').change v
  used i k' v' hv' := (h.used i k' v' hv').change v

theorem insert (h : t.Inv) {i : ℕ} {k : K} {v : V k} (hv : ¬t.Late i k v) :
    (t.insert k v).Inv where
  acked := h.acked
  floor := h.floor
  cache k' v' hv' := by
    have hmem : v ∈ t.fetched i k := by
      unfold Late at hv
      exact not_not.mp hv
    have hc : update t.cache k (some v) k' = some v' := hv'
    by_cases hk : k' = k
    · subst hk
      rw [update_self, Option.some.injEq] at hc
      subst hc
      exact h.fetched i k' v hmem
    · rw [update_of_ne hk] at hc
      exact h.cache k' v' hc
  fetched := h.fetched
  used := h.used

omit [DecidableEq K] in
theorem invalidate (h : t.Inv) (p : K → Bool) : (t.invalidate p).Inv where
  acked k := by
    show (if p k then t.version k else t.acked k) ≤ t.version k
    split_ifs
    · exact le_rfl
    · exact h.acked k
  floor i k := by
    show t.floor i k ≤ if p k then t.version k else t.acked k
    split_ifs
    · exact (h.floor i k).trans (h.acked k)
    · exact h.floor i k
  cache k v hv := by
    have hc : (if p k then none else t.cache k) = some v := hv
    show t.From k (if p k then t.version k else t.acked k) v
    split_ifs at hc ⊢
    exact h.cache k v hc
  fetched i k v hv := by
    have hf : v ∈ if p k then [] else t.fetched i k := hv
    show t.From k (if p k then t.version k else t.acked k) v
    split_ifs at hf ⊢
    · cases hf
    · exact h.fetched i k v hf
  used := h.used

theorem evict (h : t.Inv) (k : K) : (t.evict k).Inv where
  acked := h.acked
  floor := h.floor
  cache k' v hv := by
    have hc : update t.cache k none k' = some v := hv
    by_cases hk : k' = k
    · subst hk
      rw [update_self] at hc
      cases hc
    · rw [update_of_ne hk] at hc
      exact h.cache k' v hc
  fetched := h.fetched
  used := h.used

omit [DecidableEq K] in
theorem enter (h : t.Inv) (i : ℕ) : (t.enter i).Inv where
  acked := h.acked
  floor i' k := by
    show update t.floor i t.acked i' k ≤ t.acked k
    rw [update_apply]
    split_ifs
    · exact le_rfl
    · exact h.floor i' k
  cache := h.cache
  fetched := h.fetched
  used i' k v hv := by
    have hu : v ∈ update t.used i (fun _ => []) i' k := hv
    show t.From k (update t.floor i t.acked i' k) v
    by_cases hi : i' = i
    · subst hi
      rw [update_self] at hu
      cases hu
    · rw [update_of_ne hi] at hu ⊢
      exact h.used i' k v hu

omit [DecidableEq K] in
/-- Nothing cached, nothing read. -/
theorem init (value : (k : K) → ℕ → V k) : ({ value := value } : Lookaside K V).Inv where
  acked _ := le_rfl
  floor _ _ := le_rfl
  cache _ _ h := by cases h
  fetched _ _ _ h := by cases h
  used _ _ _ h := by cases h

end Inv

end Lookaside

end Lib
