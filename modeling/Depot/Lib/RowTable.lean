import Depot.Lib.SortedMap

/-!
# Tables of rows

Finite maps whose rows carry their own key, as a table of records does: a row under another key
cannot be stored. Scans return the rows in the order of their keys.

Results:
* `ext_find`: a table is determined by its lookups.
-/

namespace Lib

/-- A table of rows with a key. -/
structure RowTable {κ α : Type} [LinearOrder κ] (key : α → κ) where
  map : SortedMap κ α
  keyed : ∀ k x, map.get k = some x → key x = k

namespace RowTable

variable {κ α : Type} [LinearOrder κ] {key : α → κ}

/-- The table without rows. -/
def empty : RowTable key := ⟨SortedMap.empty, fun _ _ h => by cases h⟩

/-- The row under a key. -/
def find (t : RowTable key) (k : κ) : Option α := t.map.get k

/-- The rows in the order of their keys. -/
def rows (t : RowTable key) : List α := t.map.entries.map Prod.snd

/-- Store a row under its key. -/
def put (t : RowTable key) (x : α) : RowTable key where
  map := t.map.insert (key x) x
  keyed k y h := by
    rw [SortedMap.get_insert] at h
    split_ifs at h with hk
    · obtain rfl := Option.some.inj h
      exact hk.symm
    · exact t.keyed k y h

/-- A table is determined by its lookups. -/
theorem ext_find {t t' : RowTable key} (h : ∀ k, t.find k = t'.find k) : t = t' := by
  have hentries : t.map.entries = t'.map.entries := by
    apply eq_of_mem_iff_of_sorted t.map.sorted t'.map.sorted
    rintro ⟨k, x⟩
    rw [SortedMap.mem_entries_iff, SortedMap.mem_entries_iff]
    exact iff_of_eq (congrArg (· = some x) (h k))
  obtain ⟨⟨es, hs⟩, hk⟩ := t
  obtain ⟨⟨es', hs'⟩, hk'⟩ := t'
  obtain rfl : es = es' := hentries
  rfl

end RowTable

end Lib
