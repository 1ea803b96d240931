import Depot.Core.Paths
import Depot.Lib.SortedMap
import Mathlib.Data.String.Basic

/-!
# The records of a repository as a table

What the functions of `core/src/service/artifact.rs` (lines 51–156) do to the records of one
repository while nothing else writes them. All of them find the key of a record from a path
with `keys::artifact_key`, which normalises the path; the shards of a repository are one table
here, as a key determines its shard.

Results:
* `find_put`, `find_remove`: every function sees a path through its key.
* `get_foldl_assign_of_mem`, `get_foldl_remove`: what is there after many writes.
-/

namespace Depot

open Lib List

/-- The records of a repository by their keys. -/
abbrev RecordTable (ρ : Type) : Type := SortedMap String ρ

namespace RecordTable

variable {ρ : Type} (t : RecordTable ρ) (path : String) (r : ρ)

/-- `get_artifact` (lines 133–140). -/
def find : Option ρ := t.get (normalizePath path)

/-- `put_artifact` (lines 51–104) of a record that is prepared. -/
def put : RecordTable ρ := t.insert (normalizePath path) r

/-- `put_artifact_if_absent` (lines 109–129) of a record that is prepared. -/
def putIfAbsent : RecordTable ρ := if (t.find path).isSome then t else t.put path r

/-- `delete_artifact` (lines 143–156). -/
def remove : RecordTable ρ := t.erase (normalizePath path)

/-! ## What each function sees -/

theorem find_put (path' : String) : (t.put path r).find path' =
    if normalizePath path' = normalizePath path then some r else t.find path' :=
  SortedMap.get_insert _ _ _ _

theorem find_remove (path' : String) : (t.remove path).find path' =
    if normalizePath path' = normalizePath path then none else t.find path' :=
  SortedMap.get_erase _ _ _

theorem get_put (sk : String) : SortedMap.get (t.put path r) sk =
    if sk = normalizePath path then some r else t.get sk :=
  SortedMap.get_insert _ _ _ _

theorem get_remove (sk : String) : SortedMap.get (t.remove path) sk =
    if sk = normalizePath path then none else t.get sk :=
  SortedMap.get_erase _ _ _

variable {t path r}

/-- Deleting what is not stored changes nothing. -/
theorem remove_of_find_eq_none (h : t.find path = none) : t.remove path = t := by
  apply SortedMap.ext_get
  intro sk
  rw [get_remove]
  split
  · rename_i hsk
    rw [hsk]
    exact h.symm
  · rfl

/-! ## Many writes -/

section

variable {ι : Type} (key : ι → String) (val : ι → Option ρ)

/-- Writes elsewhere leave a key alone. -/
theorem get_foldl_assign_of_notMem {items : List ι} {sk : String} (h : ∀ i ∈ items, key i ≠ sk)
    (t : RecordTable ρ) :
    SortedMap.get (items.foldl (fun t i => SortedMap.assign t (key i) (val i)) t) sk = t.get sk := by
  induction items generalizing t with
  | nil => rfl
  | cons i items ih =>
    have hne : sk ≠ key i := Ne.symm (h i mem_cons_self)
    rw [foldl_cons, ih (fun j hj => h j (mem_cons_of_mem _ hj)), SortedMap.get_assign, if_neg hne]

/-- Writes to different keys are all there afterwards. -/
theorem get_foldl_assign_of_mem {items : List ι} (hnodup : (items.map key).Nodup) {i : ι}
    (hi : i ∈ items) (t : RecordTable ρ) :
    SortedMap.get (items.foldl (fun t i => SortedMap.assign t (key i) (val i)) t) (key i) =
      val i := by
  induction items generalizing t with
  | nil => cases hi
  | cons j items ih =>
    rw [map_cons, nodup_cons] at hnodup
    rw [foldl_cons]
    rcases mem_cons.mp hi with rfl | hi
    · have hne : ∀ j ∈ items, key j ≠ key i := by
        intro j hj heq
        exact hnodup.1 (heq ▸ mem_map_of_mem hj)
      rw [get_foldl_assign_of_notMem key val hne, SortedMap.get_assign, if_pos rfl]
    · exact ih hnodup.2 hi _

end

/-- What is deleted is gone, the rest stays. -/
theorem get_foldl_remove (paths : List String) (t : RecordTable ρ) (sk : String) :
    SortedMap.get (paths.foldl remove t) sk =
      if ∃ path ∈ paths, normalizePath path = sk then none else t.get sk := by
  induction paths generalizing t with
  | nil => simp
  | cons path paths ih =>
    rw [foldl_cons, ih, get_remove]
    by_cases hsk : normalizePath path = sk
    · simp [hsk]
    · simp [hsk, Ne.symm hsk]

end RecordTable

end Depot
