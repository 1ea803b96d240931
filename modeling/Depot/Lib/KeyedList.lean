import Mathlib.Data.List.Nodup

/-!
# Lists with keys

A list used as a table, as in-memory models keep one: entries are found by a key, new ones are
appended, and an entry is changed where it stands.
-/

namespace Lib.KeyedList

variable {κ α : Type} [DecidableEq κ] (key : α → κ)

/-- Append an entry unless its key is there. -/
def pushNew (x : α) (l : List α) : List α :=
  if l.any fun y => key y = key x then l else l ++ [x]

/-- Change the first entry with a key. -/
def modifyAt (k : κ) (f : α → α) : List α → List α
  | [] => []
  | x :: l => if key x = k then f x :: l else x :: modifyAt k f l

/-- Replace the first entry with the same key, or append. -/
def upsert (x : α) (l : List α) : List α :=
  if l.any fun y => key y = key x then modifyAt key (key x) (fun _ => x) l else l ++ [x]

/-- Remove the entries with a key. -/
def dropKey (k : κ) (l : List α) : List α := l.filter fun x => key x ≠ k

end Lib.KeyedList
