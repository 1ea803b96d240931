import Mathlib.Algebra.Group.Basic
import Mathlib.Algebra.Ring.Int.Defs
import Mathlib.Algebra.BigOperators.Group.List.Basic
import Mathlib.Data.List.Basic

/-!
# Chains of replacements

A value that is replaced again and again: each replacement is listed with who made it and what it
left, and replaces what the one before it left.

Results:
* `links_append`: one more replacement.
* `sum_links`: over a chain the changes of a measure add up to the change from the first
  value to the last.
-/

namespace Lib

variable {ι β : Type}

def lastLeft (b : β) (l : List (ι × β)) : β := (l.getLast?.map Prod.snd).getD b

/-- Each replacement with the value that it replaced and the one that it left. -/
def links : β → List (ι × β) → List (ι × β × β)
  | _, [] => []
  | b, (i, a) :: l => (i, b, a) :: links a l

@[simp] theorem lastLeft_nil (b : β) : lastLeft b ([] : List (ι × β)) = b := rfl

@[simp] theorem lastLeft_append (b : β) (l : List (ι × β)) (e : ι × β) :
    lastLeft b (l ++ [e]) = e.2 := by
  simp [lastLeft]

@[simp] theorem links_nil (b : β) : links b ([] : List (ι × β)) = [] := rfl

@[simp] theorem links_cons (b : β) (e : ι × β) (l : List (ι × β)) :
    links b (e :: l) = (e.1, b, e.2) :: links e.2 l := rfl

theorem lastLeft_cons (b : β) (e : ι × β) (l : List (ι × β)) :
    lastLeft b (e :: l) = lastLeft e.2 l := by
  cases l with
  | nil => rfl
  | cons f l => simp [lastLeft, List.getLast?_cons]

theorem links_append (b : β) (l : List (ι × β)) (e : ι × β) :
    links b (l ++ [e]) = links b l ++ [(e.1, lastLeft b l, e.2)] := by
  induction l generalizing b with
  | nil => rfl
  | cons f l ih => rw [List.cons_append, links_cons, ih, lastLeft_cons, links_cons, List.cons_append]

/-- The changes of a measure along a chain. -/
theorem sum_links (f : β → ℤ) (b : β) (l : List (ι × β)) :
    ((links b l).map fun e => f e.2.2 - f e.2.1).sum = f (lastLeft b l) - f b := by
  induction l generalizing b with
  | nil => simp
  | cons e l ih =>
    rw [links_cons, List.map_cons, List.sum_cons, ih, lastLeft_cons]
    dsimp only
    omega

end Lib
