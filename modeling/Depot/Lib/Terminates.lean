import Mathlib.Data.Nat.Init
import Mathlib.Logic.Relation
import Mathlib.Order.Basic

/-!
# Runs that come to an end

A step relation terminates from a state if every run of its steps from there is finite.

Results:
* `reaches_of_step`: an invariant holds in every state that is reached.
* `terminates_of_measure`, `not_terminates_of_moves`: by a number that gets smaller with each
  step, and by a step that can always be taken.
* `Terminates.exists_end`: a run that can go on until the end reaches the end.
* `Halts`: the result of a loop, if it returns.
-/

namespace Lib

open Relation

variable {S : Type} {step : S → S → Prop} {I : S → Prop} {s s' : S}

/-- Every run of steps is finite. -/
def Terminates (step : S → S → Prop) (s : S) : Prop := Acc (fun s' s => step s s') s

theorem reaches_of_step (hstep : ∀ s s', I s → step s s' → I s') (hs : I s)
    (h : ReflTransGen step s s') : I s' := by
  induction h with
  | refl => exact hs
  | tail _ hlast ih => exact hstep _ _ ih hlast

theorem terminates_of_measure {μ : S → ℕ} (hI : ∀ s s', I s → step s s' → I s')
    (hμ : ∀ s s', I s → step s s' → μ s' < μ s) (hs : I s) : Terminates step s := by
  induction hn : μ s using Nat.strong_induction_on generalizing s with
  | _ n ih =>
    refine Acc.intro s fun s' hstep => ?_
    exact ih (μ s') (hn ▸ hμ s s' hs hstep) (hI s s' hs hstep) rfl

theorem not_terminates_of_moves (hmove : ∀ s, I s → ∃ s', step s s' ∧ I s') (hs : I s) :
    ¬Terminates step s := by
  intro h
  induction h with
  | intro s _ ih =>
    obtain ⟨s', hstep, hs'⟩ := hmove s hs
    exact ih s' hstep hs'

theorem Terminates.exists_end {last : S → Prop} (h : Terminates step s)
    (hmove : ∀ s', ReflTransGen step s s' → last s' ∨ ∃ s'', step s' s'') :
    ∃ s', ReflTransGen step s s' ∧ last s' := by
  induction h with
  | intro s _ ih =>
    rcases hmove s .refl with hlast | ⟨s', hstep⟩
    · exact ⟨s, .refl, hlast⟩
    · obtain ⟨s'', hreach, hlast⟩ := ih s' hstep fun s'' hs'' => hmove s'' (.head hstep hs'')
      exact ⟨s'', .head hstep hreach, hlast⟩

/-- A loop returns. A turn of it goes on in another state, or returns a result. -/
inductive Halts {S ρ : Type} (turn : S → S ⊕ ρ) : S → ρ → Prop
  | last {s : S} {r : ρ} : turn s = .inr r → Halts turn s r
  | next {s s' : S} {r : ρ} : turn s = .inl s' → Halts turn s' r → Halts turn s r

end Lib
