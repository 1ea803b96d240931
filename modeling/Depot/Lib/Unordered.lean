import Mathlib.Algebra.BigOperators.Group.List.Lemmas
import Mathlib.Algebra.FreeMonoid.Basic

/-!
# Work that finishes in any order

A queue of items of which up to `limit` are worked on at a time, with their results in the order
in which they finish.

Results:
* `Finishes.perm`: every item finishes once.
* `finishes_delayed`: an item can be the last of any stretch of the queue.
* `flatMap_agree_iff`: the results joined do not depend on the order exactly when those of any
  two items commute.
-/

namespace Lib

open List

variable {ι α : Type}

/-- The orders in which the items that wait and those that run can finish. An item is started
    whenever there is room for it, and then any of those that run is the next to finish. -/
inductive Finishes (limit : ℕ) : List ι → List ι → List ι → Prop
  | done : Finishes limit [] [] []
  | start {i : ι} {queue running order : List ι} (room : running.length < limit)
      (rest : Finishes limit queue (running ++ [i]) order) :
      Finishes limit (i :: queue) running order
  | finish {i : ι} {queue before after order : List ι}
      (full : queue = [] ∨ limit ≤ (before ++ i :: after).length)
      (rest : Finishes limit queue (before ++ after) order) :
      Finishes limit queue (before ++ i :: after) (i :: order)

variable {limit : ℕ} {order order' : List ι}

/-- Every item finishes, and once. -/
theorem Finishes.perm {queue running : List ι}
    (h : Finishes limit queue running order) : order.Perm (running ++ queue) := by
  induction h with
  | done => exact Perm.refl _
  | start room rest ih => rwa [append_assoc, singleton_append] at ih
  | @finish i queue before after order full rest ih =>
    refine (ih.cons i).trans ?_
    rw [append_assoc, append_assoc, cons_append]
    exact perm_middle.symm

/-- The items can finish in the order of the queue. -/
theorem finishes_in_order {limit : ℕ} (hlimit : 0 < limit) : ∀ (queue running : List ι),
    running.length ≤ limit → Finishes limit queue running (running ++ queue)
  | [], [], _ => .done
  | [], i :: running, hle => by
    have hrest := finishes_in_order hlimit [] running (Nat.le_of_succ_le hle)
    exact @Finishes.finish _ _ i [] [] running _ (.inl rfl) hrest
  | i :: queue, [], _ => by
    have hrest := finishes_in_order hlimit queue [i] hlimit
    exact Finishes.start hlimit hrest
  | i :: queue, j :: running, hle => by
    rcases Nat.lt_or_eq_of_le hle with hroom | hfull
    · have hrest := finishes_in_order hlimit queue (j :: running ++ [i])
        (by rw [length_append]; exact hroom)
      rw [append_assoc, singleton_append] at hrest
      exact Finishes.start hroom hrest
    · have hrest := finishes_in_order hlimit (i :: queue) running (Nat.le_of_succ_le hle)
      exact @Finishes.finish _ _ j (i :: queue) [] running _ (.inr hfull.ge) hrest
termination_by queue running => 2 * queue.length + running.length
decreasing_by all_goals simp only [length_cons, length_append, length_nil]; omega

/-- One item can be held back until any stretch of those behind it has finished. -/
theorem finishes_delayed (hlimit : 2 ≤ limit) {i : ι} (queue running : List ι)
    (front passed back : List ι) (hle : running.length ≤ limit)
    (heq : running ++ queue = front ++ i :: (passed ++ back)) :
    Finishes limit queue running (front ++ (passed ++ i :: back)) := by
  -- On what is left to start and to finish.
  induction hsize : 2 * queue.length + running.length using Nat.strong_induction_on
    generalizing queue running front passed with | _ size ih
  by_cases hroom : queue ≠ [] ∧ running.length < limit
  · obtain ⟨q, queue, rfl⟩ := exists_cons_of_ne_nil hroom.1
    rw [length_cons] at hsize
    have hlen : (running ++ [q]).length = running.length + 1 := length_append
    refine .start hroom.2 (ih _ ?_ queue _ front passed (hlen.trans_le hroom.2) ?_ rfl)
    · omega
    · rw [append_assoc, singleton_append, heq]
  · have hfull : queue = [] ∨ limit ≤ running.length := by
      by_cases hnil : queue = []
      · exact .inl hnil
      · exact .inr (Nat.le_of_not_lt fun hlt => hroom ⟨hnil, hlt⟩)
    -- The queue waits behind at least two that run, so the head of the order runs.
    rcases running with _ | ⟨j, running⟩
    · have hnil : queue = [] := hfull.resolve_right (by rw [length_nil]; omega)
      rw [hnil] at heq
      cases front <;> cases heq
    rw [length_cons] at hsize
    have hle' : running.length ≤ limit := Nat.le_of_succ_le hle
    rcases front with _ | ⟨l, front⟩
    · obtain ⟨rfl, htail⟩ := List.cons.inj heq
      rcases passed with _ | ⟨l, passed⟩
      · have horder := finishes_in_order (by omega) queue (j :: running) hle
        rwa [heq] at horder
      · rcases running with _ | ⟨l', running⟩
        · have hnil : queue = [] := by
            refine hfull.resolve_right ?_
            rw [length_singleton]
            omega
          rw [hnil] at htail
          cases htail
        · obtain ⟨rfl, hrunning⟩ := List.cons.inj htail
          rw [length_cons] at hsize
          have hlen : (j :: running).length = running.length + 1 := rfl
          have hrest := ih _ (by omega) queue (j :: running) [] passed hle'
            (congrArg (j :: ·) hrunning) rfl
          exact @Finishes.finish _ _ l' queue [j] running _ hfull hrest
    · obtain ⟨rfl, htail⟩ := List.cons.inj heq
      have hrest := ih _ (by omega) queue running front passed hle' htail rfl
      exact @Finishes.finish _ _ j queue [] running _ hfull hrest

/-- The results joined in the order in which the items finish. -/
theorem flatMap_perm (f : ι → List α) (hperm : order.Perm order')
    (hcomm : order.Pairwise fun i j => f i ++ f j = f j ++ f i) :
    order.flatMap f = order'.flatMap f := by
  have hprod : ∀ l : List ι, FreeMonoid.ofList (l.flatMap f) =
      (l.map fun i => FreeMonoid.ofList (f i)).prod := by
    intro l
    rw [flatMap, FreeMonoid.ofList_flatten, map_map]
    rfl
  apply FreeMonoid.ofList.injective
  rw [hprod, hprod]
  refine (hperm.map _).prod_eq' (pairwise_map.mpr (hcomm.imp ?_))
  intro i j hij
  exact congrArg FreeMonoid.ofList hij

theorem length_flatMap_perm (f : ι → List α) (hperm : order.Perm order') :
    (order.flatMap f).length = (order'.flatMap f).length :=
  (hperm.flatMap_right f).length_eq

/-- What is joined is the same in every order exactly when the results of any two items
    commute. -/
theorem flatMap_agree_iff (hlimit : 2 ≤ limit) (f : ι → List α) (queue : List ι) :
    (∀ order order', Finishes limit queue [] order → Finishes limit queue [] order' →
      order.flatMap f = order'.flatMap f) ↔
      queue.Pairwise fun i j => f i ++ f j = f j ++ f i := by
  constructor
  · intro hagree
    rw [pairwise_iff_forall_sublist]
    intro i j hsub
    obtain ⟨r, r', rfl, hi, hj⟩ := cons_sublist_iff.mp hsub
    obtain ⟨front, passed, rfl⟩ := append_of_mem hi
    obtain ⟨passed', back, rfl⟩ := append_of_mem (singleton_sublist.mp hj)
    have hdelayed : ∀ p b, p ++ b = passed ++ passed' ++ j :: back →
        Finishes limit ((front ++ i :: passed) ++ (passed' ++ j :: back)) []
          (front ++ (p ++ i :: b)) := by
      intro p b hpb
      refine finishes_delayed hlimit _ _ _ _ _ (Nat.zero_le _) ?_
      rw [hpb, nil_append, append_assoc, cons_append, append_assoc]
    have hbefore := hdelayed (passed ++ passed') (j :: back) rfl
    have hafter := hdelayed (passed ++ passed' ++ [j]) back (by simp)
    have heq := hagree _ _ hbefore hafter
    simp only [flatMap_append, flatMap_cons, flatMap_nil, append_assoc, append_nil] at heq
    have hswap := append_cancel_left (append_cancel_left (append_cancel_left heq))
    rw [← append_assoc, ← append_assoc] at hswap
    exact append_cancel_right hswap
  · intro hcomm order order' horder horder'
    have hperm := horder.perm
    have hperm' := horder'.perm
    rw [nil_append] at hperm hperm'
    exact (flatMap_perm f hperm.symm hcomm).symm.trans (flatMap_perm f hperm'.symm hcomm)

end Lib
