import Depot.Lib.RelyGuarantee

/-!
# Relabelled jobs

A system whose jobs are accounted for by the jobs of another one: an operation of job `j`
does what it does for the job `f j`, but the programs may be others. A proof outline of the
other system carries over when the new programs keep it.

Results:
* `Safe.relabel`: a program that is safe for `f j` is safe for `j`.
* `Logic.Sound.relabel`: the outline carries over.
-/

namespace Lib

variable {Op : Type} {R : Op → Type} {S J K E G : Type} {α : Type}

/-- A view with the jobs read through `f`. -/
def View.relabel (f : K → J) (w : View S K G) : View S J G :=
  ⟨w.shared, w.jobs.map (Option.map f), w.ghost⟩

theorem View.relabel_job (f : K → J) {w : View S K G} {i : ℕ} {j : K}
    (h : w.jobs[i]? = some (some j)) : (w.relabel f).jobs[i]? = some (some (f j)) := by
  simp [View.relabel, h]

/-- A proof outline with the jobs read through `f`; what holds at the end of a program is
    dropped. -/
def Logic.relabel (L : Logic S J G) (f : K → J) : Logic S K G where
  inv w := L.inv (w.relabel f)
  rely i w w' := L.rely i (w.relabel f) (w'.relabel f)
  guar i w w' := L.guar i (w.relabel f) (w'.relabel f)
  rely_refl i w := L.rely_refl i (w.relabel f)
  rely_trans h h' := L.rely_trans h h'

variable {sys : System Op R S J E} {rules : Rules Op S J E} {L : Logic S J G}
variable {newSys : System Op R S K E} {newRules : Rules Op S K E} {f : K → J}

/-- A program that is safe for the job `f j` is safe for `j`. -/
theorem Safe.relabel (hexec : ∀ i j, newSys.exec i j = sys.exec i (f j))
    (hop : ∀ i j s o b, newRules.op i j s o b = true → rules.op i (f j) s o b = true) {i : ℕ}
    {j : K} {p : Prog Op R α} {Q : α → View S J G → Prop} {w : View S K G}
    (h : Safe sys rules i (f j) (L.contract i (f j)) p Q (w.relabel f)) :
    Safe newSys newRules i j ((L.relabel f).contract i j) p (fun a w => Q a (w.relabel f)) w := by
  induction p generalizing w with
  | pure a =>
    exact fun u hu hi => h (u.relabel f) hu ⟨hi.1, View.relabel_job f hi.2⟩
  | op o k ih =>
    intro u hu hi b s r ha hx
    rw [hexec] at hx
    obtain ⟨g, hi', hg, hs⟩ := h (u.relabel f) hu ⟨hi.1, View.relabel_job f hi.2⟩ b s r
      (hop _ _ _ _ _ ha) hx
    exact ⟨g, ⟨hi'.1, hi.2⟩, hg, ih r hs⟩
  | choose k ih => exact fun b => ih b (h b)

/-- A proof outline carries over to new programs: each starts as a job of the other system may
    start, and keeps the contract of that job. -/
theorem Logic.Sound.relabel (hL : L.Sound sys rules)
    (hexec : ∀ i j, newSys.exec i j = sys.exec i (f j))
    (hop : ∀ i j s o b, newRules.op i j s o b = true → rules.op i (f j) s o b = true)
    (hspawn : ∀ w j, (L.relabel f).inv w → newRules.spawn w.shared w.jobs j = true →
      rules.spawn w.shared (w.relabel f).jobs (f j) = true)
    (hcode : ∀ w j (g : G), (L.relabel f).inv w → newRules.spawn w.shared w.jobs j = true →
      L.inv ⟨w.shared, (w.relabel f).jobs ++ [some (f j)], g⟩ →
      Safe sys rules w.jobs.length (f j) (L.contract w.jobs.length (f j)) (newSys.code j).flatten
        (fun _ _ => True) ⟨w.shared, (w.relabel f).jobs ++ [some (f j)], g⟩)
    (hleave : ∀ j s, newSys.leave j s = sys.leave (f j) s)
    (henv : ∀ w e s, newRules.env w.shared w.jobs e = true → newSys.env e w.shared = some s →
      rules.env w.shared (View.relabel (G := G) f w).jobs e = true ∧ sys.env e w.shared = some s) :
    (L.relabel f).Sound newSys newRules where
  guar_rely h hi hi' hg := hL.guar_rely h hi hi' hg
  spawn w j hi hr := by
    obtain ⟨g, hinv, hrely, -⟩ := hL.spawn (w.relabel f) (f j) hi (hspawn w j hi hr)
    have hjobs : (⟨w.shared, w.jobs ++ [some j], g⟩ : View S K G).relabel f =
        ⟨w.shared, (w.relabel f).jobs ++ [some (f j)], g⟩ := by
      simp [View.relabel]
    refine ⟨g, ?_, fun i => ?_, ?_⟩
    · show L.inv (View.relabel f _)
      rw [hjobs]
      exact hinv
    · show L.rely i (w.relabel f) (View.relabel f _)
      rw [hjobs]
      exact hrely i
    · refine Safe.weaken (Q := fun _ _ => True) (Safe.relabel hexec hop
        (Q := fun _ _ => True) ?_) fun _ _ _ _ => trivial
      rw [hjobs]
      exact hcode w j g hi hr hinv
  leave w i j hi hj := by
    obtain ⟨g, hinv, hrely⟩ := hL.leave (w.relabel f) i (f j) hi (View.relabel_job f hj)
    have hjobs : (⟨newSys.leave j w.shared, w.jobs.set i none, g⟩ : View S K G).relabel f =
        ⟨sys.leave (f j) w.shared, (w.relabel f).jobs.set i none, g⟩ := by
      simp [View.relabel, hleave, List.map_set]
    refine ⟨g, ?_, fun k hk => ?_⟩
    · show L.inv (View.relabel f _)
      rw [hjobs]
      exact hinv
    · show L.rely k (w.relabel f) (View.relabel f _)
      rw [hjobs]
      exact hrely k hk
  env w e s hi hr hs := by
    obtain ⟨hr', hs'⟩ := henv w e s hr hs
    obtain ⟨g, hinv, hrely⟩ := hL.env (w.relabel f) e s hi hr' hs'
    exact ⟨g, hinv, hrely⟩

end Lib
