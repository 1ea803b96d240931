import Depot.Lib.Task

/-!
# Pools of interleaved tasks

A system runs any number of tasks over one shared state. Every task executes
the program of its job; one event lets one task perform one atomic operation,
starts a task, ends one (it finished, or its process died between two
operations), or changes the environment (the clock). A run is a list of
events, so every interleaving, every failure and every crash point is a run.

Results:
* `Pool.run_append`: runs compose.
* `Pool.run_of_reaches`: what a program can do by itself is a run of the pool.
* `Pool.run_induction`, `Pool.run_shared`: what every admitted event preserves holds
  after every run.
* `Pool.run_free`: conditions only rule out runs.
-/

namespace Lib

/-- A system of tasks: the meaning of the atomic operations that task `i` issues
    for its job (the flag says whether the operation succeeds or fails; `none`
    means it has to wait), the program of each job, the environment's moves,
    and what the end of a job leaves in the shared state. -/
structure System (Op : Type) (R : Op → Type) (S J E : Type) where
  exec : ℕ → J → (o : Op) → Bool → S → Option (S × R o)
  code : J → Task Op R Unit
  env : E → S → Option S
  leave : J → S → S

/-- Restrictions on the events of a run, each a condition on the state before
    the event (for an operation, also on whether the store lets it succeed). -/
structure Rules (Op S J E : Type) where
  op : ℕ → J → S → Op → Bool → Bool
  spawn : S → List (Option J) → J → Bool
  env : S → List (Option J) → E → Bool

/-- A computation whose result passes a check ends in a state with what follows from that. -/
theorem ends_in {α : Type} {o : Option α} (P : α → Prop) [DecidablePred P] {Q : α → Prop}
    (h : (o.any fun a => decide (P a)) = true) (hQ : ∀ a, o = some a → P a → Q a) :
    ∃ a, o = some a ∧ Q a := by
  obtain ⟨a, ha, hP⟩ := (Option.any_eq_true _ _).mp h
  exact ⟨a, ha, hQ a ha (of_decide_eq_true hP)⟩

/-- No restriction. -/
def Rules.free {Op S J E : Type} : Rules Op S J E where
  op _ _ _ _ _ := true
  spawn _ _ _ := true
  env _ _ _ := true

/-- Both restrictions. -/
def Rules.and {Op S J E : Type} (a b : Rules Op S J E) : Rules Op S J E where
  op i j s o c := a.op i j s o c && b.op i j s o c
  spawn s js j := a.spawn s js j && b.spawn s js j
  env s js e := a.env s js e && b.env s js e

/-- The shared state and the tasks, in the order they were started; `none` is
    a task that has ended. -/
structure Pool (Op : Type) (R : Op → Type) (S J : Type) where
  shared : S
  threads : List (Option (J × Prog Op R Unit))

/-- What can happen next. The flag of `step` is the fate of the operation, or
    the scheduler's pick at a `choose`. -/
inductive Event (J E : Type) where
  | spawn (j : J)
  | step (i : ℕ) (b : Bool)
  | leave (i : ℕ)
  | env (e : E)
  deriving DecidableEq

namespace Pool

variable {Op : Type} {R : Op → Type} {S J E : Type}

/-- The job of each task that has not ended. -/
def jobs (p : Pool Op R S J) : List (Option J) := p.threads.map (Option.map Prod.fst)

/-- The job of a task that has returned. -/
def returned (p : Pool Op R S J) (i : ℕ) : Option J :=
  match p.threads[i]? with
  | some (some (j, .pure _)) => some j
  | _ => none

theorem returned_eq_some {p : Pool Op R S J} {i : ℕ} {j : J} :
    p.returned i = some j ↔ ∃ a, p.threads[i]? = some (some (j, .pure a)) := by
  unfold returned
  split
  next j' a h => simp [h]
  next h =>
    refine ⟨nofun, fun ⟨a, ha⟩ => ?_⟩
    exact absurd ha (h j a)

/-- No task yet. -/
def init (s : S) : Pool Op R S J := ⟨s, []⟩

/-- One move of task `i`, which runs `prog` for job `j`. -/
def stepThread (sys : System Op R S J E) (rules : Rules Op S J E) (p : Pool Op R S J) (i : ℕ)
    (j : J) (b : Bool) : Prog Op R Unit → Option (Pool Op R S J)
  | .pure _ => none
  | .op o k =>
      if rules.op i j p.shared o b then
        (sys.exec i j o b p.shared).map fun x =>
          ⟨x.1, p.threads.set i (some (j, k x.2))⟩
      else none
  | .choose k => some ⟨p.shared, p.threads.set i (some (j, k b))⟩

/-- One event; `none` when it is not possible or not admitted. -/
def apply (sys : System Op R S J E) (rules : Rules Op S J E) (p : Pool Op R S J) :
    Event J E → Option (Pool Op R S J)
  | .spawn j =>
      if rules.spawn p.shared p.jobs j then
        some ⟨p.shared, p.threads ++ [some (j, (sys.code j).flatten)]⟩
      else none
  | .step i b =>
      match p.threads[i]? with
      | some (some (j, prog)) => p.stepThread sys rules i j b prog
      | _ => none
  | .leave i =>
      match p.threads[i]? with
      | some (some (j, _)) => some ⟨sys.leave j p.shared, p.threads.set i none⟩
      | _ => none
  | .env e =>
      if rules.env p.shared p.jobs e then (sys.env e p.shared).map fun s => ⟨s, p.threads⟩
      else none

/-- The pool after a list of events. -/
def run (sys : System Op R S J E) (rules : Rules Op S J E) (p : Pool Op R S J) :
    List (Event J E) → Option (Pool Op R S J)
  | [] => some p
  | e :: es => (p.apply sys rules e).bind fun p' => run sys rules p' es

variable {sys : System Op R S J E} {rules : Rules Op S J E}

theorem run_append (p : Pool Op R S J) (es es' : List (Event J E)) :
    p.run sys rules (es ++ es') = (p.run sys rules es).bind fun p' => p'.run sys rules es' := by
  induction es generalizing p with
  | nil => rfl
  | cons e es ih =>
    simp only [List.cons_append, run]
    cases p.apply sys rules e with
    | none => rfl
    | some p' => exact ih p'

/-- A part `q` of the program of task `i` that can be executed by itself is
    executed by a list of moves of that task. -/
theorem run_of_reaches {α : Type} {p : Pool Op R S J} {i : ℕ} {j : J} {q : Prog Op R α}
    {k : α → Prog Op R Unit} {a : α} {s : S} (hi : p.threads[i]? = some (some (j, q.bind k)))
    (h : Reaches (sys.exec i j) (fun s o => rules.op i j s o true = true) q p.shared a s) :
    ∃ es, p.run sys rules es = some ⟨s, p.threads.set i (some (j, k a))⟩ := by
  generalize hs : p.shared = s0 at h
  induction h generalizing p with
  | pure a s =>
    subst hs
    obtain ⟨hlt, hget⟩ := List.getElem?_eq_some_iff.mp hi
    have hset : p.threads.set i (some (j, k a)) = p.threads := by
      rw [show some (j, k a) = p.threads[i] from hget.symm, List.set_getElem_self]
    exact ⟨[], by rw [run, hset]⟩
  | @op o k' s s' s'' r a hok hx _ ih =>
    subst hs
    obtain ⟨es, hes⟩ := ih (p := ⟨s', p.threads.set i (some (j, (k' r).bind k))⟩)
      (by rw [List.getElem?_set_self' , hi]; rfl) rfl
    refine ⟨.step i true :: es, ?_⟩
    simp only [run, apply, hi, stepThread, Prog.op_bind, hok, if_true, hx, Option.map_some,
      Option.bind_some, hes, List.set_set]
  | @choose k' s s' a b _ ih =>
    subst hs
    obtain ⟨es, hes⟩ := ih (p := ⟨p.shared, p.threads.set i (some (j, (k' b).bind k))⟩)
      (by rw [List.getElem?_set_self', hi]; rfl) rfl
    refine ⟨.step i b :: es, ?_⟩
    simp only [run, apply, hi, stepThread, Prog.choose_bind, Option.bind_some, hes, List.set_set]

variable {es : List (Event J E)} {p p' : Pool Op R S J}

/-- What every admitted event preserves holds after every run. -/
theorem run_induction {P : Pool Op R S J → Prop}
    (step : ∀ p e p', P p → p.apply sys rules e = some p' → P p')
    (hp : P p) (h : p.run sys rules es = some p') : P p' := by
  induction es generalizing p with
  | nil => cases h; exact hp
  | cons e es ih =>
    simp only [run, Option.bind_eq_some_iff] at h
    obtain ⟨q, hq, h⟩ := h
    exact ih (step p e q hp hq) h

/-- What the operations, the environment and the end of a job preserve holds of the
    shared state after every run. -/
theorem run_shared {P : S → Prop}
    (hop : ∀ i j o b s s' r, P s → rules.op i j s o b = true →
      sys.exec i j o b s = some (s', r) → P s')
    (hleave : ∀ j s, P s → P (sys.leave j s))
    (henv : ∀ js e s s', P s → rules.env s js e = true → sys.env e s = some s' → P s')
    (hp : P p.shared) (h : p.run sys rules es = some p') : P p'.shared := by
  refine run_induction (P := fun p => P p.shared) (fun p e p' hp he => ?_) hp h
  cases e with
  | spawn j =>
    simp only [apply] at he
    split_ifs at he
    cases he
    exact hp
  | step i b =>
    simp only [apply] at he
    split at he
    case h_2 => cases he
    case h_1 j prog _ =>
      cases prog with
      | pure a => cases he
      | choose k =>
        cases he
        exact hp
      | op o k =>
        simp only [stepThread] at he
        split_ifs at he with ha
        obtain ⟨⟨s, r⟩, hx, rfl⟩ := Option.map_eq_some_iff.mp he
        exact hop i j o b _ s r hp ha hx
  | leave i =>
    simp only [apply] at he
    split at he
    case h_2 => cases he
    case h_1 j _ _ =>
      cases he
      exact hleave j _ hp
  | env e =>
    simp only [apply] at he
    split_ifs at he with ha
    obtain ⟨s, hx, rfl⟩ := Option.map_eq_some_iff.mp he
    exact henv _ e _ s hp ha hx

/-- A run that meets a condition is a run. -/
theorem run_free (h : p.run sys rules es = some p') : p.run sys .free es = some p' := by
  induction es generalizing p with
  | nil => exact h
  | cons e es ih =>
    simp only [run, Option.bind_eq_some_iff] at h ⊢
    obtain ⟨q, hq, h⟩ := h
    refine ⟨q, ?_, ih h⟩
    cases e with
    | spawn j =>
      simp only [apply] at hq ⊢
      split_ifs at hq
      exact hq
    | step i b =>
      simp only [apply] at hq ⊢
      split at hq
      case h_2 => cases hq
      case h_1 j prog _ =>
        cases prog with
        | pure a => cases hq
        | choose k => exact hq
        | op o k =>
          simp only [stepThread] at hq ⊢
          split_ifs at hq
          exact hq
    | leave i => exact hq
    | env e =>
      simp only [apply] at hq ⊢
      split_ifs at hq
      exact hq

end Pool

end Lib
