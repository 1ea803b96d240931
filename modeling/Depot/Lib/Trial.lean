import Depot.Lib.Fallible

/-!
# Runs that fail or are cut off

A task runs by itself. A list says which operations succeed and which fail; where the list ends,
the run is cut off, as by a crash.

Results:
* `trial_bind`: the run of a sequence.
* `trial_invariant`: what every operation keeps, a run keeps, wherever it ends.
* `Always.bind`, `Always.call`: what holds however a run goes.
* `Returns.bind`, `Returns.each`: what holds if the run is not cut off and there was no error.
-/

namespace Lib

variable {Op : Type} {R : Op → Type} {S α β ε : Type}

variable {P : Op → Prop}

variable {I cut : S → Prop} {s : S} {post post' M : α → S → Prop}

namespace Task

/-- Run a task; the state at the end, and the result with what is left of the list, unless the run
    was cut off. -/
def trial (exec : (o : Op) → Bool → S → Option (S × R o)) {α : Type} :
    Task Op R α → List Bool → S → S × Option (α × List Bool)
  | .pure a, bs, s => (s, some (a, bs))
  | .op _ _, [], s => (s, none)
  | .op o k, b :: bs, s =>
      match exec o b s with
      | some (s', r) => (k r).trial exec bs s'
      | none => (s, none)
  | .choose _, [], s => (s, none)
  | .choose k, b :: bs, s => (k b).trial exec bs s
  | .fork p q k, bs, s =>
      match p.trial exec bs s with
      | (s', none) => (s', none)
      | (s', some (a, bs')) =>
          match q.trial exec bs' s' with
          | (s'', none) => (s'', none)
          | (s'', some (b, bs'')) => (k a b).trial exec bs'' s''

variable {exec : (o : Op) → Bool → S → Option (S × R o)}

@[simp] theorem trial_pure (a : α) (bs : List Bool) (s : S) :
    (Task.pure a : Task Op R α).trial exec bs s = (s, some (a, bs)) := by
  simp [trial]

theorem trial_bind (p : Task Op R α) (f : α → Task Op R β) (bs : List Bool) (s : S) :
    (p.bind f).trial exec bs s =
      match p.trial exec bs s with
      | (s', none) => (s', none)
      | (s', some (a, bs')) => (f a).trial exec bs' s' := by
  induction p generalizing bs s with
  | pure a => simp [bind, trial]
  | op o k ih =>
    cases bs with
    | nil => simp [bind, trial]
    | cons b bs =>
      simp only [bind, trial]
      cases exec o b s with
      | none => rfl
      | some x => exact ih x.2 f bs x.1
  | choose k ih =>
    cases bs with
    | nil => simp [bind, trial]
    | cons b bs =>
      simp only [bind, trial]
      exact ih b f bs s
  | fork p q k _ _ ih =>
    simp only [bind, trial]
    rcases p.trial exec bs s with ⟨s', _ | ⟨a, bs'⟩⟩
    · rfl
    · simp only
      rcases q.trial exec bs' s' with ⟨s'', _ | ⟨b, bs''⟩⟩
      · rfl
      · exact ih a b f bs'' s''

/-- What every operation satisfies. -/
theorem uses_of_forall (h : ∀ o, P o) (p : Task Op R α) : p.Uses P := by
  induction p with
  | pure a => trivial
  | op o k ih => exact ⟨h o, fun r => ih r⟩
  | choose k ih => exact fun b => ih b
  | fork p q k ihp ihq ih => exact ⟨ihp, ihq, fun a b => ih a b⟩

variable {p : Task Op R α}

/-- What every operation keeps, a run keeps, wherever it ends. -/
theorem trial_invariant (hI : ∀ o b s s' r, P o → I s → exec o b s = some (s', r) → I s')
    (hp : p.Uses P) (bs : List Bool) (hs : I s) : I (p.trial exec bs s).1 := by
  induction p generalizing bs s with
  | pure a => simpa [trial] using hs
  | op o k ih =>
    cases bs with
    | nil => simpa [trial] using hs
    | cons b bs =>
      simp only [trial]
      cases hx : exec o b s with
      | none => exact hs
      | some x => exact ih x.2 (hp.2 x.2) bs (hI o b s x.1 x.2 hp.1 hs hx)
  | choose k ih =>
    cases bs with
    | nil => simpa [trial] using hs
    | cons b bs =>
      simp only [trial]
      exact ih b (hp b) bs hs
  | fork p q k ihp ihq ih =>
    simp only [trial]
    have hp' := ihp hp.1 bs hs
    revert hp'
    rcases p.trial exec bs s with ⟨s', _ | ⟨a, bs'⟩⟩
    · exact id
    · intro hs'
      have hq' := ihq hp.2.1 bs' hs'
      revert hq'
      simp only
      rcases q.trial exec bs' s' with ⟨s'', _ | ⟨b, bs''⟩⟩
      · exact id
      · exact fun hs'' => ih a b (hp.2.2 a b) bs'' hs''

/-- However a run from `s` goes, its result and the state at its end satisfy `post`, or `cut`
    holds where it is cut off. -/
def Always (exec : (o : Op) → Bool → S → Option (S × R o)) (p : Task Op R α) (s : S)
    (post : α → S → Prop) (cut : S → Prop) : Prop :=
  ∀ bs, match p.trial exec bs s with
    | (s', none) => cut s'
    | (s', some (a, _)) => post a s'

theorem Always.pure {a : α} (h : post a s) : Always exec (.pure a) s post cut := by
  intro bs
  rw [trial_pure]
  exact h

theorem Always.mono {cut' : S → Prop}
    (h : Always exec p s post cut) (hpost : ∀ a s', post a s' → post' a s')
    (hcut : ∀ s', cut s' → cut' s') : Always exec p s post' cut' := by
  intro bs
  have hrun := h bs
  revert hrun
  rcases p.trial exec bs s with ⟨s', _ | ⟨a, bs'⟩⟩
  · exact hcut s'
  · exact hpost a s'

theorem Always.call {o : Op} {post : R o → S → Prop} (hcut : cut s)
    (h : ∀ b s' r, exec o b s = some (s', r) → post r s') :
    Always exec (Task.call o) s post cut := by
  intro bs
  cases bs with
  | nil => exact hcut
  | cons b bs =>
    simp only [Task.call, trial]
    cases hx : exec o b s with
    | none => exact hcut
    | some x => exact h b x.1 x.2 hx

theorem Always.bind {f : α → Task Op R β} {post : β → S → Prop} (hp : Always exec p s M cut)
    (hf : ∀ a s', M a s' → Always exec (f a) s' post cut) : Always exec (p.bind f) s post cut := by
  intro bs
  have hrun := hp bs
  rw [trial_bind]
  revert hrun
  rcases p.trial exec bs s with ⟨s', _ | ⟨a, bs'⟩⟩
  · exact id
  · exact fun hmid => hf a s' hmid bs'

end Task

/-! ## Runs without an error -/

theorem run_bind (p : Fallible ε Op R α) (f : α → Fallible ε Op R β) :
    (p >>= f).run = p.run.bind fun r => match r with
      | .ok a => (f a).run
      | .error e => .pure (.error e) := by
  show p.run.bind _ = _
  congr 1
  funext r
  cases r <;> rfl

theorem run_issue (o : Op) :
    (Fallible.issue o : Fallible ε Op R (R o)).run = .op o fun r => .pure (.ok r) := rfl

/-- If the run of `p` from such a state is not cut off and there is no error, the result and the
    state at its end satisfy `post`. -/
def Returns (exec : (o : Op) → Bool → S → Option (S × R o)) (A : S → Prop)
    (p : Fallible ε Op R α) (post : α → S → Prop) : Prop :=
  ∀ bs s s' a bs', A s → p.run.trial exec bs s = (s', some (.ok a, bs')) → post a s'

namespace Returns

variable {exec : (o : Op) → Bool → S → Option (S × R o)} {A : S → Prop}

theorem pure {a : α} (h : ∀ s, A s → post a s) :
    Returns exec A (Pure.pure a : Fallible ε Op R α) post := by
  intro bs s s' a' bs' hs hrun
  have hrun' : (s, some (Except.ok (ε := ε) a, bs)) = (s', some (.ok a', bs')) := hrun
  simp only [Prod.mk.injEq, Option.some.injEq, Except.ok.injEq] at hrun'
  obtain ⟨rfl, rfl, _⟩ := hrun'
  exact h s hs

theorem throw {e : ε} : Returns exec A (MonadExcept.throw e : Fallible ε Op R α) post := by
  intro bs s s' a' bs' _ hrun
  have hrun' : (s, some (Except.error (α := α) e, bs)) = (s', some (.ok a', bs')) := hrun
  simp at hrun'

variable {p : Fallible ε Op R α}

theorem bind {f : α → Fallible ε Op R β} {post : β → S → Prop} (hp : Returns exec A p M)
    (hf : ∀ a, Returns exec (M a) (f a) post) : Returns exec A (p >>= f) post := by
  intro bs s s'' b bs'' hs hrun
  rw [run_bind, Task.trial_bind] at hrun
  cases hres : p.run.trial exec bs s with
  | mk s' res =>
    rw [hres] at hrun
    cases res with
    | none => simp at hrun
    | some x =>
      obtain ⟨a, bs'⟩ := x
      cases a with
      | error e => simp at hrun
      | ok a => exact hf a bs' s' s'' b bs'' (hp bs s s' a bs' hs hres) hrun

theorem issue {o : Op} {post : R o → S → Prop}
    (h : ∀ b s s' r, A s → exec o b s = some (s', r) → post r s') :
    Returns exec A (Fallible.issue o : Fallible ε Op R (R o)) post := by
  intro bs s s' a bs' hs hrun
  rw [run_issue] at hrun
  cases bs with
  | nil => simp [Task.trial] at hrun
  | cons b bs =>
    simp only [Task.trial] at hrun
    cases hx : exec o b s with
    | none => simp [hx] at hrun
    | some x =>
      simp only [hx, Prod.mk.injEq, Option.some.injEq, Except.ok.injEq] at hrun
      obtain ⟨rfl, rfl, _⟩ := hrun
      exact h b s x.1 x.2 hs hx

theorem mono {A' : S → Prop} (h : Returns exec A p post) (hpre : ∀ s, A' s → A s)
    (hpost : ∀ a s, post a s → post' a s) : Returns exec A' p post' :=
  fun bs s s' a bs' hs hrun => hpost a s' (h bs s s' a bs' (hpre s hs) hrun)

/-- A run keeps what every operation keeps. -/
theorem keep (hI : ∀ o b s s' r, P o → I s → exec o b s = some (s', r) → I s')
    (hp : Fallible.Uses P p) : Returns exec I p fun _ => I := by
  intro bs s s' a bs' hs hrun
  have hkeep := Task.trial_invariant hI hp bs hs
  rwa [hrun] at hkeep

/-- A loop: what holds of the elements that are done. -/
theorem each {f : β → Fallible ε Op R Unit} {I : List β → S → Prop} {xs : List β}
    (hf : ∀ done x rest, xs = done ++ x :: rest →
      Returns exec (I done) (f x) fun _ => I (done ++ [x])) :
    Returns exec (I []) (Fallible.each f xs) fun _ => I xs := by
  suffices hgen : ∀ done rest, xs = done ++ rest →
      Returns exec (I done) (Fallible.each f rest) fun _ => I xs from hgen [] xs rfl
  intro done rest
  induction rest generalizing done with
  | nil =>
    intro hxs
    refine Returns.pure fun s hs => ?_
    rw [hxs, List.append_nil]
    exact hs
  | cons x rest ih =>
    intro hxs
    refine (hf done x rest hxs).bind fun _ => ?_
    exact ih (done ++ [x]) (by simp [hxs])

end Returns

end Lib
