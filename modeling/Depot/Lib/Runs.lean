import Depot.Lib.Fallible

/-!
# A task by itself

The runs of one task that nothing interferes with. `Runs` relates the state
before to the result and the state after, over every scheduling of the
sub-tasks and over every outcome of the operations that `ok` admits.

Results:
* `yields_bind`: sequential composition.
* `runs_par_still`, `yields_join_still`: sub-tasks that leave the state as it is
  do not see each other.
* `yields_fold`: loops.
* `Flows.bind`, `Flows.join`: functions none of whose runs gets stuck.
* `Solo.bind` and its siblings, `Solo.yields`: the solo run, and that it is one of
  the runs.
* `Pool.run_solo`: a task of a pool that executes a function by itself.
-/

namespace Lib

variable {Op : Type} {R : Op → Type} {S α β γ ε σ : Type}

section

variable (exec : (o : Op) → Bool → S → Option (S × R o)) (ok : S → Op → Bool → Prop)

/-- `Runs exec ok p s a s'`: the tree `p` can go from `s` to `s'` and return `a`,
    with operations whose outcomes `ok` admits. -/
inductive Runs {α : Type} : Prog Op R α → S → α → S → Prop where
  | pure (a : α) (s : S) : Runs (.pure a) s a s
  | op {o : Op} {k : R o → Prog Op R α} {s s' s'' : S} {r : R o} {a : α} (b : Bool)
      (hok : ok s o b) (hx : exec o b s = some (s', r)) (h : Runs (k r) s' a s'') :
      Runs (.op o k) s a s''
  | choose {k : Bool → Prog Op R α} {s s' : S} {a : α} (b : Bool) (h : Runs (k b) s a s') :
      Runs (.choose k) s a s'

/-- The operation leaves the state as it is. -/
def StillOp (o : Op) : Prop :=
  ∀ s b s' r, ok s o b → exec o b s = some (s', r) → s' = s

/-- What a task can do by itself. -/
def Yields {α : Type} (p : Fallible ε Op R α) (s : S) (r : Except ε α) (s' : S) : Prop :=
  Runs exec ok p.run.flatten s r s'

end

variable {exec : (o : Op) → Bool → S → Option (S × R o)} {ok : S → Op → Bool → Prop}

/-! ## Composition -/

variable {s s' : S}

theorem runs_pure {a b : α} (h : Runs exec ok (.pure a : Prog Op R α) s b s') : b = a ∧ s' = s := by
  cases h
  exact ⟨rfl, rfl⟩

theorem runs_bind {p : Prog Op R α} {f : α → Prog Op R β} {s'' : S} {b : β}
    (h : Runs exec ok (p.bind f) s b s'') :
    ∃ a s', Runs exec ok p s a s' ∧ Runs exec ok (f a) s' b s'' := by
  induction p generalizing s with
  | pure a => exact ⟨a, s, .pure a s, h⟩
  | op o k ih =>
    cases h with
    | op b hok hx h =>
      obtain ⟨a, s', hp, hf⟩ := ih _ h
      exact ⟨a, s', .op b hok hx hp, hf⟩
  | choose k ih =>
    cases h with
    | choose b h =>
      obtain ⟨a, s', hp, hf⟩ := ih _ h
      exact ⟨a, s', .choose b hp, hf⟩

theorem Runs.bind {p : Prog Op R α} {f : α → Prog Op R β} {s'' : S} {a : α} {b : β}
    (hp : Runs exec ok p s a s') (hf : Runs exec ok (f a) s' b s'') :
    Runs exec ok (p.bind f) s b s'' := by
  induction hp with
  | pure a s => exact hf
  | op b hok hx _ ih => exact .op b hok hx (ih hf)
  | choose c _ ih => exact .choose c (ih hf)

variable {P : Op → Prop}

theorem Task.uses_any (p : Task Op R α) (h : ∀ o, P o) : p.Uses P := by
  induction p with
  | pure a => trivial
  | op o k ih => exact ⟨h o, ih⟩
  | choose k ih => exact ih
  | fork p q k ihp ihq ih => exact ⟨ihp, ihq, ih⟩

variable {exec' : (o : Op) → Bool → S → Option (S × R o)}

variable {a : α}

/-- What runs with successful operations only is one of the runs. -/
theorem Runs.of_reaches {ok' : S → Op → Prop}
    (hex : ∀ o s s' r, ok' s o → exec' o true s = some (s', r) →
      ∃ b, ok s o b ∧ exec o b s = some (s', r))
    {p : Prog Op R α} (h : Reaches exec' ok' p s a s') : Runs exec ok p s a s' := by
  induction h with
  | pure a s => exact .pure a s
  | op hok hx _ ih =>
    obtain ⟨b, hb, hx'⟩ := hex _ _ _ _ hok hx
    exact .op b hb hx' ih
  | choose b _ ih => exact .choose b ih

/-- The solo run is one of the runs. -/
theorem Runs.of_solo
    (hex : ∀ o s s' r, exec' o true s = some (s', r) → ∃ b, ok s o b ∧ exec o b s = some (s', r))
    {p : Task Op R α} (h : p.solo exec' s = some (s', a)) : Runs exec ok p.flatten s a s' :=
  Runs.of_reaches (fun o s s' r _ => hex o s s' r)
    (Task.reaches_of_solo (p.uses_any fun _ _ => trivial) h)

/-- A tree whose operations all return comes to an end. -/
theorem runs_total (hop : ∀ o, P o → ∀ s, ∃ b s' r, ok s o b ∧ exec o b s = some (s', r))
    {p : Prog Op R α} (hp : p.Uses P) (s : S) : ∃ a s', Runs exec ok p s a s' := by
  induction p generalizing s with
  | pure a => exact ⟨a, s, .pure a s⟩
  | op o k ih =>
    obtain ⟨b, s', r, hok, hx⟩ := hop o hp.1 s
    obtain ⟨a, s'', h⟩ := ih r (hp.2 r) s'
    exact ⟨a, s'', .op b hok hx h⟩
  | choose k ih =>
    obtain ⟨a, s', h⟩ := ih true (hp true) s
    exact ⟨a, s', .choose true h⟩

/-! ## Tasks that change nothing -/

variable {I : S → S → Prop}

/-- A run keeps what each of its operations keeps. -/
theorem runs_uses (hrefl : ∀ s, I s s) (htrans : ∀ a b c, I a b → I b c → I a c)
    (hop : ∀ o, P o → ∀ s b s' r, ok s o b → exec o b s = some (s', r) → I s s')
    {p : Prog Op R α} (hp : p.Uses P) (h : Runs exec ok p s a s') : I s s' := by
  induction h with
  | pure a s => exact hrefl s
  | op b hok hx _ ih => exact htrans _ _ _ (hop _ hp.1 _ b _ _ hok hx) (ih (hp.2 _))
  | choose b _ ih => exact ih (hp b)

theorem runs_still {p : Prog Op R α} (hp : p.Uses (StillOp exec ok))
    (h : Runs exec ok p s a s') : s' = s :=
  runs_uses (I := fun s s' => s' = s) (fun _ => rfl) (fun _ _ _ h h' => h'.trans h)
    (fun _ ho => ho) hp h

/-- The right operand of an interleaving, when neither operand changes the state. -/
theorem runs_interleave_still {stepL : Prog Op R β → Prog Op R γ} {fin : β → Prog Op R γ}
    {Q : β → γ → Prop} (hstep : ∀ q : Prog Op R β, q.Uses (StillOp exec ok) → ∀ c s',
      Runs exec ok (stepL q) s c s' → s' = s ∧ ∃ b, Runs exec ok q s b s ∧ Q b c)
    (hfin : ∀ b c s', Runs exec ok (fin b) s c s' → s' = s ∧ Q b c)
    {q : Prog Op R β} (hq : q.Uses (StillOp exec ok)) {c : γ}
    (h : Runs exec ok (Prog.interleave stepL fin q) s c s') :
    s' = s ∧ ∃ b, Runs exec ok q s b s ∧ Q b c := by
  induction q with
  | pure b =>
    obtain ⟨rfl, hQ⟩ := hfin b c s' h
    exact ⟨rfl, b, .pure b _, hQ⟩
  | op o k ih =>
    cases h with
    | choose left h =>
      cases left with
      | true => exact hstep _ hq c s' h
      | false =>
        cases h with
        | op b hok hx h =>
          obtain rfl := hq.1 _ b _ _ hok hx
          obtain ⟨rfl, b', hb', hQ⟩ := ih _ (hq.2 _) h
          exact ⟨rfl, b', .op b hok hx hb', hQ⟩
  | choose k ih =>
    cases h with
    | choose left h =>
      cases left with
      | true => exact hstep _ hq c s' h
      | false =>
        cases h with
        | choose b h =>
          obtain ⟨rfl, b', hb', hQ⟩ := ih _ (hq b) h
          exact ⟨rfl, b', .choose b hb', hQ⟩

/-- The left operand of an interleaving, when the right one has ended with `b`. -/
theorem runs_left_still {p : Prog Op R α} (hp : p.Uses (StillOp exec ok)) {b : β} {c : α × β}
    (h : Runs exec ok (p.bind fun a => .pure (a, b)) s c s') :
    s' = s ∧ c.2 = b ∧ Runs exec ok p s c.1 s := by
  obtain ⟨a, s1, ha, hpure⟩ := runs_bind h
  obtain ⟨rfl, rfl⟩ := runs_pure hpure
  obtain rfl := runs_still hp ha
  exact ⟨rfl, rfl, ha⟩

/-- Two programs that change nothing run as each would by itself. -/
theorem runs_par_still {p : Prog Op R α} {q : Prog Op R β} (hp : p.Uses (StillOp exec ok))
    (hq : q.Uses (StillOp exec ok)) {c : α × β} (h : Runs exec ok (p.par q) s c s') :
    s' = s ∧ Runs exec ok p s c.1 s ∧ Runs exec ok q s c.2 s := by
  induction p generalizing q c s' with
  | pure a =>
    obtain ⟨b, s1, hb, hpure⟩ := runs_bind h
    obtain ⟨rfl, rfl⟩ := runs_pure hpure
    obtain rfl := runs_still hq hb
    exact ⟨rfl, .pure a _, hb⟩
  | op o k ih =>
    obtain ⟨rfl, b, hb, rfl, ha⟩ := runs_interleave_still
      (Q := fun b c => c.2 = b ∧ Runs exec ok (.op o k) s c.1 s)
      (fun q' hq' c s' hc => by
        cases hc with
        | op b hok hx hrest =>
          obtain rfl := hp.1 _ b _ _ hok hx
          obtain ⟨rfl, ha, hb⟩ := ih _ (hp.2 _) hq' hrest
          exact ⟨rfl, c.2, hb, rfl, .op b hok hx ha⟩)
      (fun b c s' hc => runs_left_still hp hc) hq h
    exact ⟨rfl, ha, hb⟩
  | choose k ih =>
    obtain ⟨rfl, b, hb, rfl, ha⟩ := runs_interleave_still
      (Q := fun b c => c.2 = b ∧ Runs exec ok (.choose k) s c.1 s)
      (fun q' hq' c s' hc => by
        cases hc with
        | choose b hrest =>
          obtain ⟨rfl, ha, hb⟩ := ih _ (hp b) hq' hrest
          exact ⟨rfl, c.2, hb, rfl, .choose b ha⟩)
      (fun b c s' hc => runs_left_still hp hc) hq h
    exact ⟨rfl, ha, hb⟩

theorem runs_forkAll_still {ps : List (Task Op R α)} (hps : ∀ p ∈ ps, p.Uses (StillOp exec ok))
    {as : List α} (h : Runs exec ok (Task.forkAll ps).flatten s as s') :
    s' = s ∧ List.Forall₂ (fun p a => Runs exec ok p.flatten s a s) ps as := by
  induction ps generalizing as s' with
  | nil =>
    obtain ⟨rfl, rfl⟩ := runs_pure h
    exact ⟨rfl, .nil⟩
  | cons p ps ih =>
    rw [Task.flatten_forkAll_cons] at h
    obtain ⟨c, s1, hpar, hpure⟩ := runs_bind h
    obtain ⟨rfl, rfl⟩ := runs_pure hpure
    have hrest : (Task.forkAll ps).Uses (StillOp exec ok) :=
      Task.Uses.forkAll fun q hq => hps q (List.mem_cons_of_mem p hq)
    obtain ⟨rfl, ha, has⟩ := runs_par_still (hps p List.mem_cons_self).flatten hrest.flatten hpar
    exact ⟨rfl, .cons ha (ih (fun q hq => hps q (List.mem_cons_of_mem p hq)) has).2⟩

/-! ## Tasks that may fail -/

variable {r : Except ε α}

theorem yields_pure
    (h : Yields exec ok (pure a : Fallible ε Op R α) s r s') : r = .ok a ∧ s' = s := runs_pure h

theorem yields_throw {e : ε}
    (h : Yields exec ok (throw e : Fallible ε Op R α) s r s') : r = .error e ∧ s' = s := runs_pure h

/-- The task of a composition. -/
theorem Fallible.run_bind (p : Fallible ε Op R α) (f : α → Fallible ε Op R β) :
    (p >>= f).run = p.run.bind fun r =>
      match r with
      | .ok a => (f a).run
      | .error e => Task.pure (.error e) := by
  show p.run.bind _ = _
  congr 1
  funext r
  cases r <;> rfl

variable {p : Fallible ε Op R α}

/-- A function fails in its first part, or goes on with its result. -/
theorem yields_bind {f : α → Fallible ε Op R β} {s'' : S}
    {r : Except ε β} (h : Yields exec ok (p >>= f) s r s'') :
    (∃ e, r = .error e ∧ Yields exec ok p s (.error e) s'') ∨
      ∃ a s', Yields exec ok p s (.ok a) s' ∧ Yields exec ok (f a) s' r s'' := by
  unfold Yields at h
  rw [Fallible.run_bind, Task.flatten_bind] at h
  obtain ⟨r1, s', hp, hf⟩ := runs_bind h
  cases r1 with
  | ok a => exact .inr ⟨a, s', hp, hf⟩
  | error e =>
    obtain ⟨rfl, rfl⟩ := runs_pure hf
    exact .inl ⟨e, rfl, hp⟩

/-- A function that succeeds goes through its first part. -/
theorem yields_bind_ok {f : α → Fallible ε Op R β} {s'' : S} {b : β}
    (h : Yields exec ok (p >>= f) s (.ok b) s'') :
    ∃ a s', Yields exec ok p s (.ok a) s' ∧ Yields exec ok (f a) s' (.ok b) s'' := by
  rcases yields_bind h with ⟨e, he, -⟩ | h
  · cases he
  · exact h

/-- A function whose first part returns. -/
theorem Yields.bind {f : α → Fallible ε Op R β} {s'' : S}
    {r : Except ε β} (hp : Yields exec ok p s (.ok a) s') (hf : Yields exec ok (f a) s' r s'') :
    Yields exec ok (p >>= f) s r s'' := by
  unfold Yields
  rw [Fallible.run_bind, Task.flatten_bind]
  exact Runs.bind hp hf

/-- A function whose first part fails. -/
theorem Yields.bind_error (f : α → Fallible ε Op R β) {e : ε}
    (hp : Yields exec ok p s (.error e) s') : Yields exec ok (p >>= f) s (.error e) s' := by
  unfold Yields
  rw [Fallible.run_bind, Task.flatten_bind]
  exact Runs.bind hp (.pure _ _)

variable {o : Op}

theorem yields_issue {r : Except ε (R o)}
    (h : Yields exec ok (Fallible.issue o : Fallible ε Op R (R o)) s r s') :
    ∃ b a, ok s o b ∧ exec o b s = some (s', a) ∧ r = .ok a := by
  cases h with
  | op b hok hx h =>
    obtain ⟨rfl, rfl⟩ := runs_pure h
    exact ⟨b, _, hok, hx, rfl⟩

variable {fail : Bool → ε}

theorem yields_attempt {f : R o → Option α}
    (h : Yields exec ok (Fallible.attempt fail o f) s r s') :
    ∃ b a, ok s o b ∧ exec o b s = some (s', a) ∧
      ((∃ c, f a = some c ∧ r = .ok c) ∨ f a = none ∧ ∃ e, r = .error e) := by
  cases h with
  | @op _ _ _ s1 _ a _ b hok hx h =>
    cases hf : f a with
    | some c =>
      simp only [hf] at h
      obtain ⟨rfl, rfl⟩ := runs_pure h
      exact ⟨b, a, hok, hx, .inl ⟨c, hf, rfl⟩⟩
    | none =>
      simp only [hf] at h
      cases h with
      | choose c h =>
        obtain ⟨rfl, rfl⟩ := runs_pure h
        exact ⟨b, a, hok, hx, .inr ⟨hf, _, rfl⟩⟩

theorem yields_capture {r : Except ε (Except ε α)}
    (h : Yields exec ok (Fallible.capture p) s r s') :
    ∃ r1, r = .ok r1 ∧ Yields exec ok p s r1 s' := by
  unfold Yields Fallible.capture at h
  rw [ExceptT.run_mk, Task.flatten_bind] at h
  obtain ⟨r1, s1, hp, hpure⟩ := runs_bind h
  obtain ⟨rfl, rfl⟩ := runs_pure hpure
  exact ⟨r1, rfl, hp⟩

theorem yields_ignore {r : Except ε Unit} (h : Yields exec ok (Fallible.ignore p) s r s') :
    r = .ok () ∧ ∃ r1, Yields exec ok p s r1 s' := by
  unfold Yields Fallible.ignore at h
  rw [ExceptT.run_mk, Task.flatten_bind] at h
  obtain ⟨r1, s1, hp, hpure⟩ := runs_bind h
  obtain ⟨rfl, rfl⟩ := runs_pure hpure
  exact ⟨rfl, r1, hp⟩

/-- A function keeps what each of its operations keeps. -/
theorem yields_uses (hrefl : ∀ s, I s s) (htrans : ∀ a b c, I a b → I b c → I a c)
    (hop : ∀ o, P o → ∀ s b s' r, ok s o b → exec o b s = some (s', r) → I s s')
    (hp : Fallible.Uses P p) (h : Yields exec ok p s r s') : I s s' :=
  runs_uses hrefl htrans hop (Task.Uses.flatten hp) h

/-- A function whose operations all return comes to an end. -/
theorem yields_total (hop : ∀ o, P o → ∀ s, ∃ b s' r, ok s o b ∧ exec o b s = some (s', r))
    (hp : Fallible.Uses P p) (s : S) : ∃ r s', Yields exec ok p s r s' :=
  runs_total hop (Task.Uses.flatten hp) s

/-- A function that changes nothing. -/
theorem yields_still (hp : Fallible.Uses (StillOp exec ok) p)
    (h : Yields exec ok p s r s') : s' = s :=
  runs_still (Task.Uses.flatten hp) h

variable {xs : List β}

/-- The outcomes of a list whose sequence succeeds. -/
theorem forall₂_sequence {Q : β → Except ε α → Prop} {rs : List (Except ε α)}
    {as : List α} (h : List.Forall₂ Q xs rs) (hs : Fallible.sequence rs = .ok as) :
    List.Forall₂ (fun x a => Q x (.ok a)) xs as := by
  induction h generalizing as with
  | nil =>
    obtain rfl := Except.ok.inj hs
    exact .nil
  | @cons x r xs rs hx _ ih =>
    cases r with
    | error e => cases hs
    | ok a =>
      rw [Fallible.sequence] at hs
      cases hrs : Fallible.sequence rs with
      | error e =>
        rw [hrs] at hs
        cases hs
      | ok as' =>
        rw [hrs] at hs
        obtain rfl := Except.ok.inj hs
        exact .cons hx (ih hrs)

/-- Joined functions that change nothing. -/
theorem yields_join_still {f : β → Fallible ε Op R α}
    (hf : ∀ x ∈ xs, Fallible.Uses (StillOp exec ok) (f x)) {r : Except ε (List α)}
    (h : Yields exec ok (Fallible.join (xs.map f)) s r s') : s' = s ∧ ∀ as, r = .ok as →
      List.Forall₂ (fun x a => Yields exec ok (f x) s (.ok a) s) xs as := by
  unfold Yields Fallible.join at h
  rw [ExceptT.run_mk, Task.flatten_bind, List.map_map] at h
  obtain ⟨rs, s1, hall, hpure⟩ := runs_bind h
  obtain ⟨hr, rfl⟩ := runs_pure hpure
  obtain ⟨rfl, hforall⟩ := runs_forkAll_still (fun q hq => by
    obtain ⟨x, hx, rfl⟩ := List.mem_map.mp hq
    exact hf x hx) hall
  refine ⟨rfl, fun as has => ?_⟩
  rw [has] at hr
  exact forall₂_sequence (List.forall₂_map_left_iff.mp hforall) hr.symm

variable {f : σ → β → Fallible ε Op R σ}

/-- A loop keeps what each of its rounds keeps. -/
theorem yields_fold (hrefl : ∀ s, I s s) (htrans : ∀ a b c, I a b → I b c → I a c)
    (hf : ∀ x ∈ xs, ∀ t s r s', Yields exec ok (f t x) s r s' → I s s') {t : σ}
    {r : Except ε σ} (h : Yields exec ok (Fallible.fold f xs t) s r s') : I s s' := by
  induction xs generalizing t s with
  | nil =>
    obtain ⟨-, rfl⟩ := yields_pure h
    exact hrefl _
  | cons x xs ih =>
    rcases yields_bind h with ⟨e, -, hx⟩ | ⟨t', s1, hx, hrest⟩
    · exact hf x List.mem_cons_self _ _ _ _ hx
    · exact htrans _ _ _ (hf x List.mem_cons_self _ _ _ _ hx)
        (ih (fun y hy => hf y (List.mem_cons_of_mem x hy)) hrest)

/-- A loop whose rounds change nothing and cannot fail. -/
theorem yields_fold_pure {g : σ → β → σ}
    (hf : ∀ x ∈ xs, ∀ t r s', Yields exec ok (f t x) s r s' → s' = s ∧ r = .ok (g t x)) {t : σ}
    {r : Except ε σ} (h : Yields exec ok (Fallible.fold f xs t) s r s') :
    s' = s ∧ r = .ok (xs.foldl g t) := by
  induction xs generalizing t with
  | nil =>
    obtain ⟨rfl, rfl⟩ := yields_pure h
    exact ⟨rfl, rfl⟩
  | cons x xs ih =>
    rcases yields_bind h with ⟨e, -, hx⟩ | ⟨t', s1, hx, hrest⟩
    · obtain ⟨-, he⟩ := hf x List.mem_cons_self _ _ _ hx
      cases he
    · obtain ⟨rfl, ht⟩ := hf x List.mem_cons_self _ _ _ hx
      obtain rfl := Except.ok.inj ht
      exact ih (fun y hy => hf y (List.mem_cons_of_mem x hy)) hrest

/-! ## Runs that come to an end -/

section Flows

/-- However its operations turn out, each operation that a run of the tree comes to returns. A tree
    has no infinite branch, so that every run comes to an end. -/
def Prog.Flows (exec : (o : Op) → Bool → S → Option (S × R o)) (ok : S → Op → Bool → Prop) :
    Prog Op R α → S → Prop
  | .pure _, _ => True
  | .op o k, s => (∃ b s' r, ok s o b ∧ exec o b s = some (s', r)) ∧
      ∀ b s' r, ok s o b → exec o b s = some (s', r) → (k r).Flows exec ok s'
  | .choose k, s => ∀ b, (k b).Flows exec ok s

/-- Every run of the function comes to an end. -/
def Flows (exec : (o : Op) → Bool → S → Option (S × R o)) (ok : S → Op → Bool → Prop)
    (p : Fallible ε Op R α) (s : S) : Prop :=
  p.run.flatten.Flows exec ok s

/-- The operation returns in every state. -/
def Unstuck (exec : (o : Op) → Bool → S → Option (S × R o)) (ok : S → Op → Bool → Prop) (o : Op) :
    Prop :=
  ∀ s, ∃ b s' r, ok s o b ∧ exec o b s = some (s', r)

theorem Prog.Flows.bind {p : Prog Op R α} {f : α → Prog Op R β} (hp : p.Flows exec ok s)
    (hf : ∀ a s', Runs exec ok p s a s' → (f a).Flows exec ok s') : (p.bind f).Flows exec ok s := by
  induction p generalizing s with
  | pure a => exact hf a s (.pure a s)
  | op o k ih =>
    refine ⟨hp.1, fun b s' r hok hx => ih r (hp.2 b s' r hok hx) fun a s'' hrun => ?_⟩
    exact hf a s'' (.op b hok hx hrun)
  | choose k ih => exact fun b => ih b (hp b) fun a s' hrun => hf a s' (.choose b hrun)

theorem Prog.flows_uses {p : Prog Op R α} (hp : p.Uses (Unstuck exec ok)) (s : S) :
    p.Flows exec ok s := by
  induction p generalizing s with
  | pure a => trivial
  | op o k ih => exact ⟨hp.1 s, fun _ s' r _ _ => ih r (hp.2 r) s'⟩
  | choose k ih => exact fun b => ih b (hp b) s

/-- The right operand of an interleaving, when neither operand changes the state. -/
theorem Prog.Flows.interleave {stepL : Prog Op R β → Prog Op R γ} {fin : β → Prog Op R γ}
    (hstep : ∀ q : Prog Op R β, q.Uses (StillOp exec ok) → q.Flows exec ok s →
      (stepL q).Flows exec ok s)
    (hfin : ∀ b, (fin b).Flows exec ok s) {q : Prog Op R β} (hq : q.Uses (StillOp exec ok))
    (hfq : q.Flows exec ok s) : (Prog.interleave stepL fin q).Flows exec ok s := by
  induction q with
  | pure b => exact hfin b
  | op o k ih =>
    intro left
    cases left with
    | true => exact hstep _ hq hfq
    | false =>
      refine ⟨hfq.1, fun b s' r hok hx => ?_⟩
      obtain rfl := hq.1 _ b _ _ hok hx
      exact ih r (hq.2 r) (hfq.2 b _ r hok hx)
  | choose k ih =>
    intro left
    cases left with
    | true => exact hstep _ hq hfq
    | false => exact fun b => ih b (hq b) (hfq b)

/-- Two programs that change nothing. -/
theorem Prog.Flows.par {p : Prog Op R α} {q : Prog Op R β} (hp : p.Uses (StillOp exec ok))
    (hq : q.Uses (StillOp exec ok)) (hfp : p.Flows exec ok s) (hfq : q.Flows exec ok s) :
    (p.par q).Flows exec ok s := by
  induction p generalizing q with
  | pure a => exact hfq.bind fun _ _ _ => trivial
  | op o k ih =>
    rw [Prog.par]
    refine Prog.Flows.interleave (fun q' hq' hfq' => ?_) (fun b => ?_) hq hfq
    · refine ⟨hfp.1, fun b s' r hok hx => ?_⟩
      obtain rfl := hp.1 _ b _ _ hok hx
      exact ih r (hp.2 r) hq' (hfp.2 b _ r hok hx) hfq'
    · exact hfp.bind fun _ _ _ => trivial
  | choose k ih =>
    rw [Prog.par]
    refine Prog.Flows.interleave (fun q' hq' hfq' => ?_) (fun b => ?_) hq hfq
    · exact fun c => ih c (hp c) hq' (hfp c) hfq'
    · exact hfp.bind fun _ _ _ => trivial

theorem Flows.bind {f : α → Fallible ε Op R β} (hp : Flows exec ok p s)
    (hf : ∀ a s', Yields exec ok p s (.ok a) s' → Flows exec ok (f a) s') :
    Flows exec ok (p >>= f) s := by
  unfold Flows
  rw [Fallible.run_bind, Task.flatten_bind]
  refine Prog.Flows.bind hp fun r s' hrun => ?_
  cases r with
  | ok a => exact hf a s' hrun
  | error e => trivial

theorem flows_uses (hp : Fallible.Uses (Unstuck exec ok) p) (s : S) : Flows exec ok p s :=
  Prog.flows_uses (Task.Uses.flatten hp) s

/-- Joined functions that change nothing. -/
theorem Flows.join {f : β → Fallible ε Op R α}
    (hf : ∀ x ∈ xs, Fallible.Uses (StillOp exec ok) (f x)) (h : ∀ x ∈ xs, Flows exec ok (f x) s) :
    Flows exec ok (Fallible.join (xs.map f)) s := by
  have hall : (Task.forkAll ((xs.map f).map ExceptT.run)).flatten.Flows exec ok s := by
    induction xs with
    | nil => trivial
    | cons x xs ih =>
      have hrest : (Task.forkAll ((xs.map f).map ExceptT.run)).Uses (StillOp exec ok) := by
        refine Task.Uses.forkAll fun q hq => ?_
        obtain ⟨p', hp', rfl⟩ := List.mem_map.mp hq
        obtain ⟨y, hy, rfl⟩ := List.mem_map.mp hp'
        exact hf y (List.mem_cons_of_mem x hy)
      rw [List.map_cons, List.map_cons, Task.flatten_forkAll_cons]
      refine (Prog.Flows.par (Task.Uses.flatten (hf x List.mem_cons_self))
        (Task.Uses.flatten hrest) (h x List.mem_cons_self)
        (ih (fun y hy => hf y (List.mem_cons_of_mem x hy))
          fun y hy => h y (List.mem_cons_of_mem x hy))).bind fun _ _ _ => trivial
  unfold Flows Fallible.join
  rw [ExceptT.run_mk, Task.flatten_bind]
  exact hall.bind fun _ _ _ => trivial

end Flows

/-! ## Solo runs -/

/-- The solo run of a function ends with `r`. -/
def Solo (exec : (o : Op) → Bool → S → Option (S × R o)) {α : Type} (p : Fallible ε Op R α) (s : S)
    (r : Except ε α) (s' : S) : Prop :=
  p.run.solo exec s = some (s', r)

theorem solo_pure (a : α) (s : S) : Solo exec (pure a : Fallible ε Op R α) s (.ok a) s := rfl

theorem Solo.bind {f : α → Fallible ε Op R β} {s'' : S}
    {r : Except ε β} (hp : Solo exec p s (.ok a) s') (hf : Solo exec (f a) s' r s'') :
    Solo exec (p >>= f) s r s'' := by
  show (p.run.bind _).solo exec s = _
  rw [Task.solo_bind, hp]
  exact hf

theorem Solo.issue {a : R o} (h : exec o true s = some (s', a)) :
    Solo exec (Fallible.issue o : Fallible ε Op R (R o)) s (.ok a) s' := by
  show (exec o true s).bind _ = _
  rw [h]
  rfl

theorem Solo.attempt {f : R o → Option α} {a : R o} {c : α}
    (h : exec o true s = some (s', a)) (hf : f a = some c) :
    Solo exec (Fallible.attempt fail o f) s (.ok c) s' := by
  show (exec o true s).bind _ = _
  rw [h]
  simp only [Option.bind_some, hf]
  rfl

theorem Solo.attempt_error {f : R o → Option α} {a : R o}
    (h : exec o true s = some (s', a)) (hf : f a = none) :
    Solo exec (Fallible.attempt fail o f) s (.error (fail true)) s' := by
  show (exec o true s).bind _ = _
  rw [h]
  simp only [Option.bind_some, hf]
  rfl

theorem Solo.capture (h : Solo exec p s r s') : Solo exec (Fallible.capture p) s (.ok r) s' := by
  show (p.run.bind _).solo exec s = _
  rw [Task.solo_bind, h]
  rfl

theorem Solo.ignore (h : Solo exec p s r s') : Solo exec (Fallible.ignore p) s (.ok ()) s' := by
  show (p.run.bind _).solo exec s = _
  rw [Task.solo_bind, h]
  rfl

/-- A loop whose rounds succeed and leave the state as it is. -/
theorem Solo.fold_pure {g : σ → β → σ}
    (hf : ∀ t, ∀ x ∈ xs, Solo exec (f t x) s (.ok (g t x)) s) (t : σ) :
    Solo exec (Fallible.fold f xs t) s (.ok (xs.foldl g t)) s := by
  induction xs generalizing t with
  | nil => exact solo_pure _ _
  | cons x xs ih =>
    exact (hf t x List.mem_cons_self).bind (ih (fun t y hy => hf t y (List.mem_cons_of_mem x hy)) _)

/-- Joined functions that succeed and leave the state as it is. -/
theorem Solo.join {f : β → Fallible ε Op R α} {g : β → α}
    (hf : ∀ x ∈ xs, Solo exec (f x) s (.ok (g x)) s) :
    Solo exec (Fallible.join (xs.map f)) s (.ok (xs.map g)) s := by
  have hall : (Task.forkAll ((xs.map f).map ExceptT.run)).solo exec s =
      some (s, xs.map fun x => .ok (g x)) := by
    induction xs with
    | nil => rfl
    | cons x xs ih =>
      have hx : (f x).run.solo exec s = some (s, .ok (g x)) := hf x List.mem_cons_self
      show ((f x).run.solo exec s).bind _ = _
      rw [hx]
      show ((Task.forkAll ((xs.map f).map ExceptT.run)).solo exec s).bind _ = _
      rw [ih fun y hy => hf y (List.mem_cons_of_mem x hy)]
      rfl
  have hseq : Fallible.sequence (xs.map fun x => (.ok (g x) : Except ε α)) = .ok (xs.map g) := by
    clear hf hall
    induction xs with
    | nil => rfl
    | cons x xs ih =>
      rw [List.map_cons, Fallible.sequence, ih]
      rfl
  show ((Task.forkAll ((xs.map f).map ExceptT.run)).bind _).solo exec s = _
  rw [Task.solo_bind, hall]
  show some (s, Fallible.sequence (xs.map fun x => (.ok (g x) : Except ε α))) = _
  rw [hseq]

/-- The solo run is one of the runs. -/
theorem Solo.yields
    (hex : ∀ o s s' r, exec' o true s = some (s', r) → ∃ b, ok s o b ∧ exec o b s = some (s', r))
    (h : Solo exec' p s r s') : Yields exec ok p s r s' :=
  Runs.of_solo hex h

/-! ## Solo runs of the tasks of a pool -/

section Pool

variable {J E : Type} {sys : System Op R S J E} {rules : Rules Op S J E}

/-- The operations of task `i` that the rules admit. -/
def System.admitted (sys : System Op R S J E) (rules : Rules Op S J E) (i : ℕ) (j : J) (o : Op)
    (b : Bool) (s : S) : Option (S × R o) :=
  if rules.op i j s o b then sys.exec i j o b s else none

variable {j : J}

theorem Reaches.of_admitted {i : ℕ} {q : Prog Op R α}
    {ok : S → Op → Prop} (h : Reaches (sys.admitted rules i j) ok q s a s') :
    Reaches (sys.exec i j) (fun s o => rules.op i j s o true = true) q s a s' := by
  induction h with
  | pure a s => exact .pure a s
  | op _ hx _ ih =>
    rw [System.admitted] at hx
    split_ifs at hx with hrule
    exact .op hrule hx ih
  | choose b _ ih => exact .choose b ih

theorem Pool.run_then {p p' p'' : Pool Op R S J} (h : ∃ es, p.run sys rules es = some p')
    (h' : ∃ es, p'.run sys rules es = some p'') : ∃ es, p.run sys rules es = some p'' := by
  obtain ⟨es, hes⟩ := h
  obtain ⟨es', hes'⟩ := h'
  exact ⟨es ++ es', by rw [Pool.run_append, hes]; exact hes'⟩

variable {q : Fallible ε Op R α} {p : Pool Op R S J}

/-- A task of a pool executes a function by itself, and goes on with `k`. -/
theorem Pool.run_solo {i : ℕ}
    {k : Except ε α → Prog Op R Unit} (hi : p.threads[i]? = some (some (j, q.run.flatten.bind k)))
    (h : Solo (sys.admitted rules i j) q p.shared r s) :
    ∃ es, p.run sys rules es = some ⟨s, p.threads.set i (some (j, k r))⟩ :=
  Pool.run_of_reaches hi
    (Task.reaches_of_solo (q.run.uses_any fun _ _ => trivial) h :
      Reaches _ (fun _ _ => True) _ _ _ _).of_admitted

/-- It executes the first part of a function. -/
theorem Pool.run_solo_bind {i : ℕ} {f : α → Fallible ε Op R β} {k : Except ε β → Prog Op R Unit}
    (hi : p.threads[i]? = some (some (j, (q >>= f).run.flatten.bind k)))
    (h : Solo (sys.admitted rules i j) q p.shared (.ok a) s) : ∃ es, p.run sys rules es =
      some ⟨s, p.threads.set i (some (j, (f a).run.flatten.bind k))⟩ := by
  have hbind : (q >>= f).run.flatten.bind k = q.run.flatten.bind fun r =>
      (ExceptT.bindCont f r : Task Op R (Except ε β)).flatten.bind k := by
    show (Task.bind q.run (ExceptT.bindCont f)).flatten.bind k = _
    rw [Task.flatten_bind, Prog.bind_assoc]
  rw [hbind] at hi
  exact Pool.run_solo hi h

theorem Pool.run_start (hcode : sys.code j = q.run.bind fun _ => .pure ())
    (hspawn : rules.spawn p.shared p.jobs j = true) : p.run sys rules [.spawn j] =
      some ⟨p.shared, p.threads ++ [some (j, q.run.flatten.bind fun _ => .pure ())]⟩ := by
  have hflat : (sys.code j).flatten = q.run.flatten.bind fun _ => .pure () := by
    rw [hcode, Task.flatten_bind]
    rfl
  rw [Pool.run, Pool.apply, if_pos hspawn, hflat]
  rfl

/-- A task is started and executed by itself. -/
theorem Pool.run_call (hcode : sys.code j = q.run.bind fun _ => .pure ())
    (hspawn : rules.spawn p.shared p.jobs j = true)
    (h : Solo (sys.admitted rules p.threads.length j) q p.shared r s) :
    ∃ es, p.run sys rules es = some ⟨s, p.threads ++ [some (j, .pure ())]⟩ := by
  have hi : (p.threads ++ [some (j, q.run.flatten.bind fun _ => .pure ())])[p.threads.length]? =
      some (some (j, q.run.flatten.bind fun _ => .pure ())) := by
    rw [List.getElem?_append_right (Nat.le_refl _), Nat.sub_self]
    rfl
  refine Pool.run_then ⟨_, Pool.run_start hcode hspawn⟩ ?_
  have hset : (p.threads ++ [some (j, q.run.flatten.bind fun _ => Prog.pure ())]).set
      p.threads.length (some (j, .pure ())) = p.threads ++ [some (j, .pure ())] := by
    rw [List.set_append_right _ _ (Nat.le_refl _), Nat.sub_self]
    rfl
  have hrun : ∃ es, Pool.run sys rules
      ⟨p.shared, p.threads ++ [some (j, q.run.flatten.bind fun _ => .pure ())]⟩ es = some _ :=
    Pool.run_solo hi h
  rw [← hset]
  exact hrun

end Pool

end Lib
