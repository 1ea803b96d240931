import Depot.Lib.Runs

/-!
# Functions that succeed

What a function that may fail leaves when it runs by itself and all its operations succeed, and
that it comes to an end at all. The sub-tasks of a join run one after the other.

Results:
* `Succeeds.bind`, `Succeeds.fold`, `Succeeds.join`: the rules for the ways of composing
  functions.
* `Succeeds.yields`: such a run is one of the runs of the function.
-/

namespace Lib

variable {Op : Type} {R : Op → Type} {S α β σ ε : Type}
variable {exec : (o : Op) → Bool → S → Option (S × R o)}

/-- By itself the function returns a result, and the result and the state satisfy `post`. -/
def Succeeds (exec : (o : Op) → Bool → S → Option (S × R o)) {α : Type} (p : Fallible ε Op R α)
    (s : S) (post : α → S → Prop) : Prop :=
  ∃ a s', Solo exec p s (.ok a) s' ∧ post a s'

variable {I : S → Prop} {xs : List β}

namespace Succeeds

variable {p : Fallible ε Op R α} {s : S} {post post' : α → S → Prop}

theorem pure {a : α} (h : post a s) : Succeeds exec (Pure.pure a : Fallible ε Op R α) s post :=
  ⟨a, s, solo_pure a s, h⟩

theorem mono (h : Succeeds exec p s post) (hpost : ∀ a s', post a s' → post' a s') :
    Succeeds exec p s post' := by
  obtain ⟨a, s', hrun, ha⟩ := h
  exact ⟨a, s', hrun, hpost a s' ha⟩

theorem bind {f : α → Fallible ε Op R β} {mid : α → S → Prop} {post : β → S → Prop}
    (hp : Succeeds exec p s mid) (hf : ∀ a s', mid a s' → Succeeds exec (f a) s' post) :
    Succeeds exec (p >>= f) s post := by
  obtain ⟨a, s', hrun, hmid⟩ := hp
  obtain ⟨b, s'', hrun', hpost⟩ := hf a s' hmid
  exact ⟨b, s'', hrun.bind hrun', hpost⟩

theorem issue {o : Op} {s' : S} {a : R o} {post : R o → S → Prop}
    (h : exec o true s = some (s', a)) (hpost : post a s') :
    Succeeds exec (Fallible.issue o : Fallible ε Op R (R o)) s post :=
  ⟨a, s', Solo.issue h, hpost⟩

theorem attempt {fail : Bool → ε} {o : Op} {f : R o → Option α} {s' : S} {a : R o} {c : α}
    (h : exec o true s = some (s', a)) (hf : f a = some c) (hpost : post c s') :
    Succeeds exec (Fallible.attempt fail o f) s post :=
  ⟨c, s', Solo.attempt h hf, hpost⟩

/-- A loop: what its rounds keep. -/
theorem fold {f : σ → β → Fallible ε Op R σ}
    (hf : ∀ t, ∀ x ∈ xs, ∀ s, I s → Succeeds exec (f t x) s fun _ => I) {t : σ} (hs : I s) :
    Succeeds exec (Fallible.fold f xs t) s fun _ => I := by
  induction xs generalizing t s with
  | nil => exact Succeeds.pure hs
  | cons x xs ih =>
    refine (hf t x List.mem_cons_self s hs).bind fun t' s' hs' => ?_
    exact ih (fun t y hy => hf t y (List.mem_cons_of_mem x hy)) hs'

theorem each {f : β → Fallible ε Op R Unit}
    (hf : ∀ x ∈ xs, ∀ s, I s → Succeeds exec (f x) s fun _ => I) (hs : I s) :
    Succeeds exec (Fallible.each f xs) s fun _ => I :=
  Succeeds.fold (fun _ => hf) hs

theorem sequence_map_ok (as : List α) :
    Fallible.sequence (as.map fun a => (.ok a : Except ε α)) = .ok as := by
  induction as with
  | nil => rfl
  | cons a as ih =>
    rw [List.map_cons, Fallible.sequence, ih]
    rfl

/-- Joined functions: what each of them keeps. -/
theorem join {f : β → Fallible ε Op R α}
    (hf : ∀ x ∈ xs, ∀ s, I s → Succeeds exec (f x) s fun _ => I) (hs : I s) :
    Succeeds exec (Fallible.join (xs.map f)) s fun _ => I := by
  have hall : ∃ (s' : S) (as : List α), (Task.forkAll ((xs.map f).map ExceptT.run)).solo exec s =
      some (s', as.map fun a => (.ok a : Except ε α)) ∧ I s' := by
    induction xs generalizing s with
    | nil => exact ⟨s, [], rfl, hs⟩
    | cons x xs ih =>
      obtain ⟨a, s1, hrun, hs1⟩ := hf x List.mem_cons_self s hs
      obtain ⟨s2, as, hrest, hs2⟩ := ih (fun y hy => hf y (List.mem_cons_of_mem x hy)) hs1
      refine ⟨s2, a :: as, ?_, hs2⟩
      have hx : (f x).run.solo exec s = some (s1, .ok a) := hrun
      show ((f x).run.solo exec s).bind _ = _
      rw [hx]
      show ((Task.forkAll ((xs.map f).map ExceptT.run)).solo exec s1).bind _ = _
      rw [hrest]
      rfl
  obtain ⟨s', as, hrun, hs'⟩ := hall
  refine ⟨as, s', ?_, hs'⟩
  show ((Task.forkAll ((xs.map f).map ExceptT.run)).bind _).solo exec s = _
  rw [Task.solo_bind, hrun]
  show some (s', Fallible.sequence (as.map fun a => (.ok a : Except ε α))) = _
  rw [sequence_map_ok]

/-- Such a run is one of the runs of the function, if a successful operation is admitted. -/
theorem yields {ok : S → Op → Bool → Prop} (hok : ∀ s o, ok s o true)
    (h : Succeeds exec p s post) : ∃ a s', Yields exec ok p s (.ok a) s' ∧ post a s' := by
  obtain ⟨a, s', hrun, hpost⟩ := h
  exact ⟨a, s', Solo.yields (fun o s _ _ hx => ⟨true, hok s o, hx⟩) hrun, hpost⟩

end Succeeds

end Lib
