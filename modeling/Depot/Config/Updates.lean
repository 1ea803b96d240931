import Depot.Core.Settings
import Depot.Lib.Versioned
import Mathlib.Logic.Function.Basic

/-!
# Partial updates of the settings

`PUT /api/v1/settings` (`server/src/server/api/settings.rs`, lines 54–108) on any number of
instances, with their periodic refresh (`config/settings.rs`, lines 366–381) and restores
(`api/backup.rs`, lines 206–219), in any order of their steps. A request reads the copy of its
instance, writes the whole document, and then replaces the copy; a refresh reads the document and
then replaces the copy. Any of them may be overtaken by others between two of its steps.

Results:
* `mergeSettings_ok`: the settings that a request writes.
* `UpdatesInv.step`: a copy that has seen every update is what is stored, whatever happens next.
* `settings_compose`: when the updates compose.

**An update is merged over the copy of its instance**, and what it has not named is written back as
it was there: an update that another instance has made in the meantime is undone. A restore checks
nothing.
-/

namespace Depot.Config

open Lib
open Function (update update_of_ne update_self)

variable {F V : Type}

/-- How settings are read from a JSON object with the fields `F`. -/
structure SettingsFormat (F V : Type) where
  /-- `serde_json::from_value`; what was read is a document again. -/
  fromValue : (F → V) → Except String (F → V)
  /-- The form in which the value of a field is written. -/
  norm : F → V → V
  fromValue_eq : ∀ {d d' : F → V}, fromValue d = .ok d' → ∀ f, d' f = norm f (d f)
  norm_norm : ∀ f v, norm f (norm f v) = norm f v
  /-- The fields that are checked. -/
  settings : (F → V) → Settings

variable (x : SettingsExt) (sf : SettingsFormat F V)

/-- Why an update of the settings is refused. -/
inductive UpdateError
  | auth (text : String)
  | badRequest (text : String)

/-- `put_settings` up to the write. The body is an object, which names some fields, or something
    else. -/
def mergeSettings (admin : Except String Unit) (current : F → V) (body : Option (F → Option V)) :
    Except UpdateError (F → V) :=
  match admin with
  | .error e => .error (.auth e)
  | .ok () =>
    match body with
    | none => .error (.badRequest "settings body must be a JSON object")
    | some patch =>
      match sf.fromValue fun f => (patch f).getD (current f) with
      | .error e => .error (.badRequest ("invalid settings: " ++ e))
      | .ok new =>
        match (sf.settings new).validate x with
        | .error errors => .error (.badRequest ("invalid settings: " ++ "; ".intercalate errors))
        | .ok () => .ok new

/-- Settings on their way to the store, and from there to the copy of a server: the copy that an
    update was merged over, what it names, and what it writes. The copy, or after the write the new
    settings, have `seen` so many updates. -/
structure SettingsUpdate (F V : Type) where
  server : ℕ
  base : F → V
  patch : F → Option V
  new : F → V
  seen : ℕ
  saved : Bool := false

/-- The instances, and the updates that went through, the last one first; `seen` is how many of
    them had gone through when the settings that an instance holds were stored. -/
structure SettingsCluster (F V : Type) where
  stored : F → V
  memory : ℕ → F → V
  seen : ℕ → ℕ := fun _ => 0
  pending : ℕ → Option (SettingsUpdate F V) := fun _ => none
  done : List (F → Option V) := []

/-- What may happen next. -/
inductive SettingsAction (F V : Type)
  | put (i server : ℕ) (admin : Except String Unit) (body : Option (F → Option V))
  | restore (i server : ℕ) (document : F → V)
  | save (i : ℕ) (ok : Bool)
  | keep (i : ℕ)
  | refresh (i server : ℕ)

namespace SettingsCluster

/-- A request reads the copy of its instance; later it writes to the store, and then to the copy. -/
def step (s : SettingsCluster F V) : SettingsAction F V → SettingsCluster F V
  | .put i server admin body =>
    match s.pending i, body, mergeSettings x sf admin (s.memory server) body with
    | none, some patch, .ok new =>
      { s with
        pending := update s.pending i
          (some ⟨server, s.memory server, patch, new, s.seen server, false⟩) }
    | _, _, _ => s
  | .restore i server document =>
    match s.pending i, sf.fromValue document with
    | none, .ok d =>
      { s with
        pending := update s.pending i (some ⟨server, d, some ∘ d, d, s.seen server, false⟩) }
    | _, _ => s
  | .save i ok =>
    match s.pending i with
    | none => s
    | some u =>
      if u.saved then s
      else if ok then
        { s with
          stored := u.new
          done := u.patch :: s.done
          pending := update s.pending i
            (some { u with seen := s.done.length + 1, saved := true }) }
      else { s with pending := update s.pending i none }
  | .keep i =>
    match s.pending i with
    | none => s
    | some u =>
      if u.saved then
        { s with
          memory := update s.memory u.server u.new
          seen := update s.seen u.server u.seen
          pending := update s.pending i none }
      else s
  | .refresh i server =>
    match s.pending i with
    | none =>
      { s with
        pending := update s.pending i
          (some ⟨server, s.stored, fun _ => none, s.stored, s.done.length, true⟩) }
    | some _ => s

/-- All instances have loaded the settings. -/
def start (old : F → V) : SettingsCluster F V := { stored := old, memory := fun _ => old }

/-- Each field has the value of the last update that names it, or its old one, and the stored
    settings are valid. -/
structure Composed (old : F → V) (s : SettingsCluster F V) : Prop where
  value : ∀ f, s.stored f = ((s.done.findSome? (· f)).map (sf.norm f)).getD (old f)
  valid : (sf.settings s.stored).validate x = .ok ()

/-- When an update that leaves a field out is saved, the copy it was merged over has seen every
    update that went through; settings that are restored are valid. -/
def Careful (s : SettingsCluster F V) : SettingsAction F V → Prop
  | .save i true => ∀ u, s.pending i = some u → (∃ f, u.patch f = none) → u.seen = s.done.length
  | .restore _ _ document =>
    ∀ d, sf.fromValue document = .ok d → (sf.settings d).validate x = .ok ()
  | _ => True

end SettingsCluster

open SettingsCluster

variable {x sf} {old : F → V} {s : SettingsCluster F V}

/-- A request writes valid settings, its fields over those of the copy. -/
theorem mergeSettings_ok {admin : Except String Unit} {current new : F → V} {patch : F → Option V}
    (h : mergeSettings x sf admin current (some patch) = .ok new) :
    (∀ f, new f = sf.norm f ((patch f).getD (current f))) ∧
      (sf.settings new).validate x = .ok () := by
  unfold mergeSettings at h
  split at h
  · cases h
  · dsimp only at h
    split at h
    · cases h
    · rename_i d hread
      split at h
      · cases h
      · rename_i hvalid
        cases h
        exact ⟨sf.fromValue_eq hread, hvalid⟩

/-- A document as it is written. -/
def Normal (sf : SettingsFormat F V) (d : F → V) : Prop := ∀ f, sf.norm f (d f) = d f

theorem normal_of_norm {d d' : F → V} (h : ∀ f, d' f = sf.norm f (d f)) : Normal sf d' := fun f => by
  rw [h, sf.norm_norm]

/-- Settings that have seen every update are what is stored. -/
def Current (s : SettingsCluster F V) (seen : ℕ) (d : F → V) : Prop :=
  seen ≤ s.done.length ∧ (seen = s.done.length → d = s.stored)

/-- Settings on their way: valid and merged, and the copy as current as it is said to be. -/
structure UpdateOk (x : SettingsExt) (sf : SettingsFormat F V) (s : SettingsCluster F V)
    (u : SettingsUpdate F V) : Prop where
  normal : Normal sf u.new
  merged : ∀ f, u.new f = ((u.patch f).map (sf.norm f)).getD (u.base f)
  valid : (sf.settings u.new).validate x = .ok ()
  base : u.saved = false → (∃ f, u.patch f = none) → Current s u.seen u.base
  new : u.saved = true → Current s u.seen u.new

/-- What holds in every state: the copies are settings, a copy that has seen all updates is the
    stored document, and the updates have composed, as the pending ones will. -/
structure UpdatesInv (x : SettingsExt) (sf : SettingsFormat F V) (old : F → V)
    (s : SettingsCluster F V) : Prop where
  stored : Normal sf s.stored
  memory : ∀ server, Normal sf (s.memory server)
  current : ∀ server, Current s (s.seen server) (s.memory server)
  pending : ∀ i u, s.pending i = some u → UpdateOk x sf s u
  composed : Composed x sf old s

/-- Other settings on their way, or none, in the place of some. -/
theorem UpdatesInv.setPending (h : UpdatesInv x sf old s) (i : ℕ) {o : Option (SettingsUpdate F V)}
    (ho : ∀ u, o = some u → UpdateOk x sf s u) :
    UpdatesInv x sf old { s with pending := update s.pending i o } := by
  refine ⟨h.stored, h.memory, h.current, fun i' u hu => ?_, h.composed.value, h.composed.valid⟩
  change update s.pending i o i' = some u at hu
  have hok : UpdateOk x sf s u := by
    by_cases hi : i' = i
    · subst hi
      exact ho u (by rwa [update_self] at hu)
    · exact h.pending i' u (by rwa [update_of_ne hi] at hu)
  exact ⟨hok.normal, hok.merged, hok.valid, hok.base, hok.new⟩

/-- An update that goes through leaves every copy behind. -/
theorem Current.outdated {seen : ℕ} {d : F → V} (h : Current s seen d) (new : F → V)
    (patch : F → Option V) : Current { s with stored := new, done := patch :: s.done } seen d := by
  have hlt : seen < (patch :: s.done).length := Nat.lt_succ_of_le h.1
  exact ⟨hlt.le, fun heq => absurd heq hlt.ne⟩

/-- An update that goes through was merged over what is stored, or names every field. -/
theorem UpdatesInv.saved (h : UpdatesInv x sf old s) {i : ℕ} {u : SettingsUpdate F V}
    (hu : s.pending i = some u) (hunsaved : u.saved = false)
    (hseen : (∃ f, u.patch f = none) → u.seen = s.done.length) :
    UpdatesInv x sf old { s with stored := u.new, done := u.patch :: s.done } := by
  have hok := h.pending i u hu
  refine ⟨hok.normal, h.memory, fun server => (h.current server).outdated _ _,
    fun i' u' hu' => ?_, fun f => ?_, hok.valid⟩
  · have hok' := h.pending i' u' hu'
    exact ⟨hok'.normal, hok'.merged, hok'.valid, fun hs hp => (hok'.base hs hp).outdated _ _,
      fun hs => (hok'.new hs).outdated _ _⟩
  · have hnew := hok.merged f
    cases hf : u.patch f with
    | some v => simpa [hf] using hnew
    | none =>
      -- the field is written back as it was in the copy, which is what is stored
      have hbase : u.base = s.stored := (hok.base hunsaved ⟨f, hf⟩).2 (hseen ⟨f, hf⟩)
      rw [hf, hbase] at hnew
      simpa [hf, hnew] using h.composed.value f

theorem UpdatesInv.step (h : UpdatesInv x sf old s) (a : SettingsAction F V)
    (ha : s.Careful x sf a) : UpdatesInv x sf old (s.step x sf a) := by
  cases a with
  | put i server admin body =>
    simp only [SettingsCluster.step]
    split
    · rename_i patch new _ hmerge
      obtain ⟨hnew, hvalid⟩ := mergeSettings_ok hmerge
      refine h.setPending i fun u hu => ?_
      cases hu
      refine ⟨normal_of_norm hnew, fun f => ?_, hvalid, fun _ _ => h.current server, nofun⟩
      dsimp only
      rw [hnew]
      cases patch f with
      | none => exact h.memory server f
      | some v => rfl
    · exact h
  | restore i server document =>
    simp only [SettingsCluster.step]
    split
    · rename_i d _ hread
      have hd := normal_of_norm (sf.fromValue_eq hread)
      refine h.setPending i fun u hu => ?_
      cases hu
      exact ⟨hd, fun f => (hd f).symm, ha d hread, fun _ ⟨f, hf⟩ => absurd hf nofun, nofun⟩
    · exact h
  | save i ok =>
    simp only [SettingsCluster.step]
    split
    · exact h
    · rename_i u hu
      split_ifs with hsaved hok
      · exact h
      · subst hok
        have hok := h.pending i u hu
        refine (h.saved hu (by simpa using hsaved) (ha u hu)).setPending i fun u' hu' => ?_
        cases hu'
        exact ⟨hok.normal, hok.merged, hok.valid, nofun, fun _ => ⟨le_rfl, fun _ => rfl⟩⟩
      · exact h.setPending i nofun
  | keep i =>
    simp only [SettingsCluster.step]
    split
    · exact h
    · rename_i u hu
      split_ifs with hsaved
      · have hok := h.pending i u hu
        refine UpdatesInv.setPending
          (s := { s with
            memory := update s.memory u.server u.new
            seen := update s.seen u.server u.seen })
          ⟨h.stored, fun server => ?_, fun server => ?_, fun i' u' hu' => ?_, h.composed.value,
            h.composed.valid⟩ i nofun
        · by_cases hs : server = u.server
          · rw [hs]
            simpa using hok.normal
          · simpa [update_of_ne hs] using h.memory server
        · show Current s (update s.seen u.server u.seen server)
            (update s.memory u.server u.new server)
          by_cases hs : server = u.server
          · rw [hs, update_self, update_self]
            exact hok.new hsaved
          · rw [update_of_ne hs, update_of_ne hs]
            exact h.current server
        · have hok' := h.pending i' u' hu'
          exact ⟨hok'.normal, hok'.merged, hok'.valid, hok'.base, hok'.new⟩
      · exact h
  | refresh i server =>
    simp only [SettingsCluster.step]
    split
    · refine h.setPending i fun u hu => ?_
      cases hu
      exact ⟨h.stored, fun _ => rfl, h.composed.valid, nofun, fun _ => ⟨le_rfl, fun _ => rfl⟩⟩
    · exact h

/-- **Main theorem.** If every update that is saved and leaves a field out was merged over a copy
    that has seen all updates before it, and every restore has valid settings, the updates
    compose. -/
theorem settings_compose (hread : sf.fromValue old = .ok old)
    (hvalid : (sf.settings old).validate x = .ok ()) {actions : List (SettingsAction F V)}
    (h : Along (SettingsCluster.step x sf) (Careful x sf) (SettingsCluster.start old) actions) :
    Composed x sf old (runOps (SettingsCluster.step x sf) (SettingsCluster.start old) actions) := by
  have hold : Normal sf old := fun f => (sf.fromValue_eq hread f).symm
  have hinv : UpdatesInv x sf old (SettingsCluster.start old) :=
    ⟨hold, fun _ => hold, fun _ => ⟨le_rfl, fun _ => rfl⟩, nofun, fun _ => rfl, hvalid⟩
  exact (h.preserves (I := UpdatesInv x sf old) (fun s a hs ha => hs.step a ha) hinv).composed

/-! ## An update that is lost -/

/-- A format in which every document is read as it is. -/
def SettingsFormat.plain : SettingsFormat String String where
  fromValue d := .ok d
  norm _ v := v
  fromValue_eq h _ := by rw [Except.ok.inj h]
  norm_norm _ _ := rfl
  settings _ := {}

/-- Parsers that accept every text. -/
def anyParsers : SettingsExt := ⟨fun _ => true, fun _ => none, id⟩

/-- The request that names one field. -/
def putAction (i server : ℕ) (field value : String) : SettingsAction String String :=
  .put i server (.ok ()) (some fun f => if f = field then some value else none)

/-- Two instances: the update of the first one goes through while the second one has a request
    that is never saved; the second one refreshes, and its next update is merged over what it has
    read while the first one still replaces its copy. -/
def interleaved : List (SettingsAction String String) :=
  [putAction 0 0 "access_log" "false", putAction 1 1 "base_url" "lost", .save 0 true, .save 1 false,
    .refresh 2 1, .keep 2, putAction 3 1 "base_url" "null", .keep 0, .save 3 true, .keep 3]

/-- Both updates are there. -/
theorem settings_compose_two :
    Composed anyParsers .plain (fun _ => "true") (runOps (SettingsCluster.step anyParsers .plain)
        (SettingsCluster.start fun _ => "true") interleaved) ∧
      (runOps (SettingsCluster.step anyParsers .plain) (SettingsCluster.start fun _ => "true")
        interleaved).stored "access_log" = "false" ∧
      (runOps (SettingsCluster.step anyParsers .plain) (SettingsCluster.start fun _ => "true")
        interleaved).stored "base_url" = "null" :=
  ⟨settings_compose rfl rfl ⟨trivial, trivial, fun u hu _ => by cases hu; rfl, trivial, trivial,
    trivial, trivial, trivial, fun u hu _ => by cases hu; rfl, trivial, trivial⟩, by decide, by decide⟩

/-- The second of two instances has not yet seen the update of the first one. -/
theorem update_lost : ¬∀ (x : SettingsExt) (sf : SettingsFormat String String)
    (old : String → String) (actions : List (SettingsAction String String)),
    sf.fromValue old = .ok old → (sf.settings old).validate x = .ok () →
    (∀ i server d, .restore i server d ∉ actions) →
      Composed x sf old
        (runOps (SettingsCluster.step x sf) (SettingsCluster.start old) actions) := by
  intro hall
  have hlost := (hall anyParsers .plain (fun _ => "true")
    [putAction 0 0 "access_log" "false", .save 0 true, .keep 0, putAction 1 1 "base_url" "null",
      .save 1 true] rfl rfl (by simp [putAction])).value "access_log"
  exact absurd hlost (by decide)

end Depot.Config
