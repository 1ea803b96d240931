import Depot.Cargo.Crates

/-!
# Yanks at the same time as other writes

Any number of calls of `set_yanked` (`format/cargo/src/store.rs`, lines 215–242) for one version,
call by call of the store, with publishes and deletions of the version in between. `put_artifact`
(`core/src/service/artifact.rs`, lines 52–104) writes the record that the call has read before,
whatever it replaces.

Results:
* `YankState.Inv.apply`: what every event preserves.
* `YankState.yanks_framed`: a yank changes the flag and the time alone, unless a publish or a deletion has
  come after its read.

**A yank undoes what was written after its read.** The version check of `put_artifact` only
covers its own read, so a crate that was published or deleted before is put back.
-/

namespace Depot

open Lib
open Option (some.inj)

/-- A record as `put_artifact` writes it. -/
def CrateRecord.prepared (r : CrateRecord) (path : String) : CrateRecord :=
  { r with record := prepareRecord path r.record }

/-- Where a call is: before its read, before the read of the version, before the conditional
    write, or at its end. `since` counts the publishes and deletions before its read, `left` the
    attempts that are left. -/
inductive YankCall where
  | waiting (yanked : Bool)
  | holding (yanked : Bool) (record : CrateRecord) (since left : ℕ)
  | writing (yanked : Bool) (record : CrateRecord) (since left : ℕ) (expected : Option ℕ)
  | ended

/-- The record of a version and the calls. `replaced` counts the publishes and deletions, `last` is
    the flag of the yank that was completed last, if none of them came after it. -/
structure YankState where
  cell : Option (Versioned CrateRecord)
  calls : ℕ → YankCall
  replaced : ℕ := 0
  last : Option Bool := none

/-- A call goes on or fails, or the version is published or deleted. -/
inductive YankEvent where
  | read (i : ℕ) (now : DateTime)
  | readVersion (i : ℕ)
  | write (i : ℕ)
  | fail (i : ℕ)
  | publish (record : CrateRecord)
  | delete

namespace YankState

variable (path : String) (s : YankState)

/-- A call after its next operation. -/
def setCall (i : ℕ) (c : YankCall) : YankState := { s with calls := Function.update s.calls i c }

/-- What an event does. -/
def apply : YankEvent → Option YankState
  | .read i now =>
      match s.calls i with
      | .waiting yanked =>
          match s.cell with
          | none => some (s.setCall i .ended)
          | some c =>
              match c.value.cargo with
              | none => some (s.setCall i .ended)
              | some m =>
                  some (s.setCall i (.holding yanked (c.value.flagged now m yanked) s.replaced 3))
      | _ => none
  | .readVersion i =>
      match s.calls i with
      | .holding yanked record since left =>
          some (s.setCall i (.writing yanked record since left (s.cell.map Versioned.version)))
      | _ => none
  | .write i =>
      match s.calls i with
      | .writing yanked record since left expected =>
          let put : CellOp CrateRecord := .putIf (record.prepared path) expected
          if put.enabled s.cell then
            some { s.setCall i .ended with cell := put.written s.cell, last := some yanked }
          else if left ≤ 1 then some (s.setCall i .ended)
          else some (s.setCall i (.holding yanked record since (left - 1)))
      | _ => none
  | .fail i => some (s.setCall i .ended)
  | .publish record =>
      some { s with
        cell := (CellOp.put (record.prepared path)).written s.cell
        replaced := s.replaced + 1
        last := none }
  | .delete => some { s with cell := none, replaced := s.replaced + 1, last := none }

/-! ## The property -/

/-- The record that is written is the one before with another flag and another time. -/
def Reflags (yanked : Bool) (before after : Option (Versioned CrateRecord)) : Prop :=
  ∃ c m now, before = some c ∧ c.value.cargo = some m ∧
    after.map Versioned.value = some (c.value.flagged now m yanked)

/-- The calls change at most the flag and the time, and the last yank decides the flag. -/
def Framed (s s' : YankState) : YankEvent → Prop
  | .publish _ => True
  | .delete => True
  | _ => (s'.cell = s.cell ∨ ∃ yanked, Reflags yanked s.cell s'.cell) ∧
      ∀ yanked, s'.last = some yanked → ∃ c m, s'.cell = some c ∧ c.value.cargo = some m ∧
        m.yanked = yanked

/-- Every event of a run is framed. -/
def FramedRun : YankState → List YankEvent → Prop
  | _, [] => True
  | s, e :: es => ∀ s', s.apply path e = some s' → Framed s s' e ∧ FramedRun s' es

/-- The condition on an event: when a call writes, no publish and no deletion has come after its
    read. -/
def Careful : YankEvent → Prop
  | .write i => ∀ yanked record since left expected,
      s.calls i = .writing yanked record since left expected →
        (CellOp.putIf record expected).enabled s.cell = true → since = s.replaced
  | _ => True

/-- The condition on a run. -/
def CarefulRun : YankState → List YankEvent → Prop
  | _, [] => True
  | s, e :: es => Careful s e ∧ ∀ s', s.apply path e = some s' → CarefulRun s' es

/-- No call has begun, and the record was written by `put_artifact`. -/
structure Started : Prop where
  calls : ∀ i, ∃ yanked, s.calls i = .waiting yanked
  stored : ∀ c, s.cell = some c → c.value.prepared path = c.value
  last : s.last = none

/-! ## What every event preserves -/

/-- The record that a call holds. -/
def holds : YankCall → Option (Bool × CrateRecord × ℕ)
  | .holding yanked record since _ => some (yanked, record, since)
  | .writing yanked record since _ _ => some (yanked, record, since)
  | _ => none

/-- What a call holds was read from the record that is stored, unless a publish or a deletion has
    come in between. -/
structure Inv : Prop where
  stored : ∀ c, s.cell = some c → c.value.prepared path = c.value
  last : ∀ yanked, s.last = some yanked → ∃ c m, s.cell = some c ∧ c.value.cargo = some m ∧
    m.yanked = yanked
  held : ∀ i yanked record since, holds (s.calls i) = some (yanked, record, since) →
    since ≤ s.replaced ∧ (since = s.replaced → ∃ c m now, s.cell = some c ∧
      c.value.cargo = some m ∧ record = c.value.flagged now m yanked)

variable {path s} {s' : YankState}

theorem prepared_prepared (r : CrateRecord) : (r.prepared path).prepared path = r.prepared path := by
  simp only [CrateRecord.prepared, prepareRecord]
  split_ifs <;> simp_all

theorem Inv.start (h : s.Started path) : s.Inv path where
  stored := h.stored
  last yanked hlast := by
    rw [h.last] at hlast
    cases hlast
  held i yanked record since hheld := by
    obtain ⟨y, hy⟩ := h.calls i
    rw [hy] at hheld
    cases hheld

/-- A call holds what it held, nothing, or what is stored. -/
theorem Inv.setCall (h : s.Inv path) {i : ℕ} {c : YankCall}
    (hc : holds c = none ∨ holds c = holds (s.calls i) ∨ ∃ yanked v m now, s.cell = some v ∧
      v.value.cargo = some m ∧ holds c = some (yanked, v.value.flagged now m yanked, s.replaced)) :
    (s.setCall i c).Inv path where
  stored := h.stored
  last := h.last
  held j yanked record since hheld := by
    by_cases hj : j = i
    · subst hj
      simp only [YankState.setCall, Function.update_self] at hheld
      rcases hc with hc | hc | ⟨y, v, m, now, hv, hm, hc⟩
      · rw [hc] at hheld
        cases hheld
      · exact h.held j yanked record since (hc ▸ hheld)
      · rw [hc] at hheld
        obtain ⟨rfl, hrest⟩ := Prod.mk.inj (some.inj hheld)
        obtain ⟨rfl, rfl⟩ := Prod.mk.inj hrest
        exact ⟨le_rfl, fun _ => ⟨v, m, now, hv, hm, rfl⟩⟩
    · simp only [YankState.setCall, Function.update_of_ne hj] at hheld
      exact h.held j yanked record since hheld

/-- A publish or a deletion comes after the reads of all calls. -/
theorem Inv.replace (h : s.Inv path) {cell : Option (Versioned CrateRecord)}
    (hcell : ∀ c, cell = some c → c.value.prepared path = c.value) :
    ({ s with cell := cell, replaced := s.replaced + 1, last := none } : YankState).Inv path where
  stored := hcell
  last _ hlast := by cases hlast
  held i yanked record since hheld := by
    have hle := (h.held i yanked record since hheld).1
    exact ⟨Nat.le_succ_of_le hle, fun heq => absurd heq (Nat.ne_of_lt (Nat.lt_succ_of_le hle))⟩

/-- A conditional write that is not late changes the flag and the time. -/
theorem Inv.write (h : s.Inv path) {i left : ℕ} {yanked : Bool} {record : CrateRecord}
    {expected : Option ℕ} (hcall : s.calls i = .writing yanked record s.replaced left expected) :
    ({ s.setCall i .ended with
        cell := (CellOp.putIf (record.prepared path) expected).written s.cell
        last := some yanked } : YankState).Inv path ∧
      Reflags yanked s.cell ((CellOp.putIf (record.prepared path) expected).written s.cell) := by
  have hholds : holds (s.calls i) = some (yanked, record, s.replaced) := by rw [hcall]; rfl
  obtain ⟨c, m, now, hc, hm, rfl⟩ := (h.held i yanked record s.replaced hholds).2 rfl
  have hvalue : (c.value.flagged now m yanked).prepared path = c.value.flagged now m yanked := by
    have hstored := h.stored c hc
    exact congrArg (fun r : CrateRecord => r.flagged now m yanked) hstored
  rw [hvalue]
  refine ⟨⟨?_, ?_, ?_⟩, ⟨c, m, now, hc, hm, rfl⟩⟩
  · intro v hv
    obtain rfl := some.inj hv
    exact hvalue
  · intro y hy
    obtain rfl := some.inj hy
    exact ⟨_, _, rfl, rfl, rfl⟩
  · intro j y r since hheld
    have hold := (h.setCall (i := i) (c := .ended) (.inl rfl)).held j y r since hheld
    refine ⟨hold.1, fun hsince => ?_⟩
    obtain ⟨c', m', now', hc', hm', rfl⟩ := hold.2 hsince
    obtain rfl := some.inj (hc.symm.trans hc')
    obtain rfl := some.inj (hm.symm.trans hm')
    exact ⟨_, _, now', rfl, rfl, rfl⟩

/-- Every careful event keeps the invariant and is framed. -/
theorem Inv.apply (h : s.Inv path) {e : YankEvent} (hcareful : s.Careful e)
    (happly : s.apply path e = some s') : s'.Inv path ∧ Framed s s' e := by
  -- What leaves the record as it is.
  have hquiet : ∀ i c, (s.setCall i c).Inv path → ((s.setCall i c).cell = s.cell ∨
      ∃ yanked, Reflags yanked s.cell (s.setCall i c).cell) ∧
      ∀ yanked, (s.setCall i c).last = some yanked → ∃ v m, (s.setCall i c).cell = some v ∧
        v.value.cargo = some m ∧ m.yanked = yanked := fun i c hinv => ⟨.inl rfl, hinv.last⟩
  cases e with
  | read i now =>
    simp only [YankState.apply] at happly
    split at happly
    · rename_i yanked hcall
      split at happly
      · obtain rfl := some.inj happly
        have hinv := h.setCall (i := i) (c := .ended) (.inl rfl)
        exact ⟨hinv, hquiet _ _ hinv⟩
      · rename_i c hc
        split at happly
        · obtain rfl := some.inj happly
          have hinv := h.setCall (i := i) (c := .ended) (.inl rfl)
          exact ⟨hinv, hquiet _ _ hinv⟩
        · rename_i m hm
          obtain rfl := some.inj happly
          have hinv := h.setCall (i := i)
            (c := .holding yanked (c.value.flagged now m yanked) s.replaced 3)
            (.inr (.inr ⟨yanked, c, m, now, hc, hm, rfl⟩))
          exact ⟨hinv, hquiet _ _ hinv⟩
    · cases happly
  | readVersion i =>
    simp only [YankState.apply] at happly
    split at happly
    · rename_i yanked record since left hcall
      obtain rfl := some.inj happly
      have hsame : holds (.writing yanked record since left (s.cell.map Versioned.version)) =
          holds (s.calls i) := by
        rw [hcall]
        rfl
      have hinv := h.setCall (.inr (.inl hsame))
      exact ⟨hinv, hquiet _ _ hinv⟩
    · cases happly
  | write i =>
    simp only [YankState.apply] at happly
    split at happly
    · rename_i yanked record since left expected hcall
      split_ifs at happly with henabled hleft
      · obtain rfl := some.inj happly
        have hsince : since = s.replaced := by
          refine hcareful yanked record since left expected hcall ?_
          rw [← henabled]
          cases expected <;> rfl
        subst hsince
        obtain ⟨hinv, hframe⟩ := h.write hcall
        exact ⟨hinv, .inr ⟨yanked, hframe⟩, hinv.last⟩
      · obtain rfl := some.inj happly
        have hinv := h.setCall (i := i) (c := .ended) (.inl rfl)
        exact ⟨hinv, hquiet _ _ hinv⟩
      · obtain rfl := some.inj happly
        have hsame : holds (.holding yanked record since (left - 1)) = holds (s.calls i) := by
          rw [hcall]
          rfl
        have hinv := h.setCall (.inr (.inl hsame))
        exact ⟨hinv, hquiet _ _ hinv⟩
    · cases happly
  | fail i =>
    obtain rfl := some.inj happly
    have hinv := h.setCall (i := i) (c := .ended) (.inl rfl)
    exact ⟨hinv, hquiet _ _ hinv⟩
  | publish record =>
    obtain rfl := some.inj happly
    refine ⟨h.replace fun c hc => ?_, trivial⟩
    simp only [CellOp.written, Option.some.injEq] at hc
    subst hc
    exact prepared_prepared record
  | delete =>
    obtain rfl := some.inj happly
    exact ⟨h.replace fun c hc => (by cases hc), trivial⟩

theorem Inv.framedRun {es : List YankEvent} (h : s.Inv path) (hcareful : s.CarefulRun path es) :
    s.FramedRun path es := by
  induction es generalizing s with
  | nil => trivial
  | cons e es ih =>
    intro s' happly
    obtain ⟨hinv, hframed⟩ := h.apply hcareful.1 happly
    exact ⟨hframed, ih hinv (hcareful.2 s' happly)⟩

/-- **Main theorem.** When no publish and no deletion comes between the read and the write of a
    yank, every yank changes at most the flag and the time, and the last one decides the flag. -/
theorem yanks_framed {es : List YankEvent} (hs : s.Started path)
    (hcareful : s.CarefulRun path es) : s.FramedRun path es :=
  (Inv.start hs).framedRun hcareful

/-! ## A deletion that is undone -/

/-- The metadata of a version. -/
def sampleMeta : CrateVersionMeta where
  name := "a"
  vers := "1"
  deps := []
  cksum := ""
  features := "{}"
  features2 := none
  yanked := false
  links := none
  rustVersion := none

/-- A version that two calls are to yank. -/
def oneVersion : YankState where
  cell := some ⟨1, ({ record := recordAt 1 0 "application/x-tar" .cargoCrate false none
                      cargo := some sampleMeta } : CrateRecord).prepared "p"⟩
  calls _ := .waiting true

theorem started_oneVersion : oneVersion.Started "p" where
  calls _ := ⟨true, rfl⟩
  stored c hc := by
    obtain rfl := some.inj hc
    exact prepared_prepared _
  last := rfl

/-- Two yanks, one after the other's read. -/
theorem yanks_framed_two : oneVersion.FramedRun "p"
    [.read 0 5, .read 1 6, .readVersion 0, .write 0, .readVersion 1, .write 1] := by
  refine yanks_framed started_oneVersion ⟨trivial, fun s₁ h₁ => ?_⟩
  obtain rfl := some.inj h₁
  refine ⟨trivial, fun s₂ h₂ => ?_⟩
  obtain rfl := some.inj h₂
  refine ⟨trivial, fun s₃ h₃ => ?_⟩
  obtain rfl := some.inj h₃
  refine ⟨fun y r since left expected h _ => (YankCall.writing.inj h).2.2.1.symm, fun s₄ h₄ => ?_⟩
  obtain rfl := some.inj h₄
  refine ⟨trivial, fun s₅ h₅ => ?_⟩
  obtain rfl := some.inj h₅
  exact ⟨fun y r since left expected h _ => (YankCall.writing.inj h).2.2.1.symm, fun _ _ => trivial⟩

/-- A yank restores a version that was deleted after its read. -/
theorem deletion_undone : ¬∀ (path : String) (s : YankState) (es : List YankEvent),
    s.Started path → s.FramedRun path es := by
  intro hall
  have hrun := hall "p" oneVersion [.read 0 5, .delete, .readVersion 0, .write 0] started_oneVersion
  obtain ⟨⟨hcell, -⟩, -⟩ := (((hrun _ rfl).2 _ rfl).2 _ rfl).2 _ rfl
  rcases hcell with hcell | ⟨yanked, c, m, now, hc, -⟩
  · cases hcell
  · cases hc

end YankState

end Depot
