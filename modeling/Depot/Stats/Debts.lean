import Depot.Stats.Ledger

/-!
# Outstanding updates

The proof outline for the ledger: a call owes the updates for the changes that
it has made and not yet reported. Most operations are quiet, writing or deleting
an artifact record makes a debt and `dir_changed` pays it.

Results:
* `quiet_triple`: quiet functions leave the debt as it is.
* `putArtifact_triple`, `deleteArtifact_triple`: what is due after a record was
  put or deleted.
* `dirChanged_triple`: what an update pays.
-/

namespace Depot

open Lib
open Fallible (Uses attempt)
open Function (update update_of_ne update_self)

/-! ## The proof outline -/

/-- Between two states, nothing in the ledger of call `i` has changed; it may
    have written blobs. -/
structure LedgerState.Kept (i : ℕ) (s s' : LedgerState) : Prop where
  made : s'.made i = s.made i
  sent : s'.sent i = s.sent i
  seen : s'.seen i = s.seen i
  failed : s'.failed i = s.failed i
  streamed : s.streamed i = true → s'.streamed i = true

theorem LedgerState.Kept.refl (i : ℕ) (s : LedgerState) : s.Kept i s :=
  ⟨rfl, rfl, rfl, rfl, id⟩

theorem LedgerState.Kept.trans {i : ℕ} {s s' s'' : LedgerState} (h : s.Kept i s')
    (h' : s'.Kept i s'') : s.Kept i s'' :=
  ⟨h'.made.trans h.made, h'.sent.trans h.sent, h'.seen.trans h.seen, h'.failed.trans h.failed,
    h'.streamed ∘ h.streamed⟩

/-- The ledger of a call belongs to it alone; a call that has not started has
    no entries. -/
def ledgerLogic : Logic LedgerState WriteJob Unit where
  inv w := ∀ k, w.jobs.length ≤ k →
    w.shared.made k = [] ∧ w.shared.sent k = [] ∧ w.shared.failed k = false
  rely i w w' := w.shared.Kept i w'.shared
  guar i w w' := ∀ k ≠ i, w.shared.Kept k w'.shared
  post i _ w := w.shared.Settled i
  rely_refl i w := .refl i w.shared
  rely_trans h h' := h.trans h'

variable {x : Ext} {cm : Bytes → List String × List String} {fuel : ℕ} {i : ℕ} {j : WriteJob}

theorem LedgerState.note_kept (s : LedgerState) (o : Op) (ok : Bool) (w : World) {k : ℕ}
    (hk : k ≠ i) : s.Kept k (s.note i o ok w) := by
  unfold LedgerState.note
  split
  · split_ifs
    · exact ⟨rfl, rfl, update_of_ne hk _ _, rfl, id⟩
    · exact ⟨rfl, rfl, rfl, rfl, id⟩
  · split_ifs
    · exact ⟨rfl, rfl, update_of_ne hk _ _, rfl, id⟩
    · exact ⟨rfl, rfl, rfl, update_of_ne hk _ _, id⟩
  · split_ifs
    · exact ⟨rfl, rfl, rfl, rfl, id⟩
    · exact ⟨rfl, rfl, rfl, update_of_ne hk _ _, id⟩
  · exact ⟨update_of_ne hk _ _, rfl, rfl, rfl, id⟩
  · exact ⟨rfl, update_of_ne hk _ _, rfl, rfl, id⟩
  · split_ifs
    · exact ⟨rfl, rfl, rfl, rfl, fun h => (update_of_ne hk _ _).trans h⟩
    · exact ⟨rfl, rfl, rfl, rfl, id⟩

variable {w : View LedgerState WriteJob Unit}

variable {s : LedgerState}

/-- Every operation keeps the invariant and to the guarantee. -/
theorem ledger_step {o : Op} {ok : Bool} {r : R o} (hi : (ledgerLogic.contract i j).inv w)
    (hx : (ledgerSystem x cm fuel).exec i j o ok w.shared = some (s, r)) :
    (ledgerLogic.contract i j).inv ⟨s, w.jobs, ()⟩ ∧
      (ledgerLogic.contract i j).guar w ⟨s, w.jobs, ()⟩ := by
  simp only [ledgerSystem, LedgerState.exec, Option.map_eq_some_iff, Prod.mk.injEq] at hx
  obtain ⟨⟨w', r'⟩, _, rfl, _⟩ := hx
  obtain ⟨hinv, hj⟩ := hi
  have hlt : i < w.jobs.length := (List.getElem?_eq_some_iff.mp hj).1
  refine ⟨⟨fun k hk => ?_, hj⟩, fun k hk => LedgerState.note_kept _ _ _ _ hk⟩
  have hkept : w.shared.Kept k (w.shared.note i o ok w') :=
    LedgerState.note_kept _ _ _ _ (fun h => absurd (h ▸ hk) (Nat.not_le.mpr hlt))
  obtain ⟨hm, hs, hf⟩ := hinv k hk
  exact ⟨hkept.made.trans hm, hkept.sent.trans hs, hkept.failed.trans hf⟩

/-! ## Debts -/

/-- An amount that is due at one directory. -/
def due (repo dir : String) (amount : ℤ × ℤ) (r d : String) : ℤ × ℤ :=
  if repo = r ∧ dir = d then amount else 0

/-- Call `i` has still to report `debt`, which an update holds; if `b`, it has
    written a blob. -/
def Owes (i : ℕ) (debt : String → String → ℤ × ℤ) (b : Bool)
    (w : View LedgerState WriteJob Unit) : Prop :=
  (b = true → w.shared.streamed i = true) ∧
    (∀ repo dir, fitsUpdate (debt repo dir) = true) ∧
    ∀ repo dir, booked (w.shared.made i) repo dir =
      reported (w.shared.sent i) repo dir + debt repo dir

theorem fitsUpdate_due {amount : ℤ × ℤ} (h : fitsUpdate amount = true) (repo dir r d : String) :
    fitsUpdate (due repo dir amount r d) = true := by
  unfold due
  split_ifs
  · exact h
  · decide

theorem due_zero (repo dir : String) : due repo dir 0 = 0 := by
  funext r d
  simp [due]

theorem booked_append (made made' : List Change) (repo dir : String) :
    booked (made ++ made') repo dir = booked made repo dir + booked made' repo dir := by
  simp [booked]

theorem reported_append (sent sent' : List Delta) (repo dir : String) :
    reported (sent ++ sent') repo dir = reported sent repo dir + reported sent' repo dir := by
  simp [reported]

variable {k : Key}

/-- A write books the difference at the directory of its key. -/
theorem booked_changes {w w' : World} (hk : k.part.table = .artifacts) :
    booked (LedgerState.changes w w' k) =
      due k.scope (parentDir k.sk) (tally (w'.cell k) - tally (w.cell k)) := by
  funext repo dir
  unfold LedgerState.changes
  split_ifs with h
  · simp [booked, due]
  · have hsame : tally (w'.cell k) = tally (w.cell k) := by
      by_contra hne
      exact h ⟨hk, hne⟩
    rw [hsame, sub_self, due_zero]
    rfl

theorem changes_of_table {w w' : World} (hk : k.part.table ≠ .artifacts) :
    LedgerState.changes w w' k = [] := if_neg fun h => hk h.1

theorem changes_of_same {w w' : World} (h : w'.cell k = w.cell k) :
    LedgerState.changes w w' k = [] := if_neg fun hne => hne.2 (by rw [h])

section

variable {debt : String → String → ℤ × ℤ} {b : Bool}

theorem Owes.stable : (ledgerLogic.contract i j).Stable (Owes i debt b) := by
  intro w w' _ _ hr hw
  obtain ⟨hb, hfits, hsum⟩ := hw
  refine ⟨fun h => hr.streamed (hb h), hfits, fun repo dir => ?_⟩
  rw [hr.made, hr.sent]
  exact hsum repo dir

variable {w : View LedgerState WriteJob Unit}

theorem Owes.settled (h : Owes i 0 b w) : w.shared.Settled i := fun repo dir => by
  rw [h.2.2 repo dir]
  exact (add_zero _).symm

/-- An operation that books and reports nothing. -/
theorem Owes.quiet (h : Owes i debt b w)
    (hm : s.made i = w.shared.made i) (hs : reported (s.sent i) = reported (w.shared.sent i))
    (hb : w.shared.streamed i = true → s.streamed i = true) : Owes i debt b ⟨s, w.jobs, ()⟩ := by
  obtain ⟨hstreamed, hfits, hsum⟩ := h
  refine ⟨fun h' => hb (hstreamed h'), hfits, fun repo dir => ?_⟩
  rw [hm, hs]
  exact hsum repo dir

end

/-! ## Quiet operations -/

/-- An operation that changes no artifact record and reports nothing; under the
    condition on a run, raising a stale flag is one. -/
def Quiet (j : WriteJob) (o : Op) : Prop :=
  (o.effect ≠ .dirStats ∧ o.effect ≠ .table .artifacts) ∨
    (j.raisesFlags = true ∧ ∃ k r, o = .write k (.putIf (.artifact r) none) ∧ r.internal = true)

/-- What functions may change that neither write artifact records nor report. -/
def quietEffects : List Effect :=
  [.files, .storeStats, .table .blobs, .table .dirEntries, .table .uploadSessions]

theorem Effects.quiet {α : Type} {p : Async α} (h : Effects quietEffects p) : Uses (Quiet j) p := by
  refine Uses.mono (fun o ho => .inl ?_) h
  rcases ho with hnone | hmem
  · rw [hnone]
    exact ⟨nofun, nofun⟩
  · refine ⟨fun h => ?_, fun h => ?_⟩
    · rw [h] at hmem
      exact absurd hmem (by decide)
    · rw [h] at hmem
      exact absurd hmem (by decide)

/-- The ledger of a call after one of its quiet operations. -/
theorem quiet_note {o : Op} {ok : Bool}
    {r : R o} (ho : Quiet j o) (hrule : ledgerRules.op i j w.shared o ok = true)
    (hx : (ledgerSystem x cm fuel).exec i j o ok w.shared = some (s, r)) :
    s.made i = w.shared.made i ∧ reported (s.sent i) = reported (w.shared.sent i) ∧
      (w.shared.streamed i = true → s.streamed i = true) := by
  simp only [ledgerSystem, LedgerState.exec, Option.map_eq_some_iff, Prod.mk.injEq] at hx
  obtain ⟨⟨w', r'⟩, hx, rfl, _⟩ := hx
  unfold LedgerState.note
  split
  · split_ifs <;> exact ⟨rfl, rfl, id⟩
  · split_ifs <;> exact ⟨rfl, rfl, id⟩
  · split_ifs <;> exact ⟨rfl, rfl, id⟩
  next k c _ =>
    have hnil : LedgerState.changes w.shared.world w' k = [] := by
      rcases ho with ⟨_, htable⟩ | ⟨hflag, k', r'', heq, hint⟩
      · exact changes_of_table fun h => htable (by rw [Op.effect, h])
      · cases heq
        refine changes_of_same ?_
        cases ok with
        | false => cases hx; rfl
        | true =>
          cases hx
          have hwrite := (Bool.and_eq_true_iff.mp hrule).1
          have hsome : (w.shared.world.cell k).isSome = true := by
            simpa [writeRule, hflag, hint] using hwrite
          rw [World.cell_setCell_self, CellOp.apply, if_neg]
          simpa [CellOp.enabled, Option.isSome_iff_ne_none] using hsome
    refine ⟨?_, rfl, id⟩
    show update _ _ _ _ = _
    rw [update_self, hnil, List.append_nil]
  next d _ =>
    refine ⟨rfl, ?_, id⟩
    show reported (update w.shared.sent i (w.shared.sent i ++ [d]) i) = _
    rw [update_self]
    funext repo dir
    rw [reported_append]
    cases d with
    | dir r p c b =>
      rcases ho with ⟨h, _⟩ | ⟨_, _, _, h, _⟩
      · exact absurd rfl h
      · cases h
    | store => exact add_zero _
  · split_ifs
    · exact ⟨rfl, rfl, fun _ => update_self _ _ _⟩
    · exact ⟨rfl, rfl, id⟩

/-- Writing a blob leaves the entries of its own call as they are, too. -/
theorem files_kept {s' : LedgerState} {o : Op} {ok : Bool} {r : R o} (ho : o.effect = .files)
    (hx : (ledgerSystem x cm fuel).exec i j o ok s = some (s', r)) : s.Kept i s' := by
  simp only [ledgerSystem, LedgerState.exec, Option.map_eq_some_iff, Prod.mk.injEq] at hx
  obtain ⟨⟨w', r'⟩, hx, rfl, _⟩ := hx
  cases o with
  | blob store o =>
    show s.Kept i (if (Op.blob store o).effect = .files then
      { s with world := w', streamed := update s.streamed i true }
      else { s with world := w' })
    rw [if_pos ho]
    exact ⟨rfl, rfl, rfl, rfl, fun _ => update_self i true s.streamed⟩
  | send d => cases d <;> cases ho
  | _ => cases ho

/-! ## Reading, writing and reporting records -/

/-- A triple about a part of call `i`. -/
abbrev LedgerTriple (x : Ext) (cm : Bytes → List String × List String) (fuel i : ℕ)
    (j : WriteJob) {α : Type} (pre : View LedgerState WriteJob Unit → Prop) (p : Async α)
    (post : α → View LedgerState WriteJob Unit → Prop)
    (err : View LedgerState WriteJob Unit → Prop) : Prop :=
  FTriple (ledgerSystem x cm fuel) ledgerRules i j (ledgerLogic.contract i j) pre p post err

variable {p : Async α}

section

variable {debt : String → String → ℤ × ℤ} {b : Bool} {α : Type}

variable {err : View LedgerState WriteJob Unit → Prop}

theorem pure_triple (a : α) :
    LedgerTriple x cm fuel i j (Owes i debt b) (pure a) (fun _ => Owes i debt b) err :=
  fun w hi hw u hu hi' => Owes.stable w u hi hi' hu hw

/-- Quiet functions leave the debt as it is. -/
theorem quiet_triple (hp : Uses (Quiet j) p) :
    LedgerTriple x cm fuel i j (Owes i debt b) p (fun _ => Owes i debt b)
      (Owes i debt b) := by
  refine FTriple.uses Owes.stable (fun o w ok s r ho hi hw hrule hx => ?_) hp
  obtain ⟨hm, hs, hb⟩ := quiet_note ho hrule hx
  obtain ⟨hi', hg⟩ := ledger_step hi hx
  exact ⟨(), hi', hg, hw.quiet hm hs hb⟩

theorem effects_triple (hp : Effects quietEffects p) :
    LedgerTriple x cm fuel i j (Owes i debt b) p (fun _ => Owes i debt b)
      (Owes i debt b) := quiet_triple hp.quiet

/-- A function that begins with a quiet one. -/
theorem effects_bind {β : Type} {p : Async β} {f : β → Async α}
    {post : α → View LedgerState WriteJob Unit → Prop} (hp : Effects quietEffects p)
    (hf : ∀ a, LedgerTriple x cm fuel i j (Owes i debt b) (f a) post (Owes i debt b)) :
    LedgerTriple x cm fuel i j (Owes i debt b) (p >>= f) post (Owes i debt b) :=
  FTriple.bind Owes.stable (effects_triple hp) hf

/-- Quiet functions whose errors are ignored. -/
theorem quiet_ignore (hp : Uses (Quiet j) p) :
    LedgerTriple x cm fuel i j (Owes i debt b) (Fallible.ignore p)
      (fun _ => Owes i debt b) err :=
  FTriple.ignore Owes.stable (quiet_triple hp)

theorem upsertTreeFile_triple (repo path : String) (record : ArtifactRecord) :
    LedgerTriple x cm fuel i j (Owes i debt b) (upsertTreeFile x repo path record)
      (fun _ => Owes i debt b) err :=
  have htree : Effect.table .dirEntries ∈ quietEffects := by decide
  quiet_ignore (effects_kvPut htree _).quiet

theorem deleteTreeFile_triple (repo path : String) :
    LedgerTriple x cm fuel i j (Owes i debt b) (deleteTreeFile x repo path)
      (fun _ => Owes i debt b) err :=
  have htree : Effect.table .dirEntries ∈ quietEffects := by decide
  quiet_ignore (effects_kvDelete htree).quiet

/-- Once a blob is being written the ledger knows. -/
theorem createWriter_triple (store : String) (blobId : BlobId) :
    LedgerTriple x cm fuel i j (Owes i debt b) (createWriter store blobId)
      (fun _ => Owes i debt true) (Owes i debt b) := by
  refine FTriple.attempt Owes.stable (fun _ => Owes.stable) Owes.stable
    fun w ok s r hi hw hrule hx => ?_
  obtain ⟨hi', hg⟩ := ledger_step hi hx
  have hquiet : Quiet j (.blob store (.createWriter blobId)) := .inl ⟨nofun, nofun⟩
  obtain ⟨hm, hs, hb⟩ := quiet_note hquiet hrule hx
  have hdone := hw.quiet hm hs hb
  refine ⟨(), hi', hg, fun _ _ => ⟨fun _ => ?_, hdone.2⟩, fun _ => hdone⟩
  cases hx
  exact update_self i true w.shared.streamed

/-- The update for a directory pays what is due there. -/
theorem dirChanged_triple (repo path : String) (c n : ℤ) :
    LedgerTriple x cm fuel i j (Owes i (due repo (parentDir (normalizePath path)) (c, n)) b)
      (dirChanged repo path c n) (fun _ => Owes i 0 b) (Owes i 0 b) := by
  refine FTriple.issue Owes.stable (fun _ => Owes.stable) fun w ok s r hi hw hrule hx => ?_
  obtain ⟨hi', hg⟩ := ledger_step hi hx
  refine ⟨(), hi', hg, ?_⟩
  obtain ⟨hstreamed, hfits, hsum⟩ := hw
  -- the amount is due at its own directory, so the cast leaves it as it is
  have hown : toI64 c = c ∧ toI64 n = n := by
    have h := hfits repo (parentDir (normalizePath path))
    rwa [due, if_pos ⟨rfl, rfl⟩, fitsUpdate, decide_eq_true_iff] at h
  cases hx
  refine ⟨hstreamed, fun _ _ => rfl, fun r d => ?_⟩
  show booked (w.shared.made i) r d = reported (update w.shared.sent i _ i) r d + 0
  rw [hsum r d, update_self, reported_append, add_zero]
  congr 1
  simp [reported, due, hown]

theorem recordPut_triple (repo path : String) (record : ArtifactRecord)
    (old : Option ArtifactRecord) : LedgerTriple x cm fuel i j
      (Owes i (due repo (parentDir (normalizePath path))
        (putDelta record.size (old.map ArtifactRecord.size))) b)
      (recordPut repo path record old) (fun _ => Owes i 0 b) (Owes i 0 b) :=
  dirChanged_triple repo path _ _

theorem recordRemoved_triple (repo path : String) (old : ArtifactRecord) :
    LedgerTriple x cm fuel i j
      (Owes i (due repo (parentDir (normalizePath path)) (-1, -old.size)) b)
      (recordRemoved repo path old) (fun _ => Owes i 0 b) (Owes i 0 b) :=
  dirChanged_triple repo path _ _

/-- What the condition says about a write to an artifact record that succeeds. -/
theorem rule_of_write {c : CellOp Value} (hk : k.part.table = .artifacts)
    (h : ledgerRules.op i j s (.write k c) true = true) :
    writeRule i j s k c true = true ∧
      fitsUpdate (tally (c.apply (s.world.cell k)) - tally (s.world.cell k)) = true := by
  obtain ⟨hwrite, hamount⟩ := Bool.and_eq_true_iff.mp h
  have hrule : amountRule i j s k c = true := by simpa [hk] using hamount
  exact ⟨hwrite, (Bool.and_eq_true_iff.mp hrule).1⟩

/-- A write to an artifact record: what is due then is the difference it makes. -/
theorem write_triple (hk : k.part.table = .artifacts) {c : CellOp Value}
    {f : Option (Bool × Option Value) → Option α} (hnone : f none = none)
    (hsome : ∀ r, f (some r) ≠ none) {P : View LedgerState WriteJob Unit → Prop}
    (hP : (ledgerLogic.contract i j).Stable P) {amount : α → ℤ × ℤ} {Q : α → Prop}
    (h : ∀ w : View LedgerState WriteJob Unit, (b = true → w.shared.streamed i = true) → P w →
      writeRule i j w.shared k c true = true → ∀ a,
      f (some (c.enabled (w.shared.world.cell k), w.shared.world.value k)) = some a →
      tally (c.apply (w.shared.world.cell k)) - tally (w.shared.world.cell k) = amount a ∧ Q a) :
    LedgerTriple x cm fuel i j (fun w => Owes i 0 b w ∧ P w) (attempt .storage (.write k c) f)
      (fun a w => Owes i (due k.scope (parentDir k.sk) (amount a)) b w ∧ Q a)
      (Owes i 0 b) := by
  refine FTriple.attempt
    (fun w w' hi hi' hr hw => ⟨Owes.stable w w' hi hi' hr hw.1, hP w w' hi hi' hr hw.2⟩)
    (fun a w w' hi hi' hr hw => ⟨Owes.stable w w' hi hi' hr hw.1, hw.2⟩)
    Owes.stable fun w ok s r hi hw hrule hx => ?_
  obtain ⟨hi', hg⟩ := ledger_step hi hx
  refine ⟨(), hi', hg, fun a ha => ?_, fun hf => ?_⟩
  · cases ok with
    | false =>
      cases hx
      exact absurd (hnone.symm.trans ha) nofun
    | true =>
      cases hx
      obtain ⟨hwrite, hfits⟩ := rule_of_write hk hrule
      obtain ⟨hamount, hQ⟩ := h w hw.1.1 hw.2 hwrite a ha
      rw [hamount] at hfits
      refine ⟨⟨hw.1.1, fitsUpdate_due hfits _ _, fun repo dir => ?_⟩, hQ⟩
      have hbook : booked (LedgerState.changes w.shared.world
          (w.shared.world.setCell k (c.apply (w.shared.world.cell k))) k) =
          due k.scope (parentDir k.sk) (amount a) := by
        rw [booked_changes hk, World.cell_setCell_self, hamount]
      show booked (update w.shared.made i (w.shared.made i ++
          LedgerState.changes w.shared.world
            (w.shared.world.setCell k (c.apply (w.shared.world.cell k))) k) i) repo dir =
        reported (w.shared.sent i) repo dir + due k.scope (parentDir k.sk) (amount a) repo dir
      rw [update_self, booked_append, hbook, hw.1.2.2 repo dir]
      exact congrArg (· + _) (add_zero _)
  · cases ok with
    | true =>
      cases hx
      exact absurd hf (hsome _)
    | false =>
      cases hx
      refine hw.1.quiet ?_ rfl id
      show update w.shared.made i (w.shared.made i ++
        LedgerState.changes w.shared.world w.shared.world k) i = w.shared.made i
      rw [update_self, changes_of_same rfl, List.append_nil]

/-- The cell in which a versioned record is read. -/
def cellOf (old : Option (ArtifactRecord × ℕ)) : Option (Versioned Value) :=
  old.map fun r => ⟨r.2, .artifact r.1⟩

theorem readRecord_triple (k : Key) :
    LedgerTriple x cm fuel i j (Owes i debt b) (typedGetVersioned Value.artifact? k)
      (fun old w => Owes i debt b w ∧ w.shared.seen i k = cellOf old) (Owes i debt b) := by
  have hstab : ∀ c, (ledgerLogic.contract i j).Stable fun w =>
      Owes i debt b w ∧ w.shared.seen i k = c := fun c w w' hi hi' hr hw =>
    ⟨Owes.stable w w' hi hi' hr hw.1, (congrFun hr.seen k).trans hw.2⟩
  have hread : LedgerTriple x cm fuel i j (Owes i debt b) (kvGetVersioned k)
      (fun c w => Owes i debt b w ∧ w.shared.seen i k = c) (Owes i debt b) := by
    refine FTriple.attempt Owes.stable hstab Owes.stable fun w ok s r hi hw hrule hx => ?_
    obtain ⟨hi', hg⟩ := ledger_step hi hx
    have hquiet : Quiet j (.read k) := .inl ⟨nofun, nofun⟩
    obtain ⟨hm, hs, hb⟩ := quiet_note hquiet hrule hx
    refine ⟨(), hi', hg, fun c hc => ⟨hw.quiet hm hs hb, ?_⟩, fun _ => hw.quiet hm hs hb⟩
    cases ok with
    | false => cases hx; cases hc
    | true =>
      cases hx
      cases hc
      show update w.shared.seen i (update (w.shared.seen i) k _) i k = _
      rw [update_self, update_self]
  refine FTriple.bind Owes.stable hread fun c => ?_
  cases c with
  | none => exact fun w hi hw u hu hi' => hstab none w u hi hi' hu hw
  | some c =>
    refine FTriple.decode Owes.stable (fun _ _ hw => hw.1) fun record hrec => ?_
    obtain ⟨v, value⟩ := c
    obtain rfl := Value.artifact?_eq_some.mp hrec
    exact fun w hi hw u hu hi' => hstab _ w u hi hi' hu hw

theorem tally_cellOf (old : Option (ArtifactRecord × ℕ)) (v : ℕ) (record : ArtifactRecord) :
    tally (some ⟨v, .artifact record⟩) - tally (cellOf old) =
      putDelta record.size (old.map fun r => r.1.size) := by
  cases old with
  | none => exact sub_zero _
  | some r =>
    show ((1 : ℤ) - 1, (record.size : ℤ) - r.1.size) = (0, (record.size : ℤ) - r.1.size)
    rw [sub_self]

/-- The conditional write of `put_artifact`: if it goes through, the update for
    the record that was read is due, and an uploaded blob is new. -/
theorem putIf_triple (hk : k.part.table = .artifacts) (record : ArtifactRecord)
    (old : Option (ArtifactRecord × ℕ)) :
    LedgerTriple x cm fuel i j
      (fun w => Owes i 0 b w ∧ w.shared.seen i k = cellOf old)
      (kvPutIfVersion k (.artifact record) (old.map Prod.snd))
      (fun written w =>
        Owes i (due k.scope (parentDir k.sk)
          (if written then putDelta record.size (old.map fun r => r.1.size) else 0)) b w ∧
        (written = true → j.creditsAlways = true → b = true → old = none))
      (Owes i 0 b) := by
  refine write_triple hk rfl (fun r => Option.some_ne_none r.1)
    (fun w w' _ _ hr hw => (congrFun hr.seen k).trans hw) fun w hb hw hrule written hwritten => ?_
  obtain rfl : CellOp.enabled (.putIf (.artifact record) (old.map Prod.snd))
    (w.shared.world.cell k) = written := Option.some.inj hwritten
  rw [CellOp.apply]
  split_ifs with hen
  · cases old with
    | none =>
      have hcell : w.shared.world.cell k = none := Option.isNone_iff_eq_none.mp hen
      rw [hcell]
      exact ⟨tally_cellOf none 1 record, fun _ _ _ => rfl⟩
    | some r =>
      have hen' : CellOp.enabled (.putIf (.artifact record) (some r.2))
          (w.shared.world.cell k) = true := hen
      have hrule' : tally (w.shared.world.cell k) = tally (w.shared.seen i k) ∧
          (j.creditsAlways = false ∨ w.shared.streamed i = false) := by
        simpa [writeRule, hen'] using hrule
      refine ⟨?_, fun _ hcredit hstreamed => ?_⟩
      · rw [hrule'.1, hw]
        exact tally_cellOf (some r) (r.2 + 1) record
      · simp [hcredit, hb hstreamed] at hrule'
  · exact ⟨sub_self _, fun h => absurd h (by simp [hen])⟩

/-- `put_artifact`: what it has written is due, and an uploaded blob is new. -/
theorem putArtifact_triple (repo path : String) (record : ArtifactRecord) :
    LedgerTriple x cm fuel i j (Owes i 0 b) (putArtifact x repo path record)
      (fun old w =>
        Owes i (due repo (parentDir (normalizePath path))
          (putDelta record.size (old.map ArtifactRecord.size))) b w ∧
        (j.creditsAlways = true → b = true → old = none))
      (Owes i 0 b) := by
  have hpost : ∀ (d : String → String → ℤ × ℤ) (Q : Prop),
      (ledgerLogic.contract i j).Stable fun w => Owes i d b w ∧ Q :=
    fun d Q w w' hi hi' hr hw => ⟨Owes.stable w w' hi hi' hr hw.1, hw.2⟩
  have hattempts : ∀ n, LedgerTriple x cm fuel i j (Owes i 0 b)
      (putArtifactAttempts x repo path record n)
      (fun old w =>
        Owes i (due repo (parentDir (normalizePath path))
          (putDelta record.size (old.map ArtifactRecord.size))) b w ∧
        (j.creditsAlways = true → b = true → old = none))
      (Owes i 0 b) := by
    intro n
    induction n with
    | zero => exact FTriple.throw Owes.stable
    | succ n ih =>
      refine FTriple.bind Owes.stable (readRecord_triple (artifactKey x.shardOf repo path))
        fun old => ?_
      refine FTriple.bind Owes.stable (putIf_triple rfl (prepareRecord path record) old)
        fun written => ?_
      cases written with
      | false =>
        refine Triple.weaken_pre ih fun w _ hw => ?_
        have h0 := hw.1
        rwa [if_neg (by decide), due_zero] at h0
      | true =>
        refine FTriple.assume fun hnew => ?_
        refine FTriple.bind Owes.stable (upsertTreeFile_triple repo path _) fun _ => ?_
        intro w hi hw u hu hi'
        refine hpost _ _ w u hi hi' hu ⟨?_, fun hc hb => by rw [hnew rfl hc hb]; rfl⟩
        rwa [Option.map_map]
  unfold putArtifact
  split_ifs
  · exact FTriple.throw Owes.stable
  · exact hattempts _

/-- What is due for a value that was removed. -/
def removedAmount (v : Option Value) : ℤ × ℤ :=
  match v.bind Value.artifact? with
  | some r => (-1, -r.size)
  | none => 0

theorem sub_tally_remove (c : Option (Versioned Value)) :
    tally (CellOp.apply .remove c) - tally c = removedAmount (c.map Versioned.value) := by
  cases c with
  | none => rfl
  | some v =>
    show (0 : ℤ × ℤ) - tally (some v) = removedAmount (some v.value)
    unfold tally removedAmount
    rw [Option.bind_some, Option.bind_some]
    cases v.value.artifact? with
    | none => exact sub_zero _
    | some r => exact zero_sub _

/-- The delete of `delete_artifact`: the removed value is due, and a manifest
    that is deleted does not exist. -/
theorem deleteReturning_triple (hk : k.part.table = .artifacts) :
    LedgerTriple x cm fuel i j (Owes i 0 b) (kvDeleteReturning k)
      (fun v w => Owes i (due k.scope (parentDir k.sk) (removedAmount v)) b w ∧
        ((∃ d digest, j = .deleteManifest d digest) → removedAmount v = 0))
      (Owes i 0 b) := by
  refine Triple.weaken_pre (write_triple (P := fun _ => True) hk rfl
    (fun r => Option.some_ne_none r.2) (fun _ _ _ _ _ _ => trivial) fun w _ _ hrule v hv => ?_)
    fun w _ hw => ⟨hw, trivial⟩
  obtain rfl : w.shared.world.value k = v := Option.some.inj hv
  have hsub := sub_tally_remove (w.shared.world.cell k)
  refine ⟨hsub, ?_⟩
  rintro ⟨d, digest, rfl⟩
  have hnone : tally (w.shared.world.cell k) = 0 := by
    simpa [writeRule, removeRule, hk] using hrule
  rw [World.value, ← hsub, hnone, sub_zero]
  cases hcell : w.shared.world.cell k with
  | none => rfl
  | some c => rfl

/-- `delete_artifact`: what it has removed is due. -/
theorem deleteArtifact_triple (repo path : String) :
    LedgerTriple x cm fuel i j (Owes i 0 b) (deleteArtifact x repo path)
      (fun old w =>
        Owes i (due repo (parentDir (normalizePath path))
          (removedAmount (old.map Value.artifact))) b w ∧
        ((∃ d digest, j = .deleteManifest d digest) → removedAmount (old.map Value.artifact) = 0))
      (Owes i 0 b) := by
  have hpost : ∀ (d : String → String → ℤ × ℤ) (Q : Prop),
      (ledgerLogic.contract i j).Stable fun w => Owes i d b w ∧ Q :=
    fun d Q w w' hi hi' hr hw => ⟨Owes.stable w w' hi hi' hr hw.1, hw.2⟩
  refine FTriple.bind Owes.stable
    (deleteReturning_triple (k := artifactKey x.shardOf repo path) rfl) fun v => ?_
  refine FTriple.assume fun hnone => ?_
  cases v with
  | none => exact fun w hi hw u hu hi' => hpost _ _ w u hi hi' hu ⟨hw, hnone⟩
  | some v =>
    refine FTriple.bind Owes.stable (deleteTreeFile_triple repo path) fun _ => ?_
    cases hv : v.artifact? with
    | some record =>
      have hdec : decode Value.artifact? v = pure record := by simp [decode, hv]
      rw [hdec]
      obtain rfl := Value.artifact?_eq_some.mp hv
      exact fun w hi hw u hu hi' => hpost _ _ w u hi hi' hu ⟨hw, hnone⟩
    | none =>
      have hdec : decode Value.artifact? v = throw (.storage false) := by simp [decode, hv]
      have hzero : removedAmount (some v) = 0 := by simp [removedAmount, hv]
      rw [hdec, hzero, due_zero]
      exact FTriple.throw Owes.stable

end

end Depot
