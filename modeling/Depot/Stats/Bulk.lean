import Depot.Stats.Debts
import Mathlib.Algebra.BigOperators.Intervals

/-!
# A bulk delete pays its debt

A bulk delete empties the shards of a repository concurrently and sends one
update at the end. Every shard answers for the changes in its own part of the
artifact table.

Results:
* `deleteShard_triple`: a shard has removed what it reports to the caller.
* `bulkDelete_triple`: the update covers what all shards have removed.
-/

namespace Depot

open Lib List
open Function (update update_self)

variable {x : Ext} {cm : Bytes → List String × List String} {fuel : ℕ} {i : ℕ} {j : WriteJob}
variable {repo pfx : String} {part : Part}

/-! ## The ledger by shards -/

/-- A change in one of the shards of a repository, directly in the directory for
    which a bulk delete reports. -/
def Under (repo pfx : String) (c : Change) : Prop :=
  (∃ shard < numShards, c.key.part = artifactShardPk repo shard) ∧
    parentDir c.key.sk = parentDir (normalizePath (bulkDeleteSentinel pfx))

/-- One update covers what a bulk delete has changed. -/
structure LedgerState.Covered (s : LedgerState) (i : ℕ) (repo pfx : String) : Prop where
  under : ∀ c ∈ s.made i, Under repo pfx c
  fits : fitsUpdate (s.total i) = true

/-- The changes of a call in one part. -/
def LedgerState.madeIn (s : LedgerState) (i : ℕ) (part : Part) : List Change :=
  (s.made i).filter fun c => c.key.part = part

/-- What a shard relies on: its part of the ledger is left alone, and once the
    call has failed, nothing is removed any more. -/
structure ShardKept (i : ℕ) (repo pfx : String) (part : Part) (s s' : LedgerState) : Prop where
  sent : s'.sent i = s.sent i
  madeIn : s'.madeIn i part = s.madeIn i part
  seen : ∀ k, k.part = part → s'.seen i k = s.seen i k
  failed : s.failed i = true → s'.failed i = true ∧ s'.made i = s.made i
  covered : s.Covered i repo pfx → s'.Covered i repo pfx

theorem LedgerState.Covered.of_made {s s' : LedgerState} (hm : s'.made i = s.made i)
    (h : s.Covered i repo pfx) : s'.Covered i repo pfx := by
  refine ⟨fun c hc => h.under c (hm ▸ hc), ?_⟩
  rw [LedgerState.total, hm]
  exact h.fits

theorem ShardKept.trans {s s' s'' : LedgerState} (h : ShardKept i repo pfx part s s')
    (h' : ShardKept i repo pfx part s' s'') : ShardKept i repo pfx part s s'' := by
  refine ⟨h'.sent.trans h.sent, h'.madeIn.trans h.madeIn,
    fun k hk => (h'.seen k hk).trans (h.seen k hk), fun hf => ?_, fun hc => h'.covered (h.covered hc)⟩
  obtain ⟨hf', hm⟩ := h.failed hf
  obtain ⟨hf'', hm'⟩ := h'.failed hf'
  exact ⟨hf'', hm'.trans hm⟩

theorem LedgerState.Kept.shard {s s' : LedgerState} (h : s.Kept i s') :
    ShardKept i repo pfx part s s' := by
  refine ⟨h.sent, ?_, fun k _ => congrFun h.seen k, fun hf => ⟨h.failed.trans hf, h.made⟩,
    LedgerState.Covered.of_made h.made⟩
  rw [LedgerState.madeIn, h.made]
  rfl

/-- The contract of the task that empties one shard. -/
def shardContract (i : ℕ) (j : WriteJob) (repo pfx : String) (part : Part) :
    Contract LedgerState WriteJob Unit where
  inv := (ledgerLogic.contract i j).inv
  rely w w' := ShardKept i repo pfx part w.shared w'.shared
  guar w w' := (ledgerLogic.contract i j).guar w w' ∧
    ∀ q, q ≠ part → ShardKept i repo pfx q w.shared w'.shared
  rely_refl w := (LedgerState.Kept.refl i w.shared).shard
  rely_trans h h' := h.trans h'

theorem artifactShardPk_inj {a b : ℕ} (h : artifactShardPk repo a = artifactShardPk repo b) :
    a = b := by
  cases h
  rfl

theorem shard_parts (xs : List ℕ) (hxs : xs.Nodup) : (ledgerLogic.contract i j).Parts
      (fun shard => shardContract i j repo pfx (artifactShardPk repo shard)) xs := by
  refine ⟨fun shard _ => ⟨fun _ => Iff.rfl, fun _ _ h => h.shard, fun _ _ h => h.1⟩, ?_⟩
  refine hxs.imp fun {a b} hab => ⟨fun u u' _ _ h => h.2 _ ?_, fun u u' _ _ h => h.2 _ ?_⟩
  · exact fun h => hab (artifactShardPk_inj h)
  · exact fun h => hab (artifactShardPk_inj h).symm

/-! ## One shard -/

/-- A triple about the task that empties one shard. -/
abbrev ShardTriple (x : Ext) (cm : Bytes → List String × List String) (fuel i : ℕ) (j : WriteJob)
    (repo pfx : String) (part : Part) {α : Type} (pre : View LedgerState WriteJob Unit → Prop)
    (p : Async α) (post : α → View LedgerState WriteJob Unit → Prop)
    (err : View LedgerState WriteJob Unit → Prop) : Prop :=
  FTriple (ledgerSystem x cm fuel) ledgerRules i j (shardContract i j repo pfx part) pre p post err

/-- The negative of the totals of a shard. -/
def ArtifactTotals.removed (t : ArtifactTotals) : ℤ × ℤ := (-t.count, -t.bytes)

/-- A shard has removed `t` so far, and nothing has been reported. -/
def Emptied (i : ℕ) (repo pfx : String) (part : Part) (t : ArtifactTotals)
    (w : View LedgerState WriteJob Unit) : Prop :=
  w.shared.sent i = [] ∧ w.shared.Covered i repo pfx ∧
    ((w.shared.madeIn i part).map Change.amount).sum = t.removed

/-- The call has failed before it has removed anything. -/
def FailedEarly (i : ℕ) (w : View LedgerState WriteJob Unit) : Prop :=
  w.shared.sent i = [] ∧ w.shared.failed i = true ∧ w.shared.made i = []

theorem Emptied.stable {t : ArtifactTotals} :
    (shardContract i j repo pfx part).Stable (Emptied i repo pfx part t) := by
  rintro w w' _ _ hr ⟨hs, hc, hm⟩
  refine ⟨hr.sent.trans hs, hr.covered hc, ?_⟩
  rw [hr.madeIn]
  exact hm

theorem FailedEarly.stable : (shardContract i j repo pfx part).Stable (FailedEarly i) := by
  rintro w w' _ _ hr ⟨hs, hf, hm⟩
  obtain ⟨hf', hm'⟩ := hr.failed hf
  exact ⟨hr.sent.trans hs, hf', hm'.trans hm⟩

variable {w : View LedgerState WriteJob Unit}

/-- An operation that removes nothing keeps to the guarantee of its shard. -/
theorem shard_step {o : Op} {ok : Bool} {s : LedgerState}
    {r : R o} (hi : (shardContract i j repo pfx part).inv w)
    (hx : (ledgerSystem x cm fuel).exec i j o ok w.shared = some (s, r))
    (hm : s.made i = w.shared.made i) (hs : s.sent i = w.shared.sent i)
    (hseen : ∀ k, k.part ≠ part → s.seen i k = w.shared.seen i k)
    (hf : w.shared.failed i = true → s.failed i = true) :
    (shardContract i j repo pfx part).inv ⟨s, w.jobs, ()⟩ ∧
      (shardContract i j repo pfx part).guar w ⟨s, w.jobs, ()⟩ := by
  obtain ⟨hi', hg⟩ := ledger_step hi hx
  refine ⟨hi', hg, fun q hq => ⟨hs, ?_, fun k hk => hseen k (hk ▸ hq), fun h => ⟨hf h, hm⟩,
    LedgerState.Covered.of_made hm⟩⟩
  rw [LedgerState.madeIn, hm]
  rfl

variable {shard : ℕ}

section

variable {t : ArtifactTotals}

/-- The call is found cancelled only before it has removed anything. -/
theorem poll_triple (msg : String) :
    ShardTriple x cm fuel i (.bulkDelete repo pfx) repo pfx part (Emptied i repo pfx part t)
      (checkCancelled msg) (fun _ => Emptied i repo pfx part t) (FailedEarly i) := by
  have hpoll : ShardTriple x cm fuel i (.bulkDelete repo pfx) repo pfx part
      (Emptied i repo pfx part t) (Fallible.issue Op.poll)
      (fun (cancelled : Bool) w =>
        if cancelled then FailedEarly i w else Emptied i repo pfx part t w) (FailedEarly i) := by
    refine FTriple.issue Emptied.stable (fun (cancelled : Bool) => ?_)
      fun w ok s r hi hw hrule hx => ?_
    · cases cancelled with
      | true => exact FailedEarly.stable
      | false => exact Emptied.stable
    · cases ok with
      | true =>
        obtain ⟨hi', hg⟩ := shard_step hi hx (by cases hx; rfl) (by cases hx; rfl)
          (fun _ _ => by cases hx; rfl) (fun h => by cases hx; exact h)
        cases hx
        exact ⟨(), hi', hg, hw⟩
      | false =>
        obtain ⟨hi', hg⟩ := shard_step hi hx (by cases hx; rfl) (by cases hx; rfl)
          (fun _ _ => by cases hx; rfl) (fun _ => by cases hx; exact update_self i _ _)
        have hm : w.shared.made i = [] := List.isEmpty_iff.mp hrule
        cases hx
        exact ⟨(), hi', hg, hw.1, update_self i _ _, hm⟩
  refine FTriple.bind FailedEarly.stable hpoll fun (cancelled : Bool) => ?_
  cases cancelled with
  | true => exact FTriple.throw FailedEarly.stable
  | false => exact fun w hi hw u hu hi' => Emptied.stable w u hi hi' hu hw

/-- What a scan returns, the call has seen. -/
def Seen (i : ℕ) (part : Part) (items : List (String × Value))
    (w : View LedgerState WriteJob Unit) : Prop :=
  ∀ e ∈ items, (w.shared.seen i ⟨part, e.1⟩).map Versioned.value = some e.2

variable {items : List (String × Value)}

theorem Emptied.seen_stable : (shardContract i j repo pfx part).Stable fun w =>
      Emptied i repo pfx part t w ∧ Seen i part items w := by
  rintro w w' hi hi' hr ⟨hw, hs⟩
  refine ⟨Emptied.stable w w' hi hi' hr hw, fun e he => ?_⟩
  rw [hr.seen _ rfl]
  exact hs e he

theorem scan_triple (start : String) :
    ShardTriple x cm fuel i (.bulkDelete repo pfx) repo pfx part (Emptied i repo pfx part t)
      (kvScanRange part start none 1000)
      (fun result w => Emptied i repo pfx part t w ∧ Seen i part result.items w)
      (FailedEarly i) := by
  refine FTriple.attempt Emptied.stable (fun _ => Emptied.seen_stable) FailedEarly.stable
    fun w ok s r hi hw hrule hx => ?_
  cases ok with
  | true =>
    have hseen : ∀ k, s.seen i k =
        if k.part = part ∧
          k.sk ∈ ((w.shared.world.kv part).page start none 1000).1.map Prod.fst
        then w.shared.world.cell k else w.shared.seen i k := by
      intro k
      cases hx
      exact congrFun (update_self i _ w.shared.seen) k
    have hmade : s.made i = w.shared.made i := by cases hx; rfl
    obtain ⟨hi', hg⟩ := shard_step hi hx hmade (by cases hx; rfl)
      (fun k hk => by rw [hseen k, if_neg fun h => hk h.1]) (fun h => by cases hx; exact h)
    refine ⟨(), hi', hg, fun result hresult => ⟨?_, fun e he => ?_⟩, fun hnone => ?_⟩
    · have hcovered : s.Covered i repo pfx := hw.2.1.of_made hmade
      cases hx
      exact ⟨hw.1, hcovered, hw.2.2⟩
    · have hitems : result.items =
          ((w.shared.world.kv part).page start none 1000).1.map fun e => (e.1, e.2.value) := by
        cases hx
        cases hresult
        rfl
      rw [hitems] at he
      obtain ⟨⟨sk, c⟩, hc, rfl⟩ := mem_map.mp he
      have hget : w.shared.world.cell ⟨part, sk⟩ = some c := (SortedMap.page_subset hc).1
      show (s.seen i ⟨part, sk⟩).map _ = _
      rw [hseen, if_pos ⟨rfl, mem_map.mpr ⟨_, hc, rfl⟩⟩, hget]
      rfl
    · cases hx
      cases hnone
  | false =>
    obtain ⟨hi', hg⟩ := shard_step hi hx (by cases hx; rfl) (by cases hx; rfl)
      (fun _ _ => by cases hx; rfl) (fun _ => by cases hx; exact update_self i _ _)
    have hm : w.shared.made i = [] := List.isEmpty_iff.mp hrule
    cases hx
    exact ⟨(), hi', hg, nofun, fun _ => ⟨hw.1, update_self i _ _, hm⟩⟩

/-- The totals with some records more. -/
def ArtifactTotals.addAll (t : ArtifactTotals) (records : List (String × ArtifactRecord)) :
    ArtifactTotals :=
  ⟨t.count + records.length, t.bytes + (records.map fun e => e.2.size).sum⟩

theorem ArtifactTotals.addAll_cons (t : ArtifactTotals) (e : String × ArtifactRecord)
    (es : List (String × ArtifactRecord)) : (t.addAll [e]).addAll es = t.addAll (e :: es) := by
  simp only [ArtifactTotals.addAll, length_cons, length_nil, map_cons, map_nil,
    sum_cons, sum_nil, ArtifactTotals.mk.injEq]
  omega

variable {e : String × ArtifactRecord}

/-- Removing a record that the call has seen. -/
theorem remove_triple (hshard : shard < numShards)
    (he : (e.1, Value.artifact e.2) ∈ items)
    {err : View LedgerState WriteJob Unit → Prop}
    (herr : (shardContract i (.bulkDelete repo pfx) repo pfx
      (artifactShardPk repo shard)).Stable err) :
    ShardTriple x cm fuel i (.bulkDelete repo pfx) repo pfx (artifactShardPk repo shard)
      (fun w => Emptied i repo pfx (artifactShardPk repo shard) t w ∧
        Seen i (artifactShardPk repo shard) items w) (kvDelete ⟨artifactShardPk repo shard, e.1⟩)
      (fun _ w => Emptied i repo pfx (artifactShardPk repo shard) (t.addAll [e]) w ∧
        Seen i (artifactShardPk repo shard) items w) err := by
  refine FTriple.attempt Emptied.seen_stable (fun _ => Emptied.seen_stable) herr
    fun w ok s r hi hw hrule hx => ?_
  obtain ⟨⟨hsent, hcovered, hsum⟩, hseen⟩ := hw
  set k : Key := ⟨artifactShardPk repo shard, e.1⟩ with hk
  -- the rule for a bulk delete: the delete succeeds and finds what was scanned
  have hrule' : ((ok = true ∧ w.shared.failed i = false) ∧
      tally (w.shared.world.cell k) = tally (w.shared.seen i k)) ∧
      parentDir k.sk = parentDir (normalizePath (bulkDeleteSentinel pfx)) := by
    simpa [writeRule, removeRule, hk, artifactShardPk] using (Bool.and_eq_true_iff.mp hrule).1
  obtain ⟨⟨⟨rfl, hfailed⟩, htally⟩, hdir⟩ := hrule'
  have htotal : fitsUpdate (w.shared.total i +
      (tally (CellOp.apply .remove (w.shared.world.cell k)) - tally (w.shared.world.cell k))) =
      true := by
    have hamount : amountRule i (.bulkDelete repo pfx) w.shared k .remove = true := by
      simpa [hk, artifactShardPk] using (Bool.and_eq_true_iff.mp hrule).2
    exact (Bool.and_eq_true_iff.mp hamount).2
  have hcell : tally (w.shared.world.cell k) = (1, (e.2.size : ℤ)) := by
    obtain ⟨c, hc, hval⟩ := Option.map_eq_some_iff.mp (hseen _ he)
    rw [htally, hc, tally, Option.bind_some, hval]
    rfl
  have hmade : s.made i = w.shared.made i ++ [⟨k, (-1, -(e.2.size : ℤ))⟩] := by
    cases hx
    show update w.shared.made i (w.shared.made i ++ LedgerState.changes w.shared.world
      (w.shared.world.setCell k (CellOp.apply .remove (w.shared.world.cell k))) k) i = _
    have hne : tally none ≠ (1, (e.2.size : ℤ)) := fun h =>
      absurd (congrArg Prod.fst h) (show (0 : ℤ) ≠ 1 by decide)
    rw [update_self, LedgerState.changes, World.cell_setCell_self, CellOp.apply_remove,
      hcell, if_pos ⟨rfl, hne⟩]
    simp [tally]
  have hsent' : s.sent i = w.shared.sent i := by cases hx; rfl
  have hseen' : s.seen i = w.shared.seen i := by cases hx; rfl
  have hcovered' : s.Covered i repo pfx := by
    refine ⟨fun c hc => ?_, ?_⟩
    · rw [hmade] at hc
      rcases mem_append.mp hc with hc | hc
      · exact hcovered.under c hc
      · obtain rfl := mem_singleton.mp hc
        exact ⟨⟨shard, hshard, rfl⟩, hdir⟩
    · rw [CellOp.apply_remove, hcell] at htotal
      rw [LedgerState.total, hmade, map_append, sum_append]
      simpa [LedgerState.total, tally] using htotal
  obtain ⟨hi', hg⟩ := ledger_step hi hx
  refine ⟨(), hi', ⟨hg, fun q hq => ⟨hsent', ?_, fun k' _ => congrFun hseen' k', ?_,
    fun _ => hcovered'⟩⟩, fun _ _ => ⟨⟨hsent'.trans hsent, hcovered', ?_⟩, fun e' he' => ?_⟩,
    fun hnone => ?_⟩
  · have hother : ¬k.part = q := fun h => hq h.symm
    show (s.made i).filter _ = _
    rw [hmade, filter_append]
    simp [LedgerState.madeIn, hother]
  · exact fun h => absurd (hfailed.symm.trans h) Bool.false_ne_true
  · show (((s.made i).filter _).map Change.amount).sum = _
    rw [hmade, filter_append, map_append, sum_append]
    have hown : (w.shared.made i).filter (fun c => c.key.part = artifactShardPk repo shard) =
        w.shared.madeIn i (artifactShardPk repo shard) := rfl
    rw [hown, hsum]
    simp [hk, ArtifactTotals.removed, ArtifactTotals.addAll]
    omega
  · show (s.seen i _).map _ = _
    rw [hseen']
    exact hseen e' he'
  · cases hx
    cases hnone

theorem removeAll_triple (hshard : shard < numShards) {records : List (String × ArtifactRecord)}
    (hrec : ∀ e ∈ records, (e.1, Value.artifact e.2) ∈ items) (hits : List Bool) :
    ShardTriple x cm fuel i (.bulkDelete repo pfx) repo pfx (artifactShardPk repo shard)
      (fun w => Emptied i repo pfx (artifactShardPk repo shard) t w ∧
        Seen i (artifactShardPk repo shard) items w) (Fallible.fold (fun hits k => do
        let hit ← kvDelete k
        pure (hits ++ [hit])) (records.map fun e => (⟨artifactShardPk repo shard, e.1⟩ : Key)) hits)
      (fun _ => Emptied i repo pfx (artifactShardPk repo shard) (t.addAll records))
      (Emptied i repo pfx (artifactShardPk repo shard) (t.addAll records)) := by
  induction records generalizing t hits with
  | nil => exact fun w hi hw u hu hi' => Emptied.stable w u hi hi' hu hw.1
  | cons e records ih =>
    have he : (e.1, Value.artifact e.2) ∈ items := hrec e mem_cons_self
    rw [← ArtifactTotals.addAll_cons]
    refine FTriple.bind Emptied.stable (FTriple.bind Emptied.stable
      (remove_triple hshard he Emptied.stable) fun hit => ?_) fun hits' =>
        ih (fun e' he' => hrec e' (mem_cons_of_mem e he')) hits'
    exact fun w hi hw u hu hi' => Emptied.seen_stable w u hi hi' hu hw

theorem mem_prefixRecords {p : String} (he : e ∈ prefixRecords p items) :
    (e.1, Value.artifact e.2) ∈ items := by
  obtain ⟨e', he', hmap⟩ := mem_filterMap.mp he
  obtain ⟨record, hrec, rfl⟩ := Option.map_eq_some_iff.mp hmap
  have hval : e'.2 = Value.artifact record := Value.artifact?_eq_some.mp hrec
  rw [← hval]
  exact (takeWhile_sublist _).subset he'

/-- One shard of the delete: what it returns is what it has removed. -/
theorem deleteShard_triple (hshard : shard < numShards) (n : ℕ) (start : String)
    (ht : t.count = 0 → t.bytes = 0) :
    ShardTriple x cm fuel i (.bulkDelete repo pfx) repo pfx (artifactShardPk repo shard)
      (Emptied i repo pfx (artifactShardPk repo shard) t)
      (deleteShard (artifactShardPk repo shard) (prefixWithSlash pfx) n start t)
      (fun t' w => Emptied i repo pfx (artifactShardPk repo shard) t' w ∧
        (t'.count = 0 → t'.bytes = 0))
      (FailedEarly i) := by
  induction n generalizing start t with
  | zero => exact fun w hi hw u hu hi' ok s r hrule hx => nomatch hx
  | succ n ih =>
    refine FTriple.bind FailedEarly.stable (poll_triple _) fun _ => ?_
    refine FTriple.bind FailedEarly.stable (scan_triple start) fun result => ?_
    set records := prefixRecords (prefixWithSlash pfx) result.items with hrecords
    have hzero : (t.addAll records).count = 0 → (t.addAll records).bytes = 0 := by
      intro hcount
      obtain ⟨hc, hr⟩ := Nat.add_eq_zero_iff.mp hcount
      rw [ArtifactTotals.addAll, length_eq_zero_iff.mp hr, ht hc]
      rfl
    refine FTriple.when (M := Emptied i repo pfx (artifactShardPk repo shard) (t.addAll records))
      FailedEarly.stable (fun _ => ?_) (fun hempty w _ hw => ?_) fun _ => ?_
    · exact FTriple.ignore Emptied.stable
        (removeAll_triple hshard (fun e he => mem_prefixRecords he) [])
    · rw [not_not.mp hempty]
      exact hw.1
    · dsimp only
      split_ifs
      · exact fun w hi hw u hu hi' => ⟨Emptied.stable w u hi hi' hu hw, hzero⟩
      · cases result.items.getLast? with
        | some e => exact ih _ hzero
        | none => exact fun w hi hw u hu hi' => ⟨Emptied.stable w u hi hi' hu hw, hzero⟩

end

/-! ## All shards -/

/-- Every change lies in one shard. -/
theorem sum_by_shards {cs : List Change} (h : ∀ c ∈ cs, Under repo pfx c) :
    ((List.range numShards).map fun shard =>
      ((cs.filter fun c => c.key.part = artifactShardPk repo shard).map Change.amount).sum).sum =
      (cs.map Change.amount).sum := by
  induction cs with
  | nil => simp
  | cons c cs ih =>
    obtain ⟨⟨own, hown, hpart⟩, _⟩ := h c mem_cons_self
    have hsplit : ∀ shard,
        (((c :: cs).filter fun c => c.key.part = artifactShardPk repo shard).map
          Change.amount).sum =
        (if shard = own then c.amount else 0) +
          ((cs.filter fun c => c.key.part = artifactShardPk repo shard).map Change.amount).sum := by
      intro shard
      by_cases hs : shard = own
      · subst hs
        rw [filter_cons_of_pos (by simpa using hpart), if_pos rfl]
        rfl
      · have hne : ¬c.key.part = artifactShardPk repo shard := fun h =>
          hs (artifactShardPk_inj (h.symm.trans hpart))
        rw [filter_cons_of_neg (by simpa using hne), if_neg hs, zero_add]
    have hone : ((List.range numShards).map fun shard => if shard = own then c.amount else 0).sum =
        c.amount := by
      show ∑ shard ∈ Finset.range numShards, (if shard = own then c.amount else 0) = c.amount
      rw [Finset.sum_ite_eq' (Finset.range numShards) own fun _ => c.amount,
        if_pos (Finset.mem_range.mpr hown)]
    simp only [hsplit]
    rw [sum_map_add, hone, ih fun c' hc' => h c' (mem_cons_of_mem c hc'), map_cons, sum_cons]

/-- What the shards have removed adds up to the totals. -/
theorem sum_removed {f : ℕ → ℤ × ℤ} {shards : List ℕ} {ts : List ArtifactTotals}
    (h : Forall₂ (fun shard t => f shard = t.removed ∧ (t.count = 0 → t.bytes = 0)) shards ts) :
    (shards.map f).sum = (ArtifactTotals.sum ts).removed ∧
      ((ArtifactTotals.sum ts).count = 0 → (ArtifactTotals.sum ts).bytes = 0) := by
  induction h with
  | nil => exact ⟨rfl, fun _ => rfl⟩
  | @cons shard t shards ts hhead _ ih =>
    obtain ⟨hsum, hzero⟩ := hhead
    obtain ⟨ihsum, ihzero⟩ := ih
    refine ⟨?_, fun hcount => ?_⟩
    · rw [map_cons, sum_cons, hsum, ihsum]
      simp only [ArtifactTotals.removed, ArtifactTotals.sum, map_cons, sum_cons,
        Prod.mk_add_mk, Prod.mk.injEq, Nat.cast_add]
      omega
    · obtain ⟨hc, hcs⟩ := Nat.add_eq_zero_iff.mp hcount
      show t.bytes + (ArtifactTotals.sum ts).bytes = 0
      rw [hzero hc, ihzero hcs]

/-- A bulk delete books everything at one directory. -/
theorem booked_under {cs : List Change} (h : ∀ c ∈ cs, Under repo pfx c) :
    booked cs =
      due repo (parentDir (normalizePath (bulkDeleteSentinel pfx))) (cs.map Change.amount).sum := by
  funext r d
  have hterm : ∀ c ∈ cs, (if c.key.scope = r ∧ parentDir c.key.sk = d then c.amount else 0) =
      if repo = r ∧ parentDir (normalizePath (bulkDeleteSentinel pfx)) = d then c.amount else 0 := by
    intro c hc
    obtain ⟨⟨shard, _, hpart⟩, hsk⟩ := h c hc
    have hscope : c.key.scope = repo := by rw [Key.scope, hpart]; rfl
    rw [hscope, hsk]
  rw [booked, map_congr_left hterm, due]
  split_ifs
  · rfl
  · exact sum_eq_zero fun a ha => by
      obtain ⟨_, _, rfl⟩ := mem_map.mp ha
      rfl

/-! ## The delete -/

/-- Nothing has been changed or reported so far. -/
def Idle (i : ℕ) (w : View LedgerState WriteJob Unit) : Prop :=
  w.shared.made i = [] ∧ w.shared.sent i = []

theorem Idle.stable : (ledgerLogic.contract i j).Stable (Idle i) := by
  rintro w w' _ _ hr ⟨hm, hs⟩
  exact ⟨hr.made.trans hm, hr.sent.trans hs⟩

theorem Idle.owes (h : Idle i w) : Owes i 0 false w := by
  refine ⟨nofun, fun _ _ => rfl, fun r d => ?_⟩
  rw [h.1, h.2]
  rfl

theorem LedgerState.note_sent (s : LedgerState) {o : Op} (hd : o.effect ≠ .dirStats)
    (hs : o.effect ≠ .storeStats) (ok : Bool) (w : World) : (s.note i o ok w).sent = s.sent := by
  unfold LedgerState.note
  split
  · split_ifs <;> rfl
  · split_ifs <;> rfl
  · split_ifs <;> rfl
  · rfl
  next d =>
    cases d with
    | dir r p c b => exact absurd rfl hd
    | store => exact absurd rfl hs
  · split_ifs <;> rfl

/-- Reading and deleting tree entries leaves no trace in the ledger. -/
theorem idle_triple {α : Type} {p : Async α} (hp : Effects [.table .dirEntries] p) :
    LedgerTriple x cm fuel i j (Idle i) p (fun _ => Idle i) (Idle i) := by
  refine FTriple.uses Idle.stable (fun o w ok s r ho hi hw hrule hx => ?_) hp
  have heffect : o.effect = .none ∨ o.effect = .table .dirEntries :=
    ho.imp id fun h => mem_singleton.mp h
  have hne : ∀ e, e ≠ .none → e ≠ .table .dirEntries → o.effect ≠ e := by
    rintro e h1 h2 rfl
    exact heffect.elim h1 h2
  have hquiet : Quiet j o := .inl ⟨hne _ (by decide) (by decide), hne _ (by decide) (by decide)⟩
  obtain ⟨hi', hg⟩ := ledger_step hi hx
  obtain ⟨hm, _, _⟩ := quiet_note hquiet hrule hx
  refine ⟨(), hi', hg, hm.trans hw.1, ?_⟩
  simp only [ledgerSystem, LedgerState.exec, Option.map_eq_some_iff, Prod.mk.injEq] at hx
  obtain ⟨⟨w', r'⟩, _, rfl, _⟩ := hx
  show (w.shared.note i o ok w').sent i = []
  rw [LedgerState.note_sent _ (hne _ (by decide) (by decide)) (hne _ (by decide) (by decide)), hw.2]

/-- The update for the totals of a delete is due. -/
def OwesTotals (i : ℕ) (repo pfx : String) (t : ArtifactTotals)
    (w : View LedgerState WriteJob Unit) : Prop :=
  Owes i
    (due repo (parentDir (normalizePath (bulkDeleteSentinel pfx))) t.removed) false w ∧
    (t.count = 0 → t.bytes = 0)

theorem OwesTotals.stable {t : ArtifactTotals} :
    (ledgerLogic.contract i (.bulkDelete repo pfx)).Stable (OwesTotals i repo pfx t) :=
  fun w w' hi hi' hr hw => ⟨Owes.stable w w' hi hi' hr hw.1, hw.2⟩

theorem deletePrefixArtifacts_triple (n : ℕ) :
    LedgerTriple x cm fuel i (.bulkDelete repo pfx) (Idle i)
      (deletePrefixArtifacts n repo (prefixWithSlash pfx))
      (OwesTotals i repo pfx) (Owes i 0 false) := by
  have hjoin : LedgerTriple x cm fuel i (.bulkDelete repo pfx) (Idle i)
      (Fallible.join ((List.range numShards).map fun shard =>
        deleteShard (artifactShardPk repo shard) (prefixWithSlash pfx) n (prefixWithSlash pfx)
          ⟨0, 0⟩))
      (fun ts w => Forall₂ (fun shard t =>
        Emptied i repo pfx (artifactShardPk repo shard) t w ∧ (t.count = 0 → t.bytes = 0))
        (List.range numShards) ts)
      (fun w => ∃ shard ∈ List.range numShards, FailedEarly i w) := by
    refine FTriple.join (shard_parts _ nodup_range)
      (fun shard t w w' hi hi' hr hw => ⟨Emptied.stable w w' hi hi' hr hw.1, hw.2⟩)
      (fun shard => FailedEarly.stable) fun shard hshard => ?_
    refine Triple.weaken_pre (deleteShard_triple (List.mem_range.mp hshard) n _ fun _ => rfl)
      fun w _ hw => ?_
    refine ⟨hw.2, ⟨fun c hc => ?_, ?_⟩, ?_⟩
    · rw [hw.1] at hc
      cases hc
    · rw [LedgerState.total, hw.1]
      rfl
    · rw [LedgerState.madeIn, hw.1]
      rfl
  refine FTriple.bind Owes.stable (hjoin.consequence (fun _ _ hw => hw) (fun ts w _ hw => hw)
    fun w _ hw => ?_) fun ts => ?_
  · obtain ⟨_, _, hs, _, hm⟩ := hw
    exact Idle.owes ⟨hm, hs⟩
  · refine Triple.weaken_pre (FTriple.pure OwesTotals.stable) fun w _ hw => ?_
    have hfirst : ∃ t, Emptied i repo pfx (artifactShardPk repo 0) t w := by
      have hrange : List.range numShards = 0 :: (List.range 255).map Nat.succ :=
        range_succ_eq_map
      rw [hrange] at hw
      cases hw with
      | cons h _ => exact ⟨_, h.1⟩
    obtain ⟨_, hsent, hcovered, _⟩ := hfirst
    obtain ⟨hsum, hzero⟩ := sum_removed (hw.imp fun shard t h => ⟨h.1.2.2, h.2⟩)
    have htotal : w.shared.total i = (ArtifactTotals.sum ts).removed :=
      (sum_by_shards hcovered.under).symm.trans hsum
    refine ⟨⟨nofun, fitsUpdate_due (htotal ▸ hcovered.fits) _ _, fun r d => ?_⟩, hzero⟩
    rw [hsent, booked_under hcovered.under, ← htotal]
    exact (zero_add _).symm

/-- `bulk_delete`: its update covers what all shards have removed. -/
theorem bulkDelete_triple (n : ℕ) :
    LedgerTriple x cm fuel i (.bulkDelete repo pfx) (Idle i) (bulkDelete x n repo pfx)
      (fun _ => Owes i 0 false) (Owes i 0 false) := by
  have hidle : ∀ {α : Type} {p : Async α}, Effects [.table .dirEntries] p →
      LedgerTriple x cm fuel i (.bulkDelete repo pfx) (Idle i) p (fun _ => Idle i)
        (Owes i 0 false) := fun hp =>
    (idle_triple hp).consequence (fun _ _ hw => hw) (fun _ _ _ hw => hw) fun _ _ hw => hw.owes
  refine FTriple.bind Owes.stable (hidle (effects_deleteTreeRecursive (by decide) _ _ _))
    fun _ => ?_
  refine FTriple.bind Owes.stable (hidle (effects_checkCancelled _)) fun _ => ?_
  refine FTriple.bind Owes.stable (hidle (effects_countPrefixArtifacts _ _ _)) fun _ => ?_
  refine FTriple.bind Owes.stable (hidle (effects_checkCancelled _)) fun _ => ?_
  refine FTriple.bind Owes.stable (deletePrefixArtifacts_triple n) fun t => ?_
  refine FTriple.assume fun hzero => ?_
  refine FTriple.when (M := Owes i 0 false) Owes.stable (fun _ => ?_)
    (fun hcount w _ hw => ?_) fun _ => pure_triple _
  · exact dirChanged_triple repo _ (-t.count) (-t.bytes)
  · have hc : t.count = 0 := by omega
    have hremoved : t.removed = 0 := by
      rw [ArtifactTotals.removed, hc, hzero hc]
      rfl
    rwa [hremoved, due_zero] at hw

end Depot
