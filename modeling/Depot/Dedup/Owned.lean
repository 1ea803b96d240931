import Depot.Dedup.Ingestion

/-!
# Who may touch a blob

The proof outline for concurrent ingestion. A blob belongs to the call that has
drawn its identifier, or to the call it was left to, until it is recorded; from
then on nobody changes it. Most operations are harmless: they leave every call what
it relies on.

Results:
* `harmless_step`, `ownFile_step`, `record_step`, `wrote_step`, `session_step`: what
  the operations keep.
-/

namespace Depot

open Lib List
open Function (update update_of_ne update_self)

/-- What a proof sees of the calls. -/
abbrev IngestView := View IngestState IngestJob Unit

/-! ## The invariant -/

/-- Call `i` has drawn the blob, or it was left to it. -/
def Holds (i : ℕ) (b : BlobId) (w : IngestView) : Prop :=
  b ∈ w.shared.drawn i ∨ ∃ j, w.jobs[i]? = some (some j) ∧ b ∈ j.given

/-- The blob was never recorded. -/
def Unrecorded (s : IngestState) (b : BlobId) : Prop := ∀ n ∈ s.recorded, n.blobId ≠ b

/-- A record names a blob that was recorded for its content hash. -/
def Names (s : IngestState) (store : String) (r : ArtifactRecord) : Prop :=
  ∀ b, r.blobId = some b → b ≠ "" → ∃ h, r.contentHash = some h ∧ ⟨store, h, b⟩ ∈ s.recorded

/-- Recorded blobs have their content, records name recorded blobs, and every
    blob belongs to one call at most. -/
structure IngestInv (x : Ext) (w : IngestView) : Prop where
  content : ∀ n ∈ w.shared.recorded, w.shared.world.HasContent x n
  records : ∀ store hash b, w.shared.world.value (blobKey x.shardOf store hash) = some (.blob b) →
    ⟨store, hash, b.blobId⟩ ∈ w.shared.recorded
  artifacts : ∀ k c r, k.part.table = .artifacts → w.shared.world.repoConfig k.scope = some c →
    w.shared.world.value k = some (.artifact r) → Names w.shared c.store r
  wrote : ∀ e ∈ w.shared.wrote, Names w.shared e.1 e.2
  fresh : ∀ n, w.shared.world.drawn ≤ n → x.uuid n ∉ w.shared.left ∧
    (∀ i, x.uuid n ∉ w.shared.drawn i) ∧ Unrecorded w.shared (x.uuid n)
  apart : ∀ i k b, b ∈ w.shared.drawn i → b ∈ w.shared.drawn k → i = k
  apart_left : ∀ i b, b ∈ w.shared.drawn i → b ∉ w.shared.left
  given_left : ∀ (i : ℕ) j, w.jobs[i]? = some (some j) → ∀ b ∈ j.given, b ∈ w.shared.left
  given_apart : ∀ (i k : ℕ) j j' b, w.jobs[i]? = some (some j) → w.jobs[k]? = some (some j') →
    b ∈ j.given → b ∈ j'.given → i = k
  resolved : ∀ (i : ℕ) j, w.jobs[i]? = some (some j) → j.resolved w.shared.world = true
  balance : Balanced x w.shared
  credited : ∀ i, w.shared.credited i <+: w.shared.owed i
  unstarted : ∀ i, w.jobs.length ≤ i →
    w.shared.drawn i = [] ∧ w.shared.owed i = [] ∧ w.shared.credited i = []

variable {w : IngestView}

variable {b : BlobId}

/-- A blob belongs to one call at most. -/
theorem IngestInv.holder {x : Ext} (h : IngestInv x w) {i k : ℕ}
    (hi : Holds i b w) (hk : Holds k b w) : i = k := by
  rcases hi with hi | ⟨j, hj, hi⟩ <;> rcases hk with hk | ⟨j', hj', hk⟩
  · exact h.apart i k b hi hk
  · exact absurd (h.given_left k j' hj' b hk) (h.apart_left i b hi)
  · exact absurd (h.given_left i j hj b hi) (h.apart_left k b hk)
  · exact h.given_apart i k j j' b hj hj' hi hk

/-! ## What a call relies on -/

/-- Between two states, call `i` has kept what it holds and its account, its
    blobs that were not recorded are not, and recorded blobs and the
    configurations of repositories stay. -/
structure Kept (i : ℕ) (w w' : IngestView) : Prop where
  drawn : ∀ b ∈ w.shared.drawn i, b ∈ w'.shared.drawn i
  jobs : ∀ j, w.jobs[i]? = some (some j) → w'.jobs[i]? = some (some j)
  recorded : ∀ n ∈ w.shared.recorded, n ∈ w'.shared.recorded
  own : ∀ b, Holds i b w → Unrecorded w.shared b → Unrecorded w'.shared b
  configs : ∀ name, w'.shared.world.repoConfig name = w.shared.world.repoConfig name
  owed : w'.shared.owed i = w.shared.owed i
  credited : w'.shared.credited i = w.shared.credited i

/-- The files of its blobs that were not recorded are also as they were. -/
structure Still (i : ℕ) (w w' : IngestView) : Prop extends Kept i w w' where
  files : ∀ b, Holds i b w → Unrecorded w.shared b → ∀ store,
    w'.shared.world.file store b = w.shared.world.file store b

theorem Kept.holds {i : ℕ} {w' : IngestView} (h : Kept i w w')
    (hb : Holds i b w) : Holds i b w' := by
  rcases hb with hb | ⟨j, hj, hb⟩
  · exact .inl (h.drawn b hb)
  · exact .inr ⟨j, h.jobs j hj, hb⟩

theorem Kept.refl (i : ℕ) (w : IngestView) : Kept i w w :=
  ⟨fun _ h => h, fun _ h => h, fun _ h => h, fun _ _ h => h, fun _ => rfl, rfl, rfl⟩

theorem Kept.trans {i : ℕ} {w w' w'' : IngestView} (h : Kept i w w') (h' : Kept i w' w'') :
    Kept i w w'' where
  drawn b hb := h'.drawn b (h.drawn b hb)
  jobs j hj := h'.jobs j (h.jobs j hj)
  recorded n hn := h'.recorded n (h.recorded n hn)
  own b hb hu := h'.own b (h.holds hb) (h.own b hb hu)
  configs name := (h'.configs name).trans (h.configs name)
  owed := h'.owed.trans h.owed
  credited := h'.credited.trans h.credited

theorem Still.refl (i : ℕ) (w : IngestView) : Still i w w := ⟨.refl i w, fun _ _ _ _ => rfl⟩

theorem Still.trans {i : ℕ} {w w' w'' : IngestView} (h : Still i w w') (h' : Still i w' w'') :
    Still i w w'' where
  toKept := h.toKept.trans h'.toKept
  files b hb hu store :=
    (h'.files b (h.holds hb) (h.own b hb hu) store).trans (h.files b hb hu store)

/-- A call that has returned has sent a credit for each record that it has created; a
    promotion does so unless the blob is empty. -/
def Even (i : ℕ) (j : IngestJob) (w : IngestView) : Prop :=
  (∀ t path, j = .copyRecord t path → ∀ c ∈ w.shared.owed i, c.2 ≠ 0) →
    w.shared.owed i = w.shared.credited i

/-- The proof outline. -/
def ingestLogic (x : Ext) : Logic IngestState IngestJob Unit where
  inv := IngestInv x
  rely := Still
  guar i w w' := ∀ k ≠ i, Still k w w'
  post := Even
  rely_refl := Still.refl
  rely_trans := Still.trans

/-! ## Harmless operations -/

variable {x : Ext} {i : ℕ} {j : IngestJob}

/-- A change of the world that adds no record and leaves the files. -/
structure Tame (w w' : World) : Prop where
  files : w'.files = w.files
  drawn : w.drawn ≤ w'.drawn
  values : ∀ k v, k.part.table = .blobs ∨ k.part.table = .artifacts → w'.value k = some v →
    w.value k = some v
  configs : ∀ name, w'.repoConfig name = w.repoConfig name

theorem Tame.refl (w : World) : Tame w w := ⟨rfl, le_rfl, fun _ _ _ h => h, fun _ => rfl⟩

theorem Tame.content {w w' : World} (h : Tame w w') {n : RecordedBlob} (hn : w.HasContent x n) :
    w'.HasContent x n := by
  unfold World.HasContent World.file
  rw [h.files]
  exact hn

theorem resolved_congr {w w' : World} (h : ∀ name, w'.repoConfig name = w.repoConfig name) :
    j.resolved w' = j.resolved w := by
  unfold IngestJob.resolved
  simp only [h]

theorem Balanced.congr {s s' : IngestState} (h : Balanced x s) (hcreated : s'.created = s.created)
    (hover : s'.overwritten = s.overwritten) (hdeleted : s'.deleted = s.deleted)
    (hvalue : ∀ store hash, s'.world.value (blobKey x.shardOf store hash) =
      s.world.value (blobKey x.shardOf store hash)) : Balanced x s' := by
  intro store hash
  rw [IngestState.blobsOf, hcreated, hover, hdeleted, hvalue]
  exact h store hash

variable {s : IngestState}

/-- A write of another table keeps the balance. -/
theorem Balanced.other (h : Balanced x s) {k : Key}
    (hk : k.part.table ≠ .blobs) (c : Option (Versioned Value)) :
    Balanced x { s with world := s.world.setCell k c } := by
  refine h.congr rfl rfl rfl fun store hash => ?_
  have hne : blobKey x.shardOf store hash ≠ k := fun heq => hk (heq ▸ rfl)
  rw [World.value, World.cell_setCell_of_ne hne]
  rfl

/-- A record that is deleted is counted. -/
theorem Balanced.remove (h : Balanced x s) (k : Key) {c : Versioned Value}
    (hc : s.world.cell k = some c) :
    Balanced x { s with deleted := s.deleted ++ [k], world := s.world.setCell k none } := by
  intro store hash
  have hbal := h store hash
  show (s.blobsOf store hash).length = (s.deleted ++ [k]).count (blobKey x.shardOf store hash) +
    s.overwritten.count (blobKey x.shardOf store hash) +
    ((s.world.setCell k none).value (blobKey x.shardOf store hash)).toList.length
  rw [World.value, World.cell_setCell, count_append]
  split_ifs with heq
  · rw [heq] at hbal ⊢
    rw [World.value, hc] at hbal
    rw [count_singleton_self]
    simp only [Option.map_some, Option.toList_some, length_singleton, Option.map_none,
      Option.toList_none, length_nil] at hbal ⊢
    omega
  · rw [count_singleton, if_neg (by simpa using Ne.symm heq)]
    exact hbal

/-- A tame change keeps the invariant and what every call relies on. -/
theorem tame_step {w : IngestView} {s : IngestState} (hi : IngestInv x w)
    (ht : Tame w.shared.world s.world) (hbal : Balanced x s)
    (hleft : s.left = w.shared.left) (hdrawn : s.drawn = w.shared.drawn)
    (hwrote : s.wrote = w.shared.wrote) (hcreated : s.created = w.shared.created)
    (hcred : s.credited = w.shared.credited) :
    IngestInv x ⟨s, w.jobs, ()⟩ ∧ ∀ k, Still k w ⟨s, w.jobs, ()⟩ := by
  have howed : ∀ k, s.owed k = w.shared.owed k := fun k => by
    rw [IngestState.owed, hcreated]
    rfl
  have hrec : s.recorded = w.shared.recorded := by
    rw [IngestState.recorded, hcreated]
    rfl
  have hnames : ∀ {store r}, Names w.shared store r → Names s store r := by
    intro store r h b hb hne
    rw [hrec]
    exact h b hb hne
  have hun : ∀ {b}, Unrecorded w.shared b → Unrecorded s b := by
    intro b h
    rw [Unrecorded, hrec]
    exact h
  refine ⟨?_, fun k => ?_⟩
  · exact {
      content := fun n hn => by
        rw [hrec] at hn
        exact ht.content (hi.content n hn)
      records := fun store hash b hv => by
        show (⟨store, hash, b.blobId⟩ : RecordedBlob) ∈ s.recorded
        rw [hrec]
        exact hi.records store hash b (ht.values _ _ (.inl rfl) hv)
      artifacts := fun k c r hk hc hv => by
        have hc' : w.shared.world.repoConfig k.scope = some c := (ht.configs _).symm.trans hc
        exact hnames (hi.artifacts k c r hk hc' (ht.values _ _ (.inr hk) hv))
      wrote := fun e he => by
        rw [hwrote] at he
        exact hnames (hi.wrote e he)
      fresh := fun n hn => by
        obtain ⟨h1, h2, h3⟩ := hi.fresh n (ht.drawn.trans hn)
        refine ⟨?_, ?_, hun h3⟩
        · rwa [hleft]
        · rwa [hdrawn]
      apart := by
        rw [hdrawn]
        exact hi.apart
      apart_left := by
        rw [hdrawn, hleft]
        exact hi.apart_left
      given_left := by
        rw [hleft]
        exact hi.given_left
      given_apart := hi.given_apart
      resolved := fun k j' hj => by
        rw [resolved_congr ht.configs]
        exact hi.resolved k j' hj
      balance := hbal
      credited := fun k => by
        rw [hcred, howed]
        exact hi.credited k
      unstarted := fun k hk => by
        rw [hdrawn, hcred, howed]
        exact hi.unstarted k hk }
  · exact {
      drawn := fun b hb => by rwa [hdrawn]
      jobs := fun _ h => h
      recorded := fun n hn => by rwa [hrec]
      own := fun b _ h => hun h
      files := fun b _ _ store => by
        show s.world.file store b = _
        rw [World.file, ht.files]
        rfl
      configs := ht.configs
      owed := howed k
      credited := congrFun hcred k }

theorem tame_setCell {w : World} {k : Key} {c : Option (Versioned Value)}
    (hk : k.part.table ≠ .repos)
    (hc : k.part.table = .blobs ∨ k.part.table = .artifacts → ∀ v, c.map Versioned.value = some v →
      w.value k = some v) : Tame w (w.setCell k c) where
  files := rfl
  drawn := le_rfl
  values k' v hk' hv := by
    rw [World.value, World.cell_setCell] at hv
    split_ifs at hv with heq
    · subst heq
      exact hc hk' v hv
    · exact hv
  configs name := by
    have hne : repoKey name ≠ k := fun h => hk (h ▸ rfl)
    rw [World.repoConfig, World.value, World.cell_setCell_of_ne hne]
    rfl

variable {ok : Bool}

theorem draw_step {r : String} (hi : (ingestLogic x |>.contract i j).inv w)
    (hx : (ingestSystem x).exec i j .uuid ok w.shared = some (s, r)) :
    IngestInv x ⟨s, w.jobs, ()⟩ ∧ (∀ k, Still k w ⟨s, w.jobs, ()⟩) ∧ r ∈ s.drawn i ∧
      Unrecorded s r ∧ ∀ k, ¬Holds k r w := by
  obtain ⟨hi, hj⟩ := hi
  cases hx
  obtain ⟨hnleft, hndrawn, hnrec⟩ := hi.fresh _ (le_refl w.shared.world.drawn)
  set own := w.shared.drawn i ++ [x.uuid w.shared.world.drawn]
  have hother : ∀ k n, w.shared.world.drawn ≤ n →
      x.uuid n ∈ update w.shared.drawn i own k →
      k = i ∧ n = w.shared.world.drawn := by
    intro k n hn hmem
    rcases eq_or_ne k i with rfl | hne
    · rw [update_self, mem_append, mem_singleton] at hmem
      refine ⟨rfl, x.uuid_inj (hmem.resolve_left ((hi.fresh n hn).2.1 k))⟩
    · rw [update_of_ne hne] at hmem
      exact absurd hmem ((hi.fresh n hn).2.1 k)
  have hmem : ∀ k b, b ∈ update w.shared.drawn i own k →
      b ∈ w.shared.drawn k ∨ k = i ∧ b = x.uuid w.shared.world.drawn := by
    intro k b hb
    rcases eq_or_ne k i with rfl | hne
    · rw [update_self, mem_append, mem_singleton] at hb
      exact hb.imp_right fun h => ⟨rfl, h⟩
    · rw [update_of_ne hne] at hb
      exact .inl hb
  refine ⟨?_, fun k => ?_, ?_, hnrec, ?_⟩
  · exact {
      content := hi.content
      records := hi.records
      artifacts := hi.artifacts
      wrote := hi.wrote
      fresh := fun n hn => by
        have hlt : w.shared.world.drawn < n := hn
        obtain ⟨h1, -, h3⟩ := hi.fresh n hlt.le
        refine ⟨h1, fun k hk => ?_, h3⟩
        have := (hother k n hlt.le hk).2
        omega
      apart := fun k k' b hb hb' => by
        rcases hmem k b hb with h | ⟨hk, hu⟩ <;> rcases hmem k' b hb' with h' | ⟨hk', hu'⟩
        · exact hi.apart k k' b h h'
        · exact absurd (hu' ▸ h) (hndrawn k)
        · exact absurd (hu ▸ h') (hndrawn k')
        · exact hk.trans hk'.symm
      apart_left := fun k b hb => by
        rcases hmem k b hb with hb | ⟨rfl, rfl⟩
        · exact hi.apart_left k b hb
        · exact hnleft
      given_left := hi.given_left
      given_apart := hi.given_apart
      resolved := hi.resolved
      balance := hi.balance
      credited := hi.credited
      unstarted := fun k hk => by
        have hne : k ≠ i := fun h => by
          have hlt := (List.getElem?_eq_some_iff.mp hj).1
          simp only at hk
          omega
        refine ⟨?_, (hi.unstarted k hk).2⟩
        show update w.shared.drawn i own k = []
        rw [update_of_ne hne]
        exact (hi.unstarted k hk).1 }
  · exact {
      drawn := fun b hb => by
        show b ∈ update w.shared.drawn i own k
        rcases eq_or_ne k i with rfl | hne
        · rw [update_self]
          exact mem_append_left _ hb
        · rwa [update_of_ne hne]
      jobs := fun _ h => h
      recorded := fun _ h => h
      own := fun _ _ h => h
      files := fun _ _ _ _ => rfl
      configs := fun _ => rfl
      owed := rfl
      credited := rfl }
  · show x.uuid w.shared.world.drawn ∈ update w.shared.drawn i own i
    rw [update_self]
    exact mem_append_right _ (mem_singleton_self _)
  · rintro k (hk | ⟨j', hj', hk⟩)
    · exact hndrawn k hk
    · exact hnleft (hi.given_left k j' hj' _ hk)

/-- A call writes an artifact record that names a recorded blob. -/
theorem wrote_step {k : Key} {record : ArtifactRecord} {e : Option ℕ}
    {r : R (.write k (.putIf (.artifact record) e))} (hk : k.part.table = .artifacts)
    (hnames : ∀ c, w.shared.world.repoConfig k.scope = some c → Names w.shared c.store record)
    (hjob : Names w.shared j.store record) (hi : (ingestLogic x |>.contract i j).inv w)
    (hx : (ingestSystem x).exec i j (.write k (.putIf (.artifact record) e)) ok w.shared =
      some (s, r)) : IngestInv x ⟨s, w.jobs, ()⟩ ∧ ∀ k, Still k w ⟨s, w.jobs, ()⟩ := by
  obtain ⟨hi, -⟩ := hi
  cases ok with
  | false =>
    cases hx
    exact tame_step hi (.refl _) hi.balance rfl rfl rfl rfl rfl
  | true =>
    cases hx
    simp only [IngestState.note, true_and, IngestState.noteWrite]
    set w' := w.shared.world.setCell k
      (CellOp.apply (.putIf (.artifact record) e) (w.shared.world.cell k))
    split_ifs with hen
    · have hset : ∀ k' v, w'.value k' = some v →
          k' = k ∧ v = .artifact record ∨ w.shared.world.value k' = some v := by
        intro k' v hv
        rw [World.value, World.cell_setCell, CellOp.apply, if_pos hen] at hv
        split_ifs at hv with heq
        · exact .inl ⟨heq, (Option.some.inj hv).symm⟩
        · exact .inr hv
      have hconfig : ∀ name, w'.repoConfig name = w.shared.world.repoConfig name := fun name => by
        have hne : repoKey name ≠ k := fun h => by
          rw [← h] at hk
          cases hk
        rw [World.repoConfig, World.value, World.cell_setCell_of_ne hne]
        rfl
      refine ⟨?_, fun k' => ?_⟩
      · exact {
          content := hi.content
          records := fun store hash b hv => by
            rcases hset _ _ hv with ⟨-, hb⟩ | hv
            · cases hb
            · exact hi.records store hash b hv
          artifacts := fun k' c r hk' hc hv => by
            have hc' := (hconfig _).symm.trans hc
            rcases hset _ _ hv with ⟨rfl, hr⟩ | hv
            · obtain rfl := Value.artifact.inj hr
              exact hnames c hc'
            · exact hi.artifacts k' c r hk' hc' hv
          wrote := fun e' he => by
            rcases mem_append.mp he with he | he
            · exact hi.wrote e' he
            · obtain rfl := mem_singleton.mp he
              exact hjob
          fresh := hi.fresh
          apart := hi.apart
          apart_left := hi.apart_left
          given_left := hi.given_left
          given_apart := hi.given_apart
          resolved := fun k' j' hj => (resolved_congr hconfig).trans (hi.resolved k' j' hj)
          balance := hi.balance.other (by rw [hk]; decide) _
          credited := hi.credited
          unstarted := hi.unstarted }
      · exact {
          drawn := fun _ h => h
          jobs := fun _ h => h
          recorded := fun _ h => h
          own := fun _ _ h => h
          files := fun _ _ _ _ => rfl
          configs := hconfig
          owed := rfl
          credited := rfl }
    · have hsame : Tame w.shared.world w' := by
        refine tame_setCell (by rw [hk]; decide) fun _ v hv => ?_
        rwa [CellOp.apply, if_neg hen] at hv
      exact tame_step hi hsame (hi.balance.other (by rw [hk]; decide) _) rfl rfl rfl rfl rfl

/-- Operations that record no blob and leave the files. -/
def Harmless : Op → Prop
  | .write k (.put (.tree _)) => k.part.table = .dirEntries
  | .write k .remove => k.part.table ≠ .repos
  | .write k (.putIf (.artifact r) _) => k.part.table = .artifacts ∧ r.blobId = none
  | .write _ _ => False
  | .blob _ (.read _) => True
  | .blob _ (.scan _) => True
  | .blob _ _ => False
  | .gc _ _ => False
  | .send (.store _ c _) => c ≠ 1
  | _ => True

/-- Harmless operations keep the invariant and what every call relies on. -/
theorem harmless_step {o : Op} {r : R o} (ho : Harmless o)
    (hi : (ingestLogic x |>.contract i j).inv w)
    (hx : (ingestSystem x).exec i j o ok w.shared = some (s, r)) :
    IngestInv x ⟨s, w.jobs, ()⟩ ∧ ∀ k, Still k w ⟨s, w.jobs, ()⟩ := by
  cases o with
  | stop => cases hx
  | uuid =>
    obtain ⟨hinv, hstill, -⟩ := draw_step hi hx
    exact ⟨hinv, hstill⟩
  | seed =>
    cases hx
    exact tame_step hi.1 ⟨rfl, Nat.le_succ _, fun _ _ _ h => h, fun _ => rfl⟩ hi.1.balance rfl rfl rfl rfl rfl
  | gc inst o => exact ho.elim
  | send d =>
    cases hx
    cases d with
    | dir => exact tame_step hi.1 ⟨rfl, le_rfl, fun _ _ _ h => h, fun _ => rfl⟩ hi.1.balance rfl rfl rfl rfl rfl
    | store store c bytes =>
      have hc : c ≠ 1 := ho
      simp only [IngestState.note, if_neg hc]
      exact tame_step hi.1 ⟨rfl, le_rfl, fun _ _ _ h => h, fun _ => rfl⟩ hi.1.balance rfl rfl rfl rfl rfl
  | blob store o =>
    cases o with
    | read b => cases ok <;> cases hx <;> exact tame_step hi.1 (.refl _) hi.1.balance rfl rfl rfl rfl rfl
    | scan n => cases ok <;> cases hx <;> exact tame_step hi.1 (.refl _) hi.1.balance rfl rfl rfl rfl rfl
    | _ => exact ho.elim
  | write k c =>
    cases ok with
    | false =>
      cases hx
      exact tame_step hi.1 (.refl _) hi.1.balance rfl rfl rfl rfl rfl
    | true =>
      cases hx
      cases c with
      | put v =>
        cases v with
        | tree e =>
          have hk : k.part.table = .dirEntries := ho
          have ht : Tame w.shared.world (w.shared.world.setCell k
              (CellOp.apply (.put (.tree e)) (w.shared.world.cell k))) := by
            refine tame_setCell (by rw [hk]; decide) fun h => ?_
            rw [hk] at h
            exact absurd h (by decide)
          have hbal := hi.1.balance.other (show k.part.table ≠ .blobs by rw [hk]; decide)
            (CellOp.apply (.put (.tree e)) (w.shared.world.cell k))
          simp only [IngestState.note, IngestState.noteWrite]
          split_ifs <;> exact tame_step hi.1 ht hbal rfl rfl rfl rfl rfl
        | _ => exact ho.elim
      | remove =>
        have ht : Tame w.shared.world (w.shared.world.setCell k
            (CellOp.apply .remove (w.shared.world.cell k))) := by
          refine tame_setCell ho fun _ v hv => ?_
          rw [CellOp.apply_remove] at hv
          cases hv
        cases hc : w.shared.world.cell k with
        | none =>
          have hbal : Balanced x { w.shared with world := w.shared.world.setCell k none } := by
            refine hi.1.balance.congr rfl rfl rfl fun store hash => ?_
            rw [World.value, World.cell_setCell]
            split_ifs with heq
            · rw [World.value, heq, hc]
            · rfl
          simp only [IngestState.note, CellOp.enabled, hc, CellOp.apply_remove, Option.isSome_none,
            Bool.false_eq_true, and_false, if_false, if_true]
          exact tame_step hi.1 (CellOp.apply_remove (w.shared.world.cell k) ▸ ht) hbal
            rfl rfl rfl rfl rfl
        | some c =>
          simp only [IngestState.note, IngestState.noteWrite, CellOp.enabled, hc,
            CellOp.apply_remove, Option.isSome_some, and_self, if_true]
          exact tame_step hi.1 (CellOp.apply_remove (w.shared.world.cell k) ▸ ht)
            (hi.1.balance.remove k hc) rfl rfl rfl rfl rfl
      | putIf v e =>
        cases v with
        | artifact r =>
          have hnames : ∀ store, Names w.shared store r := fun _ b hb _ => by
            rw [ho.2] at hb
            cases hb
          exact wrote_step ho.1 (fun _ _ => hnames _) (hnames _) hi rfl
        | _ => exact ho.elim
      | removeIf => exact ho.elim
  | _ =>
    cases hx
    exact tame_step hi.1 (.refl _) hi.1.balance rfl rfl rfl rfl rfl

/-! ## Files -/

/-- The blob whose file an operation changes. -/
def BlobOp.changes : BlobOp → Option BlobId
  | .put b _ => some b
  | .delete b => some b
  | .createWriter b => some b
  | .writeAt b .. => some b
  | _ => none

/-- Blob operations change one file. -/
theorem execBlob_frame (w : World) (store : String) (o : BlobOp) :
    (w.execBlob x store o).1.kv = w.kv ∧ w.drawn ≤ (w.execBlob x store o).1.drawn ∧
      ∀ store' b, o.changes ≠ some b →
        (w.execBlob x store o).1.file store' b = w.file store' b := by
  have hset : ∀ b f store' b', some b ≠ some b' →
      (w.setFile store b f).file store' b' = w.file store' b' := by
    intro b f store' b' hne
    rw [World.file_setFile, if_neg fun h => hne (by rw [h.2])]
  cases o with
  | put b | createWriter b =>
    simp only [World.execBlob]
    split
    · exact ⟨rfl, le_rfl, fun store' b' => hset b _ store' b'⟩
    · exact ⟨rfl, Nat.le_succ _, fun store' b' => hset b _ store' b'⟩
  | delete b => exact ⟨rfl, le_rfl, fun store' b' => hset b _ store' b'⟩
  | writeAt b inode offset data =>
    simp only [World.execBlob]
    split
    · split_ifs
      · exact ⟨rfl, le_rfl, fun store' b' => hset b _ store' b'⟩
      · exact ⟨rfl, le_rfl, fun _ _ _ => rfl⟩
    · exact ⟨rfl, le_rfl, fun _ _ _ => rfl⟩
  | _ => exact ⟨rfl, le_rfl, fun _ _ _ => rfl⟩

/-- A call changes the file of a blob that it holds and that was not recorded. -/
theorem ownFile_step {store : String} {o : BlobOp} {r : R (.blob store o)} (hb : o.changes = some b)
    (hi : (ingestLogic x |>.contract i j).inv w) (hown : Holds i b w) (hun : Unrecorded w.shared b)
    (hx : (ingestSystem x).exec i j (.blob store o) ok w.shared = some (s, r)) :
    IngestInv x ⟨s, w.jobs, ()⟩ ∧ (∀ k ≠ i, Still k w ⟨s, w.jobs, ()⟩) ∧
      s = { w.shared with world := s.world } ∧
      s.world = if ok then (w.shared.world.execBlob x store o).1 else w.shared.world := by
  obtain ⟨hi, -⟩ := hi
  cases ok with
  | false =>
    cases hx
    have h := tame_step (s := w.shared) hi (.refl _) hi.balance rfl rfl rfl rfl rfl
    exact ⟨h.1, fun k _ => h.2 k, rfl, rfl⟩
  | true =>
    cases hx
    obtain ⟨hkv, hdrawn, hfile⟩ := execBlob_frame (x := x) w.shared.world store o
    have hvalue : ∀ k, (w.shared.world.execBlob x store o).1.value k = w.shared.world.value k := by
      intro k
      rw [World.value, World.cell, hkv]
      rfl
    have hconfig : ∀ name, (w.shared.world.execBlob x store o).1.repoConfig name =
        w.shared.world.repoConfig name := fun name => by
      rw [World.repoConfig, hvalue]
      rfl
    refine ⟨?_, fun k hk => ?_, rfl, rfl⟩
    · exact {
        content := fun n hn => by
          obtain ⟨f, hf, hhash⟩ := hi.content n hn
          refine ⟨f, ?_, hhash⟩
          have hne : o.changes ≠ some n.blobId := by
            rw [hb]
            exact fun h => hun n hn (Option.some.inj h).symm
          exact (hfile n.store n.blobId hne).trans hf
        records := fun store hash b hv => hi.records store hash b ((hvalue _).symm.trans hv)
        artifacts := fun k c r hk hc hv =>
          hi.artifacts k c r hk ((hconfig _).symm.trans hc) ((hvalue k).symm.trans hv)
        wrote := hi.wrote
        fresh := fun n hn => hi.fresh n (hdrawn.trans hn)
        apart := hi.apart
        apart_left := hi.apart_left
        given_left := hi.given_left
        given_apart := hi.given_apart
        resolved := fun k j' hj => (resolved_congr hconfig).trans (hi.resolved k j' hj)
        balance := hi.balance.congr rfl rfl rfl fun store hash => hvalue _
        credited := hi.credited
        unstarted := hi.unstarted }
    · exact {
        drawn := fun _ h => h
        jobs := fun _ h => h
        recorded := fun _ h => h
        own := fun _ _ h => h
        files := fun b' hb' _ store' => by
          refine hfile store' b' ?_
          rw [hb]
          intro h
          obtain rfl := Option.some.inj h
          exact hk (hi.holder hb' hown)
        configs := hconfig
        owed := rfl
        credited := rfl }

/-! ## Records -/

/-- The state after a blob record was written at a version. -/
def IngestState.withRecord (x : Ext) (s : IngestState) (i : ℕ) (store : String)
    (b : BlobRecord) (version : ℕ) : IngestState :=
  { s.noteRecord i (blobKey x.shardOf store b.hash) b with
    world := s.world.setCell (blobKey x.shardOf store b.hash) (some ⟨version, .blob b⟩) }

theorem recorded_withRecord (s : IngestState) (store : String) (b : BlobRecord) (version : ℕ) :
    (s.withRecord x i store b version).recorded = s.recorded ++ [⟨store, b.hash, b.blobId⟩] := by
  show (s.created ++ [_]).map CreatedBlob.toRecordedBlob = _
  rw [map_append]
  rfl

theorem owed_withRecord (s : IngestState) (store : String) (b : BlobRecord) (version k : ℕ) :
    (s.withRecord x i store b version).owed k =
      s.owed k ++ if i = k then [(store, (b.size : ℤ))] else [] := by
  show ((s.created ++ [_]).filter fun c : CreatedBlob => decide (c.call = some k)).map _ = _
  rw [filter_append, map_append]
  by_cases h : i = k
  · rw [if_pos h, h, filter_cons_of_pos (by simp)]
    rfl
  · rw [if_neg h, filter_cons_of_neg (by simpa using h)]
    rfl

theorem blobKey_inj {store store' hash hash' : String}
    (h : blobKey x.shardOf store hash = blobKey x.shardOf store' hash') :
    store = store' ∧ hash = hash' := by
  simp only [blobKey, Key.mk.injEq, blobShardPk, Part.mk.injEq, Pk.sharded.injEq] at h
  exact ⟨h.1.2.1, h.2⟩

/-- A record that is created is counted, and so is the one it overwrites. -/
theorem Balanced.record (h : Balanced x s) (store : String) (b : BlobRecord)
    (version : ℕ) : Balanced x (s.withRecord x i store b version) := by
  intro store' hash
  have hbal := h store' hash
  show (((s.created ++ [_]).filter fun c : CreatedBlob =>
      decide (c.store = store' ∧ c.hash = hash)).map _).length =
    s.deleted.count (blobKey x.shardOf store' hash) +
    (if (s.world.cell (blobKey x.shardOf store b.hash)).isSome then
      s.overwritten ++ [blobKey x.shardOf store b.hash] else s.overwritten).count
        (blobKey x.shardOf store' hash) +
    ((s.world.setCell (blobKey x.shardOf store b.hash) (some ⟨version, .blob b⟩)).value
      (blobKey x.shardOf store' hash)).toList.length
  rw [filter_append, map_append, length_append, World.value, World.cell_setCell]
  by_cases heq : blobKey x.shardOf store' hash = blobKey x.shardOf store b.hash
  · obtain ⟨rfl, rfl⟩ := blobKey_inj heq
    rw [if_pos rfl, filter_cons_of_pos (by exact decide_eq_true ⟨rfl, rfl⟩)]
    rw [IngestState.blobsOf, World.value] at hbal
    rw [hbal]
    cases hc : s.world.cell (blobKey x.shardOf store' b.hash) with
    | none => simp
    | some c =>
      simp only [Option.isSome_some, if_true, count_append, count_singleton_self,
        Option.map_some, Option.toList_some, length_singleton, map_cons,
        filter_nil, map_nil]
      omega
  · have hne : ¬(store = store' ∧ b.hash = hash) := fun h => heq (by rw [h.1, h.2])
    rw [if_neg heq, filter_cons_of_neg (by exact decide_eq_false hne ▸ Bool.false_ne_true),
      filter_nil, map_nil,
      length_nil, Nat.add_zero]
    have hcount : (if (s.world.cell (blobKey x.shardOf store b.hash)).isSome then
        s.overwritten ++ [blobKey x.shardOf store b.hash] else s.overwritten).count
        (blobKey x.shardOf store' hash) = s.overwritten.count (blobKey x.shardOf store' hash) := by
      split_ifs
      · rw [count_append, count_singleton, if_neg (by simpa using Ne.symm heq),
          Nat.add_zero]
      · rfl
    rw [hcount]
    exact hbal

/-- A call records a blob that has the content, and that it holds or that was recorded
    before. -/
theorem record_step {w : IngestView} {store : String} {rec_ : BlobRecord} {version : ℕ}
    (hi : (ingestLogic x |>.contract i j).inv w)
    (hcontent : w.shared.world.HasContent x ⟨store, rec_.hash, rec_.blobId⟩)
    (hown : Holds i rec_.blobId w ∨ ⟨store, rec_.hash, rec_.blobId⟩ ∈ w.shared.recorded) :
    IngestInv x ⟨w.shared.withRecord x i store rec_ version, w.jobs, ()⟩ ∧
      ∀ k ≠ i, Still k w ⟨w.shared.withRecord x i store rec_ version, w.jobs, ()⟩ := by
  obtain ⟨hi, hj⟩ := hi
  have howed := fun k => @owed_withRecord x i w.shared store rec_ version k
  have hset : ∀ k v, (w.shared.world.setCell (blobKey x.shardOf store rec_.hash)
      (some ⟨version, .blob rec_⟩)).value k = some v →
      k = blobKey x.shardOf store rec_.hash ∧ v = .blob rec_ ∨ w.shared.world.value k = some v := by
    intro k v hv
    rw [World.value, World.cell_setCell] at hv
    split_ifs at hv with hk
    · exact .inl ⟨hk, (Option.some.inj hv).symm⟩
    · exact .inr hv
  have hconfig : ∀ name, (w.shared.world.setCell (blobKey x.shardOf store rec_.hash)
      (some ⟨version, .blob rec_⟩)).repoConfig name = w.shared.world.repoConfig name := fun name => by
    have hne : repoKey name ≠ blobKey x.shardOf store rec_.hash := fun h =>
      absurd (congrArg (fun k => k.part.table) h) (by simp [repoKey, blobKey, blobShardPk])
    rw [World.repoConfig, World.value, World.cell_setCell_of_ne hne]
    rfl
  have hmem : ∀ n, n ∈ (w.shared.withRecord x i store rec_ version).recorded ↔
      n ∈ w.shared.recorded ∨ n = ⟨store, rec_.hash, rec_.blobId⟩ := fun n => by
    rw [recorded_withRecord, mem_append, mem_singleton]
  have hnames : ∀ {store' r}, Names w.shared store' r →
      Names (w.shared.withRecord x i store rec_ version) store' r := by
    intro store' r h b hb hne
    obtain ⟨h', hh, hn⟩ := h b hb hne
    exact ⟨h', hh, (hmem _).mpr (.inl hn)⟩
  refine ⟨?_, fun k hk => ?_⟩
  · exact {
      content := fun n hn => by
        rcases (hmem n).mp hn with hn | rfl
        · exact hi.content n hn
        · exact hcontent
      records := fun store' hash b hv => by
        refine (hmem _).mpr ?_
        rcases hset _ _ hv with ⟨hk, hb⟩ | hv
        · obtain rfl := Value.blob.inj hb
          obtain ⟨rfl, rfl⟩ := blobKey_inj hk
          exact .inr rfl
        · exact .inl (hi.records store' hash b hv)
      artifacts := fun k c r hk hc hv => by
        rcases hset _ _ hv with ⟨-, hb⟩ | hv
        · cases hb
        · exact hnames (hi.artifacts k c r hk ((hconfig _).symm.trans hc) hv)
      wrote := fun e he => hnames (hi.wrote e he)
      fresh := fun n hn => by
        obtain ⟨h1, h2, h3⟩ := hi.fresh n hn
        refine ⟨h1, h2, fun m hm => ?_⟩
        rcases (hmem m).mp hm with hm | rfl
        · exact h3 m hm
        · intro heq
          rcases hown with (hown | ⟨j', hj', hown⟩) | hown
          · exact h2 i (heq ▸ hown)
          · exact h1 (hi.given_left i j' hj' _ (heq ▸ hown))
          · exact h3 _ hown heq
      apart := hi.apart
      apart_left := hi.apart_left
      given_left := hi.given_left
      given_apart := hi.given_apart
      resolved := fun k j' hj => (resolved_congr hconfig).trans (hi.resolved k j' hj)
      balance := hi.balance.record store rec_ version
      credited := fun k => by
        rw [howed]
        exact (hi.credited k).trans (prefix_append _ _)
      unstarted := fun k hk => by
        have hne : i ≠ k := fun h => by
          have hlt := (List.getElem?_eq_some_iff.mp hj).1
          simp only at hk
          omega
        obtain ⟨h1, h2, h3⟩ := hi.unstarted k hk
        refine ⟨h1, ?_, h3⟩
        rw [howed, if_neg hne, append_nil]
        exact h2 }
  · exact {
      drawn := fun _ h => h
      jobs := fun _ h => h
      recorded := fun n hn => (hmem n).mpr (.inl hn)
      own := fun b hb hun n hn => by
        rcases (hmem n).mp hn with hn | rfl
        · exact hun n hn
        · rintro rfl
          rcases hown with hown | hown
          · exact hk (hi.holder hb hown)
          · exact hun _ hown rfl
      files := fun _ _ _ _ => rfl
      configs := hconfig
      owed := by rw [howed, if_neg hk.symm, append_nil]
      credited := rfl }

/-! ## Sessions and credits -/

/-- A session takes over blobs of the call that writes it. -/
theorem session_step {k : Key} {u : UploadSessionRecord} {c : CellOp Value}
    (hc : c = .put (.session u) ∨ ∃ e, c = .putIf (.session u) e)
    (hk : k.part.table = .uploadSessions) {r : R (.write k c)}
    (hi : (ingestLogic x |>.contract i j).inv w)
    (hx : (ingestSystem x).exec i j (.write k c) ok w.shared = some (s, r)) :
    IngestInv x ⟨s, w.jobs, ()⟩ ∧ (∀ k ≠ i, Still k w ⟨s, w.jobs, ()⟩) ∧
      s.owed i = w.shared.owed i ∧ s.credited i = w.shared.credited i := by
  obtain ⟨hi, hj⟩ := hi
  cases ok with
  | false =>
    cases hx
    have h := tame_step (s := w.shared) hi (.refl _) hi.balance rfl rfl rfl rfl rfl
    exact ⟨h.1, fun k _ => h.2 k, rfl, rfl⟩
  | true =>
    cases hx
    have ht : Tame w.shared.world (w.shared.world.setCell k (c.apply (w.shared.world.cell k))) := by
      refine tame_setCell (by rw [hk]; decide) fun h => ?_
      rw [hk] at h
      exact absurd h (by decide)
    have hbal := hi.balance.other (show k.part.table ≠ .blobs by rw [hk]; decide)
      (c.apply (w.shared.world.cell k))
    have hnote : w.shared.noteWrite i j k c = w.shared.noteSession i u := by
      rcases hc with rfl | ⟨e, rfl⟩ <;> rfl
    simp only [IngestState.note, true_and, hnote]
    split_ifs with hen
    · have hdrawn : ∀ k' b, b ∈ (w.shared.noteSession i u).drawn k' →
          b ∈ w.shared.drawn k' ∧ (k' = i → b ∉ (u.blobId :: u.chunkBlobIds).filter
            (· ∈ w.shared.drawn i)) := by
        intro k' b hb
        simp only [IngestState.noteSession] at hb
        rcases eq_or_ne k' i with rfl | hne
        · rw [update_self, mem_filter] at hb
          exact ⟨hb.1, fun _ => of_decide_eq_true hb.2⟩
        · rw [update_of_ne hne] at hb
          exact ⟨hb, fun h => absurd h hne⟩
      have hleft : ∀ b, b ∈ (w.shared.noteSession i u).left → b ∈ w.shared.left ∨
          b ∈ w.shared.drawn i ∧ b ∈ (u.blobId :: u.chunkBlobIds).filter
            (· ∈ w.shared.drawn i) := by
        intro b hb
        refine (mem_append.mp hb).imp_right fun h => ⟨?_, h⟩
        simpa using (mem_filter.mp h).2
      have htame := tame_step
        (s := { w.shared with world := w.shared.world.setCell k (c.apply (w.shared.world.cell k)) })
        hi ht hbal rfl rfl rfl rfl rfl
      refine ⟨?_, fun k' hk' => ?_, rfl, rfl⟩
      · exact { htame.1 with
          fresh := fun n hn => by
            obtain ⟨h1, h2, h3⟩ := hi.fresh n hn
            refine ⟨fun h => ?_, fun k' h => h2 k' (hdrawn k' _ h).1, h3⟩
            rcases hleft _ h with h | h
            · exact h1 h
            · exact h2 i h.1
          apart := fun k1 k2 b h1 h2 => hi.apart k1 k2 b (hdrawn k1 b h1).1 (hdrawn k2 b h2).1
          apart_left := fun k' b hb hl => by
            obtain ⟨hb, hnot⟩ := hdrawn k' b hb
            rcases hleft b hl with hl | ⟨hl, hin⟩
            · exact hi.apart_left k' b hb hl
            · exact hnot (hi.apart k' i b hb hl) hin
          given_left := fun k' j' hj' b hb => mem_append_left _ (hi.given_left k' j' hj' b hb)
          unstarted := fun k' hk' => by
            have hne : k' ≠ i := fun h => by
              have hlt := (List.getElem?_eq_some_iff.mp hj).1
              simp only at hk'
              omega
            refine ⟨?_, (hi.unstarted k' hk').2⟩
            show update _ _ _ _ = _
            rw [update_of_ne hne]
            exact (hi.unstarted k' hk').1 }
      · exact { htame.2 k' with
          drawn := fun b hb => by
            have hsame : (w.shared.noteSession i u).drawn k' = w.shared.drawn k' :=
              update_of_ne hk' _ _
            show b ∈ (w.shared.noteSession i u).drawn k'
            rwa [hsame]
          own := fun _ _ h => h
          files := fun _ _ _ _ => rfl }
    · have htame := tame_step
        (s := { w.shared with world := w.shared.world.setCell k (c.apply (w.shared.world.cell k)) })
        hi ht hbal rfl rfl rfl rfl rfl
      exact ⟨htame.1, fun k' _ => htame.2 k', rfl, rfl⟩

/-- A call sends a credit that is due. -/
theorem credit_step {store : String} {bytes : ℤ}
    {r : R (.send (.store store 1 bytes))} (hi : (ingestLogic x |>.contract i j).inv w)
    (hdue : w.shared.credited i ++ [(store, bytes)] <+: w.shared.owed i)
    (hx : (ingestSystem x).exec i j (.send (.store store 1 bytes)) ok w.shared = some (s, r)) :
    IngestInv x ⟨s, w.jobs, ()⟩ ∧ (∀ k ≠ i, Still k w ⟨s, w.jobs, ()⟩) ∧
      s = { w.shared with
        world := s.world
        credited := update w.shared.credited i
          (w.shared.credited i ++ [(store, bytes)]) } ∧
      s.world.files = w.shared.world.files := by
  obtain ⟨hi, hj⟩ := hi
  cases hx
  have hnote : ∀ w', w.shared.note x i j (.send (.store store 1 bytes)) ok w' =
      { w.shared with
        world := w'
        credited := update w.shared.credited i
          (w.shared.credited i ++ [(store, bytes)]) } := fun _ => by
    rw [IngestState.note, if_pos rfl]
  rw [hnote]
  have ht : Tame w.shared.world
      { w.shared.world with deltas := w.shared.world.deltas ++ [.store store 1 bytes] } :=
    ⟨rfl, le_rfl, fun _ _ _ h => h, fun _ => rfl⟩
  have htame := tame_step (s := { w.shared with world :=
    { w.shared.world with deltas := w.shared.world.deltas ++ [.store store 1 bytes] } })
    hi ht hi.balance rfl rfl rfl rfl rfl
  refine ⟨?_, fun k hk => ?_, rfl, rfl⟩
  · exact { htame.1 with
      credited := fun k => by
        show update w.shared.credited i _ k <+: w.shared.owed k
        rcases eq_or_ne k i with rfl | hne
        · rw [update_self]
          exact hdue
        · rw [update_of_ne hne]
          exact hi.credited k
      unstarted := fun k hk => by
        have hne : k ≠ i := fun h => by
          have hlt := (List.getElem?_eq_some_iff.mp hj).1
          simp only at hk
          omega
        obtain ⟨h1, h2, h3⟩ := hi.unstarted k hk
        refine ⟨h1, h2, ?_⟩
        show update w.shared.credited i _ k = []
        rw [update_of_ne hne]
        exact h3 }
  · exact { htame.2 k with
      own := fun _ _ h => h
      files := fun _ _ _ _ => rfl
      credited := update_of_ne hk _ _ }

end Depot
