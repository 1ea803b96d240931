import Depot.Dedup.Uploads

/-!
# The proof outline is sound

Promotions copy the blob of a record to another store, deletes remove records
only. With these, every call keeps to the proof outline.

Results:
* `copyRecord_owns`: a promotion writes a record for a recorded blob.
* `code_even`: every call keeps to the proof outline.
* `ingestLogic_sound`: the outline is sound.
-/

namespace Depot

open Lib List
open Fallible (Uses uses_attempt)

variable {x : Ext} {i : ℕ} {j : IngestJob}

/-! ## Promotions -/

section

variable {known : List RecordedBlob} {debt : List (String × ℤ)}

/-- A promotion has paid for its record, unless the blob is empty. -/
def Paid (i : ℕ) (w : IngestView) : Prop :=
  ∃ debt : List (String × ℤ), (∀ c ∈ debt, c.2 = 0) ∧ Owns i [] [] debt w

theorem Paid.stable : ((ingestLogic x).contract i j).Stable (Paid i) :=
  fun w w' hi hi' hr ⟨debt, hzero, hw⟩ => ⟨debt, hzero, Owns.stable w w' hi hi' hr hw⟩

/-- A recorded blob has the content of its hash. -/
theorem blobRead_known {n : RecordedBlob} (hn : n ∈ known) :
    IngestTriple x i j (Owns i [] known debt) (blobRead n.store n.blobId)
      (fun r w => Owns i [] known debt w ∧ ∀ data, r = some data → x.blake3 data = n.hash)
      Failed := by
  refine FTriple.attempt Owns.stable (fun r w w' hi hi' hr hw =>
    ⟨Owns.stable w w' hi hi' hr hw.1, hw.2⟩) Failed.stable fun w ok s r hi hw _ hx => ?_
  obtain ⟨hinv, hstill⟩ := harmless_step (o := .blob n.store (.read n.blobId)) trivial hi hx
  have hi' : ((ingestLogic x).contract i j).inv ⟨s, w.jobs, ()⟩ := ⟨hinv, hi.2⟩
  refine ⟨(), hi', fun k _ => hstill k, fun a ha => ⟨Owns.stable w _ hi hi' (hstill i) hw,
    fun data hdata => ?_⟩, fun _ => trivial⟩
  subst hdata
  obtain ⟨f, hf, hhash⟩ := hi.1.content n (hw.known n hn)
  cases ok with
  | false =>
    cases hx
    cases ha
  | true =>
    cases hx
    have hread : (w.shared.world.file n.store n.blobId).map BlobFile.content = some data :=
      Option.some.inj ha
    rw [hf] at hread
    rw [← Option.some.inj hread]
    exact hhash

theorem Names.stable {store : String} {r : ArtifactRecord} :
    ((ingestLogic x).contract i j).Stable fun w => Names w.shared store r := by
  intro w w' _ _ hr hw b hb hne
  obtain ⟨h, hh, hn⟩ := hw b hb hne
  exact ⟨h, hh, hr.recorded _ hn⟩

/-- The copy of a record: a record that may be written, and what is due for it. -/
def Rehomed (i : ℕ) (j : IngestJob) (store repo : String) (dest : ArtifactRecord × ℕ)
    (w : IngestView) : Prop :=
  ∃ known debt, Writable j known repo dest.1 ∧ Owns i [] known debt w ∧
    (debt = [(store, (dest.2 : ℤ))] ∨ debt = [] ∧ dest.2 = 0)

variable {t : CopyTarget}

/-- A copy is written and paid. -/
theorem putCopy_owns (path : String) (dest : ArtifactRecord × ℕ) :
    IngestTriple x i j (Rehomed i j t.destStore t.destRepo dest) (do
        let old ← putArtifact x t.destRepo path dest.1
        recordPut t.destRepo path dest.1 old
        if 0 < dest.2 then storeChanged t.destStore 1 dest.2
        pure 1) (fun _ => Paid i) Failed := by
  rintro w hi ⟨known, debt, hwrite, hw, hdebt⟩
  refine bind_failed (putArtifact_triple_owns hwrite path) (fun old => ?_) w hi hw
  refine recordPut_bind fun _ => ?_
  refine FTriple.when (M := Paid i) Failed.stable (fun hpos => ?_) (fun hzero w _ hw => ?_)
    fun _ => fun w hi hw u hu hi' => Paid.stable w u hi hi' hu hw
  · have hpay : debt = [(t.destStore, (dest.2 : ℤ))] := hdebt.resolve_right fun h => by omega
    rw [hpay]
    exact FTriple.consequence storeChanged_owns (fun _ _ hw => hw)
      (fun _ w _ hw => ⟨[], nofun, hw.weaken nofun nofun⟩) fun _ _ hw => hw
  · refine ⟨debt, fun c hc => ?_, hw.weaken nofun nofun⟩
    rcases hdebt with rfl | ⟨rfl, -⟩
    · rw [mem_singleton.mp hc]
      show (dest.2 : ℤ) = 0
      omega
    · cases hc

/-- The blob of a record is copied to the store of the destination. -/
theorem rehomeBlob_owns (ht : j.target = some (t.destRepo, t.destStore)) (record : ArtifactRecord) :
    IngestTriple x i j (fun w => Clear i w ∧ Names w.shared t.sourceStore record)
      (CopyTarget.rehomeBlob x t record) (Rehomed i j t.destStore t.destRepo) Failed := by
  unfold CopyTarget.rehomeBlob
  cases hfilter : record.blobId.filter (· ≠ "") with
  | none =>
    intro w hi hw u hu hi'
    refine ⟨[], [], ⟨⟨_, ht⟩, fun b hb hne => ?_⟩, Owns.stable w u hi hi' hu hw.1, .inr ⟨rfl, rfl⟩⟩
    rw [hb, Option.filter_some, if_pos (decide_eq_true hne)] at hfilter
    cases hfilter
  | some blobId =>
    obtain ⟨hblob, hne⟩ := Option.filter_eq_some_iff.mp hfilter
    rintro w hi ⟨hw, hnames⟩
    obtain ⟨h, hh, hn⟩ := hnames blobId hblob (of_decide_eq_true hne)
    have hknown : Owns i [] [⟨t.sourceStore, h, blobId⟩] [] w := by
      refine ⟨nofun, fun n hn' => ?_, hw.debt⟩
      obtain rfl := mem_singleton.mp hn'
      exact hn
    refine bind_failed (blobRead_known mem_cons_self) (fun data => ?_) w hi hknown
    cases data with
    | none => exact fun _ _ _ _ _ _ => trivial
    | some data =>
      refine FTriple.assume fun hdata => ?_
      have hhash : record.contentHash.getD (x.blake3 data) = h := by rw [hh]; rfl
      refine newUuid_bind fun b hb => ?_
      refine bind_failing (blobPut_owns hb) fun _ => ?_
      refine bind_failed (keep_clear (Written.stable hb) effects_utcNow) fun now => ?_
      refine bind_failed (Triple.weaken_pre putDedupRecord_owns
        fun w _ hw => ⟨hw.1, .inl ⟨hb, data, ?_, hw.2⟩⟩) fun existing => ?_
      · rw [hhash]
        exact hdata data rfl
      have hwrite : ∀ (e : BlobId) known', ⟨t.destStore, h, e⟩ ∈ known' →
          Writable j known' t.destRepo { record with blobId := some e } := by
        intro e known' he
        refine ⟨⟨_, ht⟩, fun b' hb' _ => ⟨h, hh, ?_⟩⟩
        obtain rfl := Option.some.inj hb'
        have hstore : j.store = t.destStore := by rw [IngestJob.store, ht]; rfl
        rwa [hstore]
      cases existing with
      | none =>
        intro w hi hw u hu hi'
        have hw' := Claimed.stable none w u hi hi' hu hw
        rw [hhash] at hw'
        exact ⟨_, _, hwrite b _ mem_cons_self, Owns.weaken hw' nofun fun _ h => h, .inl rfl⟩
      | some e =>
        refine bind_failed (FTriple.ignore Owns.stable (blobDelete_owns hb)) fun _ => ?_
        intro w hi hw u hu hi'
        have hw' := Owns.stable w u hi hi' hu hw
        rw [hhash] at hw'
        exact ⟨_, _, hwrite e _ mem_cons_self, Owns.weaken hw' nofun fun _ h => h, .inr ⟨rfl, rfl⟩⟩

variable {repo store : String}

/-- The store that a promotion copies from is the one of its repository. -/
theorem source_store {w : IngestView} (hi : ((ingestLogic x).contract i j).inv w)
    (hs : j.source = some (repo, store)) :
    ∃ c, w.shared.world.repoConfig repo = some c ∧ c.store = store := by
  have hres := hi.1.resolved i j hi.2
  simp only [IngestJob.resolved, hs, Option.all_some, Bool.and_eq_true, Option.any_eq_true,
    decide_eq_true_eq] at hres
  exact hres.2

section

variable (ht : j.target = some (repo, store)) {record : ArtifactRecord} {w : IngestView}
variable (hw : Clear i w) (hnames : Names w.shared store record)

include ht hw hnames

/-- A record that names a recorded blob of the repository may be written there. -/
theorem writable_names : ∃ known, Writable j known repo record ∧ Owns i [] known [] w := by
  have hstore : j.store = store := by rw [IngestJob.store, ht]; rfl
  by_cases hblob : ∃ b, record.blobId = some b ∧ b ≠ ""
  · obtain ⟨b, hb, hne⟩ := hblob
    obtain ⟨h, hh, hn⟩ := hnames b hb hne
    refine ⟨[⟨store, h, b⟩], ⟨⟨_, ht⟩, fun b' hb' _ => ⟨h, hh, ?_⟩⟩,
      ⟨forall_mem_nil _, fun n hn' => ?_, hw.debt⟩⟩
    · obtain rfl := Option.some.inj (hb.symm.trans hb')
      rw [hstore]
      exact mem_cons_self
    · obtain rfl := mem_singleton.mp hn'
      exact hn
  · exact ⟨[], ⟨⟨_, ht⟩, fun b hb hne => absurd ⟨b, hb, hne⟩ hblob⟩, hw⟩

/-- A record that names a recorded blob of the destination is its own copy. -/
theorem rehomed_same : Rehomed i j store repo (record, 0) w := by
  obtain ⟨known, hwrite, howns⟩ := writable_names ht hw hnames
  exact ⟨known, [], hwrite, howns, .inr ⟨rfl, rfl⟩⟩

end

/-- The record that a promotion reads names a recorded blob of the source store. -/
theorem copyRecord_owns {path : String} (hj : j = .copyRecord t path) :
    IngestTriple x i j (Clear i) (CopyTarget.copyRecord x t path) (fun _ => Paid i) Failed := by
  have ht : j.target = some (t.destRepo, t.destStore) := by rw [hj]; rfl
  have hread : IngestTriple x i j (Clear i) (getArtifact x t.sourceRepo path)
      (fun r w => Clear i w ∧ ∀ a, r = some a → Names w.shared t.sourceStore a) (Clear i) := by
    refine typedGet_keeps Owns.stable (fun a => Names.stable) fun w a v hi _ _ hv ha => ?_
    rw [Value.artifact?_eq_some.mp ha] at hv
    have hsource : j.source = some (t.sourceRepo, t.sourceStore) := by rw [hj]; rfl
    obtain ⟨c, hc, hstore⟩ := source_store hi hsource
    rw [← hstore]
    exact hi.1.artifacts (artifactKey x.shardOf t.sourceRepo path) c a rfl hc hv
  refine bind_failing hread fun record => ?_
  cases record with
  | none =>
    exact fun w hi hw u hu hi' => ⟨[], nofun, Owns.stable w u hi hi' hu hw.1⟩
  | some record =>
    dsimp only
    split_ifs with hsame
    · refine Triple.weaken_pre (putCopy_owns path (record, 0)) fun w _ hw => ?_
      exact rehomed_same ht hw.1 (hsame ▸ hw.2 record rfl)
    · refine Triple.weaken_pre (bind_failed (rehomeBlob_owns ht record) fun dest =>
        putCopy_owns path dest) fun w _ hw => ⟨hw.1, hw.2 record rfl⟩

end

/-! ## Deletes -/

theorem Effects.harmless {α : Type} {p : Async α} (hp : Effects [.dirStats] p) :
    Uses Harmless p := Uses.mono (fun _ => harmless_effect) hp

/-- Deletes of records are harmless. -/
theorem harmless_deleteArtifact (repo path : String) :
    Uses Harmless (deleteArtifact x repo path) := by
  refine (uses_attempt nofun).bind fun v => ?_
  cases v with
  | none => trivial
  | some v =>
    refine (Uses.ignore (uses_attempt nofun)).bind fun _ => ?_
    exact ((effects_decode _ v).map).harmless

theorem harmless_hostedDelete (h : HostedRepo) (path : String) :
    Uses Harmless (HostedRepo.delete x h path) := by
  refine (harmless_deleteArtifact _ _).bind fun old => ?_
  cases old with
  | none => trivial
  | some old =>
    refine (effects_dirChanged mem_cons_self _ _ _ _).harmless.bind fun _ => ?_
    exact (harmless_markHelmStale h path).bind fun _ => trivial

theorem harmless_deleteBlob (store hash : String) :
    Uses Harmless (deleteBlob x store hash) := uses_attempt nofun

theorem harmless_deleteBlobCounted (store hash : String) :
    Uses Harmless (deleteBlobCounted x store hash) := by
  refine (effects_typedGet _ _).harmless.bind fun record => ?_
  refine (harmless_deleteBlob store hash).bind fun deleted => ?_
  split_ifs
  · cases record with
    | none => trivial
    | some r =>
      have hdebit : Harmless (.send (.store store (-1) (-r.size))) := by
        show (-1 : ℤ) ≠ 1
        decide
      exact (Fallible.uses_issue hdebit).bind fun _ => trivial
  · trivial

/-! ## Every call -/

variable {w : IngestView}

theorem even_of_paid {t : CopyTarget} {path : String} (h : Paid i w) :
    Even i (.copyRecord t path) w := by
  intro hne
  obtain ⟨debt, hzero, hw⟩ := h
  have hnil : debt = [] := by
    refine eq_nil_iff_forall_not_mem.mpr fun c hc => ?_
    refine hne t path rfl c ?_ (hzero c hc)
    rw [hw.debt]
    exact mem_append_right _ hc
  rw [hw.debt, hnil, append_nil]

theorem even_of_clear (h : Clear i w) : Even i j w := by
  intro _
  rw [h.debt, append_nil]

/-- A call that returns has succeeded. -/
theorem succeeding_triple {α : Type} {p : Async α} {pre P : IngestView → Prop}
    (hs : ((ingestLogic x).contract i j).Stable P)
    (h : IngestTriple x i j pre p (fun _ => P) Failed) (heven : ∀ w, P w → Even i j w) :
    Triple (ingestSystem x) (ingestRules x) i j ((ingestLogic x).contract i j) pre
      (succeeding p) fun _ => Even i j := by
  refine Triple.bind h fun r => ?_
  cases r with
  | ok a => exact fun w hi hw u hu hi' => heven u (hs w u hi hi' hu hw)
  | error e =>
    intro w _ _ u _ _ ok s r _ hx
    cases hx

/-- Every call keeps to the proof outline. -/
theorem code_even (j : IngestJob) (hnodup : j.given.Nodup) :
    Triple (ingestSystem x) (ingestRules x) i j ((ingestLogic x).contract i j)
      (Owns i j.given [] []) (j.code x) fun _ => Even i j := by
  have hclear : ∀ {α : Type} {pre : IngestView → Prop} {p : Async α},
      IngestTriple x i j pre p (fun _ => Clear i) Failed →
      Triple (ingestSystem x) (ingestRules x) i j ((ingestLogic x).contract i j) pre
        (succeeding p) fun _ => Even i j := fun h =>
    succeeding_triple Owns.stable h fun _ => even_of_clear
  cases j with
  | hostedPut h path contentType data => exact hclear (hostedPut_owns rfl path contentType data)
  | putArtifact repo store path contentType body =>
    exact hclear (putArtifactHandler_owns rfl path contentType body)
  | cacheFetch repo store path contentType etag upstreamHash body =>
    exact hclear (utcNow_bind fun now =>
      cacheCommit_owns rfl path contentType etag upstreamHash now body)
  | putBlob d data => exact hclear (putBlob_owns rfl data)
  | putManifest d reference contentType data =>
    exact hclear (putManifest_owns rfl reference contentType data)
  | startUpload d params body => exact hclear (doStartUpload_owns rfl)
  | patchUpload maxChunks repoName effectiveRepo image uuid body =>
    exact hclear (doPatchUpload_owns maxChunks repoName effectiveRepo image uuid body)
  | completeUpload uuid session digest body => exact hclear (completeSession_owns rfl hnodup)
  | copyRecord t path =>
    exact succeeding_triple Paid.stable (copyRecord_owns rfl) fun _ => even_of_paid
  | hostedDelete h path => exact hclear (harmless_clear Owns.stable (harmless_hostedDelete h path))
  | deleteManifest d digest =>
    exact hclear (harmless_clear Owns.stable ((harmless_deleteArtifact _ _).bind fun _ => trivial))
  | deleteBlob store hash => exact hclear (harmless_clear Owns.stable (harmless_deleteBlob _ _))
  | deleteBlobCounted store hash =>
    exact hclear (harmless_clear Owns.stable (harmless_deleteBlobCounted _ _))

/-! ## Soundness -/

variable {jobs : List (Option IngestJob)}

/-- The same state with other jobs. -/
theorem jobs_step (hi : IngestInv x w) (hlength : w.jobs.length ≤ jobs.length)
    (hleft : ∀ (k : ℕ) j, jobs[k]? = some (some j) → ∀ b ∈ j.given, b ∈ w.shared.left)
    (hapart : ∀ (k l : ℕ) j j' b, jobs[k]? = some (some j) → jobs[l]? = some (some j') →
      b ∈ j.given → b ∈ j'.given → k = l)
    (hresolved : ∀ (k : ℕ) j, jobs[k]? = some (some j) → j.resolved w.shared.world = true) :
    IngestInv x ⟨w.shared, jobs, ()⟩ :=
  { hi with
    given_left := hleft
    given_apart := hapart
    resolved := hresolved
    unstarted := fun k hk => hi.unstarted k (hlength.trans hk) }

theorem still_jobs {k : ℕ} (h : ∀ j, w.jobs[k]? = some (some j) → jobs[k]? = some (some j)) :
    Still k w ⟨w.shared, jobs, ()⟩ where
  drawn _ hb := hb
  jobs := h
  recorded _ hn := hn
  own _ _ hu := hu
  configs _ := rfl
  owed := rfl
  credited := rfl
  files _ _ _ _ := rfl

/-- A call that starts, with the blobs that were left to it. -/
theorem spawn_step (hi : IngestInv x w)
    (hres : j.resolved w.shared.world = true) (hunused : j.unused w.shared w.jobs = true) :
    IngestInv x ⟨w.shared, w.jobs ++ [some j], ()⟩ ∧
      (∀ k, Still k w ⟨w.shared, w.jobs ++ [some j], ()⟩) ∧
      Owns w.jobs.length j.given [] [] ⟨w.shared, w.jobs ++ [some j], ()⟩ := by
  simp only [IngestJob.unused, Bool.and_eq_true, all_eq_true, decide_eq_true_eq,
    Option.all_eq_true] at hunused
  obtain ⟨hnodup, hgiven⟩ := hunused
  have hget : ∀ (k : ℕ) j', (w.jobs ++ [some j])[k]? = some (some j') →
      w.jobs[k]? = some (some j') ∨ k = w.jobs.length ∧ j' = j := by
    intro k j' hk
    rcases lt_or_ge k w.jobs.length with hlt | hge
    · rw [getElem?_append_left hlt] at hk
      exact .inl hk
    · rw [getElem?_append_right hge] at hk
      have hone : k - w.jobs.length = 0 := by
        by_contra hne
        rw [getElem?_eq_none (by simp only [length_singleton]; omega)] at hk
        cases hk
      rw [hone, getElem?_cons_zero] at hk
      exact .inr ⟨by omega, (Option.some.inj (Option.some.inj hk)).symm⟩
  have hother : ∀ (k : ℕ) j', w.jobs[k]? = some (some j') → ∀ b ∈ j.given, b ∉ j'.given :=
    fun k j' hk b hb => (hgiven b hb).2 (some j') (mem_of_getElem? hk) j' rfl
  refine ⟨jobs_step hi (by simp) ?_ ?_ ?_, fun k => still_jobs fun j' hk => ?_, ?_⟩
  · intro k j' hk b hb
    rcases hget k j' hk with hk | ⟨-, rfl⟩
    · exact hi.given_left k j' hk b hb
    · exact (hgiven b hb).1.1
  · intro k l j' j'' b hk hl hb hb'
    rcases hget k j' hk with hk' | ⟨hk', rfl⟩ <;> rcases hget l j'' hl with hl' | ⟨hl', rfl⟩
    · exact hi.given_apart k l j' j'' b hk' hl' hb hb'
    · exact absurd hb (hother k j' hk' b hb')
    · exact absurd hb' (hother l j'' hl' b hb)
    · rw [hk', hl']
  · intro k j' hk
    rcases hget k j' hk with hk | ⟨-, rfl⟩
    · exact hi.resolved k j' hk
    · exact hres
  · rw [getElem?_append_left (List.getElem?_eq_some_iff.mp hk).1]
    exact hk
  · obtain ⟨-, howed, hcredited⟩ := hi.unstarted w.jobs.length le_rfl
    refine ⟨fun b hb => ⟨.inr ⟨j, getElem?_concat_length, hb⟩, (hgiven b hb).1.2⟩, nofun, ?_⟩
    show w.shared.owed w.jobs.length = w.shared.credited w.jobs.length ++ []
    rw [howed, hcredited]
    rfl

/-- The proof outline is sound. -/
theorem ingestLogic_sound : (ingestLogic x).Sound (ingestSystem x) (ingestRules x) where
  guar_rely h _ _ hg := hg _ h
  spawn w j hi hr := by
    obtain ⟨hres, hunused⟩ := (Bool.and_eq_true _ _).mp hr
    obtain ⟨hinv, hstill, howns⟩ := spawn_step hi hres hunused
    refine ⟨(), hinv, hstill, ?_⟩
    have hnodup : j.given.Nodup := by
      rw [IngestJob.unused, Bool.and_eq_true] at hunused
      exact of_decide_eq_true hunused.1
    exact code_even j hnodup _ ⟨hinv, getElem?_concat_length⟩ howns
  leave w i j hi hj := by
    have hget : ∀ (k : ℕ) j', (w.jobs.set i none)[k]? = some (some j') →
        w.jobs[k]? = some (some j') := by
      intro k j' hk
      rw [getElem?_set] at hk
      split_ifs at hk
      · cases hk
      · exact hk
    refine ⟨(), jobs_step hi (by simp) (fun k j' hk => hi.given_left k j' (hget k j' hk))
      (fun k l j' j'' b hk hl => hi.given_apart k l j' j'' b (hget k j' hk) (hget l j'' hl))
      fun k j' hk => hi.resolved k j' (hget k j' hk), fun k hne => still_jobs fun j' hk => ?_⟩
    rwa [getElem?_set_ne hne.symm]
  env w d s hi _ hs := by
    cases hs
    obtain ⟨hinv, hstill⟩ := @tame_step x w
      { w.shared with world := { w.shared.world with now := w.shared.world.now + d } } hi
      ⟨rfl, le_rfl, fun _ _ _ h => h, fun _ => rfl⟩ hi.balance rfl rfl rfl rfl rfl
    exact ⟨(), hinv, hstill⟩

end Depot
