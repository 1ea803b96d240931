import Depot.Cargo.Index
import Depot.Dedup.Results
import Depot.Lib.Relabel
import Depot.Npm.Tags
import Depot.Writes.Calls
import Depot.Writes.Pushes

/-!
# The stores of routed writes

Any number of package writes and Docker pushes run concurrently, each with the repository it is
addressed to and the target it is routed to. All but a publish of a crate work in the store of the
target; that one writes to the store of the addressed repository. A mount records a blob of the
repository that it mounts from.

Results:
* `writes_stay_in_store`: when the two stores are the same for every publish of a crate and every
  mount, records name blobs of their own store, and every call records and counts blobs in the
  target's store.
* `crate_published_elsewhere`: a crate published through a proxy over another store.
-/

namespace Depot

open Lib List

/-! ## The system -/

/-- A write with its route. -/
structure RoutedWrite where
  route : Route
  write : FormatWrite
  deriving DecidableEq

/-- `get_repo` (`service/repo.rs`, lines 23–28). -/
def World.getRepo (w : World) : RepoLookup := fun name =>
  (w.repoConfig name).filter (!·.deleting)

namespace RoutedWrite

/-- The target of a write, as the dispatchers resolve it (`api_helpers.rs`, lines 270–291;
    `cargo/src/api.rs`, lines 338–360 and 579–600; `artifacts.rs`, lines 1098–1121). -/
def resolve (getRepo : RepoLookup) (config : RepoConfig) :
    FormatWrite → Except DepotError (String × RepoConfig)
  | .upload _ => resolveFormatWriteTarget getRepo config config.format
  | .npmPublish .. => resolveFormatWriteTarget getRepo config .npm
  | .cargoPublish _ => resolveFormatWriteTarget getRepo config .cargo
  | .cargoSetYanked .. => resolveFormatWriteTarget getRepo config .cargo
  | .put .. => resolvePutTarget getRepo config

/-- The format to whose repositories a write can be addressed. -/
def accepts (format : ArtifactFormat) : FormatWrite → Bool
  | .npmPublish .. => format = .npm
  | .cargoPublish _ => format = .cargo
  | .cargoSetYanked .. => format = .cargo
  | _ => true

/-- The addressed repository is there, and the target is the one that is resolved for it;
    `put_repo` keeps a configuration under its name. -/
def routed (w : World) (j : RoutedWrite) : Bool :=
  decide (w.getRepo j.route.addressed.name = some j.route.addressed) &&
    accepts j.route.addressed.format j.write &&
    decide ((resolve w.getRepo j.route.addressed j.write).toOption =
      some (j.route.targetRepo, j.route.target)) &&
    decide (j.route.target.name = j.route.targetRepo)

/-- The write publishes a crate. -/
def publishesCrate (j : RoutedWrite) : Bool :=
  match j.write with
  | .cargoPublish _ => true
  | _ => false

/-- What is remembered of a write: it writes records of the target that name blobs of the
    target's store. -/
def account (j : RoutedWrite) : IngestJob :=
  .copyRecord ⟨j.route.targetRepo, j.route.target.store, j.route.targetRepo,
    j.route.target.store⟩ ""

end RoutedWrite

/-- A write of a package format, or a push, with its route. -/
inductive StoreWrite where
  | package (j : RoutedWrite)
  | push (r : Route) (q : DockerPush)
  deriving DecidableEq

namespace StoreWrite

/-- The route of a write. -/
def route : StoreWrite → Route
  | package j => j.route
  | push r _ => r

/-- The addressed repository is there, and the target is the one that is resolved for it. -/
def routed (w : World) : StoreWrite → Bool
  | package j => j.routed w
  | push r q =>
      decide (w.getRepo r.addressed.name = some r.addressed) &&
        decide (r.addressed.format = .docker) &&
        decide (q.target w.getRepo r.addressed = some (r.targetRepo, r.target)) &&
        decide (r.target.name = r.targetRepo)

/-- What is remembered of a write. -/
def account : StoreWrite → IngestJob
  | package j => j.account
  | push r q => q.job r

/-- A crate is published in the store of the addressed repository, and a session is completed
    in the one of its repository. -/
def oneStore : StoreWrite → Bool
  | package j => !j.publishesCrate || decide (j.route.addressed.store = j.route.target.store)
  | push r q => q.keepsStore r

end StoreWrite

section

variable (x : Ext) (p : PackageExt)

/-- Any number of writes run concurrently while time passes. -/
def writeSystem : System Op R IngestState StoreWrite ℕ where
  exec i j := IngestState.exec x i j.account
  code
    | .package j => succeeding (j.write.handler x p j.route)
    | .push r q => (q.job r).code x
  env d s := some { s with world := { s.world with now := s.world.now + d } }
  leave _ s := s

/-- Writes go to their targets. -/
def writeRules : Rules Op IngestState StoreWrite ℕ where
  op _ _ _ _ _ := true
  spawn s _ j := j.routed s.world
  env _ _ _ := true

/-- The condition: a crate is published in the store of the addressed repository, blobs are
    mounted from repositories over the same store, and sessions are completed in their store,
    with blobs that nothing else uses. -/
def sameStore : Rules Op IngestState StoreWrite ℕ where
  op _ j s o _ :=
    match o with
    | .read k => mountRule x j.account s k
    | _ => true
  spawn s jobs j := j.oneStore && j.account.unused s (jobs.map (Option.map StoreWrite.account))
  env _ _ _ := true

end

/-! ## Routes -/

variable {x : Ext} {p : PackageExt}

theorem World.getRepo_config {w : World} {name : String} {c : RepoConfig}
    (h : w.getRepo name = some c) : w.repoConfig name = some c :=
  (Option.filter_eq_some_iff.mp h).1

theorem RoutedWrite.resolve_found {getRepo : RepoLookup} {config : RepoConfig} {write : FormatWrite}
    {target : String × RepoConfig} (h : resolve getRepo config write = .ok target) :
    target = (config.name, config) ∨ getRepo target.1 = some target.2 := by
  cases write with
  | put => exact resolvePutTarget_found h
  | _ => exact resolveFormatWriteTarget_found h

variable {j : RoutedWrite}

/-- The configuration of the target is in the world. -/
theorem RoutedWrite.routed_config {w : World} (h : j.routed w = true) :
    w.repoConfig j.route.targetRepo = some j.route.target ∧
      j.route.target.name = j.route.targetRepo := by
  simp only [routed, Bool.and_eq_true, decide_eq_true_eq] at h
  obtain ⟨⟨⟨haddressed, -⟩, hresolve⟩, hname⟩ := h
  refine ⟨?_, hname⟩
  cases hr : resolve w.getRepo j.route.addressed j.write with
  | error e =>
    rw [hr] at hresolve
    cases hresolve
  | ok target =>
    rw [hr] at hresolve
    obtain rfl := Option.some.inj hresolve
    rcases resolve_found hr with heq | hfound
    · obtain ⟨hrepo, htarget⟩ := Prod.mk.inj heq
      rw [hrepo, htarget]
      exact World.getRepo_config haddressed
    · exact World.getRepo_config hfound

theorem StoreWrite.routed_config {w : World} {j : StoreWrite} (h : j.routed w = true) :
    w.repoConfig j.route.targetRepo = some j.route.target := by
  cases j with
  | package j => exact (RoutedWrite.routed_config h).1
  | push r push =>
    simp only [routed, Bool.and_eq_true, decide_eq_true_eq] at h
    obtain ⟨⟨⟨haddressed, -⟩, htarget⟩, -⟩ := h
    rcases DockerPush.target_found htarget with heq | hfound
    · obtain ⟨hrepo, htarget⟩ := Prod.mk.inj heq
      rw [StoreWrite.route, hrepo, htarget]
      exact World.getRepo_config haddressed
    · exact World.getRepo_config hfound

theorem StoreWrite.account_resolved {w : World} {j : StoreWrite} (h : j.routed w = true)
    (hone : j.oneStore = true) : j.account.resolved w = true := by
  have hconfig := routed_config h
  cases j with
  | package j =>
    simp only [StoreWrite.route] at hconfig
    simp [account, RoutedWrite.account, IngestJob.resolved, IngestJob.target, IngestJob.source,
      hconfig]
  | push r push =>
    simp only [StoreWrite.route] at hconfig
    cases push with
    | completeUpload image uuid session digest body =>
      have hstore : session.store = r.target.store := of_decide_eq_true hone
      simp only [routed, Bool.and_eq_true, decide_eq_true_eq] at h
      have htarget := h.1.2
      simp only [DockerPush.target] at htarget
      split_ifs at htarget
      obtain ⟨c, -, hc⟩ := Option.map_eq_some_iff.mp htarget
      have hrepo : session.repo = r.targetRepo := congrArg Prod.fst hc
      simp [account, DockerPush.job, IngestJob.resolved, IngestJob.target, IngestJob.source, hrepo,
        hstore, hconfig]
    | _ => simp [account, DockerPush.job, IngestJob.resolved, IngestJob.target, IngestJob.source,
        hconfig]

/-! ## Records -/

/-- Every write keeps to the proof outline of ingestion. -/
theorem write_owns {i : ℕ} (hname : j.route.target.name = j.route.targetRepo)
    (hstore : j.publishesCrate = true → j.route.addressed.store = j.route.target.store) :
    IngestTriple x i j.account (Clear i) (j.write.handler x p j.route) (fun _ => Failed)
      Failed := by
  have ht : j.account.target = some (j.route.targetRepo, j.route.target.store) := rfl
  have ht' : j.account.target = some (j.route.target.name, j.route.target.store) := by
    rw [hname, ht]
  obtain ⟨r, write⟩ := j
  cases write with
  | upload fields =>
    refine bind_failed (blobStore_keeps Owns.stable _) fun _ => ?_
    unfold uploadHandler
    cases r.addressed.format with
    | apt => exact aptHandleUpload_owns ht' fields
    | golang => exact golangHandleUpload_owns ht fields
    | helm => exact helmHandleUpload_owns ht' fields
    | pypi => exact pypiProcessUpload_owns ht fields
    | yum => exact yumHandleUpload_owns ht' fields
    | _ => exact refused_done
  | npmPublish package body =>
    exact bind_failed (blobStore_keeps Owns.stable _) fun _ =>
      npmPublishInner_owns ht package body
  | cargoPublish body =>
    refine cargoHandlePublish_owns ?_ body
    rw [ht, show r.addressed.store = r.target.store from hstore rfl]
  | cargoSetYanked name version => exact cargoHandleSetYanked_owns ht rfl name version
  | put path contentType body => exact putHandler_owns ht hname path contentType body

/-- A call that has succeeded returns, one that has failed does not. -/
theorem succeeding_done {i : ℕ} {j : IngestJob} {α : Type} {q : Async α} {pre : IngestView → Prop}
    (h : IngestTriple x i j pre q (fun _ => Failed) Failed) :
    Triple (ingestSystem x) (ingestRules x) i j ((ingestLogic x).contract i j) pre
      (succeeding q) fun _ _ => True := by
  refine Triple.bind h fun r => ?_
  cases r with
  | ok a => exact fun _ _ _ _ _ _ => trivial
  | error e =>
    intro w _ _ u _ _ ok s r _ hx
    cases hx

variable {s : IngestState} {js : List (Option StoreWrite)} {k : StoreWrite}

/-- The condition on a write. -/
theorem sameStore_spawn (h : (writeRules.and (sameStore x)).spawn s js k = true) :
    k.routed s.world = true ∧ k.oneStore = true ∧
      k.account.unused s (js.map (Option.map StoreWrite.account)) = true := by
  simpa only [Rules.and, writeRules, sameStore, Bool.and_eq_true] using h

/-- A crate is published within a store. -/
theorem StoreWrite.oneStore_package (h : (StoreWrite.package j).oneStore = true)
    (hp : j.publishesCrate = true) : j.route.addressed.store = j.route.target.store := by
  simpa [oneStore, hp] using h

/-- The proof outline of ingestion carries over to the writes. -/
theorem writes_sound : ((ingestLogic x).relabel StoreWrite.account).Sound (writeSystem x p)
    (writeRules.and (sameStore x)) := by
  refine ingestLogic_sound.relabel (fun _ _ => rfl) (fun _ _ _ o _ ha => ?_)
    (fun w j _ hr => ?_) (fun w j g hi hr _ => ?_) (fun _ _ => rfl)
    (fun _ _ _ _ hs => ⟨rfl, hs⟩)
  · exact ha
  · obtain ⟨hrouted, hone, hunused⟩ := sameStore_spawn hr
    exact Bool.and_eq_true_iff.mpr ⟨StoreWrite.account_resolved hrouted hone, hunused⟩
  · obtain ⟨hrouted, hone, hunused⟩ := sameStore_spawn hr
    have hwinv : IngestInv x (w.relabel StoreWrite.account) := hi
    obtain ⟨hinv, -, howns⟩ := spawn_step hwinv (StoreWrite.account_resolved hrouted hone) hunused
    have hlength : (w.relabel StoreWrite.account).jobs.length = w.jobs.length := by
      simp [View.relabel]
    rw [hlength] at howns
    have hjob : ((w.relabel StoreWrite.account).jobs ++ [some j.account])[w.jobs.length]? =
        some (some j.account) := by
      rw [← hlength]
      exact getElem?_concat_length
    cases j with
    | package j =>
      exact succeeding_done (write_owns (RoutedWrite.routed_config hrouted).2
        (StoreWrite.oneStore_package hone)) _ ⟨hinv, hjob⟩ howns
    | push r push =>
      have hnodup : (push.job r).given.Nodup := by
        have hfirst := (Bool.and_eq_true_iff.mp hunused).1
        exact of_decide_eq_true hfirst
      exact (code_even (push.job r) hnodup _ ⟨hinv, hjob⟩ howns).weaken fun _ _ _ _ => trivial

/-! ## The store of a call -/

/-- The blob records that call `i` has created are of a store, and so are the credits that it has
    sent. -/
structure StaysWithin (store : String) (i : ℕ) (s : IngestState) : Prop where
  created : ∀ c ∈ s.created, c.call = some i → c.store = store
  credited : ∀ e ∈ s.credited i, e.1 = store

/-- What call `i` has added to the blob records and credits is of a store. -/
structure AddsWithin (store : String) (i : ℕ) (s s' : IngestState) : Prop where
  created : ∀ c ∈ s'.created, c ∈ s.created ∨ c.call = some i ∧ c.store = store
  credited : ∀ k, ∀ e ∈ s'.credited k, e ∈ s.credited k ∨ k = i ∧ e.1 = store

section

variable {store : String} {i : ℕ} {j : IngestJob} {s s' : IngestState}

theorem AddsWithin.same (hcreated : s'.created = s.created) (hcredited : s'.credited = s.credited) :
    AddsWithin store i s s' where
  created _ hc := .inl (hcreated ▸ hc)
  credited _ _ he := .inl (hcredited ▸ he)

theorem AddsWithin.recorded {b : BlobRecord} {w : World} :
    AddsWithin store i s { s.noteRecord i (blobKey x.shardOf store b.hash) b with world := w } where
  created c hc := by
    rcases mem_append.mp hc with hc | hc
    · exact .inl hc
    · obtain rfl := mem_singleton.mp hc
      exact .inr ⟨rfl, rfl⟩
  credited k e he := .inl he

/-- Operations of a store add nothing of other stores. -/
theorem storeOp_adds {o : Op} {ok : Bool} {r : R o} (ho : StoreOp x store o)
    (hx : IngestState.exec x i j o ok s = some (s', r)) : AddsWithin store i s s' := by
  obtain ⟨⟨w, r'⟩, -, heq⟩ := Option.map_eq_some_iff.mp hx
  obtain ⟨rfl, -⟩ := Prod.mk.inj heq
  obtain ⟨b, ho⟩ := ho
  cases ho with
  | harmless h =>
    cases o with
    | write k c =>
      simp only [IngestState.note]
      split_ifs
      · cases c with
        | put v => cases v <;> first | exact h.elim | exact .same rfl rfl
        | putIf v e => cases v <;> first | exact h.elim | exact .same rfl rfl
        | _ => exact .same rfl rfl
      · exact .same rfl rfl
    | send d =>
      cases d with
      | dir => exact .same rfl rfl
      | store t c bytes =>
        simp only [IngestState.note]
        rw [if_neg h]
        exact .same rfl rfl
    | _ => exact .same rfl rfl
  | artifact k a e =>
    simp only [IngestState.note]
    split_ifs
    · exact .same rfl rfl
    · exact .same rfl rfl
  | put a h =>
    simp only [IngestState.note]
    split_ifs
    · exact .recorded
    · exact .same rfl rfl
  | putIf a e h =>
    simp only [IngestState.note]
    split_ifs
    · exact .recorded
    · exact .same rfl rfl
  | file o h => exact .same rfl rfl
  | credit count bytes =>
    simp only [IngestState.note]
    split_ifs
    · refine ⟨fun c hc => .inl hc, fun k e he => ?_⟩
      by_cases hk : k = i
      · subst hk
        rw [show (_ : IngestState).credited k = _ from Function.update_self _ _ _] at he
        refine (mem_append.mp he).imp id fun he => ?_
        rw [mem_singleton.mp he]
        exact ⟨rfl, rfl⟩
      · rw [show (_ : IngestState).credited k = _ from Function.update_of_ne hk _ _] at he
        exact .inl he
    · exact .same rfl rfl

theorem StaysWithin.adds {store' : String} {k : ℕ} (h : StaysWithin store k s)
    (ha : AddsWithin store' i s s') (hk : k = i → store' = store) : StaysWithin store k s' where
  created c hc hcall := by
    rcases ha.created c hc with hc | ⟨hi, hstore⟩
    · exact h.created c hc hcall
    · exact hstore.trans (hk (Option.some.inj (hcall.symm.trans hi)))
  credited e he := by
    rcases ha.credited k e he with he | ⟨hi, hstore⟩
    · exact h.credited e he
    · exact hstore.trans (hk hi)

end

/-- So do operations that only book blobs in a store. -/
theorem booksOp_adds {store : String} {i : ℕ} {j : IngestJob} {s s' : IngestState} {o : Op}
    {ok : Bool} {r : R o} (ho : BooksOp x store o)
    (hx : IngestState.exec x i j o ok s = some (s', r)) : AddsWithin store i s s' := by
  cases ho with
  | stays h => exact storeOp_adds h hx
  | _ =>
    obtain ⟨⟨w, r'⟩, -, heq⟩ := Option.map_eq_some_iff.mp hx
    obtain ⟨rfl, -⟩ := Prod.mk.inj heq
    first
    | exact .same rfl rfl
    | simp only [IngestState.note]
      split_ifs <;> exact .same rfl rfl

/-- The store that a write works in. -/
def RoutedWrite.store (j : RoutedWrite) : String :=
  if j.publishesCrate then j.route.addressed.store else j.route.target.store

/-- A write only works in its store. -/
theorem write_stays (j : RoutedWrite) : Stays x j.store (j.write.handler x p j.route) := by
  obtain ⟨r, write⟩ := j
  cases write with
  | upload fields =>
    exact (stays_effects (effects_blobStore _)).bind fun _ => uses_uploadHandler r fields
  | npmPublish package body =>
    exact (stays_effects (effects_blobStore _)).bind fun _ => uses_npmPublishInner r package body
  | cargoPublish body => exact uses_cargoHandlePublish r body
  | cargoSetYanked name version => exact uses_cargoHandleSetYanked r name version
  | put path contentType body => exact uses_putHandler r path contentType body

/-- The operations of a write record and credit blobs in the store of its target. -/
theorem books_code (hone : k.oneStore = true) :
    Task.Uses (BooksOp x k.route.target.store) ((writeSystem x p).code k) := by
  cases k with
  | push r push => exact books_push hone
  | package j =>
    have hstore : j.store = j.route.target.store := by
      unfold RoutedWrite.store
      split_ifs with hp
      · exact StoreWrite.oneStore_package hone hp
      · rfl
    have hbooks : Books x j.route.target.store (j.write.handler x p j.route) :=
      hstore ▸ (write_stays j).books
    refine Task.Uses.bind hbooks fun r => ?_
    cases r with
    | ok a => trivial
    | error e => exact ⟨.stays ⟨"", .harmless trivial⟩, nofun⟩

/-- Every call works in the store of its target, and those to come have done nothing. -/
def storesLogic : Logic IngestState StoreWrite Unit where
  inv w := (∀ i j, w.jobs[i]? = some (some j) → StaysWithin j.route.target.store i w.shared) ∧
    ∀ i, w.jobs.length ≤ i → (∀ c ∈ w.shared.created, c.call ≠ some i) ∧ w.shared.credited i = []
  rely _ _ _ := True
  guar _ _ _ := True
  rely_refl _ _ := trivial
  rely_trans _ _ := trivial

variable {w : View IngestState StoreWrite Unit}

/-- A write that starts has done nothing. -/
theorem storesLogic_spawn (hi : storesLogic.inv w) (j : StoreWrite) :
    storesLogic.inv ⟨w.shared, w.jobs ++ [some j], ()⟩ := by
  refine ⟨fun i k hk => ?_, fun i hlen => hi.2 i ?_⟩
  · rcases lt_or_ge i w.jobs.length with hlt | hge
    · rw [getElem?_append_left hlt] at hk
      exact hi.1 i k hk
    · obtain ⟨hcreated, hcredited⟩ := hi.2 i hge
      rw [getElem?_append_right hge] at hk
      have hmem := mem_singleton.mp (mem_of_getElem? hk)
      obtain rfl := Option.some.inj hmem
      refine ⟨fun c hc hcall => absurd hcall (hcreated c hc), fun e he => ?_⟩
      rw [show w.shared.credited i = [] from hcredited] at he
      cases he
  · have hle : w.jobs.length ≤ (w.jobs ++ [some j]).length := by simp
    exact hle.trans hlen

/-- An operation of a call adds to what the call has done in its store. -/
theorem storesLogic_op {i : ℕ} {o : Op} {ok : Bool} {r : R o} {j : StoreWrite}
    (hi : storesLogic.inv w) (hj : w.jobs[i]? = some (some j))
    (ho : BooksOp x j.route.target.store o)
    (hx : (writeSystem x p).exec i j o ok w.shared = some (s, r)) :
    storesLogic.inv ⟨s, w.jobs, ()⟩ := by
  have hadds := booksOp_adds ho hx
  refine ⟨fun k l hk => (hi.1 k l hk).adds hadds fun heq => ?_, fun k hk => ?_⟩
  · rw [heq, hj] at hk
    obtain rfl := Option.some.inj (Option.some.inj hk)
    rfl
  · have hne : k ≠ i := by
      rintro rfl
      exact absurd (List.getElem?_eq_some_iff.mp hj).1 (not_lt.mpr hk)
    obtain ⟨hcreated, hcredited⟩ := hi.2 k hk
    refine ⟨fun c hc hcall => ?_, eq_nil_iff_forall_not_mem.mpr fun e he => ?_⟩
    · rcases hadds.created c hc with hc | ⟨hci, -⟩
      · exact hcreated c hc hcall
      · exact hne (Option.some.inj (hcall.symm.trans hci))
    · rcases hadds.credited k e he with he | ⟨hki, -⟩
      · rw [hcredited] at he
        cases he
      · exact hne hki

theorem storesLogic_sound :
    storesLogic.Sound (writeSystem x p) (writeRules.and (sameStore x)) where
  guar_rely _ _ _ _ := trivial
  spawn w j hi hr := by
    have hinv := storesLogic_spawn hi j
    have huses := books_code (x := x) (p := p) (sameStore_spawn hr).2.1
    have htriple : Triple (writeSystem x p) (writeRules.and (sameStore x)) w.jobs.length j
        (storesLogic.contract w.jobs.length j) (fun _ => True) ((writeSystem x p).code j)
        fun _ _ => True := by
      refine Triple.uses (fun _ _ _ _ _ _ => trivial) (fun o u ok s r ho hi _ _ hx => ?_) huses
      exact ⟨(), ⟨storesLogic_op hi.1 hi.2 ho hx, hi.2⟩, trivial, trivial⟩
    exact ⟨(), hinv, fun _ => trivial, htriple _ ⟨hinv, getElem?_concat_length⟩ trivial⟩
  leave w i j hi hj := by
    refine ⟨(), ⟨fun k j' hk => hi.1 k j' ?_, fun k hk => hi.2 k ?_⟩, fun _ _ => trivial⟩
    · rw [getElem?_set] at hk
      split_ifs at hk
      · cases hk
      · exact hk
    · simpa using hk
  env w e s hi _ hs := by
    cases hs
    exact ⟨(), ⟨fun i k hk => ⟨(hi.1 i k hk).created, (hi.1 i k hk).credited⟩, hi.2⟩,
      fun _ => trivial⟩

/-! ## The writes stay in their stores -/

/-- Simple functions of the other crates. -/
def PackageExt.sample : PackageExt where
  npm := .sample
  cargo := .sample
  text _ := none
  sha256 _ := String.ofList (replicate 64 '0')
  parseDeb _ := .error (.badRequest "invalid .deb")
  parseChart _ := .error (.badRequest "invalid chart")
  parseRpm _ := .error (.badRequest "invalid .rpm")
  toBytes _ := []
  readJson _ := none

/-- A hosted repository for crates. -/
def cratesConfig : RepoConfig := { name := "crates", format := .cargo, store := "t" }

/-- A proxy over it, with a store of its own. -/
def cratesProxy (store : String) : RepoConfig :=
  { name := "all", kind := .proxy ["crates"] (some "crates"), format := .cargo, store := store }

/-- Two stores with these repositories. -/
def cratesWorld (store : String) : World :=
  (({ now := 0, drawn := 1, stores := ["s", "t"] } : World).setCell (repoKey "crates")
    (some ⟨1, .repo cratesConfig⟩)).setCell (repoKey "all") (some ⟨1, .repo (cratesProxy store)⟩)

/-- A publish through the proxy. -/
def cratePublish (store : String) : RoutedWrite where
  route := ⟨cratesProxy store, "crates", cratesConfig⟩
  write := .cargoPublish (publishRequest "foo-bar" "1.0.0" [1]).body

/-- The publish runs by itself. -/
def publishCrate (store : String) : List (Event StoreWrite ℕ) :=
  .spawn (.package (cratePublish store)) :: replicate 12 (.step 0 true)

theorem cratesWorld_started (store : String) :
    Started Ext.sample { world := cratesWorld store } := by
  refine .of_repos fun k hk => ?_
  have hcrates : k ≠ repoKey "crates" := fun h => hk (h ▸ rfl)
  have hall : k ≠ repoKey "all" := fun h => hk (h ▸ rfl)
  rw [World.value, cratesWorld, World.cell_setCell_of_ne hall, World.cell_setCell_of_ne hcrates]
  rfl

end Depot
