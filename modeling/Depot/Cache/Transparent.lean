import Depot.Cache.Get

/-!
# Who gets what a request alone would have got

A request that waits for a fetch reads the cache once more and answers with what it finds.

Results:
* `cache_transparent`: every answer is that of a request alone at a moment between the
  start and the end, as long as the reads and claims find what they may rely on.
* `failure_not_found`: a fetch fails, and who has waited answers "not found".
-/

namespace Depot

open Lib List
open Option (some.inj)
open Function (update update_apply update_of_ne update_self)

section

variable (repo : CacheRepo)

/-- The path has been committed since request `i` started. -/
def CacheState.committedSince (s : CacheState) (i : ℕ) : Bool := decide (s.started i < s.committedAt)

/-- The record that was committed last had not expired when it was committed. -/
def CacheRepo.committedInTime (s : CacheState) : Bool :=
  s.history[s.committedAt]?.all fun m => !repo.lacks m

/-- How a fetch has ended that committed nothing: the upstream was asked after request `i` had
    started, and it answered 404 while nothing is cached, or failed while a record is. -/
def CacheState.endedFor (s : CacheState) (i notify : ℕ) : Bool :=
  (s.asked notify).any fun (k, u) => decide (s.started i ≤ k) &&
    if s.cached.isSome then u.fails else decide (u = .status statusNotFound)

/-- The condition on a run. A request whose first read finds a record that is fresh by the clock
    it has read finds the one of its start, or one that was committed in time. Nothing was
    committed between its first read and its claim. When it reads again after waiting, a record
    has been committed in time since it started, or the fetch has ended so that the cache says
    what the upstream did. -/
def CacheRepo.rules : Rules CacheOp CacheState Unit CacheEnv where
  op i _ s o _ :=
    match o with
    | .getArtifact none => s.cached.all fun a => !repo.fresh (s.clock i) a ||
        !s.committedSince i || repo.committedInTime s
    | .getArtifact (some notify) =>
        if s.committedSince i then repo.committedInTime s else s.endedFor i notify
    | .tryClaim => s.inflight.isSome || decide (s.cached = s.found i)
    | _ => true
  spawn _ _ _ := true
  env _ _ _ := true

/-- A request alone at a moment between the start and the end would have got the answer; a
    cached artifact was served that was fresh at such a moment, or while the upstream was
    unreachable or answered with another error than 404; and "not found" only if the
    upstream has answered 404. -/
structure GetAnswer.Explained (a : GetAnswer) : Prop where
  alone : ∃ m ∈ a.moments, repo.alone m = some a.reply.outcome
  served : ∀ r, a.reply.served = some r → ∃ m ∈ a.moments, m.cached = some r ∧
    (repo.fresh m.now r = true ∨ m.upstream.fails = true)
  notFound : a.reply.outcome = .notFound →
    ∃ m ∈ a.moments, m.upstream = .status statusNotFound

/-- Every answer is explained. -/
def CacheRepo.Transparent (s : CacheState) : Prop := ∀ a ∈ s.answers, a.Explained repo

/-! ## Moments -/

/-- What a request alone gets at the moment, and what it serves. -/
def CacheRepo.Explains (m : Moment) (reply : GetReply) : Prop :=
  repo.alone m = some reply.outcome ∧ ∀ r, reply.served = some r → m.cached = some r ∧
    (repo.fresh m.now r = true ∨ m.upstream.fails = true)

/-- A moment since request `i` started explains the reply. -/
def CacheRepo.Explained (i : ℕ) (reply : GetReply) (s : CacheState) : Prop :=
  ∃ m ∈ s.past i, repo.Explains m reply

end

variable {resp : UpstreamResponse} {s s' : CacheState} {n i : ℕ}

section

variable {repo : CacheRepo}

theorem numSeconds_mono {d d' : ℤ} (h : d ≤ d') : numSeconds d ≤ numSeconds d' :=
  Int.tdiv_le_tdiv (by decide) h

variable {a : CachedArtifact}

/-- What has expired stays expired. -/
theorem fresh_mono {now now' : DateTime} (h : now ≤ now')
    (hf : repo.fresh now a = false) : repo.fresh now' a = false := by
  unfold CacheRepo.fresh at hf ⊢
  rw [decide_eq_false_iff_not, not_or] at hf ⊢
  have hsec := numSeconds_mono (sub_le_sub_right h a.record.updatedAt)
  exact ⟨hf.1, fun hlt => hf.2 (hsec.trans_lt hlt)⟩

variable {m : Moment}

/-- A fresh record is what a request alone gets. -/
theorem explains_fresh (hc : m.cached = some a)
    (hf : repo.fresh m.now a = true) : repo.Explains m (openArtifactBlob a) := by
  refine ⟨alone_fresh repo hc hf, fun r hr => ?_⟩
  obtain rfl := some.inj hr
  exact ⟨hc, .inl hf⟩

/-- While the upstream fails a request alone gets the record there is, or an error. -/
theorem explains_stale (hl : repo.lacks m = true) (hu : m.upstream.fails = true) :
    repo.Explains m (staleOrError m.cached) := by
  have hfetched : repo.fetched m.cached m.upstream = (staleOrError m.cached).outcome := by
    cases hup : m.upstream with
    | unreachable => rfl
    | status code =>
      rw [hup] at hu
      exact if_neg (of_decide_eq_true hu)
    | success resp =>
      rw [hup] at hu
      cases hu
  refine ⟨by rw [alone_lacks repo hl, hfetched], fun r hr => ?_⟩
  cases hc : m.cached with
  | none =>
    rw [hc] at hr
    cases hr
  | some a =>
    rw [hc] at hr
    obtain rfl := some.inj hr
    exact ⟨rfl, .inr hu⟩

/-- An upstream that answers 404. -/
theorem explains_notFound (hl : repo.lacks m = true)
    (hu : m.upstream = .status statusNotFound) : repo.Explains m { outcome := .notFound } := by
  refine ⟨?_, fun r hr => by cases hr⟩
  rw [alone_lacks repo hl, hu]
  rfl

/-- An upstream that answers with content. -/
theorem explains_success (hl : repo.lacks m = true)
    (hu : m.upstream = .success resp) : repo.Explains m
      { outcome := if repo.intact resp then .content resp.body else .error } := by
  refine ⟨?_, fun r hr => by cases hr⟩
  rw [alone_lacks repo hl, hu]
  rfl

/-! ## The invariant -/

/-- The last moment is the present one, requests have started at the moment whose time they have
    read, the cache is as it was since the last commit, the upstream has answered as it is noted,
    and every answer is explained. -/
structure CacheInv (repo : CacheRepo) (s : CacheState) : Prop where
  last : s.history.getLast? = some s.moment
  begun : ∀ i, ∃ m, s.history[s.started i]? = some m ∧ m.now = s.clock i
  clock : ∀ i, s.clock i ≤ s.now
  held : s.inflight = none → s.holder = none
  committed : s.committedAt < s.history.length
  kept : ∀ k m, s.committedAt ≤ k → s.history[k]? = some m → m.cached = s.cached
  asked : ∀ n k u, s.asked n = some (k, u) → ∃ m, s.history[k]? = some m ∧ m.upstream = u
  answers : repo.Transparent s

/-- What the other requests leave to request `i`. -/
structure CacheRely (i : ℕ) (s s' : CacheState) : Prop where
  started : s'.started i = s.started i
  clock : s'.clock i = s.clock i
  found : s'.found i = s.found i
  history : s.history <+: s'.history
  now : s.now ≤ s'.now
  mine : s.holder = some i →
    s'.holder = some i ∧ s'.inflight = s.inflight ∧ s'.cached = s.cached

theorem CacheRely.refl (i : ℕ) (s : CacheState) : CacheRely i s s :=
  ⟨rfl, rfl, rfl, prefix_rfl, le_rfl, fun h => ⟨h, rfl, rfl⟩⟩

theorem CacheRely.trans {i : ℕ} {s s' s'' : CacheState} (h : CacheRely i s s')
    (h' : CacheRely i s' s'') : CacheRely i s s'' where
  started := h'.started.trans h.started
  clock := h'.clock.trans h.clock
  found := h'.found.trans h.found
  history := h.history.trans h'.history
  now := h.now.trans h'.now
  mine hm := by
    obtain ⟨hh, hf, hc⟩ := h.mine hm
    obtain ⟨hh', hf', hc'⟩ := h'.mine hh
    exact ⟨hh', hf'.trans hf, hc'.trans hc⟩

/-- The proof outline. -/
def cacheLogic (repo : CacheRepo) : Logic CacheState Unit Unit where
  inv w := CacheInv repo w.shared
  rely i w w' := CacheRely i w.shared w'.shared
  guar i w w' := ∀ k ≠ i, CacheRely k w.shared w'.shared
  rely_refl i w := CacheRely.refl i w.shared
  rely_trans h h' := h.trans h'

theorem CacheInv.started_lt (h : CacheInv repo s) (i : ℕ) : s.started i < s.history.length := by
  obtain ⟨m, hm, -⟩ := h.begun i
  exact (List.getElem?_eq_some_iff.mp hm).1

/-- The present moment lies in the past of every request. -/
theorem CacheInv.moment_mem (h : CacheInv repo s) (i : ℕ) : s.moment ∈ s.past i := by
  have hlast : (s.past i).getLast? = some s.moment := by
    rw [CacheState.past, getLast?_drop, if_neg (Nat.not_le.mpr (h.started_lt i)), h.last]
  exact mem_of_getLast? hlast

/-- A moment lies in the past of the requests that had started. -/
theorem CacheState.mem_past {k : ℕ} {m : Moment} (hm : s.history[k]? = some m)
    (hk : s.started i ≤ k) : m ∈ s.past i := by
  apply mem_of_getElem? (i := k - s.started i)
  rw [CacheState.past, getElem?_drop, Nat.add_sub_cancel' hk, hm]

/-- What has been committed in time since a request started explains what it finds. -/
theorem CacheInv.explained_committed (h : CacheInv repo s) (hs : s.committedSince i = true)
    (ht : repo.committedInTime s = true) :
    ∃ a, s.cached = some a ∧ repo.Explained i (openArtifactBlob a) s := by
  have hm := getElem?_eq_getElem h.committed
  have hc := h.kept _ _ le_rfl hm
  rw [CacheRepo.committedInTime, hm] at ht
  cases hcached : s.cached with
  | none =>
    rw [hcached] at hc
    rw [Option.all_some, CacheRepo.lacks, hc] at ht
    cases ht
  | some a =>
    rw [hcached] at hc
    rw [Option.all_some, CacheRepo.lacks, hc] at ht
    refine ⟨a, rfl, _, CacheState.mem_past hm (of_decide_eq_true hs).le, explains_fresh hc ?_⟩
    simpa using ht

/-- The record that a request has found in its first read was there when it started. -/
theorem CacheInv.explained_start (h : CacheInv repo s) {a : CachedArtifact}
    (hs : s.committedSince i = false) (hc : s.cached = some a)
    (hf : repo.fresh (s.clock i) a = true) : repo.Explained i (openArtifactBlob a) s := by
  obtain ⟨m, hm, hnow⟩ := h.begun i
  have hkept := h.kept _ m (Nat.not_lt.mp (of_decide_eq_false hs)) hm
  rw [← hnow] at hf
  exact ⟨m, CacheState.mem_past hm le_rfl, explains_fresh (hkept.trans hc) hf⟩

/-- What the second read finds after a fetch that committed nothing: a record that is served
    while the upstream fails, or nothing where the upstream has nothing. -/
theorem CacheInv.explained_ended (h : CacheInv repo s) (hs : s.committedSince i = false)
    (he : s.endedFor i n = true) : repo.Explained i (match s.cached with
      | some a => openArtifactBlob a
      | none => { outcome := .notFound }) s := by
  unfold CacheState.endedFor at he
  cases hasked : s.asked n with
  | none =>
    rw [hasked] at he
    cases he
  | some p =>
    obtain ⟨k, u⟩ := p
    rw [hasked, Option.any_some, Bool.and_eq_true, decide_eq_true_eq] at he
    obtain ⟨hk, hu⟩ := he
    obtain ⟨m, hm, rfl⟩ := h.asked n k u hasked
    have hstart : s.committedAt ≤ s.started i := Nat.not_lt.mp (of_decide_eq_false hs)
    have hkept := h.kept k m (hstart.trans hk) hm
    refine ⟨m, CacheState.mem_past hm hk, ?_⟩
    cases hc : s.cached with
    | none =>
      rw [hc] at hu hkept
      exact explains_notFound (by rw [CacheRepo.lacks, hkept]; rfl) (of_decide_eq_true hu)
    | some a =>
      rw [hc] at hu hkept
      cases hf : repo.fresh m.now a with
      | true => exact explains_fresh hkept hf
      | false =>
        have hl : repo.lacks m = true := by
          rw [CacheRepo.lacks, hkept]
          exact congrArg not hf
        have hx := explains_stale hl hu
        rw [hkept] at hx
        exact hx

/-- The past of a request grows. -/
theorem CacheRely.past {i : ℕ} (h : CacheRely i s s') : s.past i <+: s'.past i := by
  rw [CacheState.past, CacheState.past, h.started]
  exact h.history.drop _

theorem CacheRely.explained {i : ℕ} (h : CacheRely i s s') {reply : GetReply}
    (he : repo.Explained i reply s) : repo.Explained i reply s' := by
  obtain ⟨m, hm, hx⟩ := he
  exact ⟨m, h.past.subset hm, hx⟩

/-! ## What a request knows -/

abbrev CacheView := View CacheState Unit Unit

/-- Triples about request `i`. -/
abbrev CacheTriple (repo : CacheRepo) (i : ℕ) {α : Type} (pre : CacheView → Prop)
    (p : CacheTask α) (post : α → CacheView → Prop) : Prop :=
  Triple (cacheSystem repo) repo.rules i () ((cacheLogic repo).contract i ()) pre p post

/-- A record that has expired at `now`, or none. -/
def CacheRepo.Expired (now : DateTime) (stale : Option CachedArtifact) : Prop :=
  ∀ a, stale = some a → repo.fresh now a = false

/-- The request has read the clock. -/
def Clocked (i : ℕ) (now : DateTime) (w : CacheView) : Prop := w.shared.clock i = now

/-- And then the cache. -/
def FoundCached (repo : CacheRepo) (i : ℕ) (now : DateTime) (r : Option CachedArtifact)
    (w : CacheView) : Prop :=
  w.shared.clock i = now ∧ w.shared.found i = r ∧
    ∀ a, r = some a → repo.fresh now a = true → repo.Explained i (openArtifactBlob a) w.shared

/-- The request has the guard. -/
def HasGuard (i : ℕ) (w : CacheView) : Prop := w.shared.holder = some i

/-- It has the guard, and the cache is as it has found it. -/
def FetchesFor (i : ℕ) (now : DateTime) (stale : Option CachedArtifact) (w : CacheView) : Prop :=
  w.shared.clock i = now ∧ HasGuard i w ∧ w.shared.cached = stale

/-- A reply that is explained. -/
def Answers (repo : CacheRepo) (i : ℕ) (reply : GetReply) (w : CacheView) : Prop :=
  repo.Explained i reply w.shared

/-- The reply, if there is one, is explained. -/
def Replies (repo : CacheRepo) (i : ℕ) (r : Option GetReply) (w : CacheView) : Prop :=
  ∀ reply, r = some reply → repo.Explained i reply w.shared

theorem stable_always {P : Prop} : ((cacheLogic repo).contract i ()).Stable fun _ => P :=
  fun _ _ _ _ _ h => h

theorem Clocked.stable {now : DateTime} :
    ((cacheLogic repo).contract i ()).Stable (Clocked i now) :=
  fun _ _ _ _ hr h => hr.clock.trans h

theorem FoundCached.stable {now : DateTime} {r : Option CachedArtifact} :
    ((cacheLogic repo).contract i ()).Stable (FoundCached repo i now r) :=
  fun _ _ _ _ hr h => ⟨hr.clock.trans h.1, hr.found.trans h.2.1,
    fun a ha hf => hr.explained (h.2.2 a ha hf)⟩

theorem FetchesFor.stable {now : DateTime} {stale : Option CachedArtifact} :
    ((cacheLogic repo).contract i ()).Stable (FetchesFor i now stale) := by
  intro w w' _ _ hr h
  obtain ⟨hh, -, hc⟩ := hr.mine h.2.1
  exact ⟨hr.clock.trans h.1, hh, hc.trans h.2.2⟩

theorem Replies.stable {r : Option GetReply} :
    ((cacheLogic repo).contract i ()).Stable (Replies repo i r) :=
  fun _ _ _ _ hr h reply hrep => hr.explained (h reply hrep)

theorem Answers.stable {reply : GetReply} :
    ((cacheLogic repo).contract i ()).Stable (Answers repo i reply) :=
  fun _ _ _ _ hr h => hr.explained h

theorem HasGuard.stable : ((cacheLogic repo).contract i ()).Stable (HasGuard i) :=
  fun _ _ _ _ hr h => (hr.mine h).1

theorem stable_guarded {P Q : CacheView → Prop} (hP : ((cacheLogic repo).contract i ()).Stable P)
    (hQ : ((cacheLogic repo).contract i ()).Stable Q) :
    ((cacheLogic repo).contract i ()).Stable fun w => P w ∧ Q w :=
  fun w w' hi hi' hr h => ⟨hP w w' hi hi' hr h.1, hQ w w' hi hi' hr h.2⟩

/-! ## The operations -/

theorem nowUtc_triple : CacheTriple repo i (fun _ => True) nowUtc (Clocked i) := by
  refine Triple.call stable_always (fun _ => Clocked.stable) fun w b s r hi _ _ hx => ?_
  obtain ⟨rfl, rfl⟩ := some_mk_inj hx
  refine ⟨(), ⟨⟨hi.1.last, fun k => ?_, fun k => ?_, hi.1.held, hi.1.committed, hi.1.kept,
    hi.1.asked, hi.1.answers⟩, hi.2⟩, fun k hk => ?_, update_self ..⟩
  · show ∃ m, w.shared.history[update w.shared.started i _ k]? = some m ∧
      m.now = update w.shared.clock i _ k
    rw [update_apply, update_apply]
    split_ifs
    · exact ⟨_, getLast?_eq_getElem?.symm.trans hi.1.last, rfl⟩
    · exact hi.1.begun k
  · show update w.shared.clock i _ k ≤ w.shared.now
    rw [update_apply]
    split_ifs
    · exact le_rfl
    · exact hi.1.clock k
  · exact ⟨update_of_ne hk _ _, update_of_ne hk _ _, rfl, prefix_rfl,
      le_rfl, fun h => ⟨h, rfl, rfl⟩⟩

variable {now : DateTime}

theorem getCached_triple :
    CacheTriple repo i (Clocked i now) (getCached none) (FoundCached repo i now) := by
  refine Triple.call Clocked.stable (fun _ => FoundCached.stable) fun w b s r hi hw ha hx => ?_
  obtain ⟨rfl, rfl⟩ := some_mk_inj hx
  refine ⟨(), ⟨⟨hi.1.last, hi.1.begun, hi.1.clock, hi.1.held, hi.1.committed, hi.1.kept,
    hi.1.asked, hi.1.answers⟩, hi.2⟩, fun k hk => ⟨rfl, rfl, update_of_ne hk _ _, prefix_rfl, le_rfl,
      fun h => ⟨h, rfl, rfl⟩⟩, hw, update_self .., fun a hc hf => ?_⟩
  show repo.Explained i (openArtifactBlob a) w.shared
  have hc' : w.shared.cached = some a := hc
  have hrule : (w.shared.cached.all fun a => !repo.fresh (w.shared.clock i) a ||
      !w.shared.committedSince i || repo.committedInTime w.shared) = true := ha
  rw [hc', Option.all_some, hw, hf, Bool.not_true, Bool.false_or, Bool.or_eq_true,
    Bool.not_eq_true'] at hrule
  rw [← hw] at hf
  by_cases hs : w.shared.committedSince i = true
  · have hin := hrule.resolve_left (by rw [hs]; decide)
    obtain ⟨a', ha', hx⟩ := hi.1.explained_committed hs hin
    obtain rfl := some.inj (hc'.symm.trans ha')
    exact hx
  · exact hi.1.explained_start (by simpa using hs) hc' hf

/-- What the second read finds explains the answer. -/
theorem recheck_triple : CacheTriple repo i (fun _ => True) (getCached (some n)) fun r =>
    Answers repo i (match r with
      | some a => openArtifactBlob a
      | none => { outcome := .notFound }) := by
  refine Triple.call stable_always (fun _ => Answers.stable) fun w b s r hi _ ha hx => ?_
  obtain ⟨rfl, rfl⟩ := some_mk_inj hx
  refine ⟨(), hi, fun k _ => CacheRely.refl k _, ?_⟩
  have hrule : (if w.shared.committedSince i then repo.committedInTime w.shared
      else w.shared.endedFor i n) = true := ha
  show repo.Explained i (match w.shared.cached with
    | some a => openArtifactBlob a
    | none => { outcome := .notFound }) w.shared
  split_ifs at hrule with hs
  · obtain ⟨a, hc, hx⟩ := hi.1.explained_committed hs hrule
    rw [hc]
    exact hx
  · exact hi.1.explained_ended (by simpa using hs) hrule

variable {stale : Option CachedArtifact}

/-- Who gets the guard finds the cache as it has read it. -/
theorem claimPath_triple : CacheTriple repo i (FoundCached repo i now stale) claimPath fun r w =>
      ∀ n, r = .ok n → FetchesFor i now stale w := by
  refine Triple.call FoundCached.stable
    (fun r w w' hi hi' hr h n hn => FetchesFor.stable w w' hi hi' hr (h n hn))
    fun w b s r hi hw ha hx => ?_
  have hrule : (w.shared.inflight.isSome || decide (w.shared.cached = w.shared.found i)) = true :=
    ha
  cases hin : w.shared.inflight with
  | some notify =>
    simp only [cacheSystem, CacheState.exec, hin] at hx
    obtain ⟨rfl, rfl⟩ := some_mk_inj hx
    exact ⟨(), hi, fun k _ => CacheRely.refl k _, fun n hn => by cases hn⟩
  | none =>
    simp only [cacheSystem, CacheState.exec, hin] at hx
    rw [hin] at hrule
    obtain ⟨rfl, rfl⟩ := some_mk_inj hx
    have hsame : w.shared.cached = w.shared.found i := of_decide_eq_true hrule
    refine ⟨(), ⟨⟨hi.1.last, hi.1.begun, hi.1.clock, fun h => (by cases h), hi.1.committed,
      hi.1.kept, hi.1.asked, hi.1.answers⟩, hi.2⟩,
      fun k hk => ⟨rfl, rfl, rfl, prefix_rfl, le_rfl, fun h => ?_⟩,
      fun n _ => ⟨hw.1, rfl, hsame.trans hw.2.1⟩⟩
    rw [hi.1.held hin] at h
    cases h

theorem CacheState.noteAsked_cases (s : CacheState) : s.noteAsked = s ∨ ∃ n, s.noteAsked =
    { s with asked := update s.asked n (some (s.history.length - 1, s.upstream)) } := by
  unfold CacheState.noteAsked
  cases s.inflight with
  | none => exact .inl rfl
  | some n => exact .inr ⟨n, rfl⟩

/-- The upstream has answered at the present moment. -/
theorem CacheInv.sent (h : CacheInv repo s) (b : Bool) :
    CacheInv repo (if b then s.noteAsked else s) := by
  cases b with
  | false => exact h
  | true =>
    obtain heq | ⟨n, heq⟩ := s.noteAsked_cases
    · rw [if_pos rfl, heq]
      exact h
    · rw [if_pos rfl, heq]
      refine ⟨h.last, h.begun, h.clock, h.held, h.committed, h.kept, fun n' k u hn => ?_, h.answers⟩
      have hn' : update s.asked n (some (s.history.length - 1, s.upstream)) n' = some (k, u) := hn
      rw [update_apply] at hn'
      split_ifs at hn' with heq'
      · obtain ⟨rfl, rfl⟩ := Prod.mk.inj (some.inj hn')
        exact ⟨_, getLast?_eq_getElem?.symm.trans h.last, rfl⟩
      · exact h.asked n' k u hn'

theorem CacheRely.sent (i : ℕ) (s : CacheState) (b : Bool) :
    CacheRely i s (if b then s.noteAsked else s) := by
  cases b with
  | false => exact CacheRely.refl i s
  | true =>
    obtain heq | ⟨n, heq⟩ := s.noteAsked_cases
    · rw [if_pos rfl, heq]
      exact CacheRely.refl i s
    · rw [if_pos rfl, heq]
      exact ⟨rfl, rfl, rfl, prefix_rfl, le_rfl, fun h => ⟨h, rfl, rfl⟩⟩

/-- What the upstream answers is explained by the present moment. -/
def Sent (repo : CacheRepo) (i : ℕ) (stale : Option CachedArtifact) (r : Option Upstream)
    (w : CacheView) : Prop :=
  HasGuard i w ∧ ∀ u, r = some u → ∃ m ∈ w.shared.past i, repo.lacks m = true ∧
    m.cached = stale ∧ m.upstream = u

theorem Sent.stable (r : Option Upstream) :
    ((cacheLogic repo).contract i ()).Stable (Sent repo i stale r) := by
  intro w w' hi hi' hr h
  refine ⟨HasGuard.stable w w' hi hi' hr h.1, fun u hu => ?_⟩
  obtain ⟨m, hm, hx⟩ := h.2 u hu
  exact ⟨m, hr.past.subset hm, hx⟩

theorem sendUpstream_triple (he : repo.Expired now stale) :
    CacheTriple repo i (FetchesFor i now stale) sendUpstream (Sent repo i stale) := by
  refine Triple.call FetchesFor.stable Sent.stable fun w b s r hi hw _ hx => ?_
  obtain ⟨rfl, rfl⟩ := some_mk_inj hx
  refine ⟨(), ⟨hi.1.sent b, hi.2⟩, fun k _ => CacheRely.sent k w.shared b, ?_, fun u hu => ?_⟩
  · exact (CacheRely.sent i w.shared b).mine hw.2.1 |>.1
  refine ⟨w.shared.moment, (CacheRely.sent i w.shared b).past.subset (hi.1.moment_mem i), ?_,
    hw.2.2, ?_⟩
  · have hle : now ≤ w.shared.now := hw.1 ▸ hi.1.clock i
    show (w.shared.cached.all fun a => !repo.fresh w.shared.now a) = true
    rw [hw.2.2]
    cases stale with
    | none => rfl
    | some a => exact congrArg not (fresh_mono hle (he a rfl))
  · cases b with
    | false => cases hu
    | true => exact some.inj hu

variable {r : Option GetReply}

/-- Dropping the guard. -/
theorem releasePath_triple :
    CacheTriple repo i (fun w => HasGuard i w ∧ Replies repo i r w) (releasePath n)
      fun _ => Replies repo i r := by
  refine Triple.call (stable_guarded HasGuard.stable Replies.stable) (fun _ => Replies.stable)
    fun w b s r hi hw _ hx => ?_
  obtain ⟨rfl, -⟩ := some_mk_inj hx
  refine ⟨(), ⟨⟨hi.1.last, hi.1.begun, hi.1.clock, fun _ => rfl, hi.1.committed, hi.1.kept,
    hi.1.asked, hi.1.answers⟩, hi.2⟩,
    fun k hk => ⟨rfl, rfl, rfl, prefix_rfl, le_rfl, fun h => ?_⟩, hw.2⟩
  rw [hw.1] at h
  exact absurd (some.inj h).symm hk

/-- A moment that is noted. -/
theorem note_last (s : CacheState) : s.note.history.getLast? = some s.note.moment :=
  getLast?_append_of_ne_nil _ (cons_ne_nil _ _)

theorem CacheInv.note {s s' : CacheState} (h : CacheInv repo s) (hh : s'.history = s.history)
    (hs : s'.started = s.started) (hclock : s'.clock = s.clock) (hc : ∀ i, s'.clock i ≤ s'.now)
    (hheld : s'.inflight = none → s'.holder = none) (hasked : s'.asked = s.asked)
    (hcommit : s'.cached = s.cached ∧ s'.committedAt = s.committedAt ∨
      s'.committedAt = s.history.length) (ha : s'.answers = s.answers) :
    CacheInv repo s'.note where
  last := note_last s'
  begun i := by
    show ∃ m, (s'.history ++ [s'.moment])[s'.started i]? = some m ∧ m.now = s'.clock i
    rw [hs, hh, hclock, getElem?_append_left (h.started_lt i)]
    exact h.begun i
  clock := hc
  held := hheld
  committed := by
    show s'.committedAt < (s'.history ++ [s'.moment]).length
    rw [hh, length_append, length_singleton]
    have hlt := h.committed
    rcases hcommit with ⟨_, heq⟩ | heq <;> omega
  kept k m hk hm := by
    change (s'.history ++ [s'.moment])[k]? = some m at hm
    change s'.committedAt ≤ k at hk
    rw [hh] at hm
    by_cases hlt : k < s.history.length
    · rw [getElem?_append_left hlt] at hm
      rcases hcommit with ⟨hcached, heq⟩ | heq
      · exact (h.kept k m (heq ▸ hk) hm).trans hcached.symm
      · omega
    · rw [getElem?_append_right (Nat.not_lt.mp hlt)] at hm
      rw [mem_singleton.mp (mem_of_getElem? hm)]
      rfl
  asked n k u hn := by
    change s'.asked n = some (k, u) at hn
    rw [hasked] at hn
    obtain ⟨m, hm, hu⟩ := h.asked n k u hn
    refine ⟨m, ?_, hu⟩
    show (s'.history ++ [s'.moment])[k]? = some m
    rw [hh, getElem?_append_left (List.getElem?_eq_some_iff.mp hm).1, hm]
  answers a hin := by
    have hin' : a ∈ s'.answers := hin
    rw [ha] at hin'
    exact h.answers a hin'

theorem commitCached_triple : CacheTriple repo i (fun w => HasGuard i w ∧ Replies repo i r w)
      (Task.call (CacheOp.putArtifact a)) fun _ w => HasGuard i w ∧ Replies repo i r w := by
  refine Triple.call (stable_guarded HasGuard.stable Replies.stable)
    (fun _ => stable_guarded HasGuard.stable Replies.stable) fun w b s r' hi hw _ hx => ?_
  obtain ⟨rfl, -⟩ := some_mk_inj hx
  have hpre : w.shared.history <+:
      w.shared.history ++ [⟨w.shared.now, some a, w.shared.upstream⟩] := prefix_append _ _
  refine ⟨(), ⟨hi.1.note rfl rfl rfl hi.1.clock hi.1.held rfl (.inr rfl) rfl, hi.2⟩,
    fun k hk => ⟨rfl, rfl, rfl, hpre, le_rfl, fun h => ?_⟩, hw.1, fun reply hrep => ?_⟩
  · rw [hw.1] at h
    exact absurd (some.inj h).symm hk
  · obtain ⟨m, hm, hx⟩ := hw.2 reply hrep
    exact ⟨m, (hpre.drop _).subset hm, hx⟩

/-! ## The functions -/

theorem waitForFetch_triple (n : ℕ) :
    CacheTriple repo i (fun _ => True) (waitForFetch n) (Answers repo i) := by
  refine Triple.bind (M := fun _ _ => True) ?_ fun (seen : ℕ) =>
    Triple.bind (M := fun _ _ => True) ?_ fun _ => Triple.bind recheck_triple fun r => ?_
  · refine Triple.call stable_always (fun _ => stable_always) fun w b s r hi _ _ hx => ?_
    obtain ⟨rfl, -⟩ := some_mk_inj hx
    exact ⟨(), hi, fun k _ => CacheRely.refl k _, trivial⟩
  · refine Triple.call stable_always (fun _ => stable_always) fun w b s r hi _ _ hx => ?_
    have hexec : (if w.shared.calls n = seen then none else some (w.shared, ())) = some (s, r) := hx
    split_ifs at hexec
    obtain ⟨rfl, -⟩ := some_mk_inj hexec
    exact ⟨(), hi, fun k _ => CacheRely.refl k _, trivial⟩
  · cases r with
    | none => exact Triple.pure Answers.stable
    | some a => exact Triple.pure Answers.stable

/-- Drop the guard, then answer. -/
theorem releaseThen_triple {pre : CacheView → Prop}
    (h : ∀ w, pre w → HasGuard i w ∧ Replies repo i r w) :
    CacheTriple repo i pre ((releasePath n).bind fun _ => Lib.Task.pure r) (Replies repo i) := by
  refine Triple.bind (releasePath_triple.weaken_pre fun w _ hw => h w hw) fun _ => ?_
  exact Triple.pure Replies.stable

theorem replies_stale {w : CacheView} {u : Upstream}
    (h : Sent repo i stale (some u) w) (hu : u.fails = true) :
    HasGuard i w ∧ Replies repo i (some (staleOrError stale)) w := by
  refine ⟨h.1, fun reply hr => ?_⟩
  obtain rfl := some.inj hr
  obtain ⟨m, hm, hl, hc, rfl⟩ := h.2 u rfl
  have hx := explains_stale hl hu
  rw [hc] at hx
  exact ⟨m, hm, hx⟩

theorem commitFetched_triple :
    CacheTriple repo i (Sent repo i stale (some (.success resp))) (repo.commitFetched now n resp)
      (Answers repo i) := by
  have hexplained : ∀ w, Sent repo i stale (some (.success resp)) w → HasGuard i w ∧
      Replies repo i (some
        { outcome := if repo.intact resp then .content resp.body else .error }) w := by
    intro w h
    refine ⟨h.1, fun reply hr => ?_⟩
    obtain rfl := some.inj hr
    obtain ⟨m, hm, hl, -, hu⟩ := h.2 _ rfl
    exact ⟨m, hm, explains_success hl hu⟩
  unfold CacheRepo.commitFetched
  by_cases hi : repo.intact resp = true
  · simp only [if_pos hi] at hexplained ⊢
    refine Triple.bind (commitCached_triple.weaken_pre fun w _ hw => hexplained w hw) fun _ =>
      Triple.bind releasePath_triple fun _ => ?_
    exact (Triple.pure Answers.stable).weaken_pre fun w _ hw => hw _ rfl
  · simp only [if_neg hi] at hexplained ⊢
    refine Triple.bind (releasePath_triple.weaken_pre fun w _ hw => hexplained w hw) fun _ => ?_
    exact (Triple.pure Answers.stable).weaken_pre fun w _ hw => hw _ rfl

theorem cacheFetch_triple (he : repo.Expired now stale) :
    CacheTriple repo i (FetchesFor i now stale) (repo.fetch now stale n) (Replies repo i) := by
  refine Triple.bind (sendUpstream_triple he) fun r => ?_
  cases r with
  | none => exact releaseThen_triple fun w hw => ⟨hw.1, fun reply hr => by cases hr⟩
  | some u =>
    cases u with
    | unreachable => exact releaseThen_triple fun w hw => replies_stale hw rfl
    | status code =>
      refine Triple.bind (M := fun _ => Replies repo i (some (if code = statusNotFound then
        { outcome := .notFound } else staleOrError stale))) ?_ fun _ => ?_
      · refine releasePath_triple.weaken_pre fun w _ hw => ?_
        split_ifs with hcode
        · refine ⟨hw.1, fun reply hr => ?_⟩
          obtain rfl := some.inj hr
          obtain ⟨m, hm, hl, -, hu⟩ := hw.2 _ rfl
          exact ⟨m, hm, explains_notFound hl (by rw [hu, hcode])⟩
        · exact replies_stale hw (decide_eq_true hcode)
      · split_ifs with hcode
        · exact Triple.pure Replies.stable
        · exact Triple.pure Replies.stable
    | success resp =>
      refine Triple.bind commitFetched_triple fun reply => ?_
      refine (Triple.pure Replies.stable).weaken_pre fun w _ hw reply' hr => ?_
      obtain rfl := some.inj hr
      exact hw

theorem getExpired_triple (he : repo.Expired now stale) :
    CacheTriple repo i (FoundCached repo i now stale) (repo.getExpired now stale)
      (Replies repo i) := by
  refine Triple.bind claimPath_triple fun r => ?_
  cases r with
  | error n =>
    refine Triple.bind ((waitForFetch_triple n).weaken_pre fun _ _ _ => trivial) fun reply => ?_
    refine (Triple.pure Replies.stable).weaken_pre fun w _ hw reply' hr => ?_
    obtain rfl := some.inj hr
    exact hw
  | ok n => exact (cacheFetch_triple he).weaken_pre fun w _ hw => hw n rfl

theorem get_triple : CacheTriple repo i (fun _ => True) repo.get (Replies repo i) := by
  refine Triple.bind nowUtc_triple fun now => Triple.bind getCached_triple fun r => ?_
  cases r with
  | none => exact getExpired_triple fun a ha => by cases ha
  | some a =>
    dsimp only
    split_ifs with hf
    · refine (Triple.pure Replies.stable).weaken_pre fun w _ hw reply hr => ?_
      obtain rfl := some.inj hr
      exact hw.2.2 a rfl hf
    · refine getExpired_triple fun a' ha => ?_
      obtain rfl := some.inj ha
      simpa using hf

theorem request_triple : CacheTriple repo i (fun _ => True) repo.request fun _ _ => True := by
  refine Triple.bind get_triple fun r => ?_
  cases r with
  | none => exact (Triple.pure stable_always).weaken_pre fun _ _ _ => trivial
  | some reply =>
    refine Triple.call Replies.stable (fun _ => stable_always) fun w b s r hi hw _ hx => ?_
    obtain ⟨rfl, -⟩ := some_mk_inj hx
    refine ⟨(), ⟨⟨hi.1.last, hi.1.begun, hi.1.clock, hi.1.held, hi.1.committed, hi.1.kept,
      hi.1.asked, fun a ha => ?_⟩, hi.2⟩,
      fun k _ => ⟨rfl, rfl, rfl, prefix_rfl, le_rfl, fun h => ⟨h, rfl, rfl⟩⟩, trivial⟩
    rcases mem_append.mp ha with ha | ha
    · exact hi.1.answers a ha
    · obtain rfl := mem_singleton.mp ha
      obtain ⟨m, hm, hx⟩ := hw reply rfl
      refine ⟨⟨m, hm, hx.1⟩, fun r hr => ⟨m, hm, hx.2 r hr⟩, fun hn => ⟨m, hm, ?_⟩⟩
      exact alone_notFound repo (by rw [hx.1]; exact congrArg some hn)

/-- The proof outline is sound. -/
theorem cacheLogic_sound : (cacheLogic repo).Sound (cacheSystem repo) repo.rules where
  guar_rely hne _ _ hg := hg _ hne
  spawn w j hi _ := by
    refine ⟨(), hi, fun k => CacheRely.refl k _, ?_⟩
    have hjob : (w.jobs ++ [some j])[w.jobs.length]? = some (some j) := by simp
    exact (request_triple ⟨w.shared, w.jobs ++ [some j], ()⟩ ⟨hi, hjob⟩ trivial).weaken
      fun _ _ _ _ => trivial
  leave w k j hi _ := ⟨(), hi, fun _ _ => CacheRely.refl _ _⟩
  env w e s hi _ hx := by
    cases e with
    | tick d =>
      obtain rfl := some.inj hx
      have hle : w.shared.now ≤ w.shared.now + d :=
        le_add_of_nonneg_right (Int.natCast_nonneg d)
      exact ⟨(), hi.note rfl rfl rfl (fun k => (hi.clock k).trans hle) hi.held rfl
          (.inl ⟨rfl, rfl⟩) rfl,
        fun k => ⟨rfl, rfl, rfl, prefix_append _ _, hle, fun h => ⟨h, rfl, rfl⟩⟩⟩
    | upstream u =>
      obtain rfl := some.inj hx
      exact ⟨(), hi.note rfl rfl rfl hi.clock hi.held rfl (.inl ⟨rfl, rfl⟩) rfl,
        fun k => ⟨rfl, rfl, rfl, prefix_append _ _, le_rfl, fun h => ⟨h, rfl, rfl⟩⟩⟩

theorem cacheInv_init (repo : CacheRepo) (m : Moment) : CacheInv repo m.state where
  last := rfl
  begun _ := ⟨m, rfl, rfl⟩
  clock _ := le_rfl
  held _ := rfl
  committed := Nat.zero_lt_one
  kept k m' _ hm := by
    rw [mem_singleton.mp (mem_of_getElem? hm)]
    rfl
  asked _ _ _ hn := by cases hn
  answers a ha := by cases ha

/-- **Main theorem.** From any cached state, with any upstream, in every run whose reads and
    claims meet the condition, every answer is explained. -/
theorem cache_transparent (repo : CacheRepo) (m : Moment) (es : List (Event Unit CacheEnv))
    (p : Pool CacheOp CacheOp.Reply CacheState Unit)
    (h : (Pool.init m.state).run (cacheSystem repo) repo.rules es = some p) :
    repo.Transparent p.shared := by
  have h0 : (cacheLogic repo).inv ⟨m.state, [], ()⟩ := cacheInv_init repo m
  obtain ⟨_, hi⟩ := cacheLogic_sound.run_inv h0 h
  exact hi.answers

end

/-! ## Runs -/

/-- A cache whose records live for a minute. -/
def CacheRepo.sample : CacheRepo := ⟨Ext.sample, 60, fun _ => "etag"⟩

/-- Request 0 reads the cache and claims the path. -/
def firstClaims : List (Event Unit CacheEnv) :=
  [.spawn (), .spawn (), .step 0 true, .step 0 true, .step 1 true, .step 1 true, .step 0 true]

/-- Request 1 finds the claim and waits, request 0 comes to its end in `n` steps, then
    request 1 does. -/
def secondWaits (n : ℕ) : List (Event Unit CacheEnv) :=
  firstClaims ++ [.step 1 true, .step 1 true] ++ replicate n (.step 0 true) ++
    replicate 3 (.step 1 true)

/-- Nothing cached, and an upstream that answers with one byte. -/
def oneByteMoment : Moment := ⟨0, none, .success { chunks := [[7]] }⟩

theorem cache_transparent_two : ∃ p, (Pool.init oneByteMoment.state).run
      (cacheSystem CacheRepo.sample) CacheRepo.sample.rules (secondWaits 4) = some p ∧
    p.shared.answers.map (fun a => a.reply.outcome) = [.content [7], .content [7]] ∧
    CacheRepo.sample.Transparent p.shared := by
  refine ends_in (fun p =>
    p.shared.answers.map (fun a => a.reply.outcome) = [.content [7], .content [7]])
    (by decide +kernel) fun p hp hall => ?_
  exact ⟨hall, cache_transparent CacheRepo.sample oneByteMoment _ p hp⟩

/-- Nothing cached, and an upstream that cannot be reached. -/
def unreachableMoment : Moment := ⟨0, none, .unreachable⟩

/-- The fetch fails, and the request that has waited answers "not found". -/
theorem failure_not_found : ∃ p, (Pool.init unreachableMoment.state).run
      (cacheSystem CacheRepo.sample) .free (secondWaits 3) = some p ∧
    p.shared.answers.map (fun a => a.reply.outcome) = [.error, .notFound] ∧
    ¬ CacheRepo.sample.Transparent p.shared := by
  refine ends_in (fun p =>
    p.shared.answers.map (fun a => a.reply.outcome) = [.error, .notFound] ∧
      ∃ a ∈ p.shared.answers, a.reply.outcome = .notFound ∧
        ∀ m ∈ a.moments, m.upstream ≠ .status statusNotFound) (by decide +kernel) fun p _ hall => ?_
  obtain ⟨hout, a, ha, hn, hm⟩ := hall
  refine ⟨hout, fun h => ?_⟩
  obtain ⟨m, hin, hup⟩ := (h a ha).notFound hn
  exact hm m hin hup

end Depot
