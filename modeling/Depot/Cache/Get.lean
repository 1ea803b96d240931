import Depot.Core.World
import Depot.Lib.RelyGuarantee

/-!
# Reads through a cache repository

`CacheRepo::get` (`core/src/repo/cache.rs`, lines 227–487) for one path: any number of
requests, an upstream that may change at any time, and a clock. `try_claim` and the drop of
a guard are atomic; a `Notify` wakes who waits when it is called.

Results:
* `alone_eq`: what a request that runs alone gets.
* `alone_notFound`: it gets "not found" only from an upstream that answers 404.
-/

namespace Depot

open Lib
open Function (update)

/-! ## The upstream and the cache -/

/-- A successful upstream response: its headers, the chunks of its body, and whether the
    stream breaks. -/
structure UpstreamResponse where
  contentType : Option String := none
  blake3 : Option String := none
  chunks : List Bytes
  broken : Bool := false
  deriving DecidableEq

/-- How the upstream behaves: it cannot be reached, it answers with a status that is not a
    success, or with content. -/
inductive Upstream where
  | unreachable
  | status (code : ℕ)
  | success (resp : UpstreamResponse)
  deriving DecidableEq

/-- `StatusCode::NOT_FOUND`. -/
def statusNotFound : ℕ := 404

/-- The upstream is unreachable or answers with an error other than 404. -/
def Upstream.fails : Upstream → Bool
  | .unreachable => true
  | .status code => decide (code ≠ statusNotFound)
  | .success _ => false

/-- An artifact in the cache: its record, and the content of its blob. -/
structure CachedArtifact where
  record : ArtifactRecord
  content : Bytes
  deriving DecidableEq

/-- `CacheRepo`, as far as `get` reads it, with the functions of other crates it uses. -/
structure CacheRepo where
  ext : Ext
  cacheTtlSecs : UInt64
  /-- `extract_or_synthesize_etag`. -/
  etag : UpstreamResponse → String

/-- What a request gets; a transfer that breaks off is an error. -/
inductive GetOutcome where
  | content (data : Bytes)
  | notFound
  | error
  deriving DecidableEq

/-- The outcome, and the cached artifact that was served, if there was one. -/
structure GetReply where
  outcome : GetOutcome
  served : Option CachedArtifact := none
  deriving DecidableEq

/-- What a request depends on at a moment. -/
structure Moment where
  now : DateTime
  cached : Option CachedArtifact
  upstream : Upstream
  deriving DecidableEq

/-! ## The state -/

/-- An answer, with the moments between the start and the end of the request. -/
structure GetAnswer where
  task : ℕ
  reply : GetReply
  moments : List Moment

/-- The clock, the cache, the upstream, the map of fetches in flight; and what only the
    statements refer to: the moments so far and which of them is that of the last commit, for each
    fetch when it has asked the upstream and what it was answered, where each request started, the
    time it read and what it found in the cache, the holder of the guard, and the answers. -/
structure CacheState where
  now : DateTime
  cached : Option CachedArtifact
  upstream : Upstream
  inflight : Option ℕ := none
  notifies : ℕ := 0
  calls : ℕ → ℕ := fun _ => 0
  history : List Moment := [⟨now, cached, upstream⟩]
  committedAt : ℕ := 0
  asked : ℕ → Option (ℕ × Upstream) := fun _ => none
  started : ℕ → ℕ := fun _ => 0
  clock : ℕ → DateTime := fun _ => now
  found : ℕ → Option CachedArtifact := fun _ => none
  holder : Option ℕ := none
  answers : List GetAnswer := []

namespace CacheState

variable (s : CacheState)

/-- The present moment. -/
def moment : Moment := ⟨s.now, s.cached, s.upstream⟩

/-- The moments since request `i` started. -/
def past (i : ℕ) : List Moment := s.history.drop (s.started i)

/-- Note the present moment. -/
def note : CacheState := { s with history := s.history ++ [s.moment] }

/-- Note what the fetch in flight is answered. -/
def noteAsked : CacheState :=
  match s.inflight with
  | some notify =>
      { s with asked := update s.asked notify (some (s.history.length - 1, s.upstream)) }
  | none => s

end CacheState

/-! ## Operations -/

/-- The atomic operations. The second read of a request has the fetch that it has waited for. -/
inductive CacheOp where
  | nowUtc
  | getArtifact (awaited : Option ℕ)
  | tryClaim
  | notified (notify : ℕ)
  | await (notify seen : ℕ)
  | send
  | putArtifact (artifact : CachedArtifact)
  | dropGuard (notify : ℕ)
  | answer (reply : GetReply)

/-- Replies; the reply of `send` is `none` if the request was dropped meanwhile. -/
def CacheOp.Reply : CacheOp → Type
  | .nowUtc => DateTime
  | .getArtifact _ => Option CachedArtifact
  | .tryClaim => Except ℕ ℕ
  | .notified _ => ℕ
  | .send => Option Upstream
  | _ => Unit

/-- What an operation of task `i` does. -/
def CacheState.exec (i : ℕ) (o : CacheOp) (b : Bool) (s : CacheState) :
    Option (CacheState × o.Reply) :=
  match o with
  | .nowUtc =>
      some ({ s with
        started := update s.started i (s.history.length - 1)
        clock := update s.clock i s.now }, s.now)
  | .getArtifact none => some ({ s with found := update s.found i s.cached }, s.cached)
  | .getArtifact (some _) => some (s, s.cached)
  | .tryClaim =>
      match s.inflight with
      | some notify => some (s, .error notify)
      | none =>
          some ({ s with
            inflight := some s.notifies
            notifies := s.notifies + 1
            holder := some i }, .ok s.notifies)
  | .notified notify => some (s, s.calls notify)
  | .await notify seen => if s.calls notify = seen then none else some (s, ())
  | .send => some (if b then s.noteAsked else s, if b then some s.upstream else none)
  | .putArtifact artifact =>
      some (({ s with cached := some artifact, committedAt := s.history.length } : CacheState).note,
        ())
  | .dropGuard notify =>
      some ({ s with
        inflight := none
        calls := update s.calls notify (s.calls notify + 1)
        holder := none }, ())
  | .answer reply => some ({ s with answers := s.answers ++ [⟨i, reply, s.past i⟩] }, ())

/-! ## The functions -/

/-- Code of a request to the cache. -/
abbrev CacheTask := Task CacheOp CacheOp.Reply

/-- `now_utc`. -/
def nowUtc : CacheTask DateTime := Task.call CacheOp.nowUtc

/-- `service::get_artifact` of the path. -/
def getCached (awaited : Option ℕ) : CacheTask (Option CachedArtifact) :=
  Task.call (CacheOp.getArtifact awaited)

/-- `inflight.try_claim`. -/
def claimPath : CacheTask (Except ℕ ℕ) := Task.call CacheOp.tryClaim

/-- `self.http.get(&url).send()`. -/
def sendUpstream : CacheTask (Option Upstream) := Task.call CacheOp.send

/-- The end of the scope of the guard. -/
def releasePath (notify : ℕ) : CacheTask Unit := Task.call (CacheOp.dropGuard notify)

/-- `TimeDelta::num_seconds`. -/
def numSeconds (d : ℤ) : ℤ := d.tdiv secondNs

variable {m : Moment}

section

variable (repo : CacheRepo)

/-- The record has not expired (line 237). -/
def CacheRepo.fresh (now : DateTime) (a : CachedArtifact) : Bool :=
  repo.cacheTtlSecs = 0 ∨ numSeconds (now - a.record.updatedAt) < asI64 repo.cacheTtlSecs

/-- `open_artifact_blob`. -/
def openArtifactBlob (a : CachedArtifact) : GetReply := ⟨.content a.content, some a⟩

/-- A request that finds a fetch in flight (lines 261–270). -/
def waitForFetch (notify : ℕ) : CacheTask GetReply := do
  let seen ← Task.call (CacheOp.notified notify)
  Task.call (CacheOp.await notify seen)
  match ← getCached (some notify) with
  | some a => pure (openArtifactBlob a)
  | none => pure { outcome := .notFound }

/-- The cached artifact if there is one, else an error (lines 285–297 and 316–331). -/
def staleOrError (staleRecord : Option CachedArtifact) : GetReply :=
  match staleRecord with
  | some a => openArtifactBlob a
  | none => { outcome := .error }

/-- The body of a response. -/
def UpstreamResponse.body (resp : UpstreamResponse) : Bytes := resp.chunks.flatten

/-- The stream ends, and the announced hash is that of the body (lines 397–431). -/
def CacheRepo.intact (resp : UpstreamResponse) : Bool :=
  !resp.broken && resp.blake3.all fun claimed => claimed = repo.ext.blake3 resp.body

/-- The artifact that is stored (lines 450–464). The content stands for the blob. -/
def CacheRepo.artifactOf (now : DateTime) (resp : UpstreamResponse) : CachedArtifact where
  record := {
    size := resp.body.length
    contentType := resp.contentType.getD "application/octet-stream"
    createdAt := now
    updatedAt := now
    lastAccessedAt := now
    blobId := none
    contentHash := some (repo.ext.blake3 resp.body)
    etag := some (repo.etag resp) }
  content := resp.body

/-- The background task (lines 385–484): the client's stream ends well after the commit
    only, and the guard is dropped at the end. -/
def CacheRepo.commitFetched (now : DateTime) (notify : ℕ) (resp : UpstreamResponse) :
    CacheTask GetReply :=
  if repo.intact resp then do
    Task.call (CacheOp.putArtifact (repo.artifactOf now resp))
    releasePath notify
    pure { outcome := .content resp.body }
  else do
    releasePath notify
    pure { outcome := .error }

/-- The fetch (lines 274–487), up to the end of the transfer. -/
def CacheRepo.fetch (now : DateTime) (staleRecord : Option CachedArtifact) (notify : ℕ) :
    CacheTask (Option GetReply) := do
  match ← sendUpstream with
  | none => do
      releasePath notify
      pure none
  | some .unreachable => do
      releasePath notify
      pure (some (staleOrError staleRecord))
  | some (.status code) => do
      releasePath notify
      if code = statusNotFound then pure (some { outcome := .notFound })
      else pure (some (staleOrError staleRecord))
  | some (.success resp) => do
      let reply ← repo.commitFetched now notify resp
      pure (some reply)

/-- A request that has no fresh record (lines 253–487). -/
def CacheRepo.getExpired (now : DateTime) (staleRecord : Option CachedArtifact) :
    CacheTask (Option GetReply) := do
  match ← claimPath with
  | .error notify => do
      let reply ← waitForFetch notify
      pure (some reply)
  | .ok notify => repo.fetch now staleRecord notify

/-- `CacheRepo::get` (lines 228–487). -/
def CacheRepo.get : CacheTask (Option GetReply) := do
  let now ← nowUtc
  match ← getCached none with
  | some a =>
      if repo.fresh now a then pure (some (openArtifactBlob a))
      else repo.getExpired now (some a)
  | none => repo.getExpired now none

/-- A request: `get`, and the answer if there is one. -/
def CacheRepo.request : CacheTask Unit := do
  match ← repo.get with
  | some reply => Task.call (CacheOp.answer reply)
  | none => pure ()

/-- What happens outside: time passes, the upstream changes. -/
inductive CacheEnv where
  | tick (d : ℕ)
  | upstream (u : Upstream)
  deriving DecidableEq

/-- Any number of requests for the path. -/
def cacheSystem : System CacheOp CacheOp.Reply CacheState Unit CacheEnv where
  exec i _ o b s := s.exec i o b
  code _ := repo.request
  env e s :=
    match e with
    | .tick d => some ({ s with now := s.now + d } : CacheState).note
    | .upstream u => some ({ s with upstream := u } : CacheState).note
  leave _ s := s

/-- The state of a cache at a moment without requests. -/
def Moment.state (m : Moment) : CacheState :=
  { now := m.now, cached := m.cached, upstream := m.upstream }

/-- A request that runs alone. -/
def soloCache {α : Type} (p : CacheTask α) (s : CacheState) : Option (CacheState × α) :=
  p.solo (fun o b s => s.exec 0 o b) s

/-- The outcome of a request that runs alone at a moment. -/
def CacheRepo.alone (m : Moment) : Option GetOutcome :=
  (soloCache repo.get m.state).bind fun r => r.2.map GetReply.outcome

/-! ## A request alone -/

/-- The record at a moment is expired, or there is none. -/
def CacheRepo.lacks (m : Moment) : Bool := m.cached.all fun a => !repo.fresh m.now a

/-- What an upstream makes of a request that has no fresh record. -/
def CacheRepo.fetched (stale : Option CachedArtifact) : Upstream → GetOutcome
  | .unreachable => (staleOrError stale).outcome
  | .status code =>
      if code = statusNotFound then .notFound else (staleOrError stale).outcome
  | .success resp => if repo.intact resp then .content resp.body else .error

theorem fetch_solo (now : DateTime) (stale : Option CachedArtifact) (notify : ℕ)
    (s : CacheState) : ∃ s' reply, soloCache (repo.fetch now stale notify) s =
      some (s', some reply) ∧ reply.outcome = repo.fetched stale s.upstream := by
  obtain ⟨t, cached, upstream, inflight, notifies, calls, history, committedAt, asked, started,
    clock, found, holder, answers⟩ := s
  cases upstream with
  | unreachable => exact ⟨_, _, rfl, rfl⟩
  | status code =>
    show ∃ s' reply, soloCache (if code = statusNotFound then
        Lib.Task.pure (some { outcome := .notFound })
      else Lib.Task.pure (some (staleOrError stale))) _ = some (s', some reply) ∧
        reply.outcome = if code = statusNotFound then .notFound else (staleOrError stale).outcome
    by_cases hcode : code = statusNotFound
    · rw [if_pos hcode, if_pos hcode]
      exact ⟨_, _, rfl, rfl⟩
    · rw [if_neg hcode, if_neg hcode]
      exact ⟨_, _, rfl, rfl⟩
  | success resp =>
    show ∃ s' reply, soloCache ((repo.commitFetched now notify resp).bind fun reply =>
        Lib.Task.pure (some reply)) _ = some (s', some reply) ∧
      reply.outcome = if repo.intact resp then .content resp.body else .error
    rw [CacheRepo.commitFetched]
    by_cases hi : repo.intact resp = true
    · rw [if_pos hi, if_pos hi]
      exact ⟨_, _, rfl, rfl⟩
    · rw [if_neg hi, if_neg hi]
      exact ⟨_, _, rfl, rfl⟩

theorem getExpired_solo {s : CacheState} (hs : s.inflight = none) (now : DateTime)
    (stale : Option CachedArtifact) : ∃ s' reply,
      soloCache (repo.getExpired now stale) s = some (s', some reply) ∧
        reply.outcome = repo.fetched stale s.upstream := by
  obtain ⟨t, cached, upstream, inflight, notifies, calls, history, committedAt, asked, started,
    clock, found, holder, answers⟩ := s
  subst hs
  exact fetch_solo repo now stale notifies _

/-- The state when request 0, the first one, has read the cache. -/
def Moment.begun (m : Moment) : CacheState :=
  { m.state with
    started := update m.state.started 0 0
    clock := update m.state.clock 0 m.now
    found := update m.state.found 0 m.cached }

/-- What a request gets that runs alone: the fresh record, or what the upstream makes of
    the lack of one. -/
theorem alone_eq (m : Moment) : repo.alone m = some (match m.cached with
    | some a => if repo.fresh m.now a then .content a.content
        else repo.fetched (some a) m.upstream
    | none => repo.fetched none m.upstream) := by
  have hlacks : ∀ stale, soloCache repo.get m.state =
      soloCache (repo.getExpired m.now stale) m.begun →
      repo.alone m = some (repo.fetched stale m.upstream) := by
    intro stale heq
    obtain ⟨s', reply, hrun, hr⟩ :=
      getExpired_solo repo (s := m.begun) rfl m.now stale
    rw [CacheRepo.alone, heq, hrun]
    exact congrArg some hr
  obtain ⟨now, cached, upstream⟩ := m
  cases cached with
  | none => exact hlacks none rfl
  | some a =>
    have hget : soloCache repo.get (Moment.state ⟨now, some a, upstream⟩) =
        soloCache (if repo.fresh now a then Lib.Task.pure (some (openArtifactBlob a))
          else repo.getExpired now (some a)) (Moment.begun ⟨now, some a, upstream⟩) := rfl
    dsimp only
    by_cases hf : repo.fresh now a = true
    · rw [if_pos hf] at hget ⊢
      rw [CacheRepo.alone, hget]
      rfl
    · rw [if_neg hf] at hget ⊢
      exact hlacks (some a) hget

/-- What a request gets alone while the cache lacks a fresh record. -/
theorem alone_lacks (h : repo.lacks m = true) :
    repo.alone m = some (repo.fetched m.cached m.upstream) := by
  rw [alone_eq]
  cases hc : m.cached with
  | none => rfl
  | some a =>
    have hf : repo.fresh m.now a = false := by
      rw [CacheRepo.lacks, hc] at h
      simpa using h
    simp only [hf, Bool.false_eq_true, if_false]

theorem alone_fresh {a : CachedArtifact} (hc : m.cached = some a)
    (hf : repo.fresh m.now a = true) : repo.alone m = some (.content a.content) := by
  rw [alone_eq, hc]
  simp only [hf, if_true]

theorem staleOrError_ne (stale : Option CachedArtifact) :
    (staleOrError stale).outcome ≠ .notFound := by
  cases stale with
  | none => exact fun h => by cases h
  | some a => exact fun h => by cases h

/-- "Not found" is what an upstream answers. -/
theorem alone_notFound (h : repo.alone m = some .notFound) :
    m.upstream = .status statusNotFound := by
  have hfetched : ∀ stale, repo.fetched stale m.upstream = .notFound →
      m.upstream = .status statusNotFound := by
    intro stale hf
    cases hu : m.upstream with
    | unreachable =>
      rw [hu] at hf
      exact absurd hf (staleOrError_ne stale)
    | status code =>
      rw [hu, CacheRepo.fetched] at hf
      split_ifs at hf with hcode
      · rw [hcode]
      · exact absurd hf (staleOrError_ne stale)
    | success resp =>
      rw [hu, CacheRepo.fetched] at hf
      split_ifs at hf
  rw [alone_eq] at h
  cases hc : m.cached with
  | none =>
    rw [hc] at h
    exact hfetched none (Option.some.inj h)
  | some a =>
    rw [hc] at h
    dsimp only at h
    split_ifs at h with hf
    · cases h
    · exact hfetched (some a) (Option.some.inj h)

end

end Depot
