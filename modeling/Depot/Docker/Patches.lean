import Depot.Dedup.Owned
import Depot.Lib.Answers

/-!
# The chunks of an upload session

Any number of PATCH requests on one chunked upload session (`do_patch_upload`,
`docker/src/api/uploads.rs`, lines 427–637), interleaved operation by operation and any of them
failing, while the rest of the server does what it likes, short of writing the session; the
session may be gone at any time.

Results:
* `doPatchUpload_follows`: what a PATCH does to the session, given what it has read.
* `upload_session_accounted`: the chunks of the session, in every run.
* `acknowledged_out_of_order`: two PATCHes are acknowledged the other way round.

**Deviation.** The store does not fail after it has written; the response to a PATCH is a step of
its own, after its last operation.
-/

namespace Depot

open Lib List
open Fallible (Follows Uses uses_attempt uses_pure)
open Function (forall_update_iff update update_eq_self update_of_ne update_self)
open Option (map_eq_some_iff some.inj)

/-! ## Requests -/

/-- A PATCH of the session: what `do_patch_upload` is called with. -/
structure PatchRequest where
  maxChunks : ℕ
  repoName : String
  effectiveRepo : String
  image : Option String
  body : List Bytes
  deriving DecidableEq

/-- How many bytes the request has. -/
def PatchRequest.bytes (j : PatchRequest) : ℕ := j.body.flatten.length

/-- What runs: the shared state, and the requests whose conditional write has gone through, in
    that order. -/
structure PatchState where
  world : World
  applied : List ℕ := []

/-- The reply to a write that has gone through. -/
def wentThrough : (o : Op) → R o → Bool
  | .write _ _, some (true, _) => true
  | _, _ => false

/-- An operation of request `i`. -/
def patchExec (x : Ext) (i : ℕ) (_ : PatchRequest) (o : Op) (b : Bool) (s : PatchState) :
    Option (PatchState × R o) :=
  (World.exec x o b s.world).map fun r =>
    (⟨r.1, if wentThrough o r.2 then s.applied ++ [i] else s.applied⟩, r.2)

/-- The rest of the server: any change that does not write the session. -/
def patchEnv (uuid : String) (w : World) (s : PatchState) : Option PatchState :=
  if (w.cell (uploadSessionKey uuid) = s.world.cell (uploadSessionKey uuid) ∨
      w.cell (uploadSessionKey uuid) = none) ∧ s.world.drawn ≤ w.drawn then
    some { s with world := w }
  else none

/-- The response to a chunk. -/
abbrev PatchAnswer : Type := Except DepotError UploadResponse

/-- What a request knows: its chunk (the blob and its size), the session it has read last, whether
    its chunk has been added, and its answer. -/
structure PatchMemory where
  chunk : Option (BlobId × ℕ) := none
  seen : Option (UploadSessionRecord × ℕ) := none
  applied : Bool := false
  answer : Option PatchAnswer := none

/-- What a request learns from the read of a session. -/
def PatchMemory.noteRead (m : PatchMemory) : Option (Option (Versioned Value)) → PatchMemory
  | some (some ⟨version, .session s⟩) => { m with seen := some (s, version) }
  | _ => m

/-- What a request learns from a reply. -/
def PatchMemory.noteOp (bytes : ℕ) (m : PatchMemory) : (o : Op) → R o → PatchMemory
  | .uuid, id => { m with chunk := some (id, bytes) }
  | .read _, reply => m.noteRead reply
  | .write k c, reply => if wentThrough (.write k c) reply then { m with applied := true } else m
  | _, _ => m

/-- What a request remembers. -/
def PatchMemory.note (j : PatchRequest) (m : PatchMemory) :
    (o : AnswerOp Op PatchAnswer) → AnswerOp.Reply R o → PatchMemory
  | .op o, r => m.noteOp j.bytes o r
  | .answer a, _ => { m with answer := some a }

/-- The PATCH requests on session `uuid`. -/
abbrev patchRequests (x : Ext) (uuid : String) :
    System (AnswerOp Op PatchAnswer) (AnswerOp.Reply R) (PatchState × List (ℕ × PatchAnswer))
      PatchRequest World :=
  answering (patchExec x)
    (fun j => (doPatchUpload j.maxChunks j.repoName j.effectiveRepo j.image uuid j.body).run)
    (patchEnv uuid)

/-- The requests, with their memories. -/
abbrev patchSystem (x : Ext) (uuid : String) : System (AnswerOp Op PatchAnswer) (AnswerOp.Reply R)
      ((PatchState × List (ℕ × PatchAnswer)) × (ℕ → PatchMemory)) PatchRequest World :=
  (patchRequests x uuid).withMemory PatchMemory.note

/-! ## What a request does -/

/-- The session with one more chunk. -/
def UploadSessionRecord.append (s : UploadSessionRecord) (chunk : BlobId × ℕ) (now : DateTime) :
    UploadSessionRecord :=
  { s with
    size := s.size + chunk.2
    chunkBlobIds := s.chunkBlobIds ++ [chunk.1]
    updatedAt := now }

/-- What a request may ask for, given what it knows: it draws one identifier, reads the session,
    and puts what it has read with its chunk added, once. -/
def PatchMemory.May (uuid : String) (m : PatchMemory) : Op → Prop
  | .uuid => m.chunk = none
  | .read k => k = uploadSessionKey uuid
  | .write k c => m.applied = false ∧ ∃ chunk s version now, m.chunk = some chunk ∧
      m.seen = some (s, version) ∧ k = uploadSessionKey s.uuid ∧
        c = .putIf (.session (s.append chunk now)) (some version)
  | .now | .store _ | .blob _ _ => True
  | _ => False

/-- Nothing is asked for after the answer; it is a success exactly when the chunk was added. -/
def PatchMemory.Allowed (uuid : String) (m : PatchMemory) : AnswerOp Op PatchAnswer → Prop
  | .op o => m.answer = none ∧ m.May uuid o
  | .answer a => m.answer = none ∧ (m.applied = true ↔ ∃ r, a = .ok r)

section

variable {uuid : String} {m : PatchMemory} {bytes : ℕ}

@[simp] theorem noteRead_chunk (reply : Option (Option (Versioned Value))) :
    (m.noteRead reply).chunk = m.chunk := by
  unfold PatchMemory.noteRead
  split <;> rfl

@[simp] theorem noteOp_read (k : Key) (reply : R (.read k)) :
    m.noteOp bytes (.read k) reply = m.noteRead reply := rfl

@[simp] theorem noteOp_write (k : Key) (c : CellOp Value) (reply : R (.write k c)) :
    m.noteOp bytes (.write k c) reply =
      if wentThrough (.write k c) reply then { m with applied := true } else m := rfl

/-- What a function of a request keeps and leaves known, in the memory of the request. -/
abbrev PatchFollows (uuid : String) (bytes : ℕ) {α : Type} (F : PatchMemory → Prop) (p : Async α)
    (Q : α → PatchMemory → Prop) (err : PatchMemory → Prop) : Prop :=
  Follows (fun m o => m.answer = none ∧ m.May uuid o) (PatchMemory.noteOp bytes) F p Q err

/-- The chunk has not been added yet, and there is no answer. -/
structure PatchMemory.Open (m : PatchMemory) : Prop where
  applied : m.applied = false
  answer : m.answer = none

/-- An operation that is neither about identifiers nor about the key-value store. -/
def Elsewhere : Op → Prop
  | .now | .store _ | .blob _ _ => True
  | _ => False

theorem Elsewhere.keeps {o : Op} (h : Elsewhere o) (m : PatchMemory) :
    m.May uuid o ∧ ∀ r, m.noteOp bytes o r = m := by
  cases o with
  | now => exact ⟨trivial, fun _ => rfl⟩
  | store name => exact ⟨trivial, fun _ => rfl⟩
  | blob store o => exact ⟨trivial, fun _ => rfl⟩
  | _ => exact h.elim

/-- A function that neither draws identifiers nor touches the key-value store. -/
theorem follows_of_elsewhere {α : Type} {p : Async α} {F : PatchMemory → Prop}
    (hF : ∀ m, F m → m.Open) (hp : Uses Elsewhere p) :
    PatchFollows uuid bytes F p (fun _ => F) F := by
  refine .of_uses (fun m o hm ho => ?_) hp
  obtain ⟨hmay, hnote⟩ : m.May uuid o ∧ ∀ r, m.noteOp bytes o r = m := ho.keeps m
  exact ⟨⟨(hF m hm).answer, hmay⟩, hnote⟩

/-- The body of a request, written to its chunk. -/
theorem writeBody_follows {F : PatchMemory → Prop} (hF : ∀ m, F m → m.Open) (store : String)
    (chunkId : BlobId) (inode : ℕ) (body : List Bytes) (data : Bytes) : PatchFollows uuid bytes F
      (writeBody bodyError (abortWriter store chunkId) store chunkId inode body data)
      (fun written m => F m ∧ written = data ++ body.flatten) F := by
  induction body generalizing data with
  | nil => exact .pure fun m hm => ⟨hm, by rw [flatten_nil, append_nil]⟩
  | cons chunk body ih =>
    have hwrite : Uses Elsewhere (do
        Fallible.check bodyError
        if chunk = [] then pure ()
        else writeChunk store chunkId inode data.length chunk : Async Unit) := by
      refine (Fallible.uses_check _).bind fun _ => ?_
      split_ifs
      · exact uses_pure _
      · exact uses_attempt trivial
    have habort : Uses Elsewhere (abortWriter store chunkId) :=
      Uses.ignore (uses_attempt trivial)
    refine Follows.bind (follows_of_elsewhere hF hwrite.capture) fun result => ?_
    cases result with
    | ok u =>
      refine (ih (data ++ chunk)).weaken (fun _ hm => hm) (fun written m hm => ?_) fun _ hm => hm
      rw [flatten_cons, ← append_assoc]
      exact hm
    | error e =>
      exact Follows.bind (follows_of_elsewhere hF habort) fun _ => .throw fun m hm => hm

def PatchMemory.Read (chunk : Option (BlobId × ℕ)) (s : UploadSessionRecord × ℕ)
    (m : PatchMemory) : Prop := m.Open ∧ m.chunk = chunk ∧ m.seen = some s

theorem getUploadSessionVersioned_follows (chunk : Option (BlobId × ℕ)) :
    PatchFollows uuid bytes (fun m => m.Open ∧ m.chunk = chunk) (getUploadSessionVersioned uuid)
      (fun s m => m.Open ∧ ∀ s', s = some s' → m.Read chunk s') PatchMemory.Open := by
  have hopen : ∀ (m : PatchMemory) (reply : Option (Option (Versioned Value))), m.Open →
      (m.noteRead reply).Open := by
    intro m reply hm
    unfold PatchMemory.noteRead
    split
    · exact ⟨hm.applied, hm.answer⟩
    · exact hm
  refine Follows.bind (K := fun cell m => m.Open ∧ ∀ c s, cell = some c →
    c.value = .session s → m.Read chunk (s, c.version)) ?_ fun cell => ?_
  · refine Follows.attempt (fun m hm => ⟨hm.1.answer, rfl⟩) ?_ ?_
    · intro m reply cell hm hreply
      obtain rfl : reply = some cell := hreply
      refine ⟨hopen m _ hm.1, ?_⟩
      rintro ⟨version, value⟩ s rfl hs
      obtain rfl : value = .session s := hs
      exact ⟨⟨hm.1.applied, hm.1.answer⟩, hm.2, rfl⟩
    · exact fun m reply hm _ => hopen m _ hm.1
  · cases cell with
    | none => exact .pure fun m hm => ⟨hm.1, fun s' hs' => nomatch hs'⟩
    | some c =>
      cases hdec : c.value.session? with
      | none =>
        refine Follows.bind (K := fun _ _ => False) ?_ fun s => .pure fun m hm => hm.elim
        unfold decode
        rw [hdec]
        exact .throw fun m hm => hm.1
      | some s =>
        refine Follows.bind (K := fun s' m => s' = s ∧ m.Read chunk (s, c.version)) ?_
          fun s' => .pure fun m hm => ⟨hm.2.1, fun s'' hs'' => ?_⟩
        · unfold decode
          rw [hdec]
          exact .pure fun m hm => ⟨rfl, hm.2 c s rfl (Value.session?_eq_some.mp hdec)⟩
        · obtain rfl := some.inj hs''
          obtain ⟨rfl, hread⟩ := hm
          exact hread

/-- What a request has done when it ends with a success. -/
structure PatchMemory.Added (m : PatchMemory) : Prop where
  applied : m.applied = true
  answer : m.answer = none

/-- The attempts to add a chunk. -/
theorem patchAttempts_follows (maxChunks : ℕ) (chunk : BlobId × ℕ) (attempts : ℕ)
    (s : UploadSessionRecord × ℕ) : PatchFollows uuid bytes (PatchMemory.Read (some chunk) s)
      (patchAttempts maxChunks uuid chunk.1 chunk.2 attempts s) (fun _ => PatchMemory.Added)
      PatchMemory.Open := by
  induction attempts generalizing s with
  | zero => exact .throw fun m hm => hm.1
  | succ attempts ih =>
    obtain ⟨session, version⟩ := s
    rw [patchAttempts]
    by_cases hmax : maxChunks ≤ session.chunkBlobIds.length
    · rw [if_pos hmax]
      exact .throw fun m hm => hm.1
    rw [if_neg hmax]
    have hnow : PatchFollows uuid bytes (PatchMemory.Read (some chunk) (session, version)) utcNow
        (fun _ => PatchMemory.Read (some chunk) (session, version)) PatchMemory.Open :=
      .issue (fun m hm => ⟨hm.1.answer, trivial⟩) fun m r hm => hm
    refine hnow.bind fun now => ?_
    refine Follows.bind (K := fun written m => (written = true → m.Added) ∧
      (written = false → m.Read (some chunk) (session, version))) ?_ fun written => ?_
    · refine Follows.attempt ?_ ?_ ?_
      · intro m hm
        exact ⟨hm.1.answer, hm.1.applied, chunk, session, version, now, hm.2.1, hm.2.2, rfl, rfl⟩
      · intro m reply written hm hreply
        rw [noteOp_write]
        cases reply with
        | none => cases hreply
        | some r =>
          obtain ⟨through, old⟩ := r
          obtain rfl : through = written := some.inj hreply
          cases through with
          | true =>
            refine ⟨fun _ => ⟨rfl, hm.1.answer⟩, ?_⟩
            intro h
            cases h
          | false =>
            refine ⟨?_, fun _ => hm⟩
            intro h
            cases h
      · intro m reply hm hreply
        cases reply with
        | none => exact hm.1
        | some r => cases hreply
    · cases written with
      | true => exact .pure fun m hm => hm.1 rfl
      | false =>
        by_cases hlast : attempts = 0
        · rw [if_neg (by decide), if_pos hlast]
          exact .throw fun m hm => (hm.2 rfl).1
        · rw [if_neg (by decide), if_neg hlast]
          have hread : PatchFollows uuid bytes (fun m => (false = true → m.Added) ∧
              (false = false → m.Read (some chunk) (session, version)))
              (getUploadSessionVersioned uuid)
              (fun s m => m.Open ∧ ∀ s', s = some s' → m.Read (some chunk) s')
              PatchMemory.Open :=
            (getUploadSessionVersioned_follows (some chunk)).weaken
              (fun m hm => ⟨(hm.2 rfl).1, (hm.2 rfl).2.1⟩) (fun _ _ hm => hm) fun _ hm => hm
          refine hread.bind fun next => ?_
          cases next with
          | none => exact .throw fun m hm => hm.1
          | some next =>
            exact (ih next).weaken (fun m hm => hm.2 next rfl) (fun _ _ hm => hm) fun _ hm => hm

/-- **Requests.** A PATCH draws one identifier for its chunk and puts a session it has read with the
    chunk added; it ends with a success exactly when such a write went through. -/
theorem doPatchUpload_follows (j : PatchRequest) : PatchFollows uuid j.bytes (fun m => m = {})
      (doPatchUpload j.maxChunks j.repoName j.effectiveRepo j.image uuid j.body)
      (fun _ => PatchMemory.Added) PatchMemory.Open := by
  have hread : PatchFollows uuid j.bytes (fun m => m = {}) (getUploadSessionVersioned uuid)
      (fun s m => m.Open ∧ ∀ s', s = some s' → m.Read none s') PatchMemory.Open :=
    (getUploadSessionVersioned_follows none).weaken
      (fun m hm => by rw [hm]; exact ⟨⟨rfl, rfl⟩, rfl⟩) (fun _ _ hm => hm) fun _ hm => hm
  refine hread.bind fun s => ?_
  cases s with
  | none => exact .throw fun m hm => hm.1
  | some s =>
    obtain ⟨session, version⟩ := s
    show PatchFollows uuid j.bytes _ (if sessionMatches j.repoName j.effectiveRepo j.image session =
      false then throw uploadNotFound else _) _ _
    by_cases hmatch : sessionMatches j.repoName j.effectiveRepo j.image session = false
    · rw [if_pos hmatch]
      exact .throw fun m hm => hm.1
    rw [if_neg hmatch]
    have hstart : ∀ m : PatchMemory, (m.Open ∧ ∀ s', some (session, version) = some s' →
        m.Read none s') → m.Read none (session, version) := fun m hm => hm.2 _ rfl
    have hstore : Uses Elsewhere (resolveBlobStore session.store) := by
      refine (Fallible.uses_issue (show Elsewhere (.store session.store) from trivial)).bind
        fun found => ?_
      cases found with
      | true => exact uses_pure _
      | false => exact Fallible.uses_throw _
    have hopen : ∀ (chunk : Option (BlobId × ℕ)) (m : PatchMemory),
        m.Read chunk (session, version) → m.Open := fun _ m hm => hm.1
    have hresolve : PatchFollows uuid j.bytes (PatchMemory.Read none (session, version))
        (resolveBlobStore session.store) (fun _ => PatchMemory.Read none (session, version))
        PatchMemory.Open :=
      (follows_of_elsewhere (hopen none) hstore).weaken (fun _ hm => hm) (fun _ _ hm => hm)
        (hopen none)
    refine (hresolve.weaken hstart (fun _ _ hm => hm) fun _ hm => hm).bind fun _ => ?_
    refine Follows.bind (K := fun chunkId =>
      PatchMemory.Read (some (chunkId, j.bytes)) (session, version)) ?_ fun chunkId => ?_
    · exact .issue (fun m hm => ⟨hm.1.answer, hm.2.1⟩) fun m r hm =>
        ⟨⟨hm.1.applied, hm.1.answer⟩, rfl, hm.2.2⟩
    have hchunk := hopen (some (chunkId, j.bytes))
    refine Follows.bind (K := fun _ =>
      PatchMemory.Read (some (chunkId, j.bytes)) (session, version)) ?_ fun inode => ?_
    · have hwriter : Uses Elsewhere (createWriter session.store chunkId) :=
        uses_attempt trivial
      exact (follows_of_elsewhere hchunk hwriter).weaken (fun _ hm => hm) (fun _ _ hm => hm) hchunk
    refine ((writeBody_follows hchunk session.store chunkId inode j.body []).weaken
      (fun _ hm => hm) (fun _ _ hm => hm) hchunk).bind fun data => ?_
    refine Follows.bind (K := fun _ m =>
      m.Read (some (chunkId, j.bytes)) (session, version) ∧ data = [] ++ j.body.flatten)
      (.check (fun m hm => hm) fun m hm => hchunk m hm.1) fun _ => ?_
    intro m hm
    obtain ⟨hm, rfl⟩ := hm
    have hattempts := (patchAttempts_follows j.maxChunks (chunkId, j.bytes) 3
      (session, version)).bind fun size => (.pure fun m hm => hm :
        PatchFollows uuid j.bytes PatchMemory.Added (pure (UploadResponse.accepted uuid size))
          (fun _ => PatchMemory.Added) PatchMemory.Open)
    exact hattempts m hm

end

/-! ## The invariant -/

/-- The chunks that have been added, in the order of the writes. -/
def PatchState.chunks (s : PatchState) (ms : ℕ → PatchMemory) : List (BlobId × ℕ) :=
  s.applied.filterMap fun i => (ms i).chunk

section

variable (x : Ext) (uuid : String) (w0 : World) (s0 : UploadSessionRecord)

/-- Request `i` remembers what has happened. -/
structure PatchMemory.Accurate (s : PatchState) (i : ℕ) (m : PatchMemory) : Prop where
  applied : i ∈ s.applied ↔ m.applied = true
  chunk : m.applied = true → m.chunk ≠ none
  drawn : ∀ c, m.chunk = some c → ∃ n, w0.drawn ≤ n ∧ n < s.world.drawn ∧ x.uuid n = c.1
  seen : ∀ r version, m.seen = some (r, version) → r.uuid = uuid ∧
    ∀ c, s.world.cell (uploadSessionKey uuid) = some c → version ≤ c.version ∧
      (c.version = version → c.value = .session r)
  answer : ∀ a, m.answer = some a → (m.applied = true ↔ ∃ r, a = .ok r)

/-- The session, as long as it is there, is the first one with the chunks that have been added. -/
structure PatchInv (s : PatchState) (log : List (ℕ × PatchAnswer)) (ms : ℕ → PatchMemory) :
    Prop where
  memory : ∀ i, (ms i).Accurate x uuid w0 s i
  distinct : ∀ i k c d, (ms i).chunk = some c → (ms k).chunk = some d → c.1 = d.1 → i = k
  nodup : s.applied.Nodup
  drawn : w0.drawn ≤ s.world.drawn
  log : ∀ e ∈ log, (ms e.1).answer = some e.2
  session : ∀ c, s.world.cell (uploadSessionKey uuid) = some c → ∃ r, c.value = .session r ∧
    r.uuid = uuid ∧ r.chunkBlobIds = s0.chunkBlobIds ++ (s.chunks ms).map Prod.fst ∧
      r.size = s0.size + ((s.chunks ms).map Prod.snd).sum

end

section

variable {x : Ext} {uuid : String} {w0 : World} {s0 : UploadSessionRecord} {s s' : PatchState}
variable {log : List (ℕ × PatchAnswer)} {ms : ℕ → PatchMemory} {i : ℕ} {m : PatchMemory}

theorem PatchMemory.Accurate.quiet (h : m.Accurate x uuid w0 s i) (happlied : s'.applied = s.applied)
    (hcell : s'.world.cell (uploadSessionKey uuid) = s.world.cell (uploadSessionKey uuid) ∨
      s'.world.cell (uploadSessionKey uuid) = none) (hdrawn : s.world.drawn ≤ s'.world.drawn) :
    m.Accurate x uuid w0 s' i where
  applied := by rw [happlied]; exact h.applied
  chunk := h.chunk
  drawn c hc := by
    obtain ⟨n, hle, hlt, hn⟩ := h.drawn c hc
    exact ⟨n, hle, hlt.trans_le hdrawn, hn⟩
  seen r version hr := by
    obtain ⟨huuid, hseen⟩ := h.seen r version hr
    refine ⟨huuid, fun c hc => ?_⟩
    rcases hcell with heq | hnone
    · exact hseen c (heq ▸ hc)
    · rw [hnone] at hc
      cases hc
  answer := h.answer

/-- A step that leaves the session as it is, or takes it away. -/
theorem PatchInv.quiet (h : PatchInv x uuid w0 s0 s log ms) (happlied : s'.applied = s.applied)
    (hcell : s'.world.cell (uploadSessionKey uuid) = s.world.cell (uploadSessionKey uuid) ∨
      s'.world.cell (uploadSessionKey uuid) = none) (hdrawn : s.world.drawn ≤ s'.world.drawn) :
    PatchInv x uuid w0 s0 s' log ms where
  memory i := (h.memory i).quiet happlied hcell hdrawn
  distinct := h.distinct
  nodup := by rw [happlied]; exact h.nodup
  drawn := h.drawn.trans hdrawn
  log := h.log
  session c hc := by
    unfold PatchState.chunks
    rw [happlied]
    rcases hcell with heq | hnone
    · exact h.session c (heq ▸ hc)
    · rw [hnone] at hc
      cases hc

/-- The chunks of others are what they were. -/
theorem PatchState.chunks_update (h : i ∈ s.applied → m.chunk = (ms i).chunk) :
    s.chunks (update ms i m) = s.chunks ms := by
  unfold PatchState.chunks
  refine filterMap_congr fun k hk => ?_
  by_cases hki : k = i
  · subst hki
    rw [update_self]
    exact h hk
  · rw [update_of_ne hki]

/-- A request learns something that does not change its chunk. -/
theorem PatchInv.learn (h : PatchInv x uuid w0 s0 s log ms) (hchunk : m.chunk = (ms i).chunk)
    (hm : m.Accurate x uuid w0 s i) (hlog : ∀ e ∈ log, e.1 = i → m.answer = some e.2) :
    PatchInv x uuid w0 s0 s log (update ms i m) where
  memory := (forall_update_iff ms fun k m => m.Accurate x uuid w0 s k).mpr
    ⟨hm, fun k _ => h.memory k⟩
  distinct k l c d hc hd := by
    have hsame : ∀ k, (update ms i m k).chunk = (ms k).chunk :=
      (forall_update_iff ms fun k m => m.chunk = (ms k).chunk).mpr
        ⟨hchunk, fun _ _ => rfl⟩
    rw [hsame] at hc hd
    exact h.distinct k l c d hc hd
  nodup := h.nodup
  drawn := h.drawn
  log e he := by
    by_cases hei : e.1 = i
    · rw [hei, update_self]
      exact hlog e he hei
    · rw [update_of_ne hei]
      exact h.log e he
  session := by
    rw [PatchState.chunks_update fun _ => hchunk]
    exact h.session

/-- A request draws the identifier of its chunk. -/
theorem PatchInv.draw (h : PatchInv x uuid w0 s0 s log ms) (hnone : (ms i).chunk = none)
    (bytes : ℕ) :
    PatchInv x uuid w0 s0 { s with world := { s.world with drawn := s.world.drawn + 1 } } log
      (update ms i { ms i with chunk := some (x.uuid s.world.drawn, bytes) }) := by
  have hq : PatchInv x uuid w0 s0 { s with world := { s.world with drawn := s.world.drawn + 1 } }
      log ms := h.quiet rfl (.inl rfl) (Nat.le_succ _)
  have hnotin : i ∉ s.applied := fun hi =>
    (h.memory i).chunk ((h.memory i).applied.mp hi) hnone
  have hnew : ∀ k c, (ms k).chunk = some c → c.1 ≠ x.uuid s.world.drawn := by
    intro k c hc heq
    obtain ⟨n, -, hlt, hn⟩ := (h.memory k).drawn c hc
    have hdrawn := x.uuid_inj (hn.trans heq)
    omega
  refine ⟨?_, ?_, hq.nodup, hq.drawn, fun e he => ?_, ?_⟩
  · refine (forall_update_iff ms fun k m => m.Accurate x uuid w0 _ k).mpr
      ⟨?_, fun k _ => hq.memory k⟩
    have hi := hq.memory i
    refine ⟨hi.applied, fun _ => ?_, fun c hc => ?_, hi.seen, hi.answer⟩
    · intro hc
      cases hc
    · obtain rfl := some.inj hc
      exact ⟨s.world.drawn, h.drawn, Nat.lt_succ_self _, rfl⟩
  · intro k l c d hc hd hcd
    by_cases hk : k = i <;> by_cases hl : l = i
    · rw [hk, hl]
    · rw [hk, update_self] at hc
      rw [update_of_ne hl] at hd
      obtain rfl := some.inj hc
      exact absurd hcd.symm (hnew l d hd)
    · rw [hl, update_self] at hd
      rw [update_of_ne hk] at hc
      obtain rfl := some.inj hd
      exact absurd hcd (hnew k c hc)
    · rw [update_of_ne hk] at hc
      rw [update_of_ne hl] at hd
      exact h.distinct k l c d hc hd hcd
  · have hlog := h.log e he
    by_cases hei : e.1 = i
    · rw [hei, update_self]
      rwa [hei] at hlog
    · rwa [update_of_ne hei]
  · have hchunks : PatchState.chunks
        { s with world := { s.world with drawn := s.world.drawn + 1 } }
        (update ms i { ms i with chunk := some (x.uuid s.world.drawn, bytes) }) =
          PatchState.chunks { s with world := { s.world with drawn := s.world.drawn + 1 } } ms :=
      PatchState.chunks_update fun hi => absurd hi hnotin
    rw [hchunks]
    exact hq.session

variable {chunk : BlobId × ℕ}

variable (h : PatchInv x uuid w0 s0 s log ms)

include h

/-- **The write.** A request adds its chunk to the session it has read. -/
theorem PatchInv.add (happlied : (ms i).applied = false)
    (hanswer : (ms i).answer = none) {r : UploadSessionRecord} {version : ℕ}
    {c : Versioned Value} (now : DateTime) (hchunk : (ms i).chunk = some chunk)
    (hseen : (ms i).seen = some (r, version))
    (hcell : s.world.cell (uploadSessionKey uuid) = some c) (hversion : c.version = version) :
    PatchInv x uuid w0 s0
      ⟨s.world.setCell (uploadSessionKey uuid)
        (some ⟨version + 1, .session (r.append chunk now)⟩), s.applied ++ [i]⟩ log
      (update ms i { ms i with applied := true }) := by
  have hnotin : i ∉ s.applied := fun hi => by
    rw [(h.memory i).applied.mp hi] at happlied
    cases happlied
  obtain ⟨huuid, hread⟩ := (h.memory i).seen r version hseen
  have hvalue := (hread c hcell).2 hversion
  have hsame : ∀ k, (update ms i { ms i with applied := true } k).chunk = (ms k).chunk :=
    (forall_update_iff ms fun k m => m.chunk = (ms k).chunk).mpr ⟨rfl, fun _ _ => rfl⟩
  have hchunks : PatchState.chunks ⟨s.world.setCell (uploadSessionKey uuid)
      (some ⟨version + 1, .session (r.append chunk now)⟩), s.applied ++ [i]⟩
        (update ms i { ms i with applied := true }) = s.chunks ms ++ [chunk] := by
    have hfun : (fun k => (update ms i { ms i with applied := true } k).chunk) =
        fun k => (ms k).chunk := funext hsame
    unfold PatchState.chunks
    rw [hfun]
    simp [hchunk]
  have hmem : ∀ k, k ≠ i → (k ∈ s.applied ++ [i] ↔ k ∈ s.applied) := fun k hk => by simp [hk]
  have hseen' : ∀ k r' version', (ms k).seen = some (r', version') → r'.uuid = uuid ∧
      ∀ c', (s.world.setCell (uploadSessionKey uuid)
        (some ⟨version + 1, .session (r.append chunk now)⟩)).cell (uploadSessionKey uuid) =
          some c' → version' ≤ c'.version ∧ (c'.version = version' → c'.value = .session r') := by
    intro k r' version' hr'
    obtain ⟨huuid', hread'⟩ := (h.memory k).seen r' version' hr'
    refine ⟨huuid', fun c' hc' => ?_⟩
    rw [World.cell_setCell_self] at hc'
    obtain rfl := some.inj hc'
    have hle := (hread' c hcell).1
    refine ⟨by dsimp only; omega, fun heq => ?_⟩
    dsimp only at heq
    omega
  refine ⟨?_, ?_, ?_, h.drawn, fun e he => ?_, ?_⟩
  · refine (forall_update_iff ms fun k m => m.Accurate x uuid w0 _ k).mpr ⟨?_, fun k hk => ?_⟩
    · have hi := h.memory i
      refine ⟨by simp, fun _ => ?_, hi.drawn, hseen' i, fun a ha => ?_⟩
      · rw [hchunk]
        intro hnone
        cases hnone
      · rw [hanswer] at ha
        cases ha
    · have hk' := h.memory k
      exact ⟨(hmem k hk).trans hk'.applied, hk'.chunk, hk'.drawn, hseen' k, hk'.answer⟩
  · intro k l c d hc hd
    rw [hsame] at hc hd
    exact h.distinct k l c d hc hd
  · refine nodup_append.mpr ⟨h.nodup, by simp, fun k hk l hl => ?_⟩
    rw [mem_singleton.mp hl]
    rintro rfl
    exact hnotin hk
  · have hlog := h.log e he
    by_cases hei : e.1 = i
    · rw [hei, hanswer] at hlog
      cases hlog
    · rwa [update_of_ne hei]
  · intro c' hc'
    rw [World.cell_setCell_self] at hc'
    obtain rfl := some.inj hc'
    obtain ⟨r', hr', -, hids, hsize⟩ := h.session c hcell
    obtain rfl := Value.session.inj (hvalue.symm.trans hr')
    refine ⟨_, rfl, huuid, ?_, ?_⟩
    · rw [hchunks]
      simp [UploadSessionRecord.append, hids]
    · rw [hchunks]
      simp [UploadSessionRecord.append, hsize, Nat.add_assoc]

/-- What a request learns is right: a read. -/
theorem PatchInv.read (hanswer : (ms i).answer = none) {reply : Option (Option (Versioned Value))}
    (hreply : reply = none ∨ reply = some (s.world.cell (uploadSessionKey uuid))) :
    PatchInv x uuid w0 s0 s log (update ms i ((ms i).noteRead reply)) := by
  have hsame : (ms i).noteRead none = ms i := rfl
  rcases hreply with rfl | rfl
  · rw [hsame, update_eq_self]
    exact h
  cases hcell : s.world.cell (uploadSessionKey uuid) with
  | none =>
    show PatchInv x uuid w0 s0 s log (update ms i (ms i))
    rw [update_eq_self]
    exact h
  | some c =>
    obtain ⟨r, hr, huuid, -⟩ := h.session c hcell
    obtain ⟨version, value⟩ := c
    obtain rfl : value = .session r := hr
    have hi := h.memory i
    refine h.learn rfl ⟨hi.applied, hi.chunk, hi.drawn, fun r' version' hr' => ?_, hi.answer⟩ ?_
    · obtain ⟨rfl, rfl⟩ := some_mk_inj hr'
      refine ⟨huuid, fun c' hc' => ?_⟩
      rw [hcell] at hc'
      obtain rfl := some.inj hc'
      exact ⟨le_rfl, fun _ => rfl⟩
    · intro e he hei
      have := h.log e he
      rw [hei, hanswer] at this
      cases this

/-- **Steps.** An operation of a request that keeps to its program preserves the invariant. -/
theorem PatchInv.step (j : PatchRequest) {o : Op} {b : Bool}
    {r : R o} (hA : (ms i).answer = none ∧ (ms i).May uuid o)
    (hx : patchExec x i j o b s = some (s', r)) :
    PatchInv x uuid w0 s0 s' log (update ms i ((ms i).noteOp j.bytes o r)) := by
  obtain ⟨hanswer, hmay⟩ := hA
  obtain ⟨⟨w', r'⟩, hexec, heq⟩ := map_eq_some_iff.mp hx
  obtain ⟨rfl, rfl⟩ := Prod.mk.inj heq
  have hquiet : ∀ w' : World, w'.kv = s.world.kv → s.world.drawn ≤ w'.drawn →
      PatchInv x uuid w0 s0 ⟨w', s.applied⟩ log (update ms i (ms i)) := by
    intro w' hkv hdrawn
    rw [update_eq_self]
    refine h.quiet rfl (.inl ?_) hdrawn
    unfold World.cell
    rw [hkv]
  cases o with
  | uuid =>
    obtain ⟨rfl, rfl⟩ := some_mk_inj hexec
    exact h.draw hmay j.bytes
  | read k =>
    obtain ⟨rfl, rfl⟩ := some_mk_inj hexec
    obtain rfl : k = uploadSessionKey uuid := hmay
    refine h.read hanswer ?_
    cases b with
    | true => exact .inr rfl
    | false => exact .inl rfl
  | write k c =>
    obtain ⟨happlied, chunk, r, version, now, hchunk, hseen, rfl, rfl⟩ := hmay
    obtain ⟨huuid, -⟩ := (h.memory i).seen r version hseen
    rw [huuid] at hexec
    cases b with
    | false =>
      obtain ⟨rfl, rfl⟩ := some_mk_inj hexec
      exact hquiet s.world rfl le_rfl
    | true =>
      obtain ⟨rfl, rfl⟩ := some_mk_inj hexec
      cases hen : (CellOp.putIf (Value.session (r.append chunk now)) (some version)).enabled
          (s.world.cell (uploadSessionKey uuid)) with
      | false =>
        have hsame : (s.world.setCell (uploadSessionKey uuid)
            (s.world.cell (uploadSessionKey uuid))).cell (uploadSessionKey uuid) =
              s.world.cell (uploadSessionKey uuid) := World.cell_setCell_self _ _
        have hdo : (CellOp.putIf (Value.session (r.append chunk now)) (some version)).apply
            (s.world.cell (uploadSessionKey uuid)) = s.world.cell (uploadSessionKey uuid) := by
          unfold CellOp.apply
          rw [if_neg (by rw [hen]; decide)]
        rw [noteOp_write, hdo]
        show PatchInv x uuid w0 s0 ⟨_, s.applied⟩ log (update ms i (ms i))
        rw [update_eq_self]
        exact h.quiet rfl (.inl hsame) le_rfl
      | true =>
        cases hcell : s.world.cell (uploadSessionKey uuid) with
        | none =>
          rw [hcell] at hen
          cases hen
        | some c =>
          have hversion : c.version = version := by
            rw [hcell] at hen
            exact of_decide_eq_true hen
          have hdo : (CellOp.putIf (Value.session (r.append chunk now)) (some version)).apply
              (s.world.cell (uploadSessionKey uuid)) =
                some ⟨version + 1, .session (r.append chunk now)⟩ := by
            unfold CellOp.apply
            rw [if_pos hen]
            rfl
          have hadd := h.add happlied hanswer now hchunk hseen hcell hversion
          rw [noteOp_write, ← hcell, hdo]
          exact hadd
  | now =>
    obtain ⟨rfl, rfl⟩ := some_mk_inj hexec
    exact hquiet s.world rfl le_rfl
  | store name =>
    obtain ⟨rfl, rfl⟩ := some_mk_inj hexec
    exact hquiet s.world rfl le_rfl
  | blob store o =>
    cases b with
    | false =>
      obtain ⟨rfl, rfl⟩ := some_mk_inj hexec
      exact hquiet s.world rfl le_rfl
    | true =>
      obtain ⟨rfl, rfl⟩ := some_mk_inj hexec
      obtain ⟨hkv, hdrawn, -⟩ := execBlob_frame (x := x) s.world store o
      exact hquiet _ hkv hdrawn
  | _ => exact hmay.elim

theorem PatchInv.answered {a : PatchAnswer}
    (hanswer : (ms i).answer = none) (ha : (ms i).applied = true ↔ ∃ r, a = .ok r) :
    PatchInv x uuid w0 s0 s (log ++ [(i, a)]) (update ms i { ms i with answer := some a }) := by
  have hi := h.memory i
  have hlearn : PatchInv x uuid w0 s0 s log
      (update ms i { ms i with answer := some a }) := by
    refine h.learn rfl ⟨hi.applied, hi.chunk, hi.drawn, hi.seen, fun a' ha' => ?_⟩ ?_
    · obtain rfl := some.inj ha'
      exact ha
    · intro e he hei
      have hlog := h.log e he
      rw [hei, hanswer] at hlog
      cases hlog
  refine ⟨hlearn.memory, hlearn.distinct, hlearn.nodup, hlearn.drawn, fun e he => ?_,
    hlearn.session⟩
  rcases mem_append.mp he with he | he
  · exact hlearn.log e he
  · rw [mem_singleton.mp he, update_self]

/-- The identifier of a chunk is new. -/
theorem PatchInv.notMem_old (hold : ∀ c ∈ s0.chunkBlobIds, ∃ n < w0.drawn, x.uuid n = c)
    (hchunk : (ms i).chunk = some chunk) : chunk.1 ∉ s0.chunkBlobIds := by
  intro hmem
  obtain ⟨n, hn, hnc⟩ := hold _ hmem
  obtain ⟨k, hk, -, hkc⟩ := (h.memory i).drawn chunk hchunk
  have := x.uuid_inj (hnc.trans hkc.symm)
  omega

theorem PatchInv.nodup_chunks : ((s.chunks ms).map Prod.fst).Nodup := by
  have hmap : (s.chunks ms).map Prod.fst =
      s.applied.filterMap fun i => (ms i).chunk.map Prod.fst := by
    unfold PatchState.chunks
    rw [map_filterMap]
  rw [hmap]
  refine h.nodup.filterMap fun i k id hi hk => ?_
  obtain ⟨c, hc, rfl⟩ := map_eq_some_iff.mp hi
  obtain ⟨d, hd, hdc⟩ := map_eq_some_iff.mp hk
  exact h.distinct i k c d hc hd hdc.symm

/-- A chunk that has been added is in the session once. -/
theorem PatchInv.count_eq_one (hold : ∀ c ∈ s0.chunkBlobIds, ∃ n < w0.drawn, x.uuid n = c)
    (hchunk : (ms i).chunk = some chunk) (happlied : (ms i).applied = true) :
    (s0.chunkBlobIds ++ (s.chunks ms).map Prod.fst).count chunk.1 = 1 := by
  have hnew := h.notMem_old hold hchunk
  have hmem : chunk.1 ∈ (s.chunks ms).map Prod.fst :=
    mem_map.mpr ⟨chunk, mem_filterMap.mpr
      ⟨i, (h.memory i).applied.mpr happlied, hchunk⟩, rfl⟩
  rw [count_append, count_eq_zero_of_not_mem hnew, Nat.zero_add]
  exact count_eq_one_of_mem h.nodup_chunks hmem

/-- A chunk that has not been added is not in the session. -/
theorem PatchInv.notMem (hold : ∀ c ∈ s0.chunkBlobIds, ∃ n < w0.drawn, x.uuid n = c)
    (hchunk : (ms i).chunk = some chunk) (happlied : (ms i).applied = false) :
    chunk.1 ∉ s0.chunkBlobIds ++ (s.chunks ms).map Prod.fst := by
  intro hmem
  rcases mem_append.mp hmem with hmem | hmem
  · exact h.notMem_old hold hchunk hmem
  · obtain ⟨d, hd, hdc⟩ := mem_map.mp hmem
    obtain ⟨k, hk, hkd⟩ := mem_filterMap.mp hd
    obtain rfl := h.distinct k i d chunk hkd hchunk hdc
    rw [(h.memory k).applied.mp hk] at happlied
    cases happlied

end

/-! ## Later states -/

/-- What has been added stays where it is. -/
structure PatchState.Extends (s1 : PatchState) (ms1 : ℕ → PatchMemory) (s : PatchState)
    (ms : ℕ → PatchMemory) : Prop where
  applied : s1.applied <+: s.applied
  chunk : ∀ i ∈ s1.applied, (ms i).chunk = (ms1 i).chunk

section

variable {x : Ext} {uuid : String} {w0 : World} {s0 : UploadSessionRecord}
variable {s s' s1 : PatchState} {log : List (ℕ × PatchAnswer)} {ms ms1 : ℕ → PatchMemory} {i : ℕ}

theorem PatchState.Extends.chunks (h : s1.Extends ms1 s ms) : s1.chunks ms1 <+: s.chunks ms := by
  obtain ⟨rest, hrest⟩ := h.applied
  refine ⟨rest.filterMap fun i => (ms i).chunk, ?_⟩
  unfold PatchState.chunks
  rw [← hrest, filterMap_append]
  congr 1
  exact filterMap_congr fun i hi => (h.chunk i hi).symm

/-- A request that has added its chunk draws no identifier. -/
theorem PatchState.Extends.step (h : s1.Extends ms1 s ms) (hinv : PatchInv x uuid w0 s0 s log ms)
    (j : PatchRequest) {o : Op} {b : Bool} {r : R o} (hmay : (ms i).May uuid o)
    (hx : patchExec x i j o b s = some (s', r)) :
    s1.Extends ms1 s' (update ms i ((ms i).noteOp j.bytes o r)) := by
  obtain ⟨y, -, heq⟩ := map_eq_some_iff.mp hx
  obtain ⟨rfl, rfl⟩ := Prod.mk.inj heq
  constructor
  · refine h.applied.trans ?_
    dsimp only
    split_ifs
    · exact prefix_append _ _
    · exact prefix_rfl
  · intro k hk
    by_cases hki : k = i
    · subst hki
      rw [update_self, ← h.chunk k hk]
      have hsome := (hinv.memory k).chunk ((hinv.memory k).applied.mp (h.applied.subset hk))
      cases o with
      | uuid => exact absurd hmay hsome
      | read key =>
        rw [noteOp_read]
        exact noteRead_chunk _
      | write key c =>
        rw [noteOp_write]
        split_ifs <;> rfl
      | _ => rfl
    · rw [update_of_ne hki]
      exact h.chunk k hk

end

/-! ## Runs -/

section

variable {x : Ext} {uuid : String} {w0 : World} {s0 : UploadSessionRecord} {version : ℕ}

/-- The requests in a state. -/
abbrev PatchPool : Type :=
  Pool (AnswerOp Op PatchAnswer) (AnswerOp.Reply R)
    ((PatchState × List (ℕ × PatchAnswer)) × (ℕ → PatchMemory)) PatchRequest

/-- No request yet. -/
def PatchPool.init (w0 : World) : PatchPool := Pool.init ((⟨w0, []⟩, []), fun _ => {})

theorem patchCode_follows (j : PatchRequest) :
    ((patchRequests x uuid).code j).flatten.Follows (PatchMemory.Allowed uuid)
      (PatchMemory.note j) (fun _ _ => True) {} := by
  have hcode : Prog.Follows (fun m o => m.answer = none ∧ m.May uuid o)
      (PatchMemory.noteOp j.bytes) (fun (a : PatchAnswer) m => m.Allowed uuid (.answer a))
      (doPatchUpload j.maxChunks j.repoName j.effectiveRepo j.image uuid j.body).run.flatten {} := by
    refine (doPatchUpload_follows j {} rfl).mono fun a m ha => ?_
    cases a with
    | ok r => exact ⟨ha.answer, fun _ => ⟨r, rfl⟩, fun _ => ha.applied⟩
    | error e =>
      refine ⟨ha.answer, fun happlied => ?_, fun ⟨r, hr⟩ => nomatch hr⟩
      rw [ha.applied] at happlied
      cases happlied
  exact follows_answering (fun m o ho => ho) (fun m o r => rfl) (fun _ _ h => h)
    (fun _ _ => trivial) hcode

/-- The invariant of a run, and what the later states have of an earlier one. -/
theorem patchRun_shared {s1 : PatchState} {ms1 : ℕ → PatchMemory} {p p' : PatchPool}
    (hfollow : p.Following PatchMemory.note (fun _ => PatchMemory.Allowed uuid) (fun _ _ => True) {})
    (hinv : PatchInv x uuid w0 s0 p.shared.1.1 p.shared.1.2 p.shared.2)
    (hext : s1.Extends ms1 p.shared.1.1 p.shared.2)
    {es : List (Event PatchRequest World)} (hrun : p.run (patchSystem x uuid) .free es = some p') :
    PatchInv x uuid w0 s0 p'.shared.1.1 p'.shared.1.2 p'.shared.2 ∧
      s1.Extends ms1 p'.shared.1.1 p'.shared.2 := by
  refine hfollow.shared (P := fun s => PatchInv x uuid w0 s0 s.1.1 s.1.2 s.2 ∧
    s1.Extends ms1 s.1.1 s.2) (fun j => patchCode_follows j) ?_ (fun j s ms hP => hP) ?_
    ⟨hinv, hext⟩ hrun
  · intro i j o b s ms s' r hP hA _ hx
    obtain ⟨hP, hext⟩ := hP
    cases o with
    | op o =>
      obtain ⟨y, hy, heq⟩ := map_eq_some_iff.mp hx
      obtain ⟨rfl, rfl⟩ := Prod.mk.inj heq
      exact ⟨hP.step j hA hy, hext.step hP j hA.2 hy⟩
    | answer a =>
      obtain ⟨rfl, -⟩ := some_mk_inj hx
      refine ⟨hP.answered hA.1 hA.2, hext.applied, ?_⟩
      exact (forall_update_iff ms fun k m =>
        k ∈ s1.applied → m.chunk = (ms1 k).chunk).mpr ⟨hext.chunk i, fun k _ => hext.chunk k⟩
  · intro w s ms s' hP hs
    obtain ⟨t, ht, rfl⟩ := map_eq_some_iff.mp hs
    unfold patchEnv at ht
    split_ifs at ht with hw
    obtain rfl := some.inj ht
    exact ⟨hP.1.quiet rfl hw.1 hw.2, hP.2.applied, hP.2.chunk⟩

theorem patchInv_init (hcell : w0.cell (uploadSessionKey uuid) = some ⟨version, .session s0⟩)
    (huuid : s0.uuid = uuid) : PatchInv x uuid w0 s0 ⟨w0, []⟩ [] fun _ => {} where
  memory i := by
    refine ⟨by simp, ?_, ?_, ?_, ?_⟩
    · intro h
      cases h
    · intro c h
      cases h
    · intro r version h
      cases h
    · intro a h
      cases h
  distinct i k c d h := by cases h
  nodup := nodup_nil
  drawn := le_rfl
  log e he := by cases he
  session c hc := by
    rw [hcell] at hc
    obtain rfl := some.inj hc
    exact ⟨s0, rfl, huuid, by simp [PatchState.chunks], by simp [PatchState.chunks]⟩

end

/-- **Main theorem.** PATCH requests on a session, in any interleaving, any of them failing, while
the rest of the server may take the session away. As long as the session is there:
its chunks are those it had at first and those of the conditional writes that went through, in the
order of these writes; its size has grown by the sizes of these chunks; the chunk of every request
that was acknowledged with a success is in it exactly once, and that of a request that
failed is not in it. What is in it stays in its place, so a chunk that is acknowledged comes
before those that are added later. -/
theorem upload_session_accounted (x : Ext) (uuid : String) (w0 : World)
    {s0 : UploadSessionRecord} {version : ℕ}
    (hcell : w0.cell (uploadSessionKey uuid) = some ⟨version, .session s0⟩)
    (huuid : s0.uuid = uuid) (hold : ∀ c ∈ s0.chunkBlobIds, ∃ n < w0.drawn, x.uuid n = c)
    {es : List (Event PatchRequest World)} {p : PatchPool}
    (hrun : (PatchPool.init w0).run (patchSystem x uuid) .free es = some p) {c : Versioned Value}
    (hc : p.shared.1.1.world.cell (uploadSessionKey uuid) = some c) : ∃ r, c.value = .session r ∧
      r.chunkBlobIds = s0.chunkBlobIds ++ (p.shared.1.1.chunks p.shared.2).map Prod.fst ∧
      r.size = s0.size + ((p.shared.1.1.chunks p.shared.2).map Prod.snd).sum ∧
      (∀ i response, (i, .ok response) ∈ p.shared.1.2 → ∃ chunk,
        (p.shared.2 i).chunk = some chunk ∧ r.chunkBlobIds.count chunk.1 = 1) ∧
      (∀ i e chunk, (i, .error e) ∈ p.shared.1.2 → (p.shared.2 i).chunk = some chunk →
        chunk.1 ∉ r.chunkBlobIds) ∧
      ∀ es' p' c' r', p.run (patchSystem x uuid) .free es' = some p' →
        p'.shared.1.1.world.cell (uploadSessionKey uuid) = some c' → c'.value = .session r' →
          r.chunkBlobIds <+: r'.chunkBlobIds := by
  have hfollow0 : (PatchPool.init w0).Following PatchMemory.note
      (fun _ => PatchMemory.Allowed uuid) (fun _ _ => True) {} := Pool.following_init _
  have hfollow := hfollow0.run (fun j => patchCode_follows j) hrun
  obtain ⟨hinv, -⟩ := patchRun_shared hfollow0 (patchInv_init hcell huuid)
    ⟨prefix_rfl, fun _ _ => rfl⟩ hrun
  obtain ⟨r, hr, -, hids, hsize⟩ := hinv.session c hc
  refine ⟨r, hr, hids, hsize, ?_, ?_, ?_⟩
  · intro i response hi
    have happlied := ((hinv.memory i).answer _ (hinv.log _ hi)).mpr ⟨response, rfl⟩
    obtain ⟨chunk, hchunk⟩ := Option.ne_none_iff_exists'.mp ((hinv.memory i).chunk happlied)
    refine ⟨chunk, hchunk, ?_⟩
    rw [hids]
    exact hinv.count_eq_one hold hchunk happlied
  · intro i e chunk hi hchunk
    have happlied : (p.shared.2 i).applied = false := by
      have hiff := (hinv.memory i).answer _ (hinv.log _ hi)
      rw [Bool.eq_false_iff]
      intro htrue
      obtain ⟨response, hresponse⟩ := hiff.mp htrue
      cases hresponse
    rw [hids]
    exact hinv.notMem hold hchunk happlied
  · intro es' p' c' r' hrun' hc' hr'
    obtain ⟨hinv', hext⟩ := patchRun_shared hfollow hinv ⟨prefix_rfl, fun _ _ => rfl⟩ hrun'
    obtain ⟨r'', hr'', -, hids', -⟩ := hinv'.session c' hc'
    obtain rfl := Value.session.inj (hr'.symm.trans hr'')
    obtain ⟨rest, hrest⟩ := hext.chunks
    refine ⟨rest.map Prod.fst, ?_⟩
    rw [hids, hids', ← hrest, map_append, append_assoc]

/-! ## A race -/

/-- A session without chunks. -/
def emptySession : UploadSessionRecord where
  uuid := "u"
  repo := "r"
  image := none
  blobId := "b"
  store := "s"
  size := 0
  chunkBlobIds := []
  createdAt := 0
  updatedAt := 0

def sessionWorld : World :=
  ({ now := 0, stores := ["s"] } : World).setCell (uploadSessionKey "u")
    (some ⟨1, .session emptySession⟩)

/-- A PATCH with some bytes. -/
def patchWith (body : Bytes) : PatchRequest := ⟨100, "r", "r", none, [body]⟩

/-- Two PATCHes write their chunks and have read the session. The first one adds its chunk; the write
    of the second one does not go through, and the second attempt does. The second one is
    answered first. -/
def patchRace : List (Event PatchRequest World) :=
  [.spawn (patchWith [1]), .spawn (patchWith [2, 3])] ++ replicate 8 (.step 0 true) ++
    replicate 8 (.step 1 true) ++ [.step 0 true] ++ replicate 5 (.step 1 true) ++
      [.step 0 true]

/-- The chunks of the requests acknowledged with a success, in the order of the
    acknowledgements. -/
def acknowledgedChunks (p : PatchPool) : List BlobId :=
  (p.shared.1.2.filter fun e => e.2.isOk).filterMap fun e => (p.shared.2 e.1).chunk.map Prod.fst

/-- The chunks of session `u`. -/
def sessionChunks (p : PatchPool) : Option (List BlobId) :=
  ((p.shared.1.1.world.value (uploadSessionKey "u")).bind Value.session?).map
    UploadSessionRecord.chunkBlobIds

theorem patchRace_runs : ∃ p, (PatchPool.init sessionWorld).run (patchSystem Ext.sample "u") .free
    patchRace = some p ∧ p.returned 0 = some (patchWith [1]) ∧
      p.returned 1 = some (patchWith [2, 3]) ∧
      sessionChunks p = some [Ext.sample.uuid 0, Ext.sample.uuid 2] ∧
      acknowledgedChunks p = [Ext.sample.uuid 2, Ext.sample.uuid 0] := by
  exact ends_in (fun p => p.returned 0 = some (patchWith [1]) ∧
    p.returned 1 = some (patchWith [2, 3]) ∧
    sessionChunks p = some [Ext.sample.uuid 0, Ext.sample.uuid 2] ∧
    acknowledgedChunks p = [Ext.sample.uuid 2, Ext.sample.uuid 0]) (by decide)
    fun _ _ hall => hall

theorem sessionWorld_cell : sessionWorld.cell (uploadSessionKey emptySession.uuid) =
    some ⟨1, .session emptySession⟩ := World.cell_setCell_self _ _

/-- After the race the session has both chunks, and has grown by their sizes. -/
theorem upload_session_accounted_race : ∃ p r,
    (PatchPool.init sessionWorld).run (patchSystem Ext.sample "u") .free patchRace = some p ∧
    sessionChunks p = some r ∧
    r = [] ++ (p.shared.1.1.chunks p.shared.2).map Prod.fst := by
  obtain ⟨p, hp, -, -, hchunks, -⟩ := patchRace_runs
  unfold sessionChunks World.value at hchunks
  cases hcell : p.shared.1.1.world.cell (uploadSessionKey "u") with
  | none =>
    rw [hcell] at hchunks
    cases hchunks
  | some c =>
    obtain ⟨r, hr, hids, -⟩ := upload_session_accounted Ext.sample "u" sessionWorld
      sessionWorld_cell rfl (fun c hc => nomatch hc) hp hcell
    refine ⟨p, r.chunkBlobIds, hp, ?_, hids⟩
    unfold sessionChunks World.value
    rw [hcell, Option.map_some, hr]
    rfl

/-- **Counterexample.** Two PATCHes succeed; the chunk of the one that is acknowledged first comes
    second. -/
theorem acknowledged_out_of_order : ∃ p,
    (PatchPool.init sessionWorld).run (patchSystem Ext.sample "u") .free patchRace = some p ∧
    p.returned 0 = some (patchWith [1]) ∧ p.returned 1 = some (patchWith [2, 3]) ∧
    (acknowledgedChunks p).length = 2 ∧
    sessionChunks p ≠ some (emptySession.chunkBlobIds ++ acknowledgedChunks p) := by
  obtain ⟨p, hp, hfirst, hsecond, hchunks, hacks⟩ := patchRace_runs
  refine ⟨p, hp, hfirst, hsecond, ?_, ?_⟩
  · rw [hacks]
    rfl
  · rw [hchunks, hacks]
    decide

end Depot
