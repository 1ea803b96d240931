import Depot.Writes.Uses

/-!
# Docker pushes

Blob uploads, mounts and manifests that are pushed to a repository or through a proxy
(`docker/src/api/uploads.rs`, `docker/src/api/manifests.rs`), with the target that the handlers
resolve. A chunked upload resolves it when it starts; a completion works in the repository and
the store of its session.

Results:
* `books_push`: the blob records and credits of a push are of one store.
-/

namespace Depot

open Lib
open Fallible (Uses uses_attempt uses_check)

/-! ## The pushes -/

/-- A push, after the checks of the request; a completion has read its session. -/
inductive DockerPush where
  | manifest (image : Option String) (reference contentType : String) (data : Bytes)
  | startUpload (image : Option String) (params : UploadInitParams) (body : List Bytes)
  | patchUpload (maxChunks : ℕ) (image : Option String) (uuid : String) (body : List Bytes)
  | completeUpload (image : Option String) (uuid : String) (session : UploadSessionRecord)
      (digest : String) (body : List Bytes)
  deriving DecidableEq

namespace DockerPush

/-- `effective_repo` (`uploads.rs`, lines 452–470 and 672–690). -/
def effective (getRepo : RepoLookup) (config : RepoConfig) : String × RepoConfig :=
  (resolveFormatWriteTarget getRepo config .docker).toOption.getD (config.name, config)

/-- The target of a push (`uploads.rs`, lines 52–110; `manifests.rs`, lines 586–611); that of a
    completion is the repository of its session (line 722). -/
def target (getRepo : RepoLookup) (config : RepoConfig) :
    DockerPush → Option (String × RepoConfig)
  | patchUpload .. => some (effective getRepo config)
  | completeUpload image _ session _ _ =>
      if sessionMatches config.name (effective getRepo config).1 image session then
        (getRepo session.repo).map fun c => (session.repo, c)
      else none
  | _ => (resolveFormatWriteTarget getRepo config .docker).toOption

/-- The call that a push makes. -/
def job (r : Route) : DockerPush → IngestJob
  | manifest image reference contentType data =>
      .putManifest ⟨r.targetRepo, image, r.target.store⟩ reference contentType data
  | startUpload image params body =>
      .startUpload ⟨r.targetRepo, image, r.target.store⟩ params body
  | patchUpload maxChunks image uuid body =>
      .patchUpload maxChunks r.addressed.name r.targetRepo image uuid body
  | completeUpload _ uuid session digest body => .completeUpload uuid session digest body

/-- The repository of a session still has the session's store. -/
def keepsStore (r : Route) : DockerPush → Bool
  | completeUpload _ _ session _ _ => decide (session.store = r.target.store)
  | _ => true

/-- A target is the addressed repository or one that is found under its name. -/
theorem target_found {getRepo : RepoLookup} {config : RepoConfig} {push : DockerPush}
    {t : String × RepoConfig} (h : push.target getRepo config = some t) :
    t = (config.name, config) ∨ getRepo t.1 = some t.2 := by
  have hresolved : ∀ t, (resolveFormatWriteTarget getRepo config .docker).toOption = some t →
      t = (config.name, config) ∨ getRepo t.1 = some t.2 := by
    intro t ht
    cases hr : resolveFormatWriteTarget getRepo config .docker with
    | error e =>
      rw [hr] at ht
      cases ht
    | ok t' =>
      rw [hr] at ht
      obtain rfl := Option.some.inj ht
      exact resolveFormatWriteTarget_found hr
  cases push with
  | manifest => exact hresolved t h
  | startUpload => exact hresolved t h
  | patchUpload =>
    obtain rfl := Option.some.inj h
    unfold effective
    cases hr : (resolveFormatWriteTarget getRepo config .docker).toOption with
    | none => exact .inl rfl
    | some t => exact hresolved t hr
  | completeUpload image uuid session digest body =>
    simp only [target] at h
    split_ifs at h
    obtain ⟨c, hc, rfl⟩ := Option.map_eq_some_iff.mp h
    exact .inr hc

end DockerPush

/-! ## What a push records -/

variable {x : Ext} {store : String} {α : Type} {q : Async α}

/-- Operations that record and credit blobs in one store only; files and sessions may be those of
    others. -/
inductive BooksOp (x : Ext) (store : String) : Op → Prop where
  | stays {o : Op} (h : StoreOp x store o) : BooksOp x store o
  | file (t : String) (o : BlobOp) : BooksOp x store (.blob t o)
  | session (k : Key) (u : UploadSessionRecord) : BooksOp x store (.write k (.put (.session u)))
  | sessionIf (k : Key) (u : UploadSessionRecord) (e : Option ℕ) :
      BooksOp x store (.write k (.putIf (.session u) e))

/-- A function that only records and credits blobs in the store. -/
abbrev Books (x : Ext) (store : String) (q : Async α) : Prop := Uses (BooksOp x store) q

theorem Stays.books (h : Stays x store q) : Books x store q := Uses.mono (fun _ => .stays) h

theorem Commits.books {b : BlobId} (h : Commits x store b q) : Books x store q :=
  (Commits.stays h).books

theorem books_effects (h : Effects [.dirStats] q) : Books x store q := (stays_effects h).books

/-- Work on files. -/
theorem books_files (h : Effects [.files] q) : Books x store q := by
  refine Uses.mono (fun o ho => ?_) h
  have hnone : o.effect = .none ∨ o.effect = .files := ho.imp_right List.mem_singleton.mp
  cases o with
  | blob t o => exact .file t o
  | write => rcases hnone with h | h <;> cases h
  | gc => rcases hnone with h | h <;> cases h
  | send d => cases d <;> rcases hnone with h | h <;> cases h
  | _ => exact .stays ⟨"", .harmless trivial⟩

variable {d : DockerStore}

theorem books_abortWriter (t : String) (b : BlobId) : Books x store (abortWriter t b) :=
  books_files (effects_abortWriter List.mem_cons_self _ _)

/-- The body of a request is written to a new blob of any store. -/
theorem books_body {t : String} {b : BlobId} {f : Bytes → Async α}
    (hf : ∀ data, Books x store (f data)) (body : List Bytes) :
    Books x store (do
      let inode ← createWriter t b
      let data ← writeBody bodyError (abortWriter t b) t b inode body []
      f data) :=
  Uses.bind (books_files (effects_createWriter List.mem_cons_self _ _)) fun _ =>
    Uses.bind (books_files (effects_writeBody List.mem_cons_self _
      (effects_abortWriter List.mem_cons_self _ _) _ _ _ _ _)) hf

theorem books_finishWriter : Books x store finishWriter := books_effects effects_finishWriter

theorem books_utcNow {f : DateTime → Async α} (hf : ∀ now, Books x store (f now)) :
    Books x store (utcNow >>= f) := Uses.bind (books_effects effects_utcNow) hf

theorem books_newUuid {f : BlobId → Async α} (hf : ∀ b, Books x store (f b)) :
    Books x store (newUuid >>= f) := Uses.bind (books_effects effects_newUuid) hf

theorem books_claim {b hash : String} {size : ℕ} {now : DateTime} {f : Option BlobId → Async α}
    (hf : ∀ e, Books x store (f e)) :
    Books x store (putDedupRecordCounted x store ⟨b, hash, size, now, store⟩ >>= f) :=
  Uses.bind (uses_putDedupRecordCounted _ _ _).books hf

theorem books_put {repo path : String} {r : ArtifactRecord} {f : Option ArtifactRecord → Async α}
    (hf : ∀ old, Books x store (f old)) : Books x store (putArtifact x repo path r >>= f) :=
  Uses.bind (uses_putArtifact (b := "") _ _ _).books hf

theorem books_recordPut (repo path : String) (r : ArtifactRecord) (old : Option ArtifactRecord) :
    Books x store (recordPut repo path r old) := books_effects (effects_recordPut _ _ _ _)

theorem books_dirChanged (repo path : String) (count bytes : ℤ) :
    Books x store (dirChanged repo path count bytes) :=
  books_effects (effects_dirChanged List.mem_cons_self _ _ _ _)

theorem books_putManifest (reference contentType : String) (data : Bytes) :
    Books x d.store (DockerStore.putManifest x d reference contentType data) := by
  refine books_utcNow fun now => books_newUuid fun b => ?_
  refine Uses.bind (commits_blobPut (b := b) _).books fun _ => ?_
  refine Uses.bind (uses_claimData (b := b) now data).books fun b' => ?_
  have hmanifest : ∀ r path, Books x d.store (do
      let old ← putArtifact x d.repo path r
      recordPut d.repo path r old
      pure (sha256Digest x data)) := fun r path =>
    books_put fun old => Uses.bind (books_recordPut _ _ _ _) fun _ => trivial
  dsimp only
  split_ifs
  · exact books_put fun old => Uses.bind (books_recordPut _ _ _ _) fun _ => hmanifest _ _
  · exact hmanifest _ _

theorem books_tryMount (params : UploadInitParams) : Books x d.store (tryMount x d params) := by
  unfold tryMount
  cases params.mount with
  | none => trivial
  | some digest =>
    cases params.fromRepo with
    | none => trivial
    | some fromRepo =>
      refine Uses.bind (books_effects (effects_blobExists d _).okSome) fun here => ?_
      cases here with
      | some _ => trivial
      | none =>
        refine Uses.bind (uses_check _) fun _ => ?_
        refine Uses.bind (books_effects (effects_getRepo _).okSome) fun config => ?_
        cases config with
        | none => trivial
        | some config =>
          refine Uses.bind (books_effects (effects_storesGet _)) fun found => ?_
          cases found with
          | false => trivial
          | true =>
            refine Uses.bind (books_effects (effects_blobExists _ _).okSome) fun source => ?_
            cases source with
            | none => trivial
            | some source =>
              refine Uses.bind ?_ fun _ => trivial
              exact books_utcNow fun now => books_claim fun _ => books_put fun old =>
                Uses.bind (books_recordPut _ _ _ _) fun _ => trivial

theorem books_monolithicUpload (digest : String) (body : List Bytes) :
    Books x d.store (monolithicUpload x d digest body) := by
  refine books_newUuid fun b => books_body (fun data => ?_) body
  have hcommit : Books x d.store (do
      finishWriter
      let now ← utcNow
      let path := blobRefPathFor (sha256Digest x data)
      let existing ← putDedupRecordCounted x d.store ⟨b, x.blake3 data, data.length, now, d.store⟩
      let record := DockerStore.blobRefRecord now (sha256Digest x data) (existing.getD b)
        (x.blake3 data) data.length
      let _ ← putArtifact x d.repo path record
      if existing.isSome then Fallible.ignore (blobDelete d.store b)
      dirChanged d.repo path 1 data.length
      pure (UploadResponse.created (sha256Digest x data))) := by
    refine Uses.bind books_finishWriter fun _ => books_utcNow fun now => ?_
    refine books_claim fun existing => books_put fun old => ?_
    cases existing with
    | none => exact Uses.bind (books_dirChanged _ _ _ _) fun _ => trivial
    | some e =>
      refine Uses.bind (Commits.books (Uses.ignore commits_blobDelete)) fun _ => ?_
      exact Uses.bind (books_dirChanged _ _ _ _) fun _ => trivial
  dsimp only
  split_ifs
  · exact Uses.bind (books_abortWriter _ _) fun _ => trivial
  · exact hcommit

theorem books_putSession (u : UploadSessionRecord) : Books x store (putUploadSession u) :=
  uses_attempt (BooksOp.session _ u)

theorem books_startSession (body : List Bytes) : Books x store (startSession d body) := by
  refine books_newUuid fun uuid => books_newUuid fun b => books_newUuid fun chunk =>
    books_body (fun data => ?_) body
  have hend : ∀ session, Books x store (do
      putUploadSession session
      pure (UploadResponse.accepted uuid data.length)) := fun session =>
    Uses.bind (books_putSession session) fun _ => trivial
  dsimp only
  split_ifs
  · exact Uses.bind (books_abortWriter _ _) fun _ => books_utcNow fun now => hend _
  · exact Uses.bind books_finishWriter fun _ => books_utcNow fun now => hend _

theorem books_patchAttempts (maxChunks : ℕ) (uuid chunkId : String) (chunkBytes attempts : ℕ)
    (s : UploadSessionRecord × ℕ) :
    Books x store (patchAttempts maxChunks uuid chunkId chunkBytes attempts s) := by
  induction attempts generalizing s with
  | zero => trivial
  | succ attempts ih =>
    obtain ⟨session, version⟩ := s
    rw [patchAttempts]
    by_cases hmax : maxChunks ≤ session.chunkBlobIds.length
    · rw [if_pos hmax]
      trivial
    · rw [if_neg hmax]
      refine books_utcNow fun now => ?_
      refine Uses.bind (uses_attempt (BooksOp.sessionIf _ _ _)) fun written => ?_
      split_ifs
      · trivial
      · trivial
      · refine Uses.bind (books_effects (effects_getUploadSessionVersioned _)) fun next => ?_
        cases next with
        | some next => exact ih next
        | none => trivial

theorem books_patchUpload (maxChunks : ℕ) (repoName effectiveRepo : String)
    (image : Option String) (uuid : String) (body : List Bytes) :
    Books x store (doPatchUpload maxChunks repoName effectiveRepo image uuid body) := by
  refine Uses.bind (books_effects (effects_getUploadSessionVersioned _)) fun s => ?_
  cases s with
  | none => trivial
  | some s =>
    obtain ⟨session, version⟩ := s
    dsimp only
    split_ifs
    · trivial
    · refine Uses.bind (books_effects (effects_resolveBlobStore _)) fun _ =>
        books_newUuid fun chunk => books_body (fun data => ?_) body
      refine Uses.bind books_finishWriter fun _ => ?_
      exact Uses.bind (books_patchAttempts _ _ _ _ _ _) fun _ => trivial

theorem books_completeSession (uuid : String) (session : UploadSessionRecord) (digest : String)
    (body : List Bytes) :
    Books x session.store (completeSession x uuid session digest body) := by
  refine Uses.bind (books_effects (effects_resolveBlobStore _)) fun _ => ?_
  refine Uses.bind (books_newUuid fun chunk => books_body (fun data => ?_) body) fun final => ?_
  · split_ifs
    · exact Uses.bind (books_abortWriter _ _) fun _ => trivial
    · exact Uses.bind books_finishWriter fun _ => trivial
  refine Uses.bind (books_files (effects_createWriter List.mem_cons_self _ _)) fun inode => ?_
  refine Uses.bind (books_files (effects_assembleChunks List.mem_cons_self _ _ _ _ _)) fun data => ?_
  have hdelete : ∀ b, Books x session.store (Fallible.ignore (blobDelete session.store b)) :=
    fun b => Commits.books (Uses.ignore (commits_blobDelete (b := b)))
  have hcommit : Books x session.store (do
      let now ← utcNow
      let dedup ← commitUpload x uuid session (sha256Digest x data) (x.blake3 data)
        (session.size + final.2) now
      if dedup.isSome then Fallible.ignore (blobDelete session.store session.blobId)
      Fallible.each (fun chunkId => Fallible.ignore (blobDelete session.store chunkId))
        (session.chunkBlobIds ++ final.1)
      dirChanged session.repo (blobRefPathFor (sha256Digest x data)) 1
        ((session.size + final.2 : ℕ) : ℤ)
      pure (UploadResponse.created (sha256Digest x data))) := by
    have hrest : Books x session.store (do
        Fallible.each (fun chunkId => Fallible.ignore (blobDelete session.store chunkId))
          (session.chunkBlobIds ++ final.1)
        dirChanged session.repo (blobRefPathFor (sha256Digest x data)) 1
          ((session.size + final.2 : ℕ) : ℤ)
        pure (UploadResponse.created (sha256Digest x data))) :=
      Uses.bind (Uses.each fun b _ => hdelete b) fun _ =>
        Uses.bind (books_dirChanged _ _ _ _) fun _ => trivial
    refine books_utcNow fun now => Uses.bind (books_claim fun existing => books_put fun old => ?_)
      fun dedup => ?_
    · have hsession : Uses Harmless (deleteUploadSession uuid) :=
        (uses_attempt nofun).bind fun _ => trivial
      exact Uses.bind (stays_harmless hsession).books fun _ => trivial
    · cases dedup with
      | none => exact hrest
      | some e => exact Uses.bind (hdelete _) fun _ => hrest
  refine Uses.bind books_finishWriter fun _ => ?_
  dsimp only
  split_ifs
  · exact Uses.bind (hdelete _) fun _ => trivial
  · exact hcommit

/-- The blob records and credits of a push are of the store of its target. -/
theorem books_push {r : Route} {push : DockerPush} (h : push.keepsStore r = true) :
    Task.Uses (BooksOp x r.target.store) ((push.job r).code x) := by
  have hdone : ∀ {α : Type} {q : Async α}, Books x r.target.store q →
      Task.Uses (BooksOp x r.target.store) (succeeding q) := by
    intro α q hq
    refine Task.Uses.bind hq fun result => ?_
    cases result with
    | ok a => trivial
    | error e => exact ⟨.stays ⟨"", .harmless trivial⟩, nofun⟩
  cases push with
  | manifest image reference contentType data =>
    exact hdone (books_putManifest (d := ⟨r.targetRepo, image, r.target.store⟩) _ _ _)
  | startUpload image params body =>
    refine hdone (Uses.bind (books_tryMount (d := ⟨r.targetRepo, image, r.target.store⟩) params)
      fun response => ?_)
    cases response with
    | some response => trivial
    | none =>
      cases params.digest with
      | some digest =>
        exact books_monolithicUpload (d := ⟨r.targetRepo, image, r.target.store⟩) digest body
      | none => exact books_startSession body
  | patchUpload maxChunks image uuid body => exact hdone (books_patchUpload _ _ _ _ _ _)
  | completeUpload image uuid session digest body =>
    rw [show r.target.store = session.store from (of_decide_eq_true h).symm] at hdone ⊢
    exact hdone (books_completeSession _ _ _ _)

end Depot
