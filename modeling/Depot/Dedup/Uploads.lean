import Depot.Dedup.Calls

/-!
# Docker uploads

A mount uses the blob of another repository, an upload in one request a new
blob, and a completed upload the blobs that were left to its session.

Results:
* `tryMount_owns`: a mount under the rule names a recorded blob.
* `completeSession_owns`: a completion records the blob of its session.
-/

namespace Depot

open Lib List
open Triple (weaken_pre)

variable {x : Ext} {i : ℕ} {j : IngestJob}

variable {P : IngestView → Prop}

/-- What holds after a call whose error is kept: `Q` of its value, or `P`. -/
def Captured {α : Type} (P : IngestView → Prop) (Q : α → IngestView → Prop) :
    Except DepotError α → IngestView → Prop
  | .ok r => Q r
  | .error _ => P

/-! ## Uploads in one request -/

section

variable {own : List BlobId} {known : List RecordedBlob} {debt : List (String × ℤ)}

/-- Reading a configuration. -/
theorem getRepo_keeps (hs : ((ingestLogic x).contract i j).Stable P)
    (name : String) : IngestTriple x i j P (getRepo name)
      (fun r w => P w ∧ ∀ c, r = some c → w.shared.world.repoConfig name = some c) P := by
  have hQ : ∀ c : RepoConfig, ((ingestLogic x).contract i j).Stable fun w =>
      w.shared.world.repoConfig name = some c := fun c w w' _ _ hr hw =>
    (hr.configs name).trans hw
  have hPQ : ∀ r : Option RepoConfig, ((ingestLogic x).contract i j).Stable fun w =>
      P w ∧ ∀ c, r = some c → w.shared.world.repoConfig name = some c :=
    fun r w w' hi hi' hr hw =>
      ⟨hs w w' hi hi' hr hw.1, fun c hc => hQ c w w' hi hi' hr (hw.2 c hc)⟩
  refine FTriple.bind hs (typedGet_keeps hs hQ fun w c v _ _ _ hv hc => ?_) fun r => ?_
  · rw [World.repoConfig, hv]
    exact hc
  · cases r with
    | none => exact weaken_pre (pure_keeps (hPQ none)) fun w _ hw => ⟨hw.1, by rintro _ ⟨⟩⟩
    | some c =>
      refine weaken_pre (pure_keeps (hPQ _)) fun w _ hw => ⟨hw.1, fun c' hc' => ?_⟩
      split_ifs at hc'
      obtain rfl := Option.some.inj hc'
      exact hw.2 c rfl

/-- An outcome whose errors count as absence. -/
theorem okSome_keeps {α : Type} {Q : α → IngestView → Prop}
    {p : Async (Option α)} (hs : ((ingestLogic x).contract i j).Stable P)
    (hQ : ∀ a, ((ingestLogic x).contract i j).Stable (Q a))
    (h : IngestTriple x i j P p (fun r w => P w ∧ ∀ a, r = some a → Q a w) P) :
    IngestTriple x i j P (okSome p) (fun r w => P w ∧ ∀ a, r = some a → Q a w) Failed := by
  have hPQ : ∀ r : Option α, ((ingestLogic x).contract i j).Stable fun w =>
      P w ∧ ∀ a, r = some a → Q a w := fun r w w' hi hi' hr hw =>
    ⟨hs w w' hi hi' hr hw.1, fun a ha => hQ a w w' hi hi' hr (hw.2 a ha)⟩
  refine FTriple.bind (M := Captured P fun r w => P w ∧ ∀ a, r = some a → Q a w) Failed.stable
    (FTriple.capture (fun r => ?_) ?_) fun r => ?_
  · cases r with
    | ok r => exact hPQ r
    | error e => exact hs
  · exact FTriple.consequence h (fun _ _ hw => hw) (fun _ _ _ hw => hw) fun _ _ hw _ => hw
  · cases r with
    | ok r => exact fun w hi hw u hu hi' => hPQ r w u hi hi' hu hw
    | error e => exact weaken_pre (pure_keeps (hPQ none)) fun w _ hw => ⟨hw, by rintro _ ⟨⟩⟩

variable {d : DockerStore}

/-- A recorded blob is recorded for another repository. -/
theorem mountBlob_owns (ht : j.target = some (d.repo, d.store))
    {blobId : BlobId} {hash : String} (hk : ⟨d.store, hash, blobId⟩ ∈ known) (digest : String)
    (size : ℕ) : IngestTriple x i j (Owns i [] known [])
      (DockerStore.mountBlob x d digest blobId hash size) (fun _ => Clear i) Failed := by
  refine utcNow_bind fun now => ?_
  refine bind_failed (weaken_pre putDedupRecordCounted_owns
    fun w _ hw => ⟨hw, .inr hk⟩) fun existing => ?_
  have hwritable : Writable j known d.repo
      (DockerStore.blobRefRecord now digest blobId hash size) := by
    refine ⟨⟨_, ht⟩, fun b hb _ => ⟨hash, rfl, ?_⟩⟩
    obtain rfl := Option.some.inj hb
    have hstore : j.store = d.store := by rw [IngestJob.store, ht]; rfl
    rwa [hstore]
  refine FTriple.bind (M := fun _ => Owns i [] known []) Failed.stable (weaken_pre
    (putArtifact_triple_owns hwritable _) fun w _ hw => ?_) fun old => ?_
  · cases existing with
    | none => exact Owns.weaken hw (forall_mem_nil _) fun n hn => mem_cons_of_mem _ hn
    | some e => exact Owns.weaken hw (forall_mem_nil _) fun n hn => mem_cons_of_mem _ hn
  refine recordPut_bind fun _ => ?_
  exact clear_pure

variable {body : List Bytes} {params : UploadInitParams}

/-- A mount under the rule: the blob of the source repository is recorded in the
    store of the destination. -/
theorem sourceBlob_known (hj : j = .startUpload d params body) {digest fromRepo : String}
    (hm : params.mount = some digest) (hf : params.fromRepo = some fromRepo) (store : String)
    {c : RepoConfig} :
    IngestTriple x i j (fun w => Clear i w ∧ w.shared.world.repoConfig fromRepo = some c)
      (DockerStore.blobExists x ⟨fromRepo, none, store⟩ digest)
      (fun r w => (Clear i w ∧ w.shared.world.repoConfig fromRepo = some c) ∧
        ∀ a, r = some a → ⟨d.store, a.2.2, a.2.1⟩ ∈ w.shared.recorded)
      (fun w => Clear i w ∧ w.shared.world.repoConfig fromRepo = some c) := by
  have hs : ((ingestLogic x).contract i j).Stable fun w =>
      Clear i w ∧ w.shared.world.repoConfig fromRepo = some c := fun w w' hi hi' hr hw =>
    ⟨Owns.stable w w' hi hi' hr hw.1, (hr.configs fromRepo).trans hw.2⟩
  let Q : ArtifactRecord → IngestView → Prop := fun r w =>
    ⟨d.store, r.contentHash.getD "", r.blobId.getD ""⟩ ∈ w.shared.recorded
  have hQ : ∀ r, ((ingestLogic x).contract i j).Stable (Q r) := fun r w w' _ _ hr hw =>
    hr.recorded _ hw
  refine FTriple.bind hs (typedGet_keeps hs hQ fun w r v hi hw hrule hv hr => ?_) fun r => ?_
  · rw [hj] at hrule
    simp only [mountRule, hm, hf, if_true, hv, hw.2, Option.all_some, Option.bind_some, hr,
      Bool.and_eq_true, decide_eq_true_eq] at hrule
    rw [Value.artifact?_eq_some.mp hr] at hv
    obtain ⟨hne, hstore⟩ := hrule
    cases hb : r.blobId with
    | none => rw [hb] at hne; exact absurd rfl hne
    | some b =>
      rw [hb] at hne
      obtain ⟨h, hh, hn⟩ := hi.1.artifacts (artifactKey x.shardOf fromRepo (blobRefPathFor digest))
        c r rfl hw.2 hv b hb hne
      show (⟨d.store, r.contentHash.getD "", r.blobId.getD ""⟩ : RecordedBlob) ∈ w.shared.recorded
      rw [hh, hb, ← hstore]
      exact hn
  · intro w hi hw u hu hi'
    refine ⟨hs w u hi hi' hu hw.1, fun a ha => ?_⟩
    obtain ⟨r', rfl, rfl⟩ := Option.map_eq_some_iff.mp ha
    exact hQ r' w u hi hi' hu (hw.2 r' rfl)

theorem tryMount_owns (hj : j = .startUpload d params body) :
    IngestTriple x i j (Clear i) (tryMount x d params) (fun _ => Clear i) Failed := by
  unfold tryMount
  cases hm : params.mount with
  | none => exact clear_pure
  | some digest =>
    cases hf : params.fromRepo with
    | none => exact clear_pure
    | some fromRepo =>
      refine keep_bind (effects_blobExists d _).okSome fun here => ?_
      cases here with
      | some _ => exact clear_pure
      | none =>
        refine keep_bind (effects_check _) fun _ => ?_
        have hconfig : ∀ c : RepoConfig, ((ingestLogic x).contract i j).Stable fun w =>
            w.shared.world.repoConfig fromRepo = some c := fun c w w' _ _ hr hw =>
          (hr.configs fromRepo).trans hw
        refine bind_failed (okSome_keeps Owns.stable hconfig
          (getRepo_keeps Owns.stable fromRepo)) fun config => ?_
        cases config with
        | none => exact weaken_pre clear_pure fun w _ hw => hw.1
        | some config =>
          have hs : ((ingestLogic x).contract i j).Stable fun w =>
              Clear i w ∧ w.shared.world.repoConfig fromRepo = some config :=
            fun w w' hi hi' hr hw =>
              ⟨Owns.stable w w' hi hi' hr hw.1, hconfig config w w' hi hi' hr hw.2⟩
          refine weaken_pre (bind_failed
            (keep_clear hs (effects_storesGet config.store)) fun found => ?_)
            fun w _ hw => ⟨hw.1, hw.2 config rfl⟩
          cases found with
          | false => exact weaken_pre clear_pure fun w _ hw => hw.1
          | true =>
            refine bind_failed (okSome_keeps
              (Q := fun a w => ⟨d.store, a.2.2, a.2.1⟩ ∈ w.shared.recorded) hs
              (fun a w w' _ _ hr hw => hr.recorded _ hw)
              (sourceBlob_known hj hm hf config.store)) fun source => ?_
            cases source with
            | none => exact weaken_pre clear_pure fun w _ hw => hw.1.1
            | some source =>
              obtain ⟨size, blobId, hash⟩ := source
              have ht : j.target = some (d.repo, d.store) := by rw [hj]; rfl
              have hk : (⟨d.store, hash, blobId⟩ : RecordedBlob) ∈ [⟨d.store, hash, blobId⟩] :=
                mem_cons_self
              refine weaken_pre (bind_failed (mountBlob_owns ht hk digest
                size) fun _ => clear_pure) fun w _ hw => ⟨nofun, fun n hn => ?_, hw.1.1.debt⟩
              obtain rfl := mem_singleton.mp hn
              exact hw.2 _ rfl

/-- The body of a request, written to a new blob. -/
theorem monolithicUpload_owns (ht : j.target = some (d.repo, d.store))
    (digest : String) (body : List Bytes) :
    IngestTriple x i j (Clear i) (monolithicUpload x d digest body) (fun _ => Clear i) Failed := by
  refine newUuid_bind fun b hb => ?_
  refine bind_failing (createWriter_owns hb) fun inode => ?_
  refine bind_failing (writeBody_owns hb _ (abortWriter_owns hb) _ _) fun data => ?_
  have hcommit : IngestTriple x i j (Fresh i [b] [] d.store b data) (do
      finishWriter
      let now ← utcNow
      let path := blobRefPathFor (sha256Digest x data)
      let existing ← putDedupRecordCounted x d.store ⟨b, x.blake3 data, data.length, now, d.store⟩
      let record := DockerStore.blobRefRecord now (sha256Digest x data) (existing.getD b)
        (x.blake3 data) data.length
      let _ ← putArtifact x d.repo path record
      if existing.isSome then Fallible.ignore (blobDelete d.store b)
      dirChanged d.repo path 1 data.length
      pure (UploadResponse.created (sha256Digest x data))) (fun _ => Clear i) Failed := by
    have hfresh := @Written.stable x i j [b] [] [] d.store b data hb
    refine bind_failed (keep_clear hfresh effects_finishWriter) fun _ => ?_
    refine bind_failed (keep_clear hfresh effects_utcNow) fun now => ?_
    refine bind_failed (weaken_pre putDedupRecordCounted_owns
      fun w _ hw => Fresh.claimable hw hb _ now d.store) fun existing => ?_
    refine bind_failed (weaken_pre (putArtifact_triple_owns
      (writable_claimed ht rfl rfl) _) fun w _ hw => hw.owns) fun old => ?_
    refine dropDuplicate_owns hb fun _ => ?_
    refine keep_bind (effects_dirChanged mem_cons_self _ _ _ _) fun _ => ?_
    exact clear_pure
  refine IngestTriple.written ?_
  by_cases hdigest : sha256Digest x data ≠ digest
  · dsimp only
    rw [if_pos hdigest]
    refine FTriple.bind (M := fun _ => Owns i [b] [] []) Failed.stable
      (weaken_pre (abortWriter_owns hb) fun w _ hw => hw.1) fun _ => ?_
    exact bind_failed (fun _ _ _ _ _ _ => trivial) fun _ => hcommit
  · dsimp only
    rw [if_neg hdigest]
    exact hcommit

/-- A session takes over the blob and the first chunk. -/
theorem putUploadSession_owns {k : Key} {u : UploadSessionRecord} {c : CellOp Value} {α : Type}
    {f : R (.write k c) → Option α} (hc : c = .put (.session u) ∨ ∃ e, c = .putIf (.session u) e)
    (hk : k.part.table = .uploadSessions) :
    IngestTriple x i j (Owns i own known []) (Fallible.attempt .storage (.write k c) f)
      (fun _ => Clear i) Failed := by
  refine FTriple.attempt Owns.stable (fun _ => Owns.stable) Failed.stable
    fun w ok s r hi hw _ hx => ?_
  obtain ⟨hinv, hstill, howed, hcredited⟩ := session_step hc hk hi hx
  refine ⟨(), ⟨hinv, hi.2⟩, hstill, fun _ _ => ⟨nofun, nofun, ?_⟩, fun _ => trivial⟩
  show s.owed i = s.credited i ++ []
  rw [howed, hcredited]
  exact hw.debt

theorem startSession_owns (d : DockerStore) (body : List Bytes) :
    IngestTriple x i j (Clear i) (startSession d body) (fun _ => Clear i) Failed := by
  refine bind_failed newUuid_owns fun uuid => FTriple.assume fun _ => ?_
  refine bind_failed newUuid_owns fun blobId => FTriple.assume fun _ => ?_
  refine bind_failed newUuid_owns fun chunkId => FTriple.assume fun _ => ?_
  have hb : chunkId ∈ [chunkId, blobId, uuid] := mem_cons_self
  refine bind_failing (createWriter_owns hb) fun inode => ?_
  refine bind_failing (writeBody_owns hb _
    (abortWriter_owns hb) _ _) fun data => weaken_pre ?_ fun w _ hw => hw.1
  have hend : ∀ session, IngestTriple x i j (Owns i [chunkId, blobId, uuid] [] []) (do
      putUploadSession session
      pure (UploadResponse.accepted uuid data.length)) (fun _ => Clear i) Failed := fun session =>
    bind_failed (putUploadSession_owns (.inl rfl) rfl) fun _ => clear_pure
  dsimp only
  split_ifs
  · exact bind_failed (abortWriter_owns hb) fun _ =>
      utcNow_bind fun now => hend _
  · exact keep_bind effects_finishWriter fun _ =>
      utcNow_bind fun now => hend _

theorem doStartUpload_owns (hj : j = .startUpload d params body) :
    IngestTriple x i j (Clear i) (doStartUpload x d params body) (fun _ => Clear i) Failed := by
  refine bind_failed (tryMount_owns hj) fun response => ?_
  cases response with
  | some response => exact clear_pure
  | none =>
    dsimp only
    cases params.digest with
    | some digest => exact monolithicUpload_owns (by rw [hj]; rfl) digest body
    | none => exact startSession_owns d body

/-! ## Sessions -/

theorem patchAttempts_owns (maxChunks : ℕ) (uuid chunkId : String) (chunkBytes attempts : ℕ)
    (s : UploadSessionRecord × ℕ) :
    IngestTriple x i j (Owns i own [] []) (patchAttempts maxChunks uuid chunkId chunkBytes attempts s)
      (fun _ => Clear i) Failed := by
  induction attempts generalizing own s with
  | zero => exact fun _ _ _ _ _ _ => trivial
  | succ attempts ih =>
    obtain ⟨session, version⟩ := s
    rw [patchAttempts]
    by_cases hmax : maxChunks ≤ session.chunkBlobIds.length
    · rw [if_pos hmax]
      exact fun _ _ _ _ _ _ => trivial
    · rw [if_neg hmax]
      refine utcNow_bind fun now => ?_
      refine bind_failed (putUploadSession_owns (.inr ⟨_, rfl⟩) rfl) fun written => ?_
      split_ifs
      · exact clear_pure
      · exact fun _ _ _ _ _ _ => trivial
      · refine keep_bind (effects_getUploadSessionVersioned uuid) fun next => ?_
        cases next with
        | some next => exact ih next
        | none => exact fun _ _ _ _ _ _ => trivial

theorem doPatchUpload_owns (maxChunks : ℕ) (repoName effectiveRepo : String)
    (image : Option String) (uuid : String) (body : List Bytes) : IngestTriple x i j (Clear i)
      (doPatchUpload maxChunks repoName effectiveRepo image uuid body) (fun _ => Clear i)
      Failed := by
  refine keep_bind (effects_getUploadSessionVersioned uuid) fun s => ?_
  cases s with
  | none => exact fun _ _ _ _ _ _ => trivial
  | some s =>
    obtain ⟨session, version⟩ := s
    show IngestTriple x i j (Clear i) (if sessionMatches repoName effectiveRepo image session = false
      then throw uploadNotFound else _) _ _
    split_ifs
    · exact fun _ _ _ _ _ _ => trivial
    · refine keep_bind (effects_resolveBlobStore _) fun _ => ?_
      refine bind_failed newUuid_owns fun chunkId => FTriple.assume fun _ => ?_
      have hb : chunkId ∈ [chunkId] := mem_singleton_self _
      refine bind_failing (createWriter_owns hb) fun inode => ?_
      refine bind_failing (writeBody_owns hb _
        (abortWriter_owns hb) _ _) fun data => weaken_pre ?_ fun w _ hw => hw.1
      refine keep_bind effects_finishWriter fun _ => ?_
      exact bind_failed (patchAttempts_owns _ _ _ _ _ _) fun _ => clear_pure

/-- The last chunk of an upload. -/
theorem finalChunk_owns (store : String) (body : List Bytes) :
    IngestTriple x i j (Owns i own [] []) (finalChunk store body)
      (fun final w => Owns i (own ++ final.1) [] [] w ∧ ∀ b ∈ final.1, b ∉ own) Failed := by
  refine bind_failed newUuid_owns fun chunkId => FTriple.assume fun hnew => ?_
  have hb : chunkId ∈ chunkId :: own := mem_cons_self
  refine bind_failing (createWriter_owns hb) fun inode => ?_
  refine bind_failing (writeBody_owns hb _
    (abortWriter_owns hb) _ _) fun data => weaken_pre ?_ fun w _ hw => hw.1
  split_ifs
  · refine bind_failed (abortWriter_owns hb) fun _ => ?_
    intro w hi hw u hu hi'
    refine ⟨(Owns.stable w u hi hi' hu hw).weaken (fun b hb => ?_) nofun, nofun⟩
    rw [append_nil] at hb
    exact mem_cons_of_mem _ hb
  · refine keep_bind effects_finishWriter fun _ => ?_
    intro w hi hw u hu hi'
    refine ⟨(Owns.stable w u hi hi' hu hw).weaken (fun b hb => ?_) nofun, fun b hb => ?_⟩
    · rw [mem_append, mem_singleton] at hb
      rw [mem_cons]
      exact hb.symm
    · rw [mem_singleton.mp hb]
      exact hnew

/-- The chunks are copied into the blob of the session. -/
theorem assembleChunks_owns {store : String} {b : BlobId} {inode : ℕ} (hb : b ∈ own)
    (chunks : List BlobId) (data : Bytes) :
    IngestTriple x i j (fun w => Owns i own known debt w ∧ FileIs store b inode data w)
      (assembleChunks store b inode chunks data)
      (fun data' w => Owns i own known debt w ∧ FileIs store b inode data' w) Failed := by
  induction chunks generalizing data with
  | nil => exact fun w hi hw u hu hi' => FileIs.stable hb w u hi hi' hu hw
  | cons chunkId chunks ih =>
    refine FTriple.bind (M := Captured (Owns i own known debt) fun chunk w =>
      Owns i own known debt w ∧ FileIs store b inode (data ++ chunk) w) Failed.stable
      (FTriple.capture (fun r => ?_) ?_) fun r => ?_
    · cases r with
      | ok chunk => exact FileIs.stable hb
      | error e => exact Owns.stable
    · have hstop : ((ingestLogic x).contract i j).Stable fun w =>
          ∀ _ : DepotError, Owns i own known debt w := fun w w' hi hi' hr hw e =>
        Owns.stable w w' hi hi' hr (hw e)
      refine FTriple.bind hstop (FTriple.consequence (effects_keep (FileIs.stable hb)
        (effects_blobRead store chunkId)) (fun _ _ hw => hw) (fun _ _ _ hw => hw)
        fun _ _ hw _ => hw.1) fun chunk => ?_
      cases chunk with
      | none => exact fun w hi hw u hu hi' e => Owns.stable w u hi hi' hu hw.1
      | some chunk =>
        refine FTriple.bind hstop (FTriple.consequence (writeChunk_owns hb chunk)
          (fun _ _ hw => hw) (fun _ _ _ hw => hw) fun _ _ hw _ => hw) fun _ => ?_
        exact fun w hi hw u hu hi' => FileIs.stable hb w u hi hi' hu hw
    · cases r with
      | ok chunk => exact ih (data ++ chunk)
      | error e =>
        exact bind_failed (abortWriter_owns hb) fun _ =>
          fun _ _ _ _ _ _ => trivial

variable {session : UploadSessionRecord}

/-- The blob of the session is recorded, or dropped for one that is. -/
theorem commitUpload_owns
    (ht : j.target = some (session.repo, session.store)) (hb : session.blobId ∈ own)
    (uuid digest : String) (data : Bytes) (size : ℕ) (now : DateTime) :
    IngestTriple x i j (Fresh i own [] session.store session.blobId data)
      (commitUpload x uuid session digest (x.blake3 data) size now)
      (fun existing => Owns i (ownAfter own session.blobId existing) [] []) Failed := by
  refine bind_failed (weaken_pre putDedupRecordCounted_owns
    fun w _ hw => hw.claimable hb size now session.store) fun existing => ?_
  refine bind_failed (weaken_pre (putArtifact_triple_owns
    (writable_claimed ht rfl rfl) _) fun w _ hw => hw.owns) fun old => ?_
  have hdelete : Fallible.Uses Harmless (deleteUploadSession uuid) :=
    (Fallible.uses_attempt nofun).bind fun _ => trivial
  refine bind_failed (harmless_clear Owns.stable hdelete) fun _ => ?_
  exact fun w hi hw u hu hi' =>
    (Owns.stable w u hi hi' hu hw).weaken (fun _ h => h) nofun

theorem completeSession_owns {uuid digest : String}
    (hj : j = .completeUpload uuid session digest body) (hnodup : j.given.Nodup) :
    IngestTriple x i j (Owns i j.given [] []) (completeSession x uuid session digest body)
      (fun _ => Clear i) Failed := by
  have ht : j.target = some (session.repo, session.store) := by rw [hj]; rfl
  have hgiven : j.given = session.blobId :: session.chunkBlobIds := by rw [hj]; rfl
  rw [hgiven] at hnodup ⊢
  refine keep_bind (effects_resolveBlobStore _) fun _ => ?_
  refine bind_failed (finalChunk_owns session.store body) fun final =>
    FTriple.assume fun hfinal => ?_
  set own := session.blobId :: session.chunkBlobIds ++ final.1 with hown
  have hb : session.blobId ∈ own := mem_cons_self
  have hchunks : ∀ existing, ∀ c ∈ session.chunkBlobIds ++ final.1,
      c ∈ ownAfter own session.blobId existing := by
    intro existing c hc
    have hmem : c ∈ own := mem_cons_of_mem _ hc
    have hne : c ≠ session.blobId := by
      rintro rfl
      rcases mem_append.mp hc with hc | hc
      · exact (nodup_cons.mp hnodup).1 hc
      · exact hfinal _ hc mem_cons_self
    cases existing with
    | none => exact mem_filter.mpr ⟨hmem, decide_eq_true hne⟩
    | some e => exact hmem
  refine bind_failing (createWriter_owns hb) fun inode => ?_
  refine bind_failed (assembleChunks_owns hb _ _) fun data => ?_
  refine IngestTriple.written ?_
  have hfresh := @Written.stable x i j own [] [] session.store session.blobId data hb
  refine bind_failed (keep_clear hfresh effects_finishWriter) fun _ => ?_
  have hcommit : IngestTriple x i j (Fresh i own [] session.store session.blobId data) (do
      let now ← utcNow
      let dedup ← commitUpload x uuid session (sha256Digest x data) (x.blake3 data)
        (session.size + final.2) now
      if dedup.isSome then Fallible.ignore (blobDelete session.store session.blobId)
      Fallible.each (fun chunkId => Fallible.ignore (blobDelete session.store chunkId))
        (session.chunkBlobIds ++ final.1)
      dirChanged session.repo (blobRefPathFor (sha256Digest x data)) 1
        ((session.size + final.2 : ℕ) : ℤ)
      pure (UploadResponse.created (sha256Digest x data))) (fun _ => Clear i) Failed := by
    refine bind_failed (keep_clear hfresh effects_utcNow) fun now => ?_
    refine bind_failed (commitUpload_owns ht hb uuid _ data _ now) fun dedup => ?_
    refine dropDuplicate_owns hb fun _ => ?_
    refine bind_failed (FTriple.each
      (I := fun _ => Owns i (ownAfter own session.blobId dedup) [] []) Owns.stable Failed.stable
      fun _ c rest hc => FTriple.ignore Owns.stable (blobDelete_owns (hchunks dedup c ?_)))
      fun _ => ?_
    · rw [hc]
      exact mem_append_right _ mem_cons_self
    refine keep_bind (effects_dirChanged mem_cons_self _ _ _ _) fun _ => ?_
    exact clear_pure
  by_cases hdigest : sha256Digest x data ≠ digest
  · dsimp only
    rw [if_pos hdigest]
    refine FTriple.bind (M := fun _ => Owns i own [] []) Failed.stable (weaken_pre
      (FTriple.ignore Owns.stable (blobDelete_owns hb)) fun w _ hw => hw.1) fun _ => ?_
    exact bind_failed (fun _ _ _ _ _ _ => trivial) fun _ => hcommit
  · dsimp only
    rw [if_neg hdigest]
    exact hcommit

end

end Depot
