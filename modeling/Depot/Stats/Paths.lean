import Depot.Stats.Debts

/-!
# The write paths pay their debts

A write changes what a directory holds and later sends the update that says so; in between the
call owes the difference. The outlines follow the handlers operation by operation: a put or a
delete of a record takes on a debt, `dirChanged` pays it, and everything else leaves it as it is.

Results:
* `hostedPut_triple` and its siblings: each call other than a bulk delete owes
  nothing when it returns.
-/

namespace Depot

open Lib
open Fallible (Uses uses_attempt uses_pure)

variable {x : Ext} {cm : Bytes → List String × List String} {fuel : ℕ} {i : ℕ} {j : WriteJob}

/-! ## Quiet helpers -/

theorem quiet_staleFlag (hf : j.raisesFlags = true) (repo path : String) (now : DateTime)
    (kind : ArtifactKind) :
    Uses (Quiet j) (putArtifactIfAbsent x repo path (staleFlag now kind)) := by
  refine Uses.bind (uses_attempt (.inr ⟨hf, _, _, rfl, rfl⟩)) fun written => ?_
  have htree : Uses (Quiet j)
      (upsertTreeFile x repo path (prepareRecord path (staleFlag now kind))) :=
    (effects_upsertTreeFile (by decide) _ _ _).quiet
  cases written with
  | true => exact htree.bind fun _ => uses_pure _
  | false => exact uses_pure _

theorem quiet_staleLevels (hf : j.raisesFlags = true) (repos : List RepoConfig)
    (format : ArtifactFormat) (path : String) (now : DateTime) (kind : ArtifactKind) (depth : ℕ)
    (visited queue : List String) : Uses (Quiet j)
      (staleLevels x repos format path (staleFlag now kind) depth visited queue) := by
  induction depth generalizing visited queue with
  | zero => exact uses_pure _
  | succ depth ih =>
    refine Uses.bind (Uses.fold fun s parent _ => ?_) fun s => ih _ _
    unfold markStale
    split_ifs
    · exact uses_pure _
    · exact (quiet_staleFlag hf parent path now kind).ignore.bind fun _ => uses_pure _

theorem quiet_markHelmStale (hf : j.raisesFlags = true) (h : HostedRepo) (path : String) :
    Uses (Quiet j) (markHelmStale x h path) := by
  have hset : Uses (Quiet j) (setHelmStaleFlag x h.name) :=
    Uses.bind effects_utcNow.quiet fun now =>
      (quiet_staleFlag hf h.name helmStalePath now .helmMetadata).bind fun _ =>
        uses_pure _
  have hprop : Uses (Quiet j) (propagateStaleness x h.name .helm helmStalePath) :=
    Uses.bind effects_listRepos.quiet fun repos =>
      Uses.bind effects_utcNow.quiet fun now =>
        quiet_staleLevels hf repos .helm helmStalePath now .helmMetadata 8 [] [h.name]
  unfold markHelmStale
  split_ifs
  · exact hset.ignore.bind fun _ => hprop.ignore
  · exact uses_pure _

section

variable {α : Type} {debt : String → String → ℤ × ℤ} {p : Async α}

/-- That a blob was written is of no use after the call. -/
theorem Owes.forget {w : View LedgerState WriteJob Unit} (h : Owes i debt true w) :
    Owes i debt false w := ⟨nofun, h.2⟩

theorem LedgerTriple.forget_err {post : α → View LedgerState WriteJob Unit → Prop}
    (h : LedgerTriple x cm fuel i j (Owes i debt true) p post (Owes i 0 true)) :
    LedgerTriple x cm fuel i j (Owes i debt true) p post (Owes i 0 false) :=
  FTriple.consequence h (fun _ _ hw => hw) (fun _ _ _ hw => hw) fun _ _ hw => hw.forget

theorem LedgerTriple.forget
    (h : LedgerTriple x cm fuel i j (Owes i debt true) p (fun _ => Owes i 0 true)
      (Owes i 0 true)) :
    LedgerTriple x cm fuel i j (Owes i debt true) p (fun _ => Owes i 0 false)
      (Owes i 0 false) :=
  FTriple.consequence h (fun _ _ hw => hw) (fun _ _ _ hw => hw.forget) fun _ _ hw => hw.forget

end

/-- A call that owes nothing before and after. -/
abbrev Settles (x : Ext) (cm : Bytes → List String × List String) (fuel i : ℕ) (j : WriteJob)
    {α : Type} (p : Async α) : Prop :=
  LedgerTriple x cm fuel i j (Owes i 0 false) p (fun _ => Owes i 0 false) (Owes i 0 false)

/-! ## Hosted and cached repositories -/

/-- The state of a call that owes the update for a record it has put. -/
abbrev OwesPut (i : ℕ) (repo path : String) (size : ℕ)
    (old : Option ArtifactRecord) (b : Bool) : View LedgerState WriteJob Unit → Prop :=
  Owes i (due repo (parentDir (normalizePath path))
    (putDelta size (old.map ArtifactRecord.size))) b

section

variable {b : Bool}

theorem put_triple (repo path : String) (record : ArtifactRecord) :
    LedgerTriple x cm fuel i j (Owes i 0 b) (putArtifact x repo path record)
      (fun old => OwesPut i repo path record.size old b) (Owes i 0 b) := by
  have h : LedgerTriple x cm fuel i j (Owes i 0 b) (putArtifact x repo path record) _ _ :=
    putArtifact_triple repo path record
  exact h.consequence (fun _ _ hw => hw) (fun _ _ _ hw => hw.1) fun _ _ hw => hw

theorem delete_triple (repo path : String) :
    LedgerTriple x cm fuel i j (Owes i 0 b) (deleteArtifact x repo path)
      (fun old => Owes i (due repo (parentDir (normalizePath path))
        (removedAmount (old.map Value.artifact))) b) (Owes i 0 b) := by
  have h : LedgerTriple x cm fuel i j (Owes i 0 b) (deleteArtifact x repo path) _ _ :=
    deleteArtifact_triple repo path
  exact h.consequence (fun _ _ hw => hw) (fun _ _ _ hw => hw.1) fun _ _ hw => hw

/-- `commit_ingestion`: the update for the record it has put is due. -/
theorem commitIngestion_triple (ctx : IngestionCtx) (path : String) (blobId : BlobId)
    (hash : String) (size : ℕ) (contentType : String) : LedgerTriple x cm fuel i j (Owes i 0 b)
      (commitIngestion x ctx path blobId hash size contentType)
      (fun result => OwesPut i ctx.repo path result.record.size result.oldRecord b)
      (Owes i 0 b) := by
  refine effects_bind effects_utcNow fun now => ?_
  refine effects_bind (effects_putDedupRecord (by decide) _ _) fun existing => ?_
  cases existing with
  | none =>
    refine FTriple.bind Owes.stable (put_triple ctx.repo path _) fun old => ?_
    exact fun w hi hw u hu hi' => Owes.stable w u hi hi' hu hw
  | some existing =>
    refine FTriple.bind (M := fun r => outcome (fun old => OwesPut i ctx.repo path size old b)
        (Owes i 0 b) r.2) Owes.stable ?_ fun r => ?_
    · refine FTriple.both_background (P := fun o => o.effect = .files)
        (fun o w ok s r ho hi hrule hx => ?_) (uses_attempt rfl)
        (fun _ => Owes.stable) Owes.stable (put_triple ctx.repo path _)
      obtain ⟨hi', hg⟩ := ledger_step hi hx
      exact ⟨(), hi', hg, files_kept ho hx⟩
    · refine FTriple.bind (M := fun old => OwesPut i ctx.repo path size old b) Owes.stable ?_
        fun old => ?_
      · exact FTriple.ofExcept (by cases r.2 <;> exact Owes.stable)
      · exact fun w hi hw u hu hi' => Owes.stable w u hi hi' hu hw

theorem hostedPut_triple (hf : j.raisesFlags = true) (h : HostedRepo)
    (path contentType : String) (data : Bytes) :
    Settles x cm fuel i j (HostedRepo.put x h path contentType data) := by
  have hingest : LedgerTriple x cm fuel i j (Owes i 0 false)
      (ingestArtifact x ⟨h.store, h.name⟩ path contentType data)
      (fun result => OwesPut i h.name path result.record.size result.oldRecord false)
      (Owes i 0 false) := by
    refine effects_bind effects_newUuid fun blobId => ?_
    refine effects_bind (effects_blobPut (by decide) _ _ _) fun _ => ?_
    exact commitIngestion_triple ⟨h.store, h.name⟩ path blobId _ _ contentType
  refine FTriple.bind Owes.stable hingest fun result => ?_
  refine FTriple.bind Owes.stable (recordPut_triple h.name path _ _) fun _ => ?_
  refine FTriple.when Owes.stable (fun _ => effects_triple (effects_storeChanged (by decide) _ _ _))
    (fun _ _ _ hw => hw) fun _ => ?_
  refine FTriple.bind Owes.stable (quiet_triple (quiet_markHelmStale hf h path)) fun _ => ?_
  exact pure_triple _

theorem hostedDelete_triple (hf : j.raisesFlags = true) (h : HostedRepo) (path : String) :
    Settles x cm fuel i j (HostedRepo.delete x h path) := by
  refine FTriple.bind Owes.stable (delete_triple h.name path) fun old => ?_
  cases old with
  | none =>
    refine Triple.weaken_pre (pure_triple _) fun w _ hw => ?_
    rwa [show removedAmount _ = 0 from rfl, due_zero] at hw
  | some old =>
    refine FTriple.bind Owes.stable (recordRemoved_triple h.name path old) fun _ => ?_
    refine FTriple.bind Owes.stable (quiet_triple (quiet_markHelmStale hf h path)) fun _ => ?_
    exact pure_triple _

theorem putArtifactHandler_triple (repo store path contentType : String) (body : List Bytes) :
    Settles x cm fuel i j (putArtifactHandler x repo store path contentType body) := by
  refine effects_bind effects_newUuid fun blobId => ?_
  have hfiles : Effect.files ∈ quietEffects := by decide
  have hstream : Effects quietEffects (do
      let inode ← createWriter store blobId
      let data ← writeBody (.dataIntegrity "body") (abortWriter store blobId) store blobId inode
        body []
      finishWriter
      pure data) :=
    (effects_createWriter hfiles _ _).bind fun _ =>
      (effects_writeBody hfiles _ (effects_abortWriter hfiles _ _) _ _ _ _ _).bind fun _ =>
        effects_finishWriter.bind fun _ => effects_pure _
  refine effects_bind hstream.capture fun streamed => ?_
  cases streamed with
  | error e =>
    exact effects_triple ((effects_blobDelete hfiles _ _).ignore.bind fun _ => effects_throw _)
  | ok data =>
    refine FTriple.bind Owes.stable (commitIngestion_triple ⟨store, repo⟩ path _ _ _ _)
      fun result => ?_
    refine FTriple.bind Owes.stable (recordPut_triple repo path _ _) fun _ => ?_
    refine FTriple.when Owes.stable
      (fun _ => effects_triple (effects_storeChanged (by decide) _ _ _)) (fun _ _ _ hw => hw)
      fun _ => ?_
    exact pure_triple _

theorem cacheCommit_triple (repo store path contentType etag : String)
    (upstreamHash : Option String) (now : DateTime) (body : List Bytes) : Settles x cm fuel i j
      (cacheCommit x repo store path contentType etag upstreamHash now body) := by
  have hfiles : Effect.files ∈ quietEffects := by decide
  refine effects_bind effects_newUuid fun blobId => ?_
  refine effects_bind (effects_createWriter hfiles _ _) fun inode => ?_
  refine effects_bind (effects_writeBody hfiles _ (effects_pure _) _ _ _ _ _) fun data => ?_
  refine effects_bind effects_finishWriter fun _ => ?_
  have hcommit : Settles x cm fuel i j (do
      let blobId' ← claimOrReuseBlobCounted x store ⟨blobId, x.blake3 data, data.length, now, store⟩
      let artifact := rawRecord now blobId' (x.blake3 data) etag data.length contentType
      let oldRecord ← putArtifact x repo path artifact
      recordPut repo path artifact oldRecord) := by
    refine effects_bind (effects_claimOrReuseBlobCounted (by decide)
      (by decide) hfiles _ _) fun blobId' => ?_
    refine FTriple.bind Owes.stable (put_triple repo path _) fun old => ?_
    exact recordPut_triple repo path _ _
  cases upstreamHash with
  | none => exact hcommit
  | some claimed =>
    by_cases hclaimed : claimed ≠ x.blake3 data
    · dsimp only
      rw [if_pos hclaimed]
      exact FTriple.bind Owes.stable (FTriple.throw Owes.stable) fun _ => hcommit
    · dsimp only
      rw [if_neg hclaimed]
      exact hcommit

/-! ## Docker repositories -/

section Docker

variable (d : DockerStore)

theorem putBlob_triple (data : Bytes) : Settles x cm fuel i j (DockerStore.putBlob x d data) := by
  have hfiles : Effect.files ∈ quietEffects := by decide
  refine effects_bind effects_newUuid fun blobId => ?_
  refine effects_bind effects_utcNow fun now => ?_
  refine effects_bind (effects_blobPut hfiles _ _ _) fun _ => ?_
  refine effects_bind (effects_putDedupRecordCounted (by decide)
    (by decide) _ _) fun existing => ?_
  refine FTriple.bind Owes.stable (put_triple d.repo _ _) fun old => ?_
  refine FTriple.bind Owes.stable (recordPut_triple d.repo _ _ _) fun _ => ?_
  refine FTriple.when Owes.stable
    (fun _ => effects_triple (effects_blobDelete hfiles _ _).ignore) (fun _ _ _ hw => hw)
    fun _ => ?_
  exact pure_triple _

theorem mountBlob_triple (digest : String) (blobId : BlobId) (hash : String) (size : ℕ) :
    Settles x cm fuel i j (DockerStore.mountBlob x d digest blobId hash size) := by
  refine effects_bind effects_utcNow fun now => ?_
  refine effects_bind (effects_putDedupRecordCounted (by decide)
    (by decide) _ _) fun existing => ?_
  refine FTriple.bind Owes.stable (put_triple d.repo _ _) fun old => ?_
  refine FTriple.bind Owes.stable (recordPut_triple d.repo _ _ _) fun _ => ?_
  exact pure_triple _

theorem putCachedBlob_triple (blobId : BlobId) (digest hash : String) (size : ℕ) :
    Settles x cm fuel i j (DockerStore.putCachedBlob x d blobId digest hash size) := by
  refine effects_bind effects_utcNow fun now => ?_
  refine effects_bind (effects_putDedupRecordCounted (by decide)
    (by decide) _ _) fun existing => ?_
  refine FTriple.bind Owes.stable (put_triple d.repo _ _) fun old => ?_
  refine FTriple.bind Owes.stable (recordPut_triple d.repo _ _ _) fun _ => ?_
  split_ifs
  · exact effects_triple (effects_blobDelete (by decide) _ _).ignore
  · exact pure_triple _

theorem putManifest_triple (reference contentType : String) (data : Bytes) :
    Settles x cm fuel i j (DockerStore.putManifest x d reference contentType data) := by
  have hfiles : Effect.files ∈ quietEffects := by decide
  refine effects_bind effects_utcNow fun now => ?_
  refine effects_bind effects_newUuid fun newId => ?_
  refine effects_bind (effects_blobPut hfiles _ _ _) fun _ => ?_
  refine effects_bind (effects_claimOrReuseBlobCounted (by decide)
    (by decide) hfiles _ _) fun blobId => ?_
  have hlast : ∀ path record, Settles x cm fuel i j (do
      let old ← putArtifact x d.repo path record
      recordPut d.repo path record old
      pure (sha256Digest x data)) := by
    intro path record
    refine FTriple.bind Owes.stable (put_triple d.repo path record) fun old => ?_
    refine FTriple.bind Owes.stable (recordPut_triple d.repo path record old) fun _ => ?_
    exact pure_triple _
  dsimp only
  split_ifs
  · refine FTriple.bind Owes.stable (put_triple d.repo _ _) fun old => ?_
    refine FTriple.bind Owes.stable (recordPut_triple d.repo _ _ old) fun _ => ?_
    exact hlast _ _
  · exact hlast _ _

/-- A deleted manifest does not exist. -/
theorem deleteManifest_triple (digest : String) (hdel : j = .deleteManifest d digest) :
    Settles x cm fuel i j (DockerStore.deleteManifest x d digest) := by
  refine FTriple.bind Owes.stable (deleteArtifact_triple d.repo _) fun old => ?_
  refine FTriple.assume fun hzero => ?_
  rw [hzero ⟨d, digest, hdel⟩, due_zero]
  exact pure_triple _

end Docker

/-! ### Promotion -/

section Promotion

variable (t : CopyTarget)

theorem copyRecord_triple (path : String) :
    Settles x cm fuel i j (CopyTarget.copyRecord x t path) := by
  refine effects_bind (effects_getArtifact _ _) fun record => ?_
  cases record with
  | none => exact pure_triple _
  | some record =>
    have hrest : ∀ dest : ArtifactRecord × ℕ, Settles x cm fuel i j (do
        let old ← putArtifact x t.destRepo path dest.1
        recordPut t.destRepo path dest.1 old
        if 0 < dest.2 then storeChanged t.destStore 1 dest.2
        pure 1) := by
      intro dest
      refine FTriple.bind Owes.stable (put_triple t.destRepo path dest.1) fun old => ?_
      refine FTriple.bind Owes.stable (recordPut_triple t.destRepo path _ old) fun _ => ?_
      refine FTriple.when Owes.stable
        (fun _ => effects_triple (effects_storeChanged (by decide) _ _ _)) (fun _ _ _ hw => hw)
        fun _ => ?_
      exact pure_triple _
    dsimp only
    split_ifs
    · exact hrest _
    · exact FTriple.bind Owes.stable
        (effects_triple (effects_rehomeBlob (by decide) (by decide) t record)) hrest

theorem copyAll_triple (paths : List String) (copied : ℕ) :
    Settles x cm fuel i j
      (Fallible.fold (fun (copied : ℕ) path => do
        let n ← CopyTarget.copyRecord x t path
        pure (copied + n)) paths copied) := by
  refine FTriple.fold (I := fun _ _ => Owes i 0 false) (fun _ => Owes.stable) Owes.stable
    fun done path rest copied _ => ?_
  exact FTriple.bind Owes.stable (copyRecord_triple t path) fun n => pure_triple _

theorem deleteTag_triple (repo : String) (image : Option String) (tag : String) :
    Settles x cm fuel i j (deleteTag x repo image tag) := by
  refine FTriple.bind Owes.stable (delete_triple repo _) fun old => ?_
  cases old with
  | none =>
    refine Triple.weaken_pre (pure_triple _) fun w _ hw => ?_
    rwa [show removedAmount _ = 0 from rfl, due_zero] at hw
  | some old =>
    refine FTriple.bind Owes.stable (recordRemoved_triple repo _ old) fun _ => ?_
    exact pure_triple _

theorem copyTag_triple (image : Option String) (tag : String) (deleteSource overwrite : Bool) :
    Settles x cm fuel i j (copyTag x cm fuel t image tag deleteSource overwrite) := by
  refine effects_bind (effects_getArtifact _ _) fun tagRec => ?_
  cases tagRec with
  | none => exact FTriple.throw Owes.stable
  | some tagRec =>
    have hcopy : ∀ rootDigest, Settles x cm fuel i j (do
        let closure ← manifestClosure x cm t image tag fuel [rootDigest] [] []
        let copyAll := Fallible.fold (fun (copied : ℕ) path => do
          let n ← CopyTarget.copyRecord x t path
          pure (copied + n))
        let blobDigests := closure.2.dedup.insertionSort (· ≤ ·)
        let copied ← copyAll (blobDigests.map blobRefPathFor) 0
        let copied ← copyAll (closure.1.map (manifestPathFor image)) copied
        let copied ← copyAll [tagPathFor image tag] copied
        if deleteSource then
          let _ ← deleteTag x t.sourceRepo image tag
        pure copied) := by
      intro rootDigest
      refine effects_bind (effects_manifestClosure _ _ _ _ _ _ _ _) fun closure => ?_
      refine FTriple.bind Owes.stable (copyAll_triple t _ 0) fun copied => ?_
      refine FTriple.bind Owes.stable (copyAll_triple t _ copied) fun copied => ?_
      refine FTriple.bind Owes.stable (copyAll_triple t _ copied) fun copied => ?_
      dsimp only
      split_ifs
      · exact FTriple.bind Owes.stable (deleteTag_triple t.sourceRepo image tag) fun _ =>
          pure_triple _
      · exact pure_triple _
    dsimp only
    cases tagRec.kind with
    | dockerTag rootDigest tag' =>
      cases overwrite with
      | true => exact hcopy rootDigest
      | false =>
        refine effects_bind (effects_getArtifact _ _) fun existing => ?_
        cases existing with
        | none => exact hcopy rootDigest
        | some old =>
          refine FTriple.bind (M := fun _ => Owes i 0 false) Owes.stable
            (FTriple.throw Owes.stable) fun _ => ?_
          exact hcopy rootDigest
    | _ => exact FTriple.throw Owes.stable

end Promotion

/-! ### Uploads -/

section Uploads

variable (d : DockerStore)

theorem tryMount_triple (params : UploadInitParams) :
    Settles x cm fuel i j (tryMount x d params) := by
  unfold tryMount
  cases params.mount with
  | none => exact pure_triple _
  | some mountDigest =>
    cases params.fromRepo with
    | none => exact pure_triple _
    | some fromRepo =>
      refine effects_bind (effects_blobExists d _).okSome fun here => ?_
      cases here with
      | some _ => exact pure_triple _
      | none =>
        refine effects_bind (effects_check _) fun _ => ?_
        refine effects_bind (effects_getRepo _).okSome fun config => ?_
        cases config with
        | none => exact pure_triple _
        | some config =>
          refine effects_bind (effects_storesGet _) fun found => ?_
          cases found with
          | false => exact pure_triple _
          | true =>
            refine effects_bind (effects_blobExists _ _).okSome fun source => ?_
            cases source with
            | none => exact pure_triple _
            | some source =>
              obtain ⟨size, blobId, contentHash⟩ := source
              exact FTriple.bind Owes.stable (mountBlob_triple d _ blobId contentHash size)
                fun _ => pure_triple _

/-- An uploaded blob is credited as a new one, which it is: the record is
    written where there was none. -/
theorem putNew_triple (hc : j.creditsAlways = true) (repo path : String) (record : ArtifactRecord) :
    LedgerTriple x cm fuel i j (Owes i 0 true) (putArtifact x repo path record)
      (fun _ => Owes i (due repo (parentDir (normalizePath path)) (1, record.size)) true)
      (Owes i 0 true) := by
  have h : LedgerTriple x cm fuel i j (Owes i 0 true) (putArtifact x repo path record) _ _ :=
    putArtifact_triple repo path record
  refine h.consequence (fun _ _ hw => hw) (fun old w _ hw => ?_) fun _ _ hw => hw
  obtain ⟨howes, hnew⟩ := hw
  rw [hnew hc rfl] at howes
  exact howes

theorem monolithicUpload_triple (hc : j.creditsAlways = true) (digest : String)
    (body : List Bytes) : Settles x cm fuel i j (monolithicUpload x d digest body) := by
  have hfiles : Effect.files ∈ quietEffects := by decide
  refine effects_bind effects_newUuid fun blobId => ?_
  refine FTriple.bind Owes.stable (createWriter_triple d.store blobId) fun inode => ?_
  refine LedgerTriple.forget ?_
  refine effects_bind (effects_writeBody hfiles _
    (effects_abortWriter hfiles _ _) _ _ _ _ _) fun data => ?_
  have hcommit : LedgerTriple x cm fuel i j (Owes i 0 true) (do
      finishWriter
      let now ← utcNow
      let path := blobRefPathFor (sha256Digest x data)
      let existing ← putDedupRecordCounted x d.store
        ⟨blobId, x.blake3 data, data.length, now, d.store⟩
      let record := DockerStore.blobRefRecord now (sha256Digest x data) (existing.getD blobId)
        (x.blake3 data) data.length
      let _ ← putArtifact x d.repo path record
      if existing.isSome then Fallible.ignore (blobDelete d.store blobId)
      dirChanged d.repo path 1 data.length
      pure (UploadResponse.created (sha256Digest x data))) (fun _ => Owes i 0 true) (Owes i 0 true) := by
    refine effects_bind effects_finishWriter fun _ => ?_
    refine effects_bind effects_utcNow fun now => ?_
    refine effects_bind (effects_putDedupRecordCounted (by decide)
      (by decide) _ _) fun existing => ?_
    refine FTriple.bind Owes.stable (putNew_triple hc d.repo _ _) fun old => ?_
    refine FTriple.when Owes.stable (fun _ => quiet_ignore (effects_blobDelete hfiles _ _).quiet)
      (fun _ _ _ hw => hw) fun _ => ?_
    refine FTriple.bind Owes.stable (dirChanged_triple d.repo _ 1 data.length) fun _ => ?_
    exact pure_triple _
  by_cases hdigest : sha256Digest x data ≠ digest
  · dsimp only
    rw [if_pos hdigest]
    refine effects_bind (effects_abortWriter hfiles _ _) fun _ => ?_
    refine FTriple.bind (M := fun _ => Owes i 0 true) Owes.stable (FTriple.throw Owes.stable)
      fun _ => ?_
    exact hcommit
  · dsimp only
    rw [if_neg hdigest]
    exact hcommit

theorem doStartUpload_triple (hc : j.creditsAlways = true) (params : UploadInitParams)
    (body : List Bytes) : Settles x cm fuel i j (doStartUpload x d params body) := by
  refine FTriple.bind Owes.stable (tryMount_triple d params) fun response => ?_
  cases response with
  | some response => exact pure_triple _
  | none =>
    dsimp only
    cases params.digest with
    | some digest => exact monolithicUpload_triple d hc digest body
    | none => exact effects_triple (effects_startSession (by decide) (by decide) d body)

end Uploads

end

/-! ### Completing an upload -/

/-- Writing the last chunk of an upload. -/
theorem finalChunk_triple (store : String) (body : List Bytes) :
    LedgerTriple x cm fuel i j (Owes i 0 false) (finalChunk store body)
      (fun _ => Owes i 0 true) (Owes i 0 false) := by
  have hfiles : Effect.files ∈ quietEffects := by decide
  refine effects_bind effects_newUuid fun chunkId => ?_
  refine FTriple.bind Owes.stable (createWriter_triple store chunkId) fun inode => ?_
  refine LedgerTriple.forget_err ?_
  refine effects_bind (effects_writeBody hfiles _
    (effects_abortWriter hfiles _ _) _ _ _ _ _) fun data => ?_
  split_ifs
  · exact effects_bind (effects_abortWriter hfiles _ _) fun _ =>
      pure_triple _
  · exact effects_bind effects_finishWriter fun _ => pure_triple _

section

variable {repoName effectiveRepo uuid digest : String} {image : Option String} {body : List Bytes}
variable (hj : j = .completeUpload repoName effectiveRepo image uuid digest body)
include hj

/-- The removal of a completed session goes through. -/
theorem deleteUploadSession_triple {debt : String → String → ℤ × ℤ} {b : Bool}
    {err : View LedgerState WriteJob Unit → Prop} (hs : (ledgerLogic.contract i j).Stable err) :
    LedgerTriple x cm fuel i j (Owes i debt b) (deleteUploadSession uuid)
      (fun _ => Owes i debt b) err := by
  refine FTriple.bind hs (FTriple.attempt Owes.stable (fun _ => Owes.stable) hs
    fun w ok s r hi hw hrule hx => ?_) fun _ => pure_triple _
  have hquiet : Quiet j (.write (uploadSessionKey uuid) .remove) := by
    refine .inl ⟨?_, ?_⟩
    · show Effect.table .uploadSessions ≠ _
      nofun
    · show Effect.table .uploadSessions ≠ _
      nofun
  obtain ⟨hi', hg⟩ := ledger_step hi hx
  obtain ⟨hm, hsent, hb⟩ := quiet_note hquiet hrule hx
  obtain rfl : ok = true := by
    subst hj
    exact (Bool.and_eq_true_iff.mp hrule).1
  cases hx
  exact ⟨(), hi', hg, fun _ _ => hw.quiet hm hsent hb, nofun⟩

theorem commitUpload_triple (session : UploadSessionRecord) (computed hash : String) (size : ℕ)
    (now : DateTime) : LedgerTriple x cm fuel i j (Owes i 0 true)
      (commitUpload x uuid session computed hash size now)
      (fun _ => Owes i (due session.repo (parentDir (normalizePath (blobRefPathFor computed)))
        (1, size)) true) (Owes i 0 true) := by
  have hcredit : j.creditsAlways = true := by rw [hj]; rfl
  refine effects_bind (effects_putDedupRecordCounted (by decide)
    (by decide) _ _) fun existing => ?_
  refine FTriple.bind Owes.stable (putNew_triple hcredit session.repo _ _) fun _ => ?_
  refine FTriple.bind Owes.stable (deleteUploadSession_triple hj Owes.stable) fun _ => ?_
  exact pure_triple _

theorem completeSession_triple (session : UploadSessionRecord) :
    Settles x cm fuel i j (completeSession x uuid session digest body) := by
  have hfiles : Effect.files ∈ quietEffects := by decide
  refine effects_bind (effects_resolveBlobStore _) fun _ => ?_
  refine FTriple.bind Owes.stable (finalChunk_triple session.store body) fun final => ?_
  refine LedgerTriple.forget ?_
  refine effects_bind (effects_createWriter hfiles _ _) fun inode => ?_
  refine effects_bind (effects_assembleChunks hfiles _ _ _ _ _) fun data => ?_
  refine effects_bind effects_finishWriter fun _ => ?_
  have hcommit : LedgerTriple x cm fuel i j (Owes i 0 true) (do
      let now ← utcNow
      let dedup ← commitUpload x uuid session (sha256Digest x data) (x.blake3 data)
        (session.size + final.2) now
      if dedup.isSome then Fallible.ignore (blobDelete session.store session.blobId)
      Fallible.each (fun chunkId => Fallible.ignore (blobDelete session.store chunkId))
        (session.chunkBlobIds ++ final.1)
      dirChanged session.repo (blobRefPathFor (sha256Digest x data)) 1
        ((session.size + final.2 : ℕ) : ℤ)
      pure (UploadResponse.created (sha256Digest x data)))
      (fun _ => Owes i 0 true) (Owes i 0 true) := by
    refine effects_bind effects_utcNow fun now => ?_
    refine FTriple.bind Owes.stable (commitUpload_triple hj session _ _ _ now) fun dedup => ?_
    refine FTriple.when Owes.stable (fun _ => quiet_ignore (effects_blobDelete hfiles _ _).quiet)
      (fun _ _ _ hw => hw) fun _ => ?_
    refine FTriple.bind Owes.stable (FTriple.each (I := fun _ => Owes i _ true) Owes.stable
      Owes.stable fun _ _ _ _ => quiet_ignore (effects_blobDelete hfiles _ _).quiet) fun _ => ?_
    refine FTriple.bind Owes.stable (dirChanged_triple session.repo _ 1 _) fun _ => ?_
    exact pure_triple _
  by_cases hdigest : sha256Digest x data ≠ digest
  · dsimp only
    rw [if_pos hdigest]
    refine effects_bind (effects_blobDelete hfiles _ _).ignore fun _ => ?_
    refine FTriple.bind (M := fun _ => Owes i 0 true) Owes.stable (FTriple.throw Owes.stable)
      fun _ => ?_
    exact hcommit
  · dsimp only
    rw [if_neg hdigest]
    exact hcommit

theorem doCompleteUpload_triple :
    Settles x cm fuel i j (doCompleteUpload x repoName effectiveRepo image uuid digest body) := by
  refine effects_bind (effects_getUploadSession uuid) fun session => ?_
  cases session with
  | none => exact FTriple.throw Owes.stable
  | some session =>
    dsimp only
    split_ifs
    · exact FTriple.throw Owes.stable
    · exact completeSession_triple hj session

end

end Depot
