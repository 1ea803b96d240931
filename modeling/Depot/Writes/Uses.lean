import Depot.Dedup.Outline
import Depot.Writes.Handlers

/-!
# Which operations the write handlers issue

A handler that commits files to a store issues operations of that store only: it writes and
deletes blobs of the store, records them there and credits it.

Results:
* `uses_claimData`, `uses_commitRecord`: the parts that the handlers share.
* `uses_uploadHandler` and siblings: the operations of each handler.
-/

namespace Depot

open Lib
open Fallible (Uses uses_attempt uses_check uses_ofExcept)

variable {x : Ext} {p : PackageExt}

/-- The operations by which a blob is committed to a store: apart from harmless ones they write
    artifact records, record the blob, change its file and credit the store. -/
inductive CommitOp (x : Ext) (store : String) (b : BlobId) : Op → Prop where
  | harmless {o : Op} (h : Harmless o) : CommitOp x store b o
  | artifact (k : Key) (r : ArtifactRecord) (e : Option ℕ) :
      CommitOp x store b (.write k (.putIf (.artifact r) e))
  | put (r : BlobRecord) (h : r.blobId = b) :
      CommitOp x store b (.write (blobKey x.shardOf store r.hash) (.put (.blob r)))
  | putIf (r : BlobRecord) (e : Option ℕ) (h : r.blobId = b) :
      CommitOp x store b (.write (blobKey x.shardOf store r.hash) (.putIf (.blob r) e))
  | file (o : BlobOp) (h : ∀ b', o.changes = some b' → b' = b) : CommitOp x store b (.blob store o)
  | credit (count bytes : ℤ) : CommitOp x store b (.send (.store store count bytes))

/-- Operations that commit some blob to a store. -/
def StoreOp (x : Ext) (store : String) (o : Op) : Prop := ∃ b, CommitOp x store b o

/-- An operation that leaves a blob alone. -/
def Spares (z : BlobId) : Op → Prop
  | .write _ (.put (.blob b)) => b.blobId ≠ z
  | .write _ (.putIf (.blob b) _) => b.blobId ≠ z
  | .write _ (.put (.session _)) => False
  | .write _ (.putIf (.session _) _) => False
  | .blob _ o => o.changes ≠ some z
  | _ => True

variable {store : String} {b : BlobId} {P : Op → Prop} {α : Type} {q : Async α}

theorem Harmless.spares {o : Op} (h : Harmless o) (z : BlobId) : Spares z o := by
  cases o with
  | blob store o => cases o <;> first | exact h.elim | exact nofun
  | write k c =>
    cases c with
    | put v => cases v <;> first | exact h.elim | trivial
    | putIf v e => cases v <;> first | exact h.elim | trivial
    | remove => trivial
    | removeIf e => exact h.elim
  | _ => trivial

/-- What commits a blob leaves the others alone. -/
theorem CommitOp.spares {o : Op} (h : CommitOp x store b o) {z : BlobId} (hz : b ≠ z) :
    Spares z o := by
  cases h with
  | harmless h => exact h.spares z
  | artifact k r e => trivial
  | put r h => exact fun hc => hz (h.symm.trans hc)
  | putIf r e h => exact fun hc => hz (h.symm.trans hc)
  | file o h => exact fun hc => hz (h z hc).symm
  | credit count bytes => trivial

/-! ## Parts -/

/-- A function that commits a blob to the store. -/
abbrev Commits (x : Ext) (store : String) (b : BlobId) (q : Async α) : Prop :=
  Uses (CommitOp x store b) q

/-- A function that only works in the store. -/
abbrev Stays (x : Ext) (store : String) (q : Async α) : Prop := Uses (StoreOp x store) q

theorem Commits.stays (h : Commits x store b q) : Stays x store q :=
  Uses.mono (fun _ ho => ⟨b, ho⟩) h

theorem commits_harmless (h : Uses Harmless q) : Commits x store b q :=
  Uses.mono (fun _ => .harmless) h

theorem commits_effects (h : Effects [.dirStats] q) : Commits x store b q :=
  commits_harmless h.harmless

theorem stays_effects (h : Effects [.dirStats] q) : Stays x store q :=
  (commits_effects (b := "") h).stays

theorem stays_harmless (h : Uses Harmless q) : Stays x store q :=
  (commits_harmless (b := "") h).stays

theorem commits_blobPut (data : Bytes) : Commits x store b (blobPut store b data) :=
  uses_attempt (.file _ fun _ h => (Option.some.inj h).symm)

theorem commits_blobDelete : Commits x store b (blobDelete store b) :=
  uses_attempt (.file _ fun _ h => (Option.some.inj h).symm)

theorem commits_createWriter : Commits x store b (createWriter store b) :=
  uses_attempt (.file _ fun _ h => (Option.some.inj h).symm)

theorem commits_writeChunk (inode offset : ℕ) (data : Bytes) :
    Commits x store b (writeChunk store b inode offset data) :=
  uses_attempt (.file _ fun _ h => (Option.some.inj h).symm)

theorem commits_abortWriter : Commits x store b (abortWriter store b) :=
  Uses.ignore commits_blobDelete

theorem commits_writeBody (e : DepotError) (inode : ℕ) (body : List Bytes) (data : Bytes) :
    Commits x store b (writeBody e (abortWriter store b) store b inode body data) := by
  induction body generalizing data with
  | nil => trivial
  | cons chunk body ih =>
    refine Uses.bind (Uses.capture (Uses.bind (uses_check e) fun _ => ?_)) fun r => ?_
    · split_ifs
      · trivial
      · exact commits_writeChunk inode data.length chunk
    · cases r with
      | ok _ => exact ih _
      | error e => exact Uses.bind commits_abortWriter fun _ => trivial

theorem uses_putDedupRecord (hash : String) (size : ℕ) (now : DateTime) :
    Commits x store b (putDedupRecord x store ⟨b, hash, size, now, store⟩) := by
  let record : BlobRecord := ⟨b, hash, size, now, store⟩
  refine (uses_attempt (.putIf record none rfl)).bind fun written => ?_
  cases written with
  | true => trivial
  | false =>
    refine (commits_effects (effects_typedGet _ _)).bind fun existing => ?_
    cases existing with
    | some e => trivial
    | none => exact (uses_attempt (.put record rfl)).bind fun _ => trivial

theorem uses_storeChanged (count bytes : ℤ) : Commits x store b (storeChanged store count bytes) :=
  (Fallible.uses_issue (P := CommitOp x store b) (o := .send (.store store count bytes))
    (.credit _ _)).bind fun _ => trivial

theorem uses_putDedupRecordCounted (hash : String) (size : ℕ) (now : DateTime) :
    Commits x store b (putDedupRecordCounted x store ⟨b, hash, size, now, store⟩) := by
  refine (uses_putDedupRecord _ _ _).bind fun existing => ?_
  cases existing with
  | none => exact (uses_storeChanged _ _).bind fun _ => trivial
  | some e => trivial

/-- The claim of the hash of a blob. -/
theorem uses_claimData (now : DateTime) (data : Bytes) :
    Commits x store b (claimData x store now b data) := by
  refine (uses_putDedupRecordCounted _ _ _).bind fun existing => ?_
  cases existing with
  | none => trivial
  | some e =>
    dsimp only [reuseBlob]
    split_ifs
    · exact (Uses.ignore commits_blobDelete).bind fun _ => trivial
    · trivial

theorem uses_putArtifact (repo path : String) (r : ArtifactRecord) :
    Commits x store b (putArtifact x repo path r) := by
  have hattempts : ∀ n, Commits x store b (putArtifactAttempts x repo path r n) := by
    intro n
    induction n with
    | zero => trivial
    | succ n ih =>
      refine (commits_effects (effects_typedGetVersioned _ _)).bind fun old => ?_
      refine (uses_attempt (.artifact _ _ _)).bind fun written => ?_
      cases written with
      | true => exact (commits_harmless (harmless_upsertTreeFile _ _ _)).bind fun _ => trivial
      | false => exact ih
  unfold putArtifact
  split_ifs
  · trivial
  · exact hattempts _

theorem uses_commitRecord (repo path : String) (r : ArtifactRecord) :
    Commits x store b (commitRecord x repo path r) :=
  (uses_putArtifact repo path r).bind fun _ => commits_effects (effects_recordPut _ _ _ _)

/-! ## Parts of the handlers -/

variable {es : List Effect}

theorem effects_blobStore (name : String) : Effects es (blobStore name) := by
  refine (effects_storesGet name).bind fun found => ?_
  cases found with
  | true => exact effects_pure _
  | false => exact effects_throw _

theorem effects_readBack (name : String) (blobId : BlobId) : Effects es (readBack name blobId) := by
  refine (effects_blobRead _ _).bind fun data => ?_
  cases data with
  | some data => exact effects_pure _
  | none => exact effects_throw _

theorem harmless_raiseFlag (repo path : String) (kind : ArtifactKind) :
    Uses Harmless (raiseFlag x repo path kind) :=
  effects_utcNow.harmless.bind fun _ =>
    (harmless_putArtifactIfAbsent _ _ rfl).bind fun _ => trivial

theorem harmless_propagateToParents (repo : String) (format : ArtifactFormat) (path : String) :
    Uses Harmless (propagateToParents x repo format path) :=
  Uses.ignore (harmless_propagateStaleness _ _ _)

theorem uses_streamField (body : List Bytes) : Stays x store (streamField store body) := by
  refine (stays_effects effects_newUuid).bind fun b => Commits.stays (b := b) ?_
  refine commits_createWriter.bind fun inode => ?_
  exact (commits_writeBody _ _ _ _).bind fun _ => (uses_check _).bind fun _ => trivial

theorem uses_streamBody (body : List Bytes) : Stays x store (streamBody store body) := by
  refine (stays_effects effects_newUuid).bind fun b => Commits.stays (b := b) ?_
  refine Uses.bind (Uses.capture (commits_createWriter.bind fun inode => ?_)) fun r => ?_
  · exact (commits_writeBody _ _ _ _).bind fun _ => (uses_check _).bind fun _ => trivial
  · cases r with
    | ok data => trivial
    | error e => exact (Uses.ignore commits_blobDelete).bind fun _ => trivial

theorem uses_readForm (fileField defaultName : String) (fields : List FormField) :
    Stays x store (readForm store fileField defaultName fields) := by
  refine Uses.fold fun form field _ => ?_
  unfold readField
  split_ifs
  · exact (uses_streamField _).bind fun _ => trivial
  · trivial

theorem uses_formFile (fileField : String) (form : UploadForm) :
    Uses P (formFile fileField form) := by
  unfold formFile
  cases form.file <;> trivial

theorem uses_commitFile (repo path contentType : String) (kind : ArtifactKind) (data : Bytes) :
    Commits x store b (commitFile x repo store path contentType kind b data) :=
  (commits_effects effects_utcNow).bind fun _ =>
    (uses_claimData _ _).bind fun _ => uses_commitRecord _ _ _

theorem uses_npmStoreBytes (now : DateTime) (data : Bytes) :
    Stays x store (npmStoreBytes x store now data) :=
  (stays_effects effects_newUuid).bind fun b => Commits.stays (b := b)
    ((commits_blobPut _).bind fun _ => uses_claimData _ _)

/-! ## The handlers -/

section

variable {repo : String}

theorem uses_aptCommitPackage (distribution component : String) (file : StreamedFile) :
    Stays x store (aptCommitPackage x p repo store distribution component file) := by
  refine (stays_effects (effects_readBack _ _)).bind fun _ => ?_
  refine (uses_ofExcept _).bind fun _ => ?_
  exact (uses_commitFile _ _ _ _ _).stays.bind fun _ =>
    stays_harmless (harmless_raiseFlag _ _ _)

theorem uses_yumCommitPackage (directory filename : String) (data : Bytes) :
    Stays x store (yumCommitPackage x p repo store directory filename b data) := by
  refine (stays_effects (effects_readBack _ _)).bind fun _ => ?_
  refine (uses_ofExcept _).bind fun _ => ?_
  exact (uses_commitFile _ _ _ _ _).stays.bind fun _ =>
    stays_harmless (harmless_raiseFlag _ _ _)

theorem uses_helmCommitChart (data : Bytes) :
    Stays x store (helmCommitChart x p repo store b data) := by
  refine (stays_effects (effects_readBack _ _)).bind fun _ => ?_
  refine (uses_ofExcept _).bind fun chart => ?_
  refine (stays_effects effects_utcNow).bind fun now => ?_
  refine Uses.bind (Commits.stays (b := b) (uses_attempt (.put _ rfl))) fun _ => ?_
  exact Uses.bind (uses_commitRecord (b := b) _ _ _).stays fun _ =>
    stays_harmless (harmless_raiseFlag _ _ _)

theorem uses_pypiCommitPackage (name version : String) (expectedSha256 : Option String)
    (file : StreamedFile) :
    Stays x store (pypiCommitPackage x p repo store name version expectedSha256 file) := by
  unfold pypiCommitPackage
  cases expectedSha256 with
  | none => exact (uses_commitFile _ _ _ _ _).stays
  | some expected =>
    dsimp only
    split_ifs
    · trivial
    · exact (uses_commitFile _ _ _ _ _).stays

theorem uses_golangStoreFile (module version fileType contentType : String) (data : Bytes) :
    Commits x store b
      (golangStoreFile x repo store module version fileType contentType data b) := by
  refine (commits_effects effects_utcNow).bind fun now => (commits_blobPut _).bind fun _ => ?_
  exact (uses_claimData _ _).bind fun _ => uses_commitRecord _ _ _

theorem uses_golangPutGiven (module version fileType contentType : String) (data : Option Bytes) :
    Stays x store (golangPutGiven x repo store module version fileType contentType data) := by
  cases data with
  | none => trivial
  | some data =>
    exact (stays_effects effects_newUuid).bind fun b =>
      (uses_golangStoreFile (b := b) _ _ _ _ _).stays

theorem uses_golangCommitZip (module version : String) (file : Option StreamedFile) :
    Stays x store (golangCommitZip x repo store module version file) := by
  cases file with
  | none => trivial
  | some file => exact (uses_commitFile _ _ _ _ _).stays

theorem effects_npmGetDistTags (name : String) :
    Effects es (npmGetDistTags x p repo store name) := by
  refine (effects_getArtifact _ _).bind fun record => ?_
  cases record with
  | none => exact effects_pure _
  | some record =>
    obtain ⟨blobId, hblob⟩ : ∃ blobId, record.blobId = blobId := ⟨_, rfl⟩
    simp only [hblob]
    cases blobId with
    | none => exact effects_pure _
    | some blobId =>
      refine (effects_blobRead _ _).bind fun data => ?_
      cases data <;> exact effects_pure _

theorem uses_npmPutPackage (name version filename : String) (data metadata : Bytes)
    (distTags : Tags) :
    Stays x store (npmPutPackage x p repo store name version filename data metadata distTags) := by
  refine (stays_effects effects_newUuid).bind fun b => ?_
  refine (stays_effects effects_utcNow).bind fun now => ?_
  refine Uses.bind (commits_blobPut (b := b) _).stays fun _ => ?_
  refine Uses.bind (uses_claimData (b := b) _ _).stays fun _ => ?_
  refine (uses_npmStoreBytes _ _).bind fun _ => ?_
  refine Uses.bind (stays_effects (effects_npmGetDistTags _).capture) fun _ => ?_
  refine (uses_npmStoreBytes _ _).bind fun _ => ?_
  have hrecord : ∀ path r, Stays x store (commitRecord x repo path r) := fun path r =>
    (uses_commitRecord (b := "") repo path r).stays
  exact (hrecord _ _).bind fun _ => (hrecord _ _).bind fun _ => hrecord _ _

theorem uses_cargoCommit (name version : String) (data : Bytes) :
    Stays x store (cargoCommitCrate x p repo store name version b data) :=
  (uses_commitFile _ _ _ _ _).stays

theorem uses_commitIngestion (path hash : String) (size : ℕ) (contentType : String) :
    Commits x store b (commitIngestion x ⟨store, repo⟩ path b hash size contentType) := by
  refine (commits_effects effects_utcNow).bind fun now => ?_
  refine (uses_putDedupRecord _ _ _).bind fun existing => ?_
  cases existing with
  | some e =>
    refine Uses.bind (Uses.both commits_blobDelete (uses_putArtifact _ _ _)) fun r => ?_
    exact (uses_ofExcept _).bind fun _ => trivial
  | none => exact (uses_putArtifact _ _ _).bind fun _ => trivial

theorem uses_putArtifactHandler (path contentType : String) (body : List Bytes) :
    Stays x store (putArtifactHandler x repo store path contentType body) := by
  refine (stays_effects effects_newUuid).bind fun b => Commits.stays (b := b) ?_
  refine Uses.bind (Uses.capture (commits_createWriter.bind fun inode => ?_)) fun streamed => ?_
  · exact (commits_writeBody _ _ _ _).bind fun _ => (uses_check _).bind fun _ => trivial
  · cases streamed with
    | error e => exact (Uses.ignore commits_blobDelete).bind fun _ => trivial
    | ok data =>
      refine (uses_commitIngestion _ _ _ _).bind fun result => ?_
      refine (commits_effects (effects_recordPut _ _ _ _)).bind fun _ => ?_
      cases result.newBlob with
      | true => exact (uses_storeChanged _ _).bind fun _ => trivial
      | false => trivial

end

section

variable (r : Route)

theorem uses_uploadHandler (fields : List FormField) :
    Stays x r.target.store (uploadHandler x p r fields) := by
  have hparents : ∀ format path, Stays x r.target.store
      (propagateToParents x r.addressed.name format path) := fun format path =>
    stays_harmless (harmless_propagateToParents _ _ _)
  have hform : ∀ {field name : String} {f : UploadForm → Async Unit},
      (∀ form, Stays x r.target.store (f form)) → Stays x r.target.store (do
        let form ← readForm r.target.store field name fields
        f form) := fun hf => (uses_readForm _ _ _).bind hf
  unfold uploadHandler
  cases r.addressed.format with
  | apt =>
    refine hform fun form => (uses_formFile _ form).bind fun file => ?_
    exact (uses_aptCommitPackage _ _ _).bind fun _ => hparents _ _
  | yum =>
    refine hform fun form => (uses_formFile _ form).bind fun file => ?_
    exact (uses_yumCommitPackage _ _ _).bind fun _ => hparents _ _
  | helm =>
    refine hform fun form => (uses_formFile _ form).bind fun file => ?_
    exact (uses_helmCommitChart _).bind fun _ => hparents _ _
  | pypi =>
    refine hform fun form => ?_
    cases form.text p "name" with
    | none => trivial
    | some name =>
      dsimp only
      cases form.text p "version" with
      | none => trivial
      | some version =>
        refine (uses_formFile _ form).bind fun file => ?_
        refine (uses_pypiCommitPackage _ _ _ _).bind fun _ => ?_
        refine Uses.bind (stays_harmless (Uses.ignore (harmless_raiseFlag _ _ _)))
          fun _ => hparents _ _
  | golang =>
    refine hform fun form => ?_
    cases form.text p "module" with
    | none => trivial
    | some module =>
      dsimp only
      cases form.text p "version" with
      | none => trivial
      | some version =>
        refine (uses_golangPutGiven _ _ _ _ _).bind fun _ => ?_
        exact (uses_golangPutGiven _ _ _ _ _).bind fun _ => uses_golangCommitZip _ _ _
  | _ => trivial

theorem uses_npmPublishInner (package : String) (body : Bytes) :
    Stays x r.target.store (npmPublishInner x p r package body) := by
  have hobject : ∀ payload field, Stays x r.target.store (bodyObject payload field) := by
    intro payload field
    unfold bodyObject
    cases (payload.get field).bind Json.asObject <;> trivial
  unfold npmPublishInner
  cases p.readJson body with
  | none => trivial
  | some payload =>
    refine (hobject _ _).bind fun versions => (hobject _ _).bind fun attachments => ?_
    refine (Uses.each fun e _ => ?_).bind fun _ => ?_
    · exact (uses_ofExcept _).bind fun data => uses_npmPutPackage _ _ _ _ _ _
    · refine Uses.bind (stays_harmless (Uses.ignore (harmless_raiseFlag _ _ _)))
        fun _ => stays_harmless (harmless_propagateToParents _ _ _)

theorem uses_cargoHandlePublish (body : Bytes) :
    Stays x r.addressed.store (cargoHandlePublish x p r body) := by
  refine (stays_effects (effects_blobStore _)).bind fun _ => ?_
  refine (uses_ofExcept _).bind fun m => ?_
  refine (stays_effects effects_newUuid).bind fun b => ?_
  refine Uses.bind (commits_createWriter (b := b)).stays fun inode => ?_
  refine Uses.bind (commits_writeChunk (b := b) _ _ _).stays.capture fun written => ?_
  cases written with
  | error e => exact Uses.bind (commits_abortWriter (b := b)).stays fun _ => trivial
  | ok _ => exact (uses_check _).bind fun _ => uses_cargoCommit _ _ _

theorem uses_cargoHandleSetYanked (name version : String) :
    Stays x store (cargoHandleSetYanked x p r name version) := by
  have hset : Stays x store (cargoSetYanked x p r.targetRepo name version) := by
    refine (stays_effects (effects_getArtifact _ _)).bind fun record => ?_
    cases record with
    | none => trivial
    | some record =>
      dsimp only
      split_ifs
      · trivial
      · refine (stays_effects effects_utcNow).bind fun now => ?_
        exact Uses.bind (uses_commitRecord (b := "") _ _ _).stays fun _ => trivial
  refine (stays_effects (effects_blobStore _)).bind fun _ => hset.bind fun done => ?_
  cases done <;> trivial

theorem uses_putHandler (path contentType : String) (body : List Bytes) :
    Stays x r.target.store (putHandler x p r path contentType body) := by
  refine (stays_effects (effects_blobStore _)).bind fun _ => ?_
  cases putRejection r.addressed.format path with
  | some msg => trivial
  | none =>
    show Stays x r.target.store (putCommit x p r path contentType body)
    unfold putCommit
    cases r.addressed.format with
    | helm =>
      refine (uses_streamBody _).bind fun s => (uses_helmCommitChart _).bind fun _ => ?_
      exact stays_harmless (harmless_propagateToParents _ _ _)
    | yum =>
      refine (uses_streamBody _).bind fun s => (uses_yumCommitPackage _ _ _).bind fun _ => ?_
      exact stays_harmless (harmless_propagateToParents _ _ _)
    | _ => exact (uses_putArtifactHandler _ _ _).bind fun _ => trivial

end

end Depot
