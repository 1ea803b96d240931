import Depot.Writes.Uses

/-!
# What the write handlers do to blobs

Each handler records only the blobs that it has written, in the store that it was given, and
writes artifact records that name them.

Results:
* `readForm_owns`, `commitFile_owns`: the parts that the handlers share.
* `putHandler_owns` and siblings: every handler keeps to the proof outline of ingestion.
-/

namespace Depot

open Lib List
open Fallible (Uses)
open FTriple (consequence)

variable {x : Ext} {p : PackageExt} {i : ℕ} {j : IngestJob}

/-! ## Parts without blobs -/

section

variable {P : IngestView → Prop} (hs : ((ingestLogic x).contract i j).Stable P)
include hs

theorem blobStore_keeps (store : String) :
    IngestTriple x i j P (blobStore store) (fun _ => P) Failed := by
  refine keep_clear hs ((effects_storesGet store).bind fun found => ?_)
  cases found with
  | true => exact effects_pure _
  | false => exact effects_throw _

theorem readBack_keeps (store : String) (blobId : BlobId) :
    IngestTriple x i j P (readBack store blobId) (fun _ => P) Failed := by
  refine keep_clear hs ((effects_blobRead _ _).bind fun data => ?_)
  cases data with
  | some data => exact effects_pure _
  | none => exact effects_throw _

theorem ofExcept_keeps {α : Type} (r : Except DepotError α) :
    IngestTriple x i j P (Fallible.ofExcept r) (fun _ => P) Failed := by
  cases r with
  | ok a => exact pure_keeps (Q := fun _ => P) hs
  | error e => exact fun _ _ _ _ _ _ => trivial

theorem raiseFlag_keeps (repo path : String) (kind : ArtifactKind) :
    IngestTriple x i j P (raiseFlag x repo path kind) (fun _ => P) P := by
  refine harmless_keeps hs (effects_utcNow.harmless.bind fun now => ?_)
  exact (harmless_putArtifactIfAbsent _ _ rfl).bind fun _ => trivial

theorem propagateToParents_keeps (repo : String) (format : ArtifactFormat) (stalePath : String) :
    IngestTriple x i j P (propagateToParents x repo format stalePath) (fun _ => P) Failed :=
  harmless_clear hs (Uses.ignore (harmless_propagateStaleness _ _ _))

end

variable {b : BlobId}

/-! ## Streaming -/

section

variable {store : String}

theorem streamField_owns (body : List Bytes) : IngestTriple x i j (Clear i) (streamField store body)
      (fun r => Fresh i [r.1] [] store r.1 r.2) Failed := by
  refine newUuid_bind fun b hb => ?_
  refine bind_failing (createWriter_owns hb) fun inode => ?_
  refine bind_failing (writeBody_owns hb _ (abortWriter_owns hb) _ _) fun data => ?_
  refine bind_failing (FTriple.check (FileIs.stable hb)) fun _ => ?_
  intro w hi hw u hu hi'
  exact Written.stable hb w u hi hi' hu ⟨hw.1, inode, hw.2⟩

theorem streamBody_owns (body : List Bytes) : IngestTriple x i j (Clear i) (streamBody store body)
      (fun r => Fresh i [r.1] [] store r.1 r.2) Failed := by
  refine newUuid_bind fun b hb => ?_
  refine bind_failed (stream_owns _ body) fun r => ?_
  cases r with
  | error e =>
    exact bind_failed (FTriple.ignore Owns.stable (blobDelete_owns hb)) fun _ =>
      fun _ _ _ _ _ _ => trivial
  | ok data => exact fun w hi hw u hu hi' => Written.stable hb w u hi hi' hu hw

/-- Bytes in memory are written as one chunk. -/
theorem writeWhole_owns {inode : ℕ} (data : Bytes) {err : IngestView → Prop} :
    IngestTriple x i j (fun w => Owns i [b] [] [] w ∧ FileIs store b inode [] w)
      (Fallible.capture (writeChunk store b inode 0 data))
      (fun r => Streamed i store b (r.map fun _ => data)) err := by
  refine FTriple.capture (fun r => Streamed.stable _) ?_
  have hchunk : IngestTriple x i j (fun w => Owns i [b] [] [] w ∧ FileIs store b inode [] w)
      (writeChunk store b inode 0 data)
      (fun _ w => Owns i [b] [] [] w ∧ FileIs store b inode data w) (Owns i [b] [] []) :=
    writeChunk_owns (mem_singleton_self b) data
  exact consequence hchunk (fun _ _ hw => hw) (fun _ _ _ hw => ⟨hw.1, inode, hw.2⟩)
    fun _ _ hw _ => hw

/-- The file of a form, if there is one, is fresh. -/
def FormReady (i : ℕ) (store : String) (form : UploadForm) (w : IngestView) : Prop :=
  match form.file with
  | some file => Fresh i [file.blobId] [] store file.blobId file.data w
  | none => Clear i w

theorem FormReady.stable (form : UploadForm) :
    ((ingestLogic x).contract i j).Stable (FormReady i store form) := by
  obtain ⟨fields, file⟩ := form
  cases file with
  | some file => exact Written.stable (mem_singleton_self _)
  | none => exact Owns.stable

theorem FormReady.clear {form : UploadForm} {w : IngestView} (h : FormReady i store form w) :
    Clear i w := by
  obtain ⟨fields, file⟩ := form
  cases file with
  | some file => exact Owns.weaken h.1 nofun nofun
  | none => exact h

theorem readField_owns (fileField defaultName : String) (form : UploadForm) (field : FormField) :
    IngestTriple x i j (FormReady i store form) (readField store fileField defaultName form field)
      (FormReady i store) Failed := by
  unfold readField
  split_ifs
  · refine bind_failed (Triple.weaken_pre (streamField_owns field.body)
      fun w _ hw => hw.clear) fun r => ?_
    intro w hi hw u hu hi'
    exact Written.stable (mem_singleton_self _) w u hi hi' hu hw
  · intro w hi hw u hu hi'
    exact FormReady.stable form w u hi hi' hu hw

theorem readForm_owns (fileField defaultName : String) (fields : List FormField) :
    IngestTriple x i j (Clear i) (readForm store fileField defaultName fields)
      (FormReady i store) Failed :=
  FTriple.fold (s := {}) (I := fun _ form => FormReady i store form) FormReady.stable
    Failed.stable fun _ field _ form _ => readField_owns fileField defaultName form field

theorem formFile_owns (fileField : String) (form : UploadForm) :
    IngestTriple x i j (FormReady i store form) (formFile fileField form)
      (fun file => Fresh i [file.blobId] [] store file.blobId file.data) Failed := by
  obtain ⟨fields, file⟩ := form
  cases file with
  | some file =>
    exact fun w hi hw u hu hi' => Written.stable (mem_singleton_self _) w u hi hi' hu hw
  | none => exact fun _ _ _ _ _ _ => trivial

end

/-! ## Records -/

section

variable {own : List BlobId} {known : List RecordedBlob} {repo store : String}

theorem Fresh.stable {b : BlobId} (hb : b ∈ own) {data : Bytes} :
    ((ingestLogic x).contract i j).Stable (Fresh i own known store b data) := Written.stable hb

theorem claimData_owns (hb : b ∈ own) (now : DateTime) (data : Bytes) :
    IngestTriple x i j (Fresh i own known store b data) (claimData x store now b data)
      (fun b' => Owns i (own.filter (· ≠ b)) (⟨store, x.blake3 data, b'⟩ :: known) []) Failed :=
  Triple.weaken_pre (claimOrReuseBlobCounted_owns hb) fun _ _ hw => hw.claimable hb _ now store

theorem commitRecord_owns {r : ArtifactRecord} (hfits : Writable j known repo r) (path : String)
    {debt : List (String × ℤ)} :
    IngestTriple x i j (Owns i own known debt) (commitRecord x repo path r)
      (fun _ => Owns i own known debt) Failed :=
  bind_failed (putArtifact_triple_owns hfits path) fun _ =>
    keep_clear Owns.stable (effects_recordPut _ _ _ _)

/-- A record of a blob that is known to be recorded fits. -/
theorem writable_known (ht : j.target = some (repo, store)) {r : ArtifactRecord} {b hash : String}
    (hblob : r.blobId = some b) (hhash : r.contentHash = some hash)
    (hknown : ⟨store, hash, b⟩ ∈ known) : Writable j known repo r := by
  refine ⟨⟨_, ht⟩, fun b' hb' _ => ⟨hash, hhash, ?_⟩⟩
  obtain rfl := Option.some.inj (hblob.symm.trans hb')
  have hstore : j.store = store := by rw [IngestJob.store, ht]; rfl
  rw [hstore]
  exact hknown

/-- A file that was streamed is claimed and recorded. -/
theorem commitFile_owns (ht : j.target = some (repo, store)) (path contentType : String)
    (kind : ArtifactKind) (b : BlobId) (data : Bytes) :
    IngestTriple x i j (Fresh i [b] [] store b data)
      (commitFile x repo store path contentType kind b data) (fun _ => Clear i) Failed := by
  have hb : b ∈ [b] := mem_singleton_self b
  refine bind_failed (keep_clear (Fresh.stable hb) effects_utcNow) fun now => ?_
  refine bind_failed (claimData_owns hb now data) fun b' => ?_
  refine consequence (commitRecord_owns
    (writable_known ht rfl rfl mem_cons_self) path) (fun _ _ hw => hw) (fun _ _ _ hw => ?_)
    fun _ _ hw => hw
  exact hw.weaken nofun nofun

/-- Bytes in memory are stored, claimed and recorded. -/
theorem storedBytes_owns (now : DateTime) (data : Bytes) :
    IngestTriple x i j (Owns i own known []) (npmStoreBytes x store now data)
      (fun b => Owns i [] (⟨store, x.blake3 data, b⟩ :: known) []) Failed := by
  have hnone : ∀ w, Owns i own known [] w → Owns i [] known [] w :=
    fun w hw => hw.weaken nofun fun _ h => h
  refine bind_failed (Triple.weaken_pre newUuid_owns fun w _ hw => hnone w hw)
    fun b => FTriple.assume fun _ => ?_
  have hb : b ∈ [b] := mem_singleton_self b
  refine bind_failing (blobPut_owns hb) fun _ => ?_
  exact consequence (claimData_owns hb now data) (fun _ _ hw => hw)
    (fun _ _ _ hw => hw.weaken nofun fun _ h => h) fun _ _ hw => hw

end

/-! ## A blob that waits -/

/-- Call `i` holds a blob that it has written and that was not recorded. -/
structure Waiting (i : ℕ) (store : String) (z : BlobId) (data : Bytes) (w : IngestView) : Prop where
  held : Holds i z w
  unrecorded : Unrecorded w.shared z
  written : Written store z data w

section

variable {store : String} {z : BlobId} {data : Bytes}

theorem Waiting.stable : ((ingestLogic x).contract i j).Stable (Waiting i store z data) := by
  rintro w w' - - hr ⟨hheld, hun, inode, hf⟩
  exact ⟨hr.holds hheld, hr.own z hheld hun, inode, (hr.files z hheld hun store).trans hf⟩

variable {w : IngestView}

theorem Fresh.waiting {known : List RecordedBlob}
    (h : Fresh i [z] known store z data w) : Waiting i store z data w := by
  obtain ⟨hheld, hun⟩ := h.1.own z (mem_singleton_self z)
  exact ⟨hheld, hun, h.2⟩

theorem Waiting.fresh (h : Waiting i store z data w) (hw : Clear i w) :
    Fresh i [z] [] store z data w := by
  refine ⟨⟨fun b hb => ?_, nofun, hw.debt⟩, h.written⟩
  obtain rfl := mem_singleton.mp hb
  exact ⟨h.held, h.unrecorded⟩

variable {s : IngestState}

/-- The file of the blob stays, what the call holds grows, and what is recorded is another
    blob. -/
theorem Waiting.next (h : Waiting i store z data w)
    (hfile : s.world.file store z = w.shared.world.file store z)
    (hdrawn : ∀ b ∈ w.shared.drawn i, b ∈ s.drawn i)
    (hnew : ∀ n ∈ s.recorded, n ∈ w.shared.recorded ∨ n.blobId ≠ z) :
    Waiting i store z data ⟨s, w.jobs, ()⟩ where
  held := h.held.imp (hdrawn z) id
  unrecorded n hn := (hnew n hn).elim (h.unrecorded n) id
  written := by
    obtain ⟨inode, hf⟩ := h.written
    exact ⟨inode, hfile.trans hf⟩

theorem recorded_noteRecord {k : Key} {b : BlobRecord} {n : RecordedBlob}
    (hb : b.blobId ≠ z) (hn : n ∈ (s.noteRecord i k b).recorded) :
    n ∈ s.recorded ∨ n.blobId ≠ z := by
  unfold IngestState.recorded IngestState.noteRecord at hn
  rw [map_append, mem_append] at hn
  refine hn.imp id fun hn => ?_
  obtain rfl := mem_singleton.mp hn
  exact hb

/-- Operations that leave a blob alone keep it waiting. -/
theorem spares_step {o : Op} {ok : Bool} {r : R o} (ho : Spares z o) (hw : Waiting i store z data w)
    (hx : (ingestSystem x).exec i j o ok w.shared = some (s, r)) :
    Waiting i store z data ⟨s, w.jobs, ()⟩ := by
  have hsame : ∀ {world : World}, world.file store z = w.shared.world.file store z →
      Waiting i store z data ⟨{ w.shared with world := world }, w.jobs, ()⟩ := fun hf =>
    hw.next hf (fun _ hb => hb) fun _ hn => .inl hn
  cases o with
  | stop => cases hx
  | uuid =>
    cases hx
    refine hw.next rfl (fun b hb => ?_) fun _ hn => .inl hn
    show b ∈ Function.update w.shared.drawn i _ i
    rw [Function.update_self]
    exact mem_append_left _ hb
  | blob store' o =>
    cases ok with
    | false =>
      cases hx
      exact hsame rfl
    | true =>
      cases hx
      exact hsame ((execBlob_frame _ store' o).2.2 store z ho)
  | gc inst o =>
    obtain ⟨⟨world, r'⟩, hexec, heq⟩ := Option.map_eq_some_iff.mp hx
    cases heq
    refine hsame ?_
    have hgc : World.execGc x w.shared.world inst o = some (world, r') := hexec
    cases o <;> simp only [World.execGc] at hgc <;> (try split at hgc) <;> cases hgc <;> rfl
  | send d =>
    cases hx
    cases d with
    | dir => exact hsame rfl
    | store s c bytes =>
      simp only [IngestState.note]
      split_ifs
      · exact hw.next rfl (fun _ hb => hb) fun _ hn => .inl hn
      · exact hsame rfl
  | write k c =>
    cases ok with
    | false =>
      cases hx
      exact hsame rfl
    | true =>
      cases hx
      simp only [IngestState.note, true_and]
      split_ifs
      · have hrec : ∀ {b : BlobRecord}, b.blobId ≠ z → Waiting i store z data
            ⟨{ w.shared.noteRecord i k b with
              world := w.shared.world.setCell k (c.apply (w.shared.world.cell k)) }, w.jobs, ()⟩ :=
          fun hb => hw.next rfl (fun _ hb => hb) fun _ hn => recorded_noteRecord hb hn
        have hother : ∀ {s' : IngestState}, s'.drawn = w.shared.drawn →
            s'.created = w.shared.created → Waiting i store z data
              ⟨{ s' with world := w.shared.world.setCell k (c.apply (w.shared.world.cell k)) },
                w.jobs, ()⟩ := fun hd hc => by
          refine hw.next rfl (fun b hb => ?_) fun n hn => .inl ?_
          · show b ∈ _
            rw [show (_ : IngestState).drawn = _ from hd]
            exact hb
          · rw [IngestState.recorded, show (_ : IngestState).created = _ from hc] at hn
            exact hn
        cases c with
        | put v | putIf v =>
          cases v with
          | blob b => exact hrec ho
          | session u => exact ho.elim
          | _ => exact hother rfl rfl
        | remove => exact hother rfl rfl
        | removeIf => exact hother rfl rfl
      · exact hsame rfl
  | _ =>
    cases hx
    exact hsame rfl

/-- A blob waits while a function leaves it alone. -/
theorem waiting_frame {α : Type} {P err : IngestView → Prop} {post : α → IngestView → Prop}
    {q : Async α} (hq : Uses (Spares z) q) (h : IngestTriple x i j P q post err) :
    IngestTriple x i j (fun w => Waiting i store z data w ∧ P w) q
      (fun a w => Waiting i store z data w ∧ post a w) err :=
  FTriple.frame_uses Waiting.stable (fun _ _ _ _ _ _ ho _ hw hx _ => spares_step ho hw hx) hq h

end

/-! ## The handlers -/

section

variable {repo store : String}

variable {P : IngestView → Prop}

/-- What has been done is done. -/
theorem done_clear {α : Type} {q : Async α} (h : IngestTriple x i j P q (fun _ => Clear i) Failed) :
    IngestTriple x i j P q (fun _ => Failed) Failed :=
  consequence h (fun _ _ hw => hw) (fun _ _ _ _ => trivial) fun _ _ hw => hw

theorem aptCommitPackage_owns (ht : j.target = some (repo, store)) (distribution component : String)
    (file : StreamedFile) :
    IngestTriple x i j (Fresh i [file.blobId] [] store file.blobId file.data)
      (aptCommitPackage x p repo store distribution component file) (fun _ => Clear i) Failed := by
  have hfresh := @Fresh.stable x i j [file.blobId] [] store file.blobId
    (mem_singleton_self file.blobId) file.data
  refine bind_failed (readBack_keeps hfresh _ _) fun content => ?_
  refine bind_failed (ofExcept_keeps hfresh _) fun package => ?_
  refine bind_failed (commitFile_owns ht _ _ _ _ _) fun _ => ?_
  exact IngestTriple.failing (raiseFlag_keeps Owns.stable _ _ _)

theorem yumCommitPackage_owns (ht : j.target = some (repo, store)) (directory filename : String)
    (b : BlobId) (data : Bytes) : IngestTriple x i j (Fresh i [b] [] store b data)
      (yumCommitPackage x p repo store directory filename b data) (fun _ => Clear i) Failed := by
  have hfresh := @Fresh.stable x i j [b] [] store b (mem_singleton_self b) data
  refine bind_failed (readBack_keeps hfresh _ _) fun content => ?_
  refine bind_failed (ofExcept_keeps hfresh _) fun _ => ?_
  refine bind_failed (commitFile_owns ht _ _ _ _ _) fun _ => ?_
  exact IngestTriple.failing (raiseFlag_keeps Owns.stable _ _ _)

/-- A blob record that is put is not counted: it stays due. -/
theorem putBlobRecord_owns {data : Bytes} (now : DateTime) :
    IngestTriple x i j (Fresh i [b] [] store b data)
      (putBlobRecord x store ⟨b, x.blake3 data, data.length, now, store⟩)
      (fun _ => Owns i [] [⟨store, x.blake3 data, b⟩] [(store, (data.length : ℤ))]) Failed := by
  have hb : b ∈ [b] := mem_singleton_self b
  have hclaim : ((ingestLogic x).contract i j).Stable (Claimable x i [b] [] store
      ⟨b, x.blake3 data, data.length, now, store⟩) := Claimable.stable
  refine Triple.weaken_pre (FTriple.attempt hclaim (fun _ => Owns.stable)
    Failed.stable fun w ok s r hi hw _ hx => ?_) fun w _ hw => hw.claimable hb _ now store
  obtain ⟨hi', hstill, hout⟩ := @recordWrite_step x i j [b] [] store
    ⟨b, x.blake3 data, data.length, now, store⟩ _ (.inl rfl) w ok s r hi hw hx
  refine ⟨(), hi', hstill, fun g hg => ?_, fun _ => trivial⟩
  rcases hout with ⟨-, hdone⟩ | ⟨-, hfalse⟩
  · exact Owns.weaken hdone nofun fun _ h => h
  · cases r with
    | none => cases hg
    | some a => exact absurd rfl (hfalse a.1 rfl).2

theorem helmCommitChart_owns (ht : j.target = some (repo, store)) (b : BlobId) (data : Bytes) :
    IngestTriple x i j (Fresh i [b] [] store b data) (helmCommitChart x p repo store b data)
      (fun _ => Owns i [] [⟨store, x.blake3 data, b⟩] [(store, (data.length : ℤ))]) Failed := by
  have hfresh := @Fresh.stable x i j [b] [] store b (mem_singleton_self b) data
  refine bind_failed (readBack_keeps hfresh _ _) fun content => ?_
  refine bind_failed (ofExcept_keeps hfresh _) fun chart => ?_
  refine bind_failed (keep_clear hfresh effects_utcNow) fun now => ?_
  refine bind_failed (putBlobRecord_owns now) fun _ => ?_
  refine bind_failed (commitRecord_owns (writable_known ht rfl rfl mem_cons_self) _) fun _ => ?_
  exact IngestTriple.failing (raiseFlag_keeps Owns.stable _ _ _)

theorem pypiCommitPackage_owns (ht : j.target = some (repo, store)) (name version : String)
    (expectedSha256 : Option String) (file : StreamedFile) :
    IngestTriple x i j (Fresh i [file.blobId] [] store file.blobId file.data)
      (pypiCommitPackage x p repo store name version expectedSha256 file) (fun _ => Clear i)
      Failed := by
  have hcommit := commitFile_owns (x := x) (i := i) ht (pypiPath p name version file.name)
    "application/octet-stream" .pypiPackage file.blobId file.data
  unfold pypiCommitPackage
  cases expectedSha256 with
  | none => exact hcommit
  | some expected =>
    dsimp only
    split_ifs
    · exact fun _ _ _ _ _ _ => trivial
    · exact hcommit

section

variable {module version fileType contentType : String}

theorem golangStoreFile_owns {own : List BlobId} (ht : j.target = some (repo, store)) (data : Bytes)
    (b : BlobId) : IngestTriple x i j (Owns i (b :: own) [] [])
      (golangStoreFile x repo store module version fileType contentType data b)
      (fun _ => Owns i (own.filter (· ≠ b)) [] []) Failed := by
  have hb : b ∈ b :: own := mem_cons_self
  refine utcNow_bind fun now => ?_
  refine bind_failing (blobPut_owns hb) fun _ => ?_
  refine bind_failed (claimData_owns hb now data) fun b' => ?_
  refine consequence (commitRecord_owns
    (writable_known ht rfl rfl mem_cons_self) _) (fun _ _ hw => hw) (fun _ _ _ hw => ?_)
    fun _ _ hw => hw
  refine hw.weaken (fun c hc => ?_) nofun
  simpa using hc

/-- The module files of a request are stored while the zip waits in its blob. -/
theorem golangPutGiven_owns (ht : j.target = some (repo, store)) (data : Option Bytes)
    (form : UploadForm) : IngestTriple x i j (FormReady i store form)
      (golangPutGiven x repo store module version fileType contentType data)
      (fun _ => FormReady i store form) Failed := by
  cases data with
  | none => exact pure_keeps (Q := fun _ => FormReady i store form) (FormReady.stable form)
  | some data =>
    obtain ⟨fields, file⟩ := form
    cases file with
    | none =>
      exact bind_failed newUuid_owns fun b => FTriple.assume fun _ =>
        golangStoreFile_owns ht data b
    | some file =>
      have hstore : ∀ b, IngestTriple x i j
          (fun w => (Waiting i store file.blobId file.data w ∧ Owns i [b, file.blobId] [] [] w) ∧
            b ∉ [file.blobId])
          (golangStoreFile x repo store module version fileType contentType data b)
          (fun _ => FormReady i store ⟨fields, some file⟩) Failed := by
        refine fun b => FTriple.assume fun hnew => ?_
        have hb : b ≠ file.blobId := fun h => hnew (mem_singleton.mpr h)
        have huses : Uses (Spares file.blobId)
            (golangStoreFile x repo store module version fileType contentType data b) :=
          Uses.mono (fun _ ho => ho.spares hb) (uses_golangStoreFile _ _ _ _ _)
        exact consequence (waiting_frame huses (golangStoreFile_owns ht data b))
          (fun _ _ hw => hw) (fun _ w _ hw => hw.1.fresh (hw.2.weaken nofun nofun))
          fun _ _ hw => hw
      have huuid : IngestTriple x i j
          (fun w => Waiting i store file.blobId file.data w ∧ Owns i [file.blobId] [] [] w) newUuid
          (fun b w => Waiting i store file.blobId file.data w ∧
            Owns i [b, file.blobId] [] [] w ∧ b ∉ [file.blobId]) Failed :=
        waiting_frame (Fallible.uses_issue trivial) newUuid_owns
      refine Triple.weaken_pre (bind_failed huuid fun b => ?_)
        fun w hi hw => ⟨Fresh.waiting hw, hw.1⟩
      exact Triple.weaken_pre (hstore b) fun w hi hw => ⟨⟨hw.1, hw.2.1⟩, hw.2.2⟩

theorem golangCommitZip_owns (ht : j.target = some (repo, store)) (form : UploadForm) :
    IngestTriple x i j (FormReady i store form)
      (golangCommitZip x repo store module version form.file) (fun _ => Clear i) Failed := by
  obtain ⟨fields, file⟩ := form
  cases file with
  | none => exact pure_keeps (Q := fun _ => Clear i) Owns.stable
  | some file => exact commitFile_owns ht _ _ _ _ _

end

theorem npmGetDistTags_keeps (hs : ((ingestLogic x).contract i j).Stable P) (name : String) :
    IngestTriple x i j P (Fallible.capture (npmGetDistTags x p repo store name)) (fun _ => P)
      Failed :=
  keep_clear hs (effects_npmGetDistTags name).capture

/-- A version is stored in three blobs, and each of them has its record. -/
theorem npmPutPackage_owns (ht : j.target = some (repo, store)) (name version filename : String)
    (data metadata : Bytes) (distTags : Tags) : IngestTriple x i j (Clear i)
      (npmPutPackage x p repo store name version filename data metadata distTags)
      (fun _ => Clear i) Failed := by
  refine newUuid_bind fun b hb => ?_
  refine utcNow_bind fun now => ?_
  refine bind_failing (blobPut_owns hb) fun _ => ?_
  refine bind_failed (claimData_owns hb now data) fun blobId => ?_
  refine bind_failed (storedBytes_owns now metadata) fun verBlobId => ?_
  refine bind_failed (npmGetDistTags_keeps Owns.stable name) fun existing => ?_
  refine bind_failed (storedBytes_owns now _) fun tagsBlobId => ?_
  refine bind_failed (commitRecord_owns (writable_known ht rfl rfl
    (mem_cons_of_mem _ (mem_cons_of_mem _ mem_cons_self))) _) fun _ => ?_
  refine bind_failed (commitRecord_owns (writable_known ht rfl rfl
    (mem_cons_of_mem _ mem_cons_self)) _) fun _ => ?_
  refine consequence (commitRecord_owns
    (writable_known ht rfl rfl mem_cons_self) _) (fun _ _ hw => hw) (fun _ _ _ hw => ?_)
    fun _ _ hw => hw
  exact hw.weaken nofun nofun

theorem bodyObject_keeps
    (hs : ((ingestLogic x).contract i j).Stable P) (payload : Json) (field : String) :
    IngestTriple x i j P (bodyObject payload field) (fun _ => P) Failed := by
  unfold bodyObject
  cases (payload.get field).bind Json.asObject with
  | some entries => exact pure_keeps (Q := fun _ => P) hs
  | none => exact fun _ _ _ _ _ _ => trivial

/-- The record of a crate is written with the blob that it names. -/
theorem cargoSetYanked_owns (ht : j.target = some (repo, store))
    (hsource : j.source = some (repo, store)) (name version : String) :
    IngestTriple x i j (Clear i) (cargoSetYanked x p repo name version) (fun _ => Clear i)
      Failed := by
  have hread : IngestTriple x i j (Clear i) (getArtifact x repo (cratePath p.cargo name version))
      (fun r w => Clear i w ∧ ∀ a, r = some a → Names w.shared store a) (Clear i) := by
    refine typedGet_keeps Owns.stable (fun a => Names.stable) fun w a v hi _ _ hv ha => ?_
    rw [Value.artifact?_eq_some.mp ha] at hv
    obtain ⟨c, hc, hstore⟩ := source_store hi hsource
    rw [← hstore]
    exact hi.1.artifacts (artifactKey x.shardOf repo _) c a rfl hc hv
  refine bind_failing hread fun record => ?_
  cases record with
  | none => exact fun w hi hw u hu hi' => Owns.stable w u hi hi' hu hw.1
  | some record =>
    dsimp only
    split_ifs with hkind
    · exact fun w hi hw u hu hi' => Owns.stable w u hi hi' hu hw.1
    · intro w hi hw
      obtain ⟨known, hwrite, howns⟩ := writable_names ht hw.1 (hw.2 record rfl)
      refine utcNow_bind (fun now => ?_) w hi howns
      refine bind_failed (commitRecord_owns
        (r := { record with updatedAt := now }) ⟨hwrite.1, hwrite.2⟩ _) fun _ => ?_
      exact fun w hi hw u hu hi' => Owns.stable w u hi hi' hu (hw.weaken nofun nofun)

/-! ## The writes -/

section

variable {r : Route}

/-- The parents are told at the end. -/
theorem propagateToParents_done
    (hs : ((ingestLogic x).contract i j).Stable P) (repo : String) (format : ArtifactFormat)
    (path : String) :
    IngestTriple x i j P (propagateToParents x repo format path) (fun _ => Failed) Failed :=
  consequence (propagateToParents_keeps hs _ _ _) (fun _ _ hw => hw)
    (fun _ _ _ _ => trivial) fun _ _ hw => hw

/-- An upload starts by reading its form. -/
theorem form_owns {field name : String} {fields : List FormField} {f : UploadForm → Async Unit}
    (hf : ∀ form, IngestTriple x i j (FormReady i store form) (f form) (fun _ => Failed) Failed) :
    IngestTriple x i j (Clear i) (do
      let form ← readForm store field name fields
      f form) (fun _ => Failed) Failed :=
  bind_failed (readForm_owns _ _ _) hf

theorem refused_done {e : DepotError} :
    IngestTriple x i j P (throw e : Async Unit) (fun _ => Failed) Failed :=
  fun _ _ _ _ _ _ => trivial

section

variable (ht : j.target = some (r.target.name, r.target.store)) (fields : List FormField)

include ht

theorem aptHandleUpload_owns :
    IngestTriple x i j (Clear i) (aptHandleUpload x p r fields) (fun _ => Failed) Failed := by
  refine form_owns fun form => bind_failed (formFile_owns _ form) fun file => ?_
  exact bind_failed (aptCommitPackage_owns ht _ _ file) fun _ =>
    propagateToParents_done Owns.stable _ _ _

theorem yumHandleUpload_owns :
    IngestTriple x i j (Clear i) (yumHandleUpload x p r fields) (fun _ => Failed) Failed := by
  refine form_owns fun form => bind_failed (formFile_owns _ form) fun file => ?_
  exact bind_failed (yumCommitPackage_owns ht _ _ _ _) fun _ =>
    propagateToParents_done Owns.stable _ _ _

theorem helmHandleUpload_owns :
    IngestTriple x i j (Clear i) (helmHandleUpload x p r fields) (fun _ => Failed) Failed := by
  refine form_owns fun form => bind_failed (formFile_owns _ form) fun file => ?_
  exact bind_failed (helmCommitChart_owns ht _ _) fun _ =>
    propagateToParents_done Owns.stable _ _ _

end

theorem pypiProcessUpload_owns (ht : j.target = some (r.targetRepo, r.target.store))
    (fields : List FormField) :
    IngestTriple x i j (Clear i) (pypiProcessUpload x p r fields) (fun _ => Failed) Failed := by
  refine form_owns fun form => ?_
  cases form.text p "name" with
  | none => exact refused_done
  | some name =>
    dsimp only
    cases form.text p "version" with
    | none => exact refused_done
    | some version =>
      refine bind_failed (formFile_owns _ form) fun file => ?_
      refine bind_failed (pypiCommitPackage_owns ht _ _ _ file) fun _ => ?_
      refine bind_failed (FTriple.ignore Owns.stable
        (raiseFlag_keeps Owns.stable _ _ _)) fun _ => ?_
      exact propagateToParents_done Owns.stable _ _ _

theorem golangHandleUpload_owns (ht : j.target = some (r.targetRepo, r.target.store))
    (fields : List FormField) :
    IngestTriple x i j (Clear i) (golangHandleUpload x p r fields) (fun _ => Failed) Failed := by
  refine form_owns fun form => ?_
  cases form.text p "module" with
  | none => exact refused_done
  | some module =>
    dsimp only
    cases form.text p "version" with
    | none => exact refused_done
    | some version =>
      refine bind_failed (golangPutGiven_owns ht _ form) fun _ => ?_
      refine bind_failed (golangPutGiven_owns ht _ form) fun _ => ?_
      exact done_clear (golangCommitZip_owns ht form)

theorem npmPublishInner_owns (ht : j.target = some (r.targetRepo, r.target.store))
    (package : String) (body : Bytes) :
    IngestTriple x i j (Clear i) (npmPublishInner x p r package body) (fun _ => Failed) Failed := by
  unfold npmPublishInner
  cases p.readJson body with
  | none => exact refused_done
  | some payload =>
    refine bind_failed (bodyObject_keeps Owns.stable _ _) fun versions => ?_
    refine bind_failed (bodyObject_keeps Owns.stable _ _) fun attachments => ?_
    refine bind_failed (FTriple.each (I := fun _ => Clear i) Owns.stable
      Failed.stable fun _ e _ _ => ?_) fun _ => ?_
    · exact bind_failed (ofExcept_keeps Owns.stable _) fun data =>
        npmPutPackage_owns ht _ _ _ _ _ _
    · refine bind_failed (FTriple.ignore Owns.stable
        (raiseFlag_keeps Owns.stable _ _ _)) fun _ => ?_
      exact propagateToParents_done Owns.stable _ _ _

theorem cargoHandlePublish_owns (ht : j.target = some (r.targetRepo, r.addressed.store))
    (body : Bytes) :
    IngestTriple x i j (Clear i) (cargoHandlePublish x p r body) (fun _ => Failed) Failed := by
  refine bind_failed (blobStore_keeps Owns.stable _) fun _ => ?_
  refine bind_failed (ofExcept_keeps Owns.stable _) fun m => ?_
  refine newUuid_bind fun b hb => ?_
  refine bind_failing (createWriter_owns hb) fun inode => ?_
  refine bind_failed (writeWhole_owns m.2) fun s => ?_
  cases s with
  | error e =>
    exact bind_failed (abortWriter_owns hb) fun _ => refused_done
  | ok _ =>
    refine bind_failing (FTriple.check (Fresh.stable hb)) fun _ => ?_
    exact done_clear (commitFile_owns ht _ _ _ _ _)

theorem cargoHandleSetYanked_owns (ht : j.target = some (r.targetRepo, r.target.store))
    (hsource : j.source = some (r.targetRepo, r.target.store)) (name version : String) :
    IngestTriple x i j (Clear i) (cargoHandleSetYanked x p r name version) (fun _ => Failed)
      Failed := by
  refine bind_failed (blobStore_keeps Owns.stable _) fun _ => ?_
  refine bind_failed (cargoSetYanked_owns ht hsource name version) fun done => ?_
  cases done with
  | true => exact fun _ _ _ _ _ _ => trivial
  | false => exact refused_done

theorem putHandler_owns (ht : j.target = some (r.targetRepo, r.target.store))
    (hname : r.target.name = r.targetRepo) (path contentType : String) (body : List Bytes) :
    IngestTriple x i j (Clear i) (putHandler x p r path contentType body) (fun _ => Failed)
      Failed := by
  have ht' : j.target = some (r.target.name, r.target.store) := by rw [hname, ht]
  refine bind_failed (blobStore_keeps Owns.stable _) fun _ => ?_
  cases putRejection r.addressed.format path with
  | some msg => exact refused_done
  | none =>
    show IngestTriple x i j _ (putCommit x p r path contentType body) _ _
    unfold putCommit
    cases r.addressed.format with
    | helm =>
      refine bind_failed (streamBody_owns body) fun s => ?_
      exact bind_failed (helmCommitChart_owns ht' _ _) fun _ =>
        propagateToParents_done Owns.stable _ _ _
    | yum =>
      refine bind_failed (streamBody_owns body) fun s => ?_
      exact bind_failed (yumCommitPackage_owns ht' _ _ _ _) fun _ =>
        propagateToParents_done Owns.stable _ _ _
    | _ =>
      exact bind_failed (putArtifactHandler_owns ht _ _ _) fun _ =>
        fun _ _ _ _ _ _ => trivial

end

end

end Depot
