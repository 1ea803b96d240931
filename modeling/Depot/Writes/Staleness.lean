import Depot.Writes.Propagation

/-!
# Stale flags after a write

A write raises the flag of its target, and then those of the proxies above the repository that
it is addressed to.

Results:
* `Commit.kept`: what the commit of a write leaves as it is.
* `propagates_handler`: every write that raises a flag commits to its target first, then
  propagates.
* `Propagates.flagged_iff`: which flags are raised afterwards.
-/

namespace Depot

open Lib
open Fallible (Uses uses_attempt uses_ofExcept uses_pure uses_throw)

variable {es : List Effect} {path store fileField defaultName : String} {fields : List FormField}

variable {w1 : World} {format : ArtifactFormat}

section

variable {x : Ext} {p : PackageExt} {w w' : World}

/-! ## What a commit leaves as it is -/

/-- An operation that writes records of one repository only, and removes none. -/
def WritesIn (repo : String) : Op → Prop
  | .write k c => k.part.table ≠ .repos ∧
      (k.part.table = .artifacts → k.scope = repo ∧ ∃ v e, c = .putIf v e)
  | _ => True

/-- The repositories, the records of the other repositories and all flags are still there. -/
structure WroteIn (repo : String) (w w' : World) : Prop where
  repos : w'.kv ⟨.repos, .single⟩ = w.kv ⟨.repos, .single⟩
  values : ∀ k : Key, k.part.table = .artifacts → (w.value k).isSome → (w'.value k).isSome
  others : ∀ k : Key, k.part.table = .artifacts → k.scope ≠ repo → w'.value k = w.value k

variable {repo : String}

theorem WroteIn.refl (w : World) : WroteIn repo w w := ⟨rfl, fun _ _ h => h, fun _ _ _ => rfl⟩

theorem WroteIn.trans {w w1 w2 : World} (h : WroteIn repo w w1) (h' : WroteIn repo w1 w2) :
    WroteIn repo w w2 where
  repos := h'.repos.trans h.repos
  values k hk hv := h'.values k hk (h.values k hk hv)
  others k hk hs := (h'.others k hk hs).trans (h.others k hk hs)

theorem WroteIn.of_kv {w w' : World} (h : w'.kv = w.kv) : WroteIn repo w w' where
  repos := by rw [h]
  values k _ hv := by
    unfold World.value World.cell at hv ⊢
    rwa [h]
  others k _ _ := by
    unfold World.value World.cell
    rw [h]

theorem kept_exec {o : Op} (ho : WritesIn repo o) {ok : Bool} {r : R o}
    (h : World.exec x o ok w = some (w', r)) : WroteIn repo w w' := by
  cases o with
  | write k c =>
    cases ok with
    | false =>
      obtain ⟨rfl, -⟩ := some_mk_inj h
      exact .refl _
    | true =>
      obtain ⟨rfl, -⟩ := some_mk_inj h
      obtain ⟨hrepos, hartifact⟩ := ho
      have hpart : (⟨.repos, .single⟩ : Part) ≠ k.part := fun heq => hrepos (by rw [← heq])
      refine ⟨Function.update_of_ne hpart _ _, fun k' hk' hv => ?_, fun k' hk' hs => ?_⟩
      · by_cases heq : k' = k
        · subst heq
          obtain ⟨-, v, e, rfl⟩ := hartifact hk'
          unfold World.value at hv ⊢
          simp only [World.cell_setCell_self, Option.isSome_map] at hv ⊢
          unfold CellOp.apply
          split_ifs
          · rfl
          · exact hv
        · unfold World.value at hv ⊢
          rwa [World.cell_setCell_of_ne heq]
      · have hne : k' ≠ k := by
          rintro rfl
          exact hs (hartifact hk').1
        unfold World.value
        rw [World.cell_setCell_of_ne hne]
  | stop => cases h
  | gc inst o => exact .of_kv (execGc_kv h)
  | blob store o =>
    cases ok <;> cases h
    · exact .refl _
    · exact .of_kv (execBlob_frame w store o).1
  | _ => cases h; exact .of_kv rfl

/-- A function that only writes records of one repository. -/
abbrev Commit (repo : String) {α : Type} (q : Async α) : Prop := Uses (WritesIn repo) q

theorem Commit.kept {α : Type} {q : Async α} {r : Except DepotError α} (hq : Commit repo q)
    (h : Completes x q w r w') : WroteIn repo w w' := by
  refine yields_uses (I := WroteIn repo) .refl (fun _ _ _ => WroteIn.trans) ?_ hq h
  intro o ho w b w' r _ hx
  exact kept_exec ho hx

/-- What a commit changes besides the records. -/
def commitEffects : List Effect :=
  [.table .blobs, .table .dirEntries, .files, .dirStats, .storeStats]

theorem commit_effects {α : Type} {q : Async α} (h : Effects commitEffects q) : Commit repo q := by
  refine Uses.mono (fun o ho => ?_) h
  cases o with
  | write k c =>
    rcases ho with hnone | hmem
    · cases hnone
    · simp only [Op.effect, commitEffects, List.mem_cons, Effect.table.injEq, reduceCtorEq,
        List.not_mem_nil, or_false] at hmem
      rcases hmem with ht | ht <;> exact ⟨by rw [ht]; decide, by rw [ht]; rintro ⟨⟩⟩
  | _ => trivial

/-! ## The parts of a commit -/

theorem commit_claimData (store : String) (now : DateTime) (b : BlobId) (data : Bytes) :
    Commit repo (claimData x store now b data) :=
  commit_effects (effects_claimOrReuseBlobCounted (by decide) (by decide) (by decide) _ _)

theorem effects_streamField (h : Effect.files ∈ es) (store : String)
    (body : List Bytes) : Effects es (streamField store body) := by
  refine effects_newUuid.bind fun b => (effects_createWriter h _ _).bind fun inode => ?_
  refine (effects_writeBody h _ (effects_abortWriter h _ _) _ _ _ _ _).bind fun data => ?_
  exact effects_finishWriter.bind fun _ => effects_pure _

theorem effects_streamBody (h : Effect.files ∈ es) (store : String)
    (body : List Bytes) : Effects es (streamBody store body) := by
  have hstream : ∀ b, Effects es (do
      let inode ← createWriter store b
      let data ← writeBody (.dataIntegrity "body") (abortWriter store b) store b inode body []
      finishWriter
      pure data) := fun b =>
    (effects_createWriter h _ _).bind fun inode =>
      (effects_writeBody h _ (effects_abortWriter h _ _) _ _ _ _ _).bind fun data =>
        effects_finishWriter.bind fun _ => effects_pure _
  refine effects_newUuid.bind fun b => (hstream b).capture.bind fun streamed => ?_
  cases streamed with
  | error e => exact (effects_blobDelete h _ _).ignore.bind fun _ => effects_throw _
  | ok data => exact effects_pure _

theorem effects_readForm (h : Effect.files ∈ es)
    (store fileField defaultName : String) (fields : List FormField) :
    Effects es (readForm store fileField defaultName fields) := by
  refine Effects.fold fun form field _ => ?_
  unfold readField
  split_ifs
  · exact (effects_streamField h _ _).bind fun _ => effects_pure _
  · exact effects_pure _

theorem effects_putBlobRecord (h : Effect.table .blobs ∈ es) (store : String)
    (record : BlobRecord) : Effects es (putBlobRecord x store record) := effects_kvPut h _

theorem commit_putArtifact (path : String) (record : ArtifactRecord) :
    Commit repo (putArtifact x repo path record) := by
  have hattempts : ∀ n, Commit repo (putArtifactAttempts x repo path record n) := by
    intro n
    induction n with
    | zero => exact uses_throw _
    | succ n ih =>
      refine Uses.bind (commit_effects (effects_typedGetVersioned _ _)) fun old => ?_
      refine Uses.bind (uses_attempt ⟨nofun, fun _ => ⟨rfl, _, _, rfl⟩⟩) fun written => ?_
      cases written with
      | true =>
        exact Uses.bind (commit_effects (effects_upsertTreeFile (by decide) _ _ _))
          fun _ => uses_pure _
      | false => exact ih
  unfold putArtifact
  split_ifs
  · exact uses_throw _
  · exact hattempts _

theorem commit_commitRecord (path : String) (record : ArtifactRecord) :
    Commit repo (commitRecord x repo path record) :=
  Uses.bind (commit_putArtifact path record) fun old =>
    commit_effects (effects_dirChanged (by decide) _ _ _ _)

theorem commit_commitFile (store path contentType : String) (kind : ArtifactKind) (b : BlobId)
    (data : Bytes) : Commit repo (commitFile x repo store path contentType kind b data) :=
  Uses.bind (commit_effects effects_utcNow) fun _ =>
    Uses.bind (commit_claimData _ _ _ _) fun _ => commit_commitRecord _ _

theorem commit_npmStoreBytes (store : String) (now : DateTime) (data : Bytes) :
    Commit repo (npmStoreBytes x store now data) :=
  Uses.bind (commit_effects effects_newUuid) fun _ =>
    Uses.bind (commit_effects (effects_blobPut (by decide) _ _ _)) fun _ =>
      commit_claimData _ _ _ _

theorem commit_npmPutPackage (store name version filename : String) (data metadata : Bytes)
    (distTags : Tags) :
    Commit repo (npmPutPackage x p repo store name version filename data metadata distTags) := by
  refine Uses.bind (commit_effects effects_newUuid) fun b => ?_
  refine Uses.bind (commit_effects effects_utcNow) fun now => ?_
  refine Uses.bind (commit_effects (effects_blobPut (by decide) _ _ _)) fun _ => ?_
  refine Uses.bind (commit_claimData _ _ _ _) fun _ => ?_
  refine Uses.bind (commit_npmStoreBytes _ _ _) fun _ => ?_
  refine Uses.bind (commit_effects (effects_npmGetDistTags _).capture) fun _ => ?_
  refine Uses.bind (commit_npmStoreBytes _ _ _) fun _ => ?_
  exact Uses.bind (commit_commitRecord _ _) fun _ =>
    Uses.bind (commit_commitRecord _ _) fun _ => commit_commitRecord _ _

theorem commit_raiseFlag (path : String) (kind : ArtifactKind) :
    Commit repo (raiseFlag x repo path kind) := by
  refine Uses.bind (commit_effects effects_utcNow) fun now => ?_
  refine Uses.bind ?_ fun _ => uses_pure _
  refine Uses.bind (uses_attempt ⟨nofun, fun _ => ⟨rfl, _, _, rfl⟩⟩) fun written => ?_
  refine commit_effects ?_
  cases written with
  | true => exact (effects_upsertTreeFile (by decide) _ _ _).bind fun _ => effects_pure _
  | false => exact effects_pure _

/-! ## Commits that raise the flag -/

/-- A commit to a repository after which its flag is raised. -/
def Saved (x : Ext) (repo path : String) (w w' : World) : Prop :=
  WroteIn repo w w' ∧ Flagged x w' repo path

theorem Saved.after (h : WroteIn repo w w1)
    (h' : Saved x repo path w1 w') : Saved x repo path w w' := ⟨h.trans h'.1, h'.2⟩

theorem saved_raiseFlag {kind : ArtifactKind} {r : Except DepotError Unit}
    (h : Completes x (raiseFlag x repo path kind) w r w') : Saved x repo path w w' := by
  refine ⟨(commit_raiseFlag path kind).kept h, ?_⟩
  rcases yields_bind h with ⟨e, -, h1⟩ | ⟨now, w1, h1, h2⟩
  · cases (completes_utcNow h1).2
  · rcases yields_bind h2 with ⟨e, -, h3⟩ | ⟨written, w2, h3, h4⟩
    · exact (flagged_putArtifactIfAbsent h3 repo).mpr (.inr rfl)
    · obtain ⟨-, rfl⟩ := yields_pure h4
      exact (flagged_putArtifactIfAbsent h3 repo).mpr (.inr rfl)

theorem saved_aptCommitPackage {distribution component : String} {file : StreamedFile}
    (h : Completes x (aptCommitPackage x p repo store distribution component file) w (.ok ()) w') :
    Saved x repo (aptStalePath distribution) w w' := by
  obtain ⟨content, w1, h1, h⟩ := yields_bind_ok h
  obtain ⟨package, w2, h2, h⟩ := yields_bind_ok h
  obtain ⟨_, w3, h3, h⟩ := yields_bind_ok h
  have hread : WroteIn repo w w1 := (commit_effects (effects_readBack _ _)).kept h1
  have hparse : WroteIn repo w1 w2 := Commit.kept (uses_ofExcept _) h2
  exact .after ((hread.trans hparse).trans ((commit_commitFile _ _ _ _ _ _).kept h3))
    (saved_raiseFlag h)

theorem saved_yumCommitPackage {directory filename : String} {b : BlobId} {data : Bytes}
    (h : Completes x (yumCommitPackage x p repo store directory filename b data) w (.ok ()) w') :
    Saved x repo yumStalePath w w' := by
  obtain ⟨content, w1, h1, h⟩ := yields_bind_ok h
  obtain ⟨_, w2, h2, h⟩ := yields_bind_ok h
  obtain ⟨_, w3, h3, h⟩ := yields_bind_ok h
  have hread : WroteIn repo w w1 := (commit_effects (effects_readBack _ _)).kept h1
  have hparse : WroteIn repo w1 w2 := Commit.kept (uses_ofExcept _) h2
  exact .after ((hread.trans hparse).trans ((commit_commitFile _ _ _ _ _ _).kept h3))
    (saved_raiseFlag h)

theorem saved_helmCommitChart {b : BlobId} {data : Bytes}
    (h : Completes x (helmCommitChart x p repo store b data) w (.ok ()) w') :
    Saved x repo helmFlagPath w w' := by
  obtain ⟨content, w1, h1, h⟩ := yields_bind_ok h
  obtain ⟨chart, w2, h2, h⟩ := yields_bind_ok h
  obtain ⟨now, w3, h3, h⟩ := yields_bind_ok h
  obtain ⟨_, w4, h4, h⟩ := yields_bind_ok h
  obtain ⟨_, w5, h5, h⟩ := yields_bind_ok h
  have hread : WroteIn repo w w1 := (commit_effects (effects_readBack _ _)).kept h1
  have hparse : WroteIn repo w1 w2 := Commit.kept (uses_ofExcept _) h2
  have hnow : WroteIn repo w2 w3 := (commit_effects effects_utcNow).kept h3
  have hblob : WroteIn repo w3 w4 := (commit_effects (effects_putBlobRecord (by decide) _ _)).kept h4
  exact .after ((((hread.trans hparse).trans hnow).trans hblob).trans
    ((commit_commitRecord _ _).kept h5)) (saved_raiseFlag h)

theorem commit_pypiCommitPackage (store name version : String) (expectedSha256 : Option String)
    (file : StreamedFile) :
    Commit repo (pypiCommitPackage x p repo store name version expectedSha256 file) := by
  unfold pypiCommitPackage
  cases expectedSha256 with
  | none => exact commit_commitFile _ _ _ _ _ _
  | some expected =>
    dsimp only
    split_ifs
    · exact uses_throw _
    · exact commit_commitFile _ _ _ _ _ _

/-! ## Handlers -/

/-- The fields of a form but for the file. -/
def formFields (fileField : String) (fields : List FormField) : List (String × Bytes) :=
  (fields.filter fun f => f.name ≠ fileField).map fun f => (f.name, f.body.flatten)

theorem completes_readFields {form form' : UploadForm}
    (h : Completes x (Fallible.fold (readField store fileField defaultName) fields form) w
      (.ok form') w') : form'.fields = form.fields ++ formFields fileField fields := by
  induction fields generalizing form w with
  | nil =>
    obtain ⟨hr, -⟩ := yields_pure h
    obtain rfl := Except.ok.inj hr
    simp [formFields]
  | cons field fields ih =>
    obtain ⟨form1, w1, h1, h2⟩ := yields_bind_ok h
    rw [ih h2]
    unfold readField at h1
    split_ifs at h1 with hfile
    · obtain ⟨_, w2, -, h3⟩ := yields_bind_ok h1
      obtain ⟨hr, -⟩ := yields_pure h3
      obtain rfl := Except.ok.inj hr
      simp [formFields, hfile]
    · obtain ⟨hr, -⟩ := yields_pure h1
      obtain rfl := Except.ok.inj hr
      simp [formFields, hfile]

/-- The flag that a write raises, with the format of the proxies that have it. -/
def FormatWrite.staleFlag (p : PackageExt) (r : Route) :
    FormatWrite → Option (ArtifactFormat × String)
  | .upload fields =>
      match r.addressed.format with
      | .apt =>
          let form : UploadForm := { fields := formFields "file" fields }
          some (.apt, aptStalePath ((form.text p "distribution").getD "stable"))
      | .helm => some (.helm, helmFlagPath)
      | .pypi => some (.pypi, pypiStalePath)
      | .yum => some (.yum, yumStalePath)
      | _ => none
  | .npmPublish .. => some (.npm, npmStalePath)
  | .put .. =>
      match r.addressed.format with
      | .helm => some (.helm, helmFlagPath)
      | .yum => some (.yum, yumStalePath)
      | _ => none
  | _ => none

/-- A commit to a repository is followed by a propagation from `source`, if there is one. -/
def Propagates (x : Ext) (target : String) (source : Option String)
    (flag : ArtifactFormat × String) (w w' : World) : Prop :=
  ∃ w1, Saved x target flag.2 w w1 ∧ ∀ proxy, Flagged x w' proxy flag.2 ↔
    Flagged x w1 proxy flag.2 ∨ ∃ s ∈ source, w1.WithinLevels flag.1 s proxy

section

variable {target : String} {source : Option String} {flag : ArtifactFormat × String}

theorem Propagates.after (h : WroteIn target w w1)
    (h' : Propagates x target source flag w1 w') : Propagates x target source flag w w' := by
  obtain ⟨w2, hsaved, hflags⟩ := h'
  exact ⟨w2, hsaved.after h, hflags⟩

theorem Saved.propagates (h : Saved x target path w w') :
    Propagates x target none (format, path) w w' := ⟨w', h, fun proxy => by simp⟩

theorem propagates_toParents {source : String}
    {res : Except DepotError Unit} (h : Saved x target path w w1)
    (h' : Completes x (propagateToParents x source format path) w1 res w') :
    Propagates x target (some source) (format, path) w w' := by
  obtain ⟨-, res', hrun⟩ := yields_ignore h'
  refine ⟨w1, h, fun proxy => (flagged_propagateStaleness hrun proxy).trans ?_⟩
  simp

end

theorem completes_uploadForm (repo : String) {f : UploadForm → Async Unit} (h : Completes x (do
      let form ← readForm store fileField defaultName fields
      f form) w (.ok ()) w') :
    ∃ form w1, form.fields = formFields fileField fields ∧ WroteIn repo w w1 ∧
      Completes x (f form) w1 (.ok ()) w' := by
  obtain ⟨form, w1, h1, h2⟩ := yields_bind_ok h
  have hfields : form.fields = formFields fileField fields := completes_readFields h1
  have hread : WroteIn repo w w1 := (commit_effects (effects_readForm (by decide) _ _ _ _)).kept h1
  exact ⟨form, w1, hfields, hread, h2⟩

theorem completes_formFile {form : UploadForm} {f : StreamedFile → Async Unit} (h : Completes x (do
      let file ← formFile fileField form
      f file) w (.ok ()) w') : ∃ file, Completes x (f file) w (.ok ()) w' := by
  unfold formFile at h
  cases hfile : form.file with
  | none =>
    rw [hfile] at h
    cases (yields_throw h).1
  | some file =>
    rw [hfile] at h
    exact ⟨file, h⟩

variable {r : Route}

theorem propagates_uploadHandler (hname : r.target.name = r.targetRepo)
    {flag : ArtifactFormat × String} (hflag : (FormatWrite.upload fields).staleFlag p r = some flag)
    (h : Completes x (uploadHandler x p r fields) w (.ok ()) w') : Propagates x r.targetRepo (some r.addressed.name) flag w w' := by
  unfold uploadHandler at h
  unfold FormatWrite.staleFlag at hflag
  cases hformat : r.addressed.format with
  | apt =>
    simp only [hformat, Option.some.injEq] at h hflag
    obtain ⟨form, w1, hfields, hread, h⟩ := completes_uploadForm r.targetRepo h
    obtain ⟨file, h⟩ := completes_formFile h
    obtain ⟨_, w2, h2, h⟩ := yields_bind_ok h
    have htext : form.text p "distribution" =
        UploadForm.text p { fields := formFields "file" fields } "distribution" := by
      unfold UploadForm.text UploadForm.bytes
      rw [hfields]
    rw [hname, htext] at h2
    rw [htext] at h
    subst hflag
    exact .after hread (propagates_toParents (saved_aptCommitPackage h2) h)
  | yum =>
    simp only [hformat, Option.some.injEq] at h hflag
    obtain ⟨form, w1, -, hread, h⟩ := completes_uploadForm r.targetRepo h
    obtain ⟨file, h⟩ := completes_formFile h
    obtain ⟨_, w2, h2, h⟩ := yields_bind_ok h
    rw [hname] at h2
    subst hflag
    exact .after hread (propagates_toParents (saved_yumCommitPackage h2) h)
  | helm =>
    simp only [hformat, Option.some.injEq] at h hflag
    obtain ⟨form, w1, -, hread, h⟩ := completes_uploadForm r.targetRepo h
    obtain ⟨file, h⟩ := completes_formFile h
    obtain ⟨_, w2, h2, h⟩ := yields_bind_ok h
    rw [hname] at h2
    subst hflag
    exact .after hread (propagates_toParents (saved_helmCommitChart h2) h)
  | pypi =>
    simp only [hformat, Option.some.injEq] at h hflag
    obtain ⟨form, w1, -, hread, h⟩ := completes_uploadForm r.targetRepo h
    cases hpackage : form.text p "name" with
    | none =>
      rw [hpackage] at h
      cases (yields_throw h).1
    | some name =>
      simp only [hpackage] at h
      cases hversion : form.text p "version" with
      | none =>
        rw [hversion] at h
        cases (yields_throw h).1
      | some version =>
        simp only [hversion] at h
        obtain ⟨file, h⟩ := completes_formFile h
        obtain ⟨_, w2, h2, h⟩ := yields_bind_ok h
        obtain ⟨_, w3, h3, h⟩ := yields_bind_ok h
        obtain ⟨-, res, h3⟩ := yields_ignore h3
        subst hflag
        exact .after hread (.after ((commit_pypiCommitPackage _ _ _ _ _).kept h2)
          (propagates_toParents (saved_raiseFlag h3) h))
  | _ =>
    rw [hformat] at hflag
    cases hflag

theorem propagates_npmPublishInner {package : String} {body : Bytes}
    (h : Completes x (npmPublishInner x p r package body) w (.ok ()) w') :
    Propagates x r.targetRepo (some r.addressed.name) (.npm, npmStalePath) w w' := by
  have hobject : ∀ payload field, Commit r.targetRepo (bodyObject payload field) := by
    intro payload field
    unfold bodyObject
    cases (payload.get field).bind Json.asObject
    · exact uses_throw _
    · exact uses_pure _
  unfold npmPublishInner at h
  cases hbody : p.readJson body with
  | none =>
    rw [hbody] at h
    cases (yields_throw h).1
  | some payload =>
    simp only [hbody] at h
    obtain ⟨versions, w1, h1, h⟩ := yields_bind_ok h
    obtain ⟨attachments, w2, h2, h⟩ := yields_bind_ok h
    obtain ⟨_, w3, h3, h⟩ := yields_bind_ok h
    obtain ⟨_, w4, h4, h⟩ := yields_bind_ok h
    obtain ⟨-, res, h4⟩ := yields_ignore h4
    have hversions : Commit r.targetRepo
        (Fallible.each (npmPublishVersion x p r package attachments payload.distTags) versions) :=
      Uses.each fun e _ => (uses_ofExcept _).bind fun data =>
        commit_npmPutPackage _ _ _ _ _ _ _
    exact .after (((hobject _ _).kept h1).trans ((hobject _ _).kept h2))
      (.after (hversions.kept h3) (propagates_toParents (saved_raiseFlag h4) h))

theorem propagates_putHandler (hname : r.target.name = r.targetRepo) {contentType : String}
    {body : List Bytes} {flag : ArtifactFormat × String}
    (hflag : (FormatWrite.put path contentType body).staleFlag p r = some flag)
    (h : Completes x (putHandler x p r path contentType body) w (.ok ()) w') :
    Propagates x r.targetRepo (some r.addressed.name) flag w w' := by
  obtain ⟨_, w1, h1, h⟩ := yields_bind_ok h
  have hstore : WroteIn r.targetRepo w w1 := (commit_effects (effects_blobStore _)).kept h1
  refine .after hstore ?_
  unfold FormatWrite.staleFlag at hflag
  cases hrejected : putRejection r.addressed.format path with
  | some msg =>
    rw [hrejected] at h
    cases (yields_throw h).1
  | none =>
    simp only [hrejected] at h
    unfold putCommit at h
    cases hformat : r.addressed.format with
    | helm =>
      simp only [hformat, Option.some.injEq] at h hflag
      obtain ⟨s, w2, h2, h⟩ := yields_bind_ok h
      obtain ⟨_, w3, h3, h⟩ := yields_bind_ok h
      rw [hname] at h3
      subst hflag
      exact .after ((commit_effects (effects_streamBody (by decide) _ _)).kept h2)
        (propagates_toParents (saved_helmCommitChart h3) h)
    | yum =>
      simp only [hformat, Option.some.injEq] at h hflag
      obtain ⟨s, w2, h2, h⟩ := yields_bind_ok h
      obtain ⟨_, w3, h3, h⟩ := yields_bind_ok h
      rw [hname] at h3
      subst hflag
      exact .after ((commit_effects (effects_streamBody (by decide) _ _)).kept h2)
        (propagates_toParents (saved_yumCommitPackage h3) h)
    | _ =>
      rw [hformat] at hflag
      cases hflag

/-- Every write that raises a flag commits to its target first, then propagates. -/
theorem propagates_handler {write : FormatWrite} (hname : r.target.name = r.targetRepo)
    {flag : ArtifactFormat × String} (hflag : write.staleFlag p r = some flag)
    (h : Completes x (write.handler x p r) w (.ok ()) w') : Propagates x r.targetRepo (some r.addressed.name) flag w w' := by
  cases write with
  | upload fields =>
    obtain ⟨_, w1, h1, h⟩ := yields_bind_ok h
    exact .after ((commit_effects (effects_blobStore _)).kept h1)
      (propagates_uploadHandler hname hflag h)
  | npmPublish package body =>
    obtain ⟨_, w1, h1, h⟩ := yields_bind_ok h
    obtain rfl := Option.some.inj hflag
    exact .after ((commit_effects (effects_blobStore _)).kept h1) (propagates_npmPublishInner h)
  | put path contentType body => exact propagates_putHandler hname hflag h
  | cargoPublish body => cases hflag
  | cargoSetYanked name version => cases hflag

/-- The file and the form of a component upload. -/
theorem completes_componentForm (repo : String) {f : UploadForm → StreamedFile → Async Unit}
    (h : Completes x (do
      let form ← readForm store fileField defaultName fields
      let file ← formFile fileField form
      f form file) w (.ok ()) w') :
    ∃ form file w1, form.fields = formFields fileField fields ∧ WroteIn repo w w1 ∧
      Completes x (f form file) w1 (.ok ()) w' := by
  obtain ⟨form, w1, hfields, hread, h⟩ := completes_uploadForm repo h
  obtain ⟨file, h⟩ := completes_formFile h
  exact ⟨form, file, w1, hfields, hread, h⟩

namespace PackageWrite

/-- The flag that a write raises. -/
def staleFlag (p : PackageExt) : PackageWrite → Option (ArtifactFormat × String)
  | request j => j.write.staleFlag p j.route
  | component r fields =>
      match r.addressed.format with
      | .apt =>
          let form : UploadForm := { fields := formFields "apt.asset" fields }
          (form.text p "apt.asset.distribution").map fun distribution =>
            (.apt, aptStalePath distribution)
      | .helm => some (.helm, helmFlagPath)
      | .pypi => some (.pypi, pypiStalePath)
      | .yum => some (.yum, yumStalePath)
      | _ => none

/-- The repository above which a write raises the flags: the addressed one, but the target for a
    chart or a Python package that is uploaded as a component, and none for the others. -/
def source : PackageWrite → Option String
  | request j => some j.route.addressed.name
  | component r _ =>
      match r.addressed.format with
      | .helm => some r.target.name
      | .pypi => some r.target.name
      | _ => none

end PackageWrite

theorem propagates_uploadComponent (hname : r.target.name = r.targetRepo)
    {flag : ArtifactFormat × String} (hflag : (PackageWrite.component r fields).staleFlag p = some flag)
    (h : Completes x (uploadComponent x p r fields) w (.ok ()) w') :
    Propagates x r.targetRepo (PackageWrite.component r fields).source flag w w' := by
  obtain ⟨_, w1, h1, h⟩ := yields_bind_ok h
  refine .after ((commit_effects (effects_blobStore _)).kept h1) ?_
  unfold PackageWrite.staleFlag at hflag
  unfold PackageWrite.source
  cases hformat : r.addressed.format with
  | yum =>
    simp only [hformat, Option.some.injEq] at h hflag ⊢
    obtain ⟨form, file, w2, -, hread, h⟩ := completes_componentForm r.targetRepo h
    rw [hname] at h
    subst hflag
    exact .after hread (saved_yumCommitPackage h).propagates
  | apt =>
    simp only [hformat] at h hflag ⊢
    obtain ⟨form, file, w2, hfields, hread, h⟩ := completes_componentForm r.targetRepo h
    obtain ⟨distribution, htext, rfl⟩ := Option.map_eq_some_iff.mp hflag
    have hform : form.text p "apt.asset.distribution" = some distribution := by
      rw [← htext]
      unfold UploadForm.text UploadForm.bytes
      rw [hfields]
    simp only [hform, hname] at h
    exact .after hread (saved_aptCommitPackage h).propagates
  | helm =>
    simp only [hformat, Option.some.injEq] at h hflag ⊢
    obtain ⟨form, file, w2, -, hread, h⟩ := completes_componentForm r.targetRepo h
    obtain ⟨_, w3, h3, h⟩ := yields_bind_ok h
    rw [hname] at h3
    subst hflag
    exact .after hread (propagates_toParents (saved_helmCommitChart h3) h)
  | pypi =>
    simp only [hformat, Option.some.injEq] at h hflag ⊢
    obtain ⟨form, file, w2, -, hread, h⟩ := completes_componentForm r.targetRepo h
    cases hpackage : (form.lastOf ["pypi.asset.name", "name"]).bind p.text with
    | none =>
      rw [hpackage] at h
      cases (yields_throw h).1
    | some name =>
      simp only [hpackage] at h
      cases hversion : (form.lastOf ["pypi.asset.version", "version"]).bind p.text with
      | none =>
        rw [hversion] at h
        cases (yields_throw h).1
      | some version =>
        simp only [hversion] at h
        obtain ⟨_, w3, h3, h⟩ := yields_bind_ok h
        obtain ⟨_, w4, h4, h⟩ := yields_bind_ok h
        obtain ⟨-, res, h4⟩ := yields_ignore h4
        rw [hname] at h3 h4
        subst hflag
        exact .after hread (.after ((commit_pypiCommitPackage _ _ _ _ _).kept h3)
          (propagates_toParents (saved_raiseFlag h4) h))
  | _ =>
    simp only [hformat] at hflag
    cases hflag

/-! ## Which flags a write raises -/

theorem Propagates.flagged_iff {target : String} {source : Option String}
    {flag : ArtifactFormat × String} (h : Propagates x target source flag w w') (proxy : String) :
    Flagged x w' proxy flag.2 ↔ proxy = target ∨ Flagged x w proxy flag.2 ∨
      ∃ s ∈ source, w.WithinLevels flag.1 s proxy := by
  obtain ⟨w1, ⟨hwrote, hflagged⟩, hflags⟩ := h
  have hlevels : ∀ s, w1.WithinLevels flag.1 s proxy ↔ w.WithinLevels flag.1 s proxy := by
    intro s
    unfold World.WithinLevels World.listedRepos
    rw [hwrote.repos]
  rw [hflags proxy]
  simp only [hlevels]
  by_cases hp : proxy = target
  · subst hp
    simp [hflagged]
  · have hother : Flagged x w1 proxy flag.2 ↔ Flagged x w proxy flag.2 := by
      unfold Flagged
      rw [hwrote.others (artifactKey x.shardOf proxy flag.2) rfl hp]
    simp [hother, hp]

/-- A write commits to its target, and propagates from its source. -/
theorem propagates_packageWrite {write : PackageWrite} {flag : ArtifactFormat × String}
    (hrouted : write.routed w = true) (hflag : write.staleFlag p = some flag)
    (h : Completes x (write.handler x p) w (.ok ()) w') :
    Propagates x write.route.targetRepo write.source flag w w' := by
  cases write with
  | request j => exact propagates_handler (RoutedWrite.routed_config hrouted).2 hflag h
  | component r fields =>
    exact propagates_uploadComponent (RoutedWrite.routed_config hrouted).2 hflag h

/-- **Main theorem.** After a write the flags of all proxies above its target are raised if and
    only if each of them was raised before, or is at most eight levels above the repository from
    which the write propagates. -/
theorem proxies_flagged_iff {write : PackageWrite} {flag : ArtifactFormat × String}
    (hrouted : write.routed w = true) (hflag : write.staleFlag p = some flag)
    (h : Completes x (write.handler x p) w (.ok ()) w') :
    (∀ proxy, w.Above flag.1 write.route.targetRepo proxy → Flagged x w' proxy flag.2) ↔
      ∀ proxy, w.Above flag.1 write.route.targetRepo proxy → proxy = write.route.targetRepo ∨
        Flagged x w proxy flag.2 ∨ ∃ s ∈ write.source, w.WithinLevels flag.1 s proxy :=
  forall_congr' fun proxy => imp_congr_right fun _ =>
    (propagates_packageWrite hrouted hflag h).flagged_iff proxy

end

/-! ## A proxy over charts -/

/-- Functions of other crates: every file is a chart. -/
def PackageExt.charts : PackageExt :=
  { PackageExt.sample with parseChart := fun _ => .ok ("app", "1.0.0") }

/-- A hosted repository for charts. -/
def chartsConfig : RepoConfig := { name := "charts", format := .helm, store := "s" }

def chartsProxy : RepoConfig :=
  { name := "all", kind := .proxy ["charts"] (some "charts"), format := .helm, store := "s" }

/-- A store with these repositories. -/
def chartsWorld : World :=
  (({ now := 0, drawn := 1, stores := ["s"] } : World).setCell (repoKey "charts")
    (some ⟨1, .repo chartsConfig⟩)).setCell (repoKey "all") (some ⟨1, .repo chartsProxy⟩)

/-- The upload of a chart to one of them. -/
def chartWrite (addressed : RepoConfig) : RoutedWrite where
  route := ⟨addressed, "charts", chartsConfig⟩
  write := .upload [⟨"chart", some "app.tgz", [[1]]⟩]

theorem chartsWorld_getRepo {name : String} {c : RepoConfig}
    (h : chartsWorld.getRepo name = some c) : c = chartsConfig ∨ name = "all" := by
  by_cases hall : name = "all"
  · exact .inr hall
  · left
    by_cases hcharts : name = "charts"
    · subst hcharts
      exact (Option.some.inj ((by decide :
        chartsWorld.getRepo "charts" = some chartsConfig).symm.trans h)).symm
    · have hkey : repoKey name ≠ repoKey "all" := fun heq => hall (congrArg Key.sk heq)
      have hkey' : repoKey name ≠ repoKey "charts" := fun heq => hcharts (congrArg Key.sk heq)
      have hnone : chartsWorld.repoConfig name = none := by
        rw [World.repoConfig, World.value, chartsWorld, World.cell_setCell_of_ne hkey,
          World.cell_setCell_of_ne hkey']
        rfl
      rw [World.getRepo, hnone] at h
      cases h

theorem chartsWorld_above {proxy : String} (h : chartsWorld.Above .helm "charts" proxy) :
    proxy = "all" := by
  cases h with
  | single h =>
    obtain ⟨config, members, writeMember, hget, -, hkind, -⟩ := h
    refine (chartsWorld_getRepo hget).resolve_left ?_
    rintro rfl
    cases hkind
  | tail _ h =>
    obtain ⟨config, members, writeMember, hget, -, hkind, -⟩ := h
    refine (chartsWorld_getRepo hget).resolve_left ?_
    rintro rfl
    cases hkind

theorem chartWrite_completes (addressed : RepoConfig)
    (h : (((chartWrite addressed).write.handler Ext.sample PackageExt.charts
      (chartWrite addressed).route).run.solo (World.exec Ext.sample) chartsWorld).any
        (fun out => out.2.toBool) = true) :
    ∃ w, Completes Ext.sample ((chartWrite addressed).write.handler Ext.sample PackageExt.charts
      (chartWrite addressed).route) chartsWorld (.ok ()) w ∧
      (((chartWrite addressed).write.handler Ext.sample PackageExt.charts
        (chartWrite addressed).route).run.solo (World.exec Ext.sample) chartsWorld).map Prod.fst =
          some w := by
  obtain ⟨⟨w, r⟩, hrun, hok⟩ := (Option.any_eq_true _ _).mp h
  cases r with
  | error e => cases hok
  | ok u =>
    refine ⟨w, Solo.yields ?_ hrun, ?_⟩
    · intro o s s' r hx
      exact ⟨true, rfl, hx⟩
    · rw [hrun]
      rfl

/-- An upload to the hosted repository raises the flag of the proxy. -/
theorem proxy_flagged_directly : ∃ w, Completes Ext.sample
      ((chartWrite chartsConfig).write.handler Ext.sample PackageExt.charts
        (chartWrite chartsConfig).route) chartsWorld (.ok ()) w ∧
    ∀ proxy, chartsWorld.Above .helm "charts" proxy → Flagged Ext.sample w proxy helmFlagPath := by
  obtain ⟨w, hrun, -⟩ := chartWrite_completes chartsConfig (by decide +kernel)
  have hrouted : (PackageWrite.request (chartWrite chartsConfig)).routed chartsWorld = true := by
    decide +kernel
  have hflag : (PackageWrite.request (chartWrite chartsConfig)).staleFlag PackageExt.charts =
      some (.helm, helmFlagPath) := rfl
  refine ⟨w, hrun, (proxies_flagged_iff hrouted hflag hrun).mpr fun proxy habove => ?_⟩
  rw [chartsWorld_above habove]
  refine .inr (.inr ⟨"charts", rfl, [chartsProxy, chartsConfig], by decide +kernel, 1, by omega,
    by omega, "charts", rfl, ?_⟩)
  decide

/-- **A write through a proxy.** A chart is uploaded through the proxy, whose index can contain
    it; the flag of the proxy is not raised. -/
theorem proxy_unflagged : ∃ w, Completes Ext.sample
      ((chartWrite chartsProxy).write.handler Ext.sample PackageExt.charts
        (chartWrite chartsProxy).route) chartsWorld (.ok ()) w ∧
    (chartWrite chartsProxy).routed chartsWorld = true ∧
    chartsWorld.Above .helm "charts" "all" ∧ ¬Flagged Ext.sample w "all" helmFlagPath := by
  obtain ⟨w, hrun, hw⟩ := chartWrite_completes chartsProxy (by decide +kernel)
  have hmerges : chartsWorld.Merges .helm "charts" "all" :=
    ⟨chartsProxy, ["charts"], some "charts", by decide +kernel, rfl, rfl, by decide⟩
  refine ⟨w, hrun, by decide +kernel, .single hmerges, ?_⟩
  have hnone : ((((chartWrite chartsProxy).write.handler Ext.sample PackageExt.charts
      (chartWrite chartsProxy).route).run.solo (World.exec Ext.sample) chartsWorld).map
        Prod.fst).any (fun w => (w.value
          (artifactKey Ext.sample.shardOf "all" helmFlagPath)).isNone) = true := by
    decide +kernel
  rw [hw, Option.any_some] at hnone
  unfold Flagged
  rw [Option.isNone_iff_eq_none.mp hnone]
  exact Bool.false_ne_true

end Depot
