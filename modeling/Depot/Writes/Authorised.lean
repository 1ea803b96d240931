import Depot.Writes.Requests
import Depot.Writes.Stores

/-!
# What write requests change without a permission

Every write of a format asks for the permission before it changes anything, apart from one kind:
the dispatchers of Apt and Yum create a snapshot without asking.

Results:
* `serve_guarded`: the requests that change nothing before the permission is granted.
* `snapshot_canChange`: a snapshot is created without it.
-/

namespace Depot

open Lib
open Fallible (CanAnswer CanChange Guarded Secures Uses ask canAnswer_issue canAnswer_pure embed
  uses_ofExcept)

/-! ## Changes and grants -/

/-- An operation that may change records, metadata or blobs. -/
def ReqOp.changes : ReqOp → Prop
  | .run o => o.effect ≠ .none
  | _ => False

/-- The permission to write has been granted: `check_permission(user, repo, Write)` returned. -/
def granted (user repo : String) (e : Σ o : ReqOp, o.Reply) : Prop :=
  e = ⟨.check user repo .write, .ok ()⟩

section

variable {user repo : String}

/-- A function that changes nothing before the permission is granted. -/
abbrev Permitted {α : Type} (user repo : String) (q : Request α) : Prop :=
  Guarded (granted user repo) ReqOp.changes q

/-- A function that succeeds only after it. -/
abbrev Checked {α : Type} (user repo : String) (q : Request α) : Prop :=
  Secures (granted user repo) ReqOp.changes q

variable {α : Type}

theorem checked_checkPermissionFor : Checked user repo (checkPermissionFor user repo .write) := by
  refine Fallible.secures_ask id fun r a hr => ?_
  obtain rfl : r = .ok () := hr
  rfl

theorem permitted_reads {q : Async α} (h : Effects [] q) : Permitted user repo (onStores q) := by
  refine Guarded.of_uses (Uses.embed (fun o ho => ?_) h)
  rcases ho with hnone | hmem
  · exact not_not.mpr hnone
  · simp at hmem

theorem permitted_ask {o : ReqOp} {answer : o.Reply → Except DepotError α} (h : ¬o.changes) :
    Permitted user repo (ask o answer) := .of_uses (Fallible.uses_ask h)

theorem permitted_pure (a : α) : Permitted user repo (pure a : Request α) :=
  .of_uses (Fallible.uses_pure a)

theorem permitted_throw (e : DepotError) : Permitted user repo (throw e : Request α) :=
  .of_uses (Fallible.uses_throw e)

theorem permitted_ofExcept (r : Except DepotError α) :
    Permitted user repo (Fallible.ofExcept r : Request α) := .of_uses (uses_ofExcept r)

end

/-! ## Reading the repositories -/

theorem effects_validateFormatRepo {es : List Effect} (repo : String) (format : ArtifactFormat) :
    Effects es (validateFormatRepo repo format) := by
  refine (effects_getRepo repo).bind fun config => ?_
  cases config with
  | none => exact effects_throw _
  | some config =>
    show Effects es (if config.format ≠ format then _ else _)
    split_ifs
    · exact effects_throw _
    · exact effects_pure _

/-! ## The requests that ask -/

section

variable {x : Ext} {p : PackageExt} {e : SnapshotExt} {fuel : ℕ} {user repo : String}

/-- `upload_preamble` asks before it returns. -/
theorem checked_uploadPreamble (format : ArtifactFormat) :
    Checked user repo (uploadPreamble user repo format) :=
  .after (permitted_reads (effects_validateFormatRepo repo format))
    fun _ => .bind checked_checkPermissionFor

theorem permitted_upload (req : FormatRequest) (format : ArtifactFormat) :
    Permitted req.user req.config.name (req.upload x p format) :=
  Secures.guarded (checked_uploadPreamble format)

theorem permitted_pypiUpload (req : FormatRequest) :
    Permitted req.user req.config.name (req.pypiUpload x p) :=
  .bind (permitted_ofExcept _) fun _ => Secures.guarded (checked_uploadPreamble _)

theorem permitted_loginField (payload : Json) (field : String) :
    Permitted user repo (FormatRequest.loginField payload field) := by
  unfold FormatRequest.loginField
  split
  · exact permitted_pure _
  · exact permitted_throw _

variable (req : FormatRequest)

/-- A login changes no package. -/
theorem permitted_npmLogin : Permitted req.user req.config.name (req.npmLogin p) := by
  refine .bind (permitted_ofExcept _) fun body => ?_
  cases p.readJson body with
  | none => exact permitted_throw _
  | some payload =>
    refine .bind (permitted_loginField _ _) fun name => .bind (permitted_loginField _ _) fun pw => ?_
    refine .bind (permitted_ask id) fun found => ?_
    cases found with
    | none => exact permitted_throw _
    | some user => exact .bind (permitted_ask id) fun _ => permitted_pure _

theorem permitted_npmPublish (package : String) :
    Permitted req.user req.config.name (req.npmPublish x p package) :=
  .bind (permitted_ofExcept _) fun _ => Secures.guarded (checked_uploadPreamble _)

theorem permitted_npmWrite : Permitted req.user req.config.name (req.npmWrite x p) := by
  unfold FormatRequest.npmWrite
  split_ifs
  · exact permitted_pure _
  · exact permitted_npmLogin req
  · split
    · exact permitted_npmPublish req _
    · exact permitted_throw _
  · exact permitted_throw _

/-- The handlers of Cargo ask before anything else. -/
theorem checked_cargoRoute :
    Checked req.user req.config.name req.cargoRoute := .bind checked_checkPermissionFor

theorem permitted_cargoWriteRequest :
    Permitted req.user req.config.name (req.cargoWriteRequest x p) := by
  unfold FormatRequest.cargoWriteRequest
  split
  · exact .bind (permitted_ofExcept _) fun _ => Secures.guarded (checked_cargoRoute req)
  · split
    · exact Secures.guarded (checked_cargoRoute req)
    · exact permitted_throw _

theorem permitted_withSnapshots (format : ArtifactFormat) {snapshot : Request Unit}
    (h : req.method = "POST" ∧ req.path = "snapshots" →
      Permitted req.user req.config.name snapshot) :
    Permitted req.user req.config.name (req.withSnapshots x p format snapshot) := by
  unfold FormatRequest.withSnapshots
  split_ifs with hupload hsnapshot
  · exact permitted_upload req format
  · exact h hsnapshot
  · exact permitted_throw _

theorem permitted_onlyUploads (format : ArtifactFormat) :
    Permitted req.user req.config.name (req.onlyUploads x p format) := by
  unfold FormatRequest.onlyUploads
  split_ifs
  · exact permitted_upload req format
  · exact permitted_throw _

end

/-! ## Snapshots -/

/-- The request creates a snapshot: it is sent to an Apt or Yum repository, and its body names
    the snapshot. -/
def FormatRequest.createsSnapshot (e : SnapshotExt) (req : FormatRequest) : Bool :=
  req.method = "POST" && req.path = "snapshots" &&
    match req.config.format, req.body with
    | .apt, .ok body => (e.aptRequest body).toBool
    | .yum, .ok body => (e.yumRequest body).toBool
    | _, _ => false

/-- An operation of the stores that may change something. -/
def Op.changes (o : Op) : Prop := o.effect ≠ .none

section

variable {x : Ext} {p : PackageExt} {e : SnapshotExt} {fuel : ℕ} {α : Type}

theorem canAnswer_onStores {q : Async α} {a : α} (h : CanAnswer q a) :
    CanAnswer (onStores q) a := by
  have hrun : q.run.CanAnswer (.ok a) := h
  exact Task.CanAnswer.embed (e := ReqOp.run) (fun _ r => ⟨r, rfl⟩) hrun

theorem canChange_onStores {q : Async α} (h : CanChange Op.changes q) :
    CanChange ReqOp.changes (onStores q) := by
  unfold onStores embed
  exact Task.CanChange.embed (fun _ r => ⟨r, rfl⟩) (fun _ ho => ho) h

theorem canAnswer_utcNow (now : DateTime) : CanAnswer utcNow now :=
  canAnswer_issue (R := R) (o := Op.now) now

theorem canAnswer_newUuid (uuid : String) : CanAnswer newUuid uuid :=
  canAnswer_issue (R := R) (o := Op.uuid) uuid

theorem canAnswer_kvGet (k : Key) (v : Option Value) : CanAnswer (kvGet k) v :=
  Fallible.canAnswer_attempt (o := Op.read k) (some (v.map (⟨1, ·⟩))) (by cases v <;> rfl)

theorem canAnswer_blobRead (store : String) (b : BlobId) (data : Option Bytes) :
    CanAnswer (blobRead store b) data :=
  Fallible.canAnswer_attempt (o := Op.blob store (.read b)) (some data) rfl

theorem canAnswer_typedGet_none (as? : Value → Option α) (k : Key) :
    CanAnswer (typedGet as? k) none :=
  CanAnswer.bind (canAnswer_kvGet k none) (canAnswer_pure _)

theorem canAnswer_typedGet_some {as? : Value → Option α} (k : Key) {v : Value} {a : α}
    (h : as? v = some a) : CanAnswer (typedGet as? k) (some a) := by
  refine CanAnswer.bind (canAnswer_kvGet k (some v)) ?_
  show CanAnswer (some <$> decode as? v) (some a)
  rw [decode, h]
  exact canAnswer_pure _

theorem canAnswer_getArtifact (repo path : String) (record : Option ArtifactRecord) :
    CanAnswer (getArtifact x repo path) record := by
  cases record with
  | none => exact canAnswer_typedGet_none _ _
  | some r => exact canAnswer_typedGet_some (v := .artifact r) _ rfl

theorem canAnswer_blobStore (store : String) : CanAnswer (blobStore store) () := by
  refine CanAnswer.bind (canAnswer_issue (o := Op.store store) true) ?_
  exact canAnswer_pure _

theorem canAnswer_signingKey (repo store path : String) :
    CanAnswer (getSigningKey x e repo store path) none := by
  refine CanAnswer.bind (a := none) ?_ (canAnswer_pure _)
  exact CanAnswer.bind (canAnswer_getArtifact _ _ none) (canAnswer_pure _)

theorem canAnswer_validateFormatRepo (repo : String) (format : ArtifactFormat) :
    ∃ config, CanAnswer (validateFormatRepo repo format) config := by
  let config : RepoConfig := { name := repo, format := format, store := "" }
  have hget : CanAnswer (getRepo repo) (some config) := by
    refine CanAnswer.bind (canAnswer_typedGet_some (v := .repo config) _ rfl) ?_
    exact canAnswer_pure _
  refine ⟨config, hget.bind ?_⟩
  show CanAnswer (if config.format ≠ format then _ else _) config
  rw [if_neg (not_not.mpr rfl)]
  exact canAnswer_pure _

/-- A file is stored by writing a blob. -/
theorem canChange_storeMutableFile (repo store path contentType : String) (kind : ArtifactKind)
    (data : Bytes) (now : DateTime) : CanChange Op.changes
      (storeMutableFile x p repo store path contentType kind data now) := by
  refine CanChange.left (CanChange.bind (canAnswer_newUuid "") ?_)
  have hput : CanChange Op.changes (blobPut store "" data) :=
    Fallible.canChange_attempt nofun (some ())
  exact hput.left

/-- A copy whose source is not there does nothing. -/
theorem canAnswer_copyByHash (repo source name : String) (now : DateTime)
    (entry : String × String × ℕ) : CanAnswer (copyByHash x repo source name now entry) () :=
  CanAnswer.bind (canAnswer_getArtifact _ _ none) (canAnswer_pure _)

theorem canChange_aptCreateSnapshot (repo store source name : String) (key : Option String) :
    CanChange Op.changes (aptCreateSnapshot x p e repo store source name key) := by
  let record : ArtifactRecord := fileRecord 0 "b" "" 0 "text/plain" .aptMetadata true
  have hread : CanAnswer (readArtifact x repo store (inReleasePath source)) (some ([] : Bytes)) :=
    CanAnswer.bind (canAnswer_getArtifact _ _ (some record)) (canAnswer_blobRead _ _ _)
  refine CanChange.bind hread (CanChange.bind (canAnswer_utcNow 0) ?_)
  refine CanChange.bind (a := ()) ?_ (canChange_storeMutableFile _ _ _ _ _ _ _)
  exact Fallible.canAnswer_each fun entry _ => canAnswer_copyByHash _ _ _ _ entry

theorem canChange_aptHandleSnapshot {body : Bytes} (config : RepoConfig)
    (h : (e.aptRequest body).toBool = true) :
    CanChange Op.changes (aptHandleSnapshot x p e config body) := by
  cases hreq : e.aptRequest body with
  | error msg => rw [hreq] at h; cases h
  | ok names =>
    unfold aptHandleSnapshot
    rw [hreq]
    refine CanChange.bind (a := names) rfl ?_
    refine CanChange.bind (canAnswer_blobStore _) ?_
    refine CanChange.bind (a := .ok none) ?_ (canChange_aptCreateSnapshot _ _ _ _ _)
    exact (canAnswer_signingKey _ _ _).capture

/-- Stale metadata is rebuilt first, and the rebuild clears the flag first. -/
theorem canChange_yumHandleSnapshot {body : Bytes} {config : RepoConfig}
    (hformat : config.format = .yum) (h : (e.yumRequest body).toBool = true) :
    CanChange Op.changes (yumHandleSnapshot x p e fuel config body) := by
  cases hreq : e.yumRequest body with
  | error msg => rw [hreq] at h; cases h
  | ok name =>
    let flag : ArtifactRecord := staleFlag 0 .yumMetadata
    have hdelete : CanChange Op.changes (deleteArtifact x config.name yumStalePath) := by
      have hremove : CanChange Op.changes
          (kvDeleteReturning (artifactKey x.shardOf config.name yumStalePath)) :=
        Fallible.canChange_attempt nofun (some (true, none))
      exact hremove.left
    unfold yumHandleSnapshot
    rw [hreq]
    refine CanChange.bind (a := name) rfl ?_
    simp only [hformat, ne_eq, not_true_eq_false, if_false]
    refine CanChange.bind (canAnswer_blobStore _) ?_
    refine CanChange.bind (a := Except.ok (some flag)) (canAnswer_getArtifact _ _ _).capture ?_
    refine CanChange.bind (a := Except.ok none) (canAnswer_signingKey _ _ _).capture ?_
    exact hdelete.left.left

variable {req : FormatRequest}

/-- A snapshot whose body cannot be read is refused before anything is changed. -/
theorem permitted_aptSnapshot (hformat : req.config.format = .apt)
    (hsnapshot : req.method = "POST" ∧ req.path = "snapshots")
    (h : req.createsSnapshot e = false) :
    Permitted req.user req.config.name (req.aptSnapshot x p e) := by
  refine .bind (permitted_reads (effects_validateFormatRepo _ _)) fun config => ?_
  cases hbody : req.body with
  | error err => exact permitted_throw err
  | ok body =>
    show Permitted _ _ (onStores (aptHandleSnapshot x p e config body))
    cases hreq : e.aptRequest body with
    | ok names =>
      simp [FormatRequest.createsSnapshot, hsnapshot, hformat, hbody, hreq, Except.toBool] at h
    | error msg =>
      unfold aptHandleSnapshot
      rw [hreq]
      exact permitted_throw _

theorem permitted_yumSnapshot (hformat : req.config.format = .yum)
    (hsnapshot : req.method = "POST" ∧ req.path = "snapshots")
    (h : req.createsSnapshot e = false) :
    Permitted req.user req.config.name (req.yumSnapshot x p e fuel) := by
  unfold FormatRequest.yumSnapshot
  cases hbody : req.body with
  | error err => exact permitted_throw err
  | ok body =>
    show Permitted _ _ (onStores (yumHandleSnapshot x p e fuel req.config body))
    cases hreq : e.yumRequest body with
    | ok name =>
      simp [FormatRequest.createsSnapshot, hsnapshot, hformat, hbody, hreq, Except.toBool] at h
    | error msg =>
      unfold yumHandleSnapshot
      rw [hreq]
      exact permitted_throw _

/-! ## All requests -/

/-- A request that creates no snapshot changes nothing before the permission is granted. -/
theorem serve_guarded (h : req.createsSnapshot e = false) :
    Permitted req.user req.config.name (req.serve x p e fuel) := by
  unfold FormatRequest.serve
  split_ifs
  · unfold FormatRequest.dispatch
    cases hformat : req.config.format with
    | apt => exact permitted_withSnapshots req .apt fun hs => permitted_aptSnapshot hformat hs h
    | yum => exact permitted_withSnapshots req .yum fun hs => permitted_yumSnapshot hformat hs h
    | cargo => exact permitted_cargoWriteRequest req
    | golang => exact permitted_onlyUploads req .golang
    | helm => exact permitted_onlyUploads req .helm
    | npm => exact permitted_npmWrite req
    | pypi =>
      show Permitted _ _ (if _ then _ else _)
      split_ifs
      · exact permitted_pypiUpload req
      · exact permitted_throw _
    | _ => exact permitted_throw _
  · exact permitted_throw _

/-- What a request for a snapshot reaches. -/
theorem serve_snapshot {req : FormatRequest} (h : req.createsSnapshot e = true) :
    (∃ body, req.config.format = .apt ∧ req.body = .ok body ∧
      (e.aptRequest body).toBool = true ∧ req.serve x p e fuel = req.aptSnapshot x p e) ∨
    ∃ body, req.config.format = .yum ∧ req.body = .ok body ∧
      (e.yumRequest body).toBool = true ∧ req.serve x p e fuel = req.yumSnapshot x p e fuel := by
  obtain ⟨user, config, method, path, fields, body⟩ := req
  simp only [FormatRequest.createsSnapshot, Bool.and_eq_true, decide_eq_true_eq] at h
  obtain ⟨⟨rfl, rfl⟩, hmatch⟩ := h
  split at hmatch
  · rename_i body hformat
    refine .inl ⟨body, hformat, rfl, hmatch, ?_⟩
    simp [FormatRequest.serve, FormatRequest.dispatch, isFormatWritePath, hformat,
      FormatRequest.withSnapshots]
  · rename_i body hformat
    refine .inr ⟨body, hformat, rfl, hmatch, ?_⟩
    simp [FormatRequest.serve, FormatRequest.dispatch, isFormatWritePath, hformat,
      FormatRequest.withSnapshots]
  · cases hmatch

/-- A request for a snapshot can change something, and asks for no permission. -/
theorem snapshot_canChange {req : FormatRequest} (h : req.createsSnapshot e = true) :
    CanChange ReqOp.changes (req.serve x p e fuel) ∧
      Uses (fun o => ∃ o', o = ReqOp.run o') (req.serve x p e fuel) := by
  have hstores : ∀ {α : Type} (q : Async α), Uses (fun o => ∃ o', o = ReqOp.run o')
      (onStores q) := fun q =>
    Uses.embed (P := fun _ => True) (fun o _ => ⟨o, rfl⟩)
      (Task.uses_any q.run fun _ => trivial)
  rcases @serve_snapshot x p e fuel req h with
    ⟨body, hformat, hbody, hreq, hserve⟩ | ⟨body, hformat, hbody, hreq, hserve⟩
  · rw [hserve]
    unfold FormatRequest.aptSnapshot
    obtain ⟨config, hconfig⟩ := canAnswer_validateFormatRepo req.config.name .apt
    rw [hbody]
    refine ⟨?_, (hstores _).bind fun _ => (uses_ofExcept _).bind fun _ => hstores _⟩
    refine CanChange.bind (canAnswer_onStores hconfig) ?_
    refine CanChange.bind (a := body) rfl ?_
    exact canChange_onStores (canChange_aptHandleSnapshot config hreq)
  · rw [hserve]
    unfold FormatRequest.yumSnapshot
    rw [hbody]
    refine ⟨?_, (uses_ofExcept _).bind fun _ => hstores _⟩
    refine CanChange.bind (a := body) rfl ?_
    exact canChange_onStores (canChange_yumHandleSnapshot hformat hreq)

end

/-- The writes of a request are authorised: on every run, whatever other requests do meanwhile,
    each change comes after the permission has been granted. -/
def FormatRequest.Authorised (x : Ext) (p : PackageExt) (e : SnapshotExt) (fuel : ℕ)
    (req : FormatRequest) : Prop :=
  ∀ t, (Task.flatten (req.serve x p e fuel).run).Trace t →
    GuardedTrace (granted req.user req.config.name) ReqOp.changes t

theorem not_authorised_of_snapshot {x : Ext} {p : PackageExt} {e : SnapshotExt} {fuel : ℕ}
    {req : FormatRequest} (h : req.createsSnapshot e = true) : ¬req.Authorised x p e fuel := by
  intro hall
  obtain ⟨hchange, huses⟩ := @snapshot_canChange x p e fuel req h
  have hunasked : ∀ e : Σ o : ReqOp, o.Reply, granted req.user req.config.name e →
      ¬∃ o', e.1 = ReqOp.run o' := by
    rintro e rfl ⟨o, ho⟩
    cases ho
  obtain ⟨t, ht, hnot⟩ := hchange.not_guarded huses hunasked
  exact hnot (hall t ht)

/-- **Main theorem.** The writes of a request are authorised if and only if it creates no
    snapshot. -/
theorem writes_authorised_iff (x : Ext) (p : PackageExt) (e : SnapshotExt) (fuel : ℕ)
    (req : FormatRequest) : req.Authorised x p e fuel ↔ req.createsSnapshot e = false := by
  refine ⟨fun h => ?_, fun h t ht => (serve_guarded h).trace ht⟩
  rw [← Bool.not_eq_true]
  exact fun hs => not_authorised_of_snapshot hs h

/-! ## Runs -/

/-- The replies when the users have the given roles; no one logs in meanwhile. -/
def ReqOp.exec (x : Ext) (roles : String → List RoleRecord) :
    (o : ReqOp) → Bool → World → Option (World × o.Reply)
  | .check user repo required, _, w =>
      some (w, (checkGrants (roles user) repo required).mapError fun _ => .forbidden "forbidden")
  | .authenticate .., _, w => some (w, .ok none)
  | .userToken _, _, w => some (w, .error (.internal "no token"))
  | .run o, ok, w => World.exec x o ok w

/-- Functions of other crates: every body asks for the snapshot `frozen` of `stable`. -/
def SnapshotExt.sample : SnapshotExt where
  aptRequest _ := .ok ("stable", "frozen")
  yumRequest _ := .ok "frozen"
  lossy _ := ""
  whitespace c := c = ' '
  parseSize _ := none
  signInrelease _ _ := none
  repodataDepth _ := 0
  repodata _ _ _ := ([], [])

/-- An Apt repository. -/
def debsConfig : RepoConfig := { name := "debs", format := .apt, store := "s" }

/-- A repository with the metadata of one distribution. -/
def debsWorld : World :=
  ((({ now := 0, drawn := 1, stores := ["s"] } : World).setCell (repoKey "debs")
    (some ⟨1, .repo debsConfig⟩)).setCell
      (artifactKey Ext.sample.shardOf "debs" (inReleasePath "stable"))
      (some ⟨1, .artifact (fileRecord 0 "b" "" 0 "text/plain" .aptMetadata true)⟩)).setFile "s" "b"
    (some ⟨0, []⟩)

def debsSnapshot : FormatRequest where
  user := "nobody"
  config := debsConfig
  method := "POST"
  path := "snapshots"
  fields := .ok []
  body := .ok []

/-- **A snapshot without a permission.** A user without roles asks for a snapshot, and it is
    created. -/
theorem snapshot_without_permission :
    ¬debsSnapshot.Authorised Ext.sample PackageExt.sample SnapshotExt.sample 0 ∧
    checkGrants [] "debs" .write = .error .forbidden ∧
    ((debsSnapshot.serve Ext.sample PackageExt.sample SnapshotExt.sample 0).run.solo
        (ReqOp.exec Ext.sample fun _ => []) debsWorld).any (fun out => out.2.toBool &&
      decide ((debsWorld.value (artifactKey Ext.sample.shardOf "debs" (inReleasePath "frozen")) =
        none)) &&
      (out.1.value (artifactKey Ext.sample.shardOf "debs" (inReleasePath "frozen"))).isSome) =
    true := by
  refine ⟨not_authorised_of_snapshot (by decide), rfl, ?_⟩
  decide +kernel

end Depot
