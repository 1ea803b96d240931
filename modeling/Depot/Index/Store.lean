import Depot.Index.Formats
import Depot.Lib.Generations
import Depot.Repo.Ingest

/-!
# Uploads, rebuilds and requests for an index

What the handlers of a hosted Apt, Yum or Helm repository do to its records: an upload stores
the record of a package and sets the flag of its index, a rebuild clears the flag, scans the
packages and writes the files of the index, a request rebuilds an index whose flag is set
(`format/apt/src/store/store.rs`, `format/yum/src/store/store.rs`, `format/helm/src/store.rs`
and the handlers of their `api.rs`).
-/

namespace Depot

open Lib
open Fallible (attempt)
open Function (update)

/-! ## The state -/

/-- The records of a repository by their keys; and what only the statements refer to: whether
    a package of an index was written since its flag was cleared, the index a task has written
    a package of without having set the flag yet, and the rebuilds of each index, numbered by
    the order in which they have cleared the flag. -/
structure IndexState where
  now : DateTime := 0
  artifacts : SortedMap String StoredRecord := SortedMap.empty
  changed : String → Bool := fun _ => false
  unflagged : ℕ → Option String := fun _ => none
  rebuilds : String → Generations := fun _ => {}

namespace IndexState

variable (s : IndexState)

/-- The record at a key. -/
def record (sk : String) : Option StoredRecord := s.artifacts.get sk

/-- The content of the index file at a key. -/
def file (sk : String) : Option Bytes := (s.record sk).bind StoredRecord.file?

/-- Set or remove the record at a key. -/
def setRecord (sk : String) (r : Option StoredRecord) : IndexState :=
  { s with artifacts := s.artifacts.assign sk r }

/-- Note that task `i` has written a package of an index. -/
def noteChange (i : ℕ) (key : String) : IndexState :=
  { s with
    changed := update s.changed key true
    unflagged := update s.unflagged i (some key) }

/-- Note that task `i` has set the flag. -/
def noteFlag (i : ℕ) : IndexState :=
  { s with unflagged := update s.unflagged i none }

/-- Note what a task does to the rebuilds of an index. -/
def noteRebuild (key : String) (step : Generations → Generations) : IndexState :=
  { s with rebuilds := update s.rebuilds key (step (s.rebuilds key)) }

/-- Note that task `i` has cleared the flag. -/
def noteClear (i : ℕ) (key : String) : IndexState :=
  { (s.noteRebuild key (Generations.draw i)) with
    changed := update s.changed key false }

section

variable (i : ℕ) (key : String) (step : Generations → Generations)
variable (sk : String) (r : Option StoredRecord)

@[simp] theorem noteFlag_artifacts : (s.noteFlag i).artifacts = s.artifacts := rfl
@[simp] theorem noteRebuild_artifacts : (s.noteRebuild key step).artifacts = s.artifacts := rfl

theorem record_setRecord (sk' : String) : (s.setRecord sk r).record sk' =
    if sk' = sk then r else s.record sk' := SortedMap.get_assign _ _ _ _

end

end IndexState

/-! ## Operations -/

/-- The atomic operations on the records of a repository. `storeBlob` stands for the
    operations on the blob of a record; the records keep the content. -/
inductive IndexOp where
  | stop
  | nowUtc
  | storeBlob
  | readRecord (sk : String)
  | putPackage (key sk : String) (r : StoredRecord)
  | setFlag (key sk : String) (r : StoredRecord)
  | clearFlag (key sk : String)
  | page (shard : ℕ) (skPrefix skStart : String)
  | putFile (sk : String) (r : StoredRecord)
  | publish (key sk : String) (r : StoredRecord)
  | endRebuild (key : String)

/-- Replies; `none` is a failure of the store. -/
def IndexOp.Reply : IndexOp → Type
  | .stop => Empty
  | .nowUtc => DateTime
  | .readRecord _ => Option (Option StoredRecord)
  | .page .. => Option (List (String × StoredRecord) × Bool)
  | .endRebuild _ => Unit
  | _ => Option Unit

/-- What an operation of task `i` does; one that fails has no effect. -/
def IndexState.exec (x : IndexExt) (i : ℕ) (o : IndexOp) (b : Bool) (s : IndexState) :
    Option (IndexState × o.Reply) :=
  match o with
  | .stop => none
  | .nowUtc => some (s, s.now)
  | .storeBlob => some (s, if b then some () else none)
  | .readRecord sk => some (s, if b then some (s.record sk) else none)
  | .putPackage key sk r =>
      some (if b then ((s.setRecord sk (some r)).noteChange i key, some ()) else (s, none))
  | .setFlag _ sk r =>
      some (if b then
          ((if (s.record sk).isSome then s else s.setRecord sk (some r)).noteFlag i, some ())
        else (s, none))
  | .clearFlag key sk =>
      some (if b then ((s.setRecord sk none).noteClear i key, some ()) else (s, none))
  | .page shard skPrefix skStart =>
      let part := s.artifacts.restrict fun sk => x.shardOf sk = shard
      some (s, if b then some (part.page skStart (prefixEnd skPrefix) scanBatchSize) else none)
  | .putFile sk r =>
      some (if b then (if (s.record sk).isSome then s else s.setRecord sk (some r), some ())
        else (s, none))
  | .publish key sk r =>
      some (if b then
          ((s.setRecord sk (some r)).noteRebuild key (Generations.publish i), some ())
        else (s, none))
  | .endRebuild key => some (s.noteRebuild key (Generations.finish i), ())

/-- A function of the handlers. -/
abbrev IndexTask (α : Type) : Type 1 := Fallible DepotError IndexOp IndexOp.Reply α

/-! ## Records -/

/-- A record that is stored at a moment. -/
def recordAt (now : DateTime) (size : ℕ) (contentType : String) (kind : ArtifactKind)
    (isInternal : Bool) (hash : Option String) : ArtifactRecord where
  size := size
  contentType := contentType
  createdAt := now
  updatedAt := now
  lastAccessedAt := now
  kind := kind
  internal := isInternal
  blobId := none
  contentHash := hash
  etag := hash

section

variable (x : IndexExt) (f : IndexFormat)

/-- The key of the flag of an index. -/
def IndexFormat.staleSk (key : String) : String := normalizePath (f.stalePath key)

/-- The stale flag. -/
def IndexFormat.flagRecord (now : DateTime) : StoredRecord where
  record := recordAt now 0 "text/plain" f.metadataKind true none

/-- The record of an index file. -/
def IndexFormat.fileRecord (now : DateTime) (w : IndexWrite) : StoredRecord where
  record := recordAt now w.data.length w.contentType f.metadataKind true (some (x.sha256 w.data))
  content := some w.data

/-- An upload: where the package is stored and what its record says, with the index that is to
    list it. -/
structure Upload (f : IndexFormat) where
  path : String
  contentType : String
  kind : ArtifactKind
  packageMeta : PackageMeta
  content : Bytes
  key : String
  key_eq : f.keyOf packageMeta = some key

/-- The record of the package. -/
def Upload.record {f : IndexFormat} (u : Upload f) (now : DateTime) : StoredRecord where
  record := recordAt now u.content.length u.contentType u.kind false (some (x.sha256 u.content))
  packageMeta := u.packageMeta
  content := some u.content

/-- An upload to a Yum repository (`put_package`, `yum/src/store/store.rs` lines 37–101). -/
def yumUpload (depth : ℕ) (directory filename : String) (rpm : RpmPackageMeta) (content : Bytes) :
    Upload (yumFormat x depth) where
  path := packagesKvPath directory filename
  contentType := "application/x-rpm"
  kind := .yumPackage
  packageMeta := .yum rpm
  content := content
  key := ""
  key_eq := rfl

/-- An upload to a Helm repository (`put_chart`, lines 267–327). -/
def helmUpload (helm : HelmChartMeta) (content : Bytes) : Upload (helmFormat x) where
  path := chartPath helm.name helm.version
  contentType := "application/gzip"
  kind := .helmChart
  packageMeta := .helm helm
  content := content
  key := ""
  key_eq := rfl

/-! ## The functions -/

/-- `now_utc`. -/
def indexNow : IndexTask DateTime := Fallible.issue IndexOp.nowUtc

/-- Storing, claiming or reading the blob of a record. -/
def storeBlob : IndexTask Unit := attempt .storage IndexOp.storeBlob id

/-- `service::get_artifact`. -/
def readRecord (path : String) : IndexTask (Option StoredRecord) :=
  attempt .storage (IndexOp.readRecord (normalizePath path)) id

/-- `set_stale_flag`: the flag is put if it is absent. -/
def setStaleFlag (key : String) : IndexTask Unit := do
  let now ← indexNow
  attempt .storage (IndexOp.setFlag key (f.staleSk key) (f.flagRecord now)) id

/-- `clear_stale_flag`. -/
def clearStaleFlag (key : String) : IndexTask Unit :=
  attempt .storage (IndexOp.clearFlag key (f.staleSk key)) id

/-- `is_metadata_stale`. -/
def isMetadataStale (key : String) : IndexTask Bool := do
  let flag ← readRecord (f.stalePath key)
  pure flag.isSome

/-- `put_package`, `commit_package`, `put_chart` and `commit_chart`: the blob is stored and
    claimed, the record put, the flag set. -/
def commitPackage {f : IndexFormat} (u : Upload f) : IndexTask Unit := do
  storeBlob
  let now ← indexNow
  storeBlob
  attempt .storage
    (IndexOp.putPackage u.key (normalizePath u.path) (u.record x now)) id
  setStaleFlag f u.key

/-- One shard of `fold_all_artifacts`: the records with a prefix that are selected. -/
def scanShard (select : StoredRecord → Bool) (shard : ℕ) (skPrefix : String) :
    ℕ → String → List (String × StoredRecord) → IndexTask (List (String × StoredRecord))
  | 0, _, _ => Fallible.issue IndexOp.stop >>= fun e => nomatch e
  | fuel + 1, start, acc => do
      let result ← attempt .storage (IndexOp.page shard skPrefix start) id
      let own := result.1.takeWhile fun e => hasPrefix skPrefix e.1
      let acc' := acc ++ own.filter fun e => select e.2
      if own.length ≠ result.1.length ∨ result.2 = true then pure acc'
      else
        match result.1.getLast? with
        | some last => scanShard select shard skPrefix fuel (cursorAfter last.1) acc'
        | none => pure acc'

/-- `fold_all_artifacts` (`core/src/service/artifact.rs`, lines 388–432). -/
def foldArtifacts (fuel : ℕ) (select : StoredRecord → Bool) (skPrefix : String) :
    IndexTask (List (String × StoredRecord)) := do
  let found ← Fallible.join ((List.range numShards).map fun shard =>
    scanShard select shard skPrefix fuel skPrefix [])
  pure found.flatten

/-- Storing an index file: `store_metadata_file` puts one under its hash if it is absent,
    `store_inrelease`, `store_repomd_at` and the end of `rebuild_index` put the one that
    publishes the index. -/
def storeIndexFile (key : String) (now : DateTime) (w : IndexWrite) : IndexTask Unit := do
  storeBlob
  if w.commit then
    attempt .storage (IndexOp.publish key w.sk (f.fileRecord x now w)) id
  else
    attempt .storage (IndexOp.putFile w.sk (f.fileRecord x now w)) id

/-- The time in the file that publishes the index: `generate_release` of Apt reads the clock for
    its `Date`, the others are given the time of the records. -/
def releaseDate (now : DateTime) : IndexTask DateTime :=
  if f.datedAgain then indexNow else pure now

/-- The index at a key lists the record. -/
def IndexFormat.lists (key : String) (r : StoredRecord) : Bool :=
  f.keyOf r.packageMeta = some key

/-- `rebuild_metadata` and `rebuild_index`: the flag is cleared first, then the packages are
    scanned and the files of the index written. -/
def rebuildIndex (fuel : ℕ) (key : String) : IndexTask Unit := do
  clearStaleFlag f key
  let pkgs ← Fallible.fold (fun found skPrefix => do
    let part ← foldArtifacts fuel (f.lists key) skPrefix
    pure (found ++ part)) f.prefixes []
  let now ← indexNow
  let date ← releaseDate f now
  Fallible.each (storeIndexFile x f key now) (f.plan key date pkgs)
  Fallible.issue (IndexOp.endRebuild key)

/-- `hosted_get_index` of Helm, `serve_metadata` of Apt and the handlers of Yum: an index
    whose flag is set is rebuilt before it is served; Helm rebuilds a missing one as well. -/
def fetchMetadata (fuel : ℕ) (key : String) : IndexTask Unit := do
  let isStale ← Fallible.capture (isMetadataStale f key)
  if isStale = .ok true then
    rebuildIndex x f fuel key
  match f.required with
  | none => pure ()
  | some path => do
      let found ← readRecord path
      if found.isNone then
        Fallible.ignore (rebuildIndex x f fuel key)

end

/-! ## The system -/

/-- The requests. A rebuild by itself is one that no flag has asked for
    (`rebuild_repodata_for_depth_change` of Yum). -/
inductive IndexJob (f : IndexFormat) where
  | upload (u : Upload f)
  | rebuild (key : String)
  | fetch (key : String)

section

variable (x : IndexExt) (f : IndexFormat) (fuel : ℕ)

/-- What a request executes. -/
def IndexJob.code : IndexJob f → IndexTask Unit
  | .upload u => commitPackage x u
  | .rebuild key => rebuildIndex x f fuel key
  | .fetch key => fetchMetadata x f fuel key

/-- The index of a job. -/
def IndexJob.key {f : IndexFormat} : IndexJob f → String
  | .upload u => u.key
  | .rebuild key => key
  | .fetch key => key

/-- The job uploads a package. -/
def IndexJob.isUpload {f : IndexFormat} : IndexJob f → Bool
  | .upload _ => true
  | _ => false

/-- Any number of requests run concurrently while time passes. -/
def indexSystem : System IndexOp IndexOp.Reply IndexState (IndexJob f) ℕ where
  exec i _ o b s := s.exec x i o b
  code j := (j.code x f fuel).run.bind fun _ => .pure ()
  env d s := some { s with now := s.now + d }
  leave _ s := s

end

end Depot
