import Depot.Index.Store
import Depot.Npm.Records

/-!
# Publishing an npm package

What a publish does to the records of a hosted repository (`put_package` of
`format/npm/src/store.rs`, lines 62–232, and `publish_inner` of `format/npm/src/api.rs`,
lines 864–1018): for each version of its body it stores a tarball and a document, and writes
the dist-tags it has read back with its own on top.
-/

namespace Depot

open Lib
open Fallible (attempt)

/-! ## The state -/

/-- The records of a repository by their keys; and what only the statements refer to: the
    dist-tags that a task has last read, those of its body that it has put, and the response
    that it has sent. -/
structure NpmState where
  now : DateTime := 0
  artifacts : SortedMap String NpmRecord := SortedMap.empty
  seen : ℕ → Tags := fun _ => SortedMap.empty
  given : ℕ → Option Tags := fun _ => none
  answered : ℕ → Option Bool := fun _ => none

namespace NpmState

variable (s : NpmState)

def record (sk : String) : Option NpmRecord := s.artifacts.get sk

/-- The dist-tags at a key. -/
def tags (sk : String) : Tags :=
  match s.record sk with
  | some r => r.tags
  | none => .empty

def setRecord (sk : String) (r : NpmRecord) : NpmState :=
  { s with artifacts := s.artifacts.insert sk r }

section

variable (sk sk' : String) (r : NpmRecord)

theorem record_setRecord :
    (s.setRecord sk r).record sk' = if sk' = sk then some r else s.record sk' :=
  SortedMap.get_insert _ _ _ _

theorem tags_setRecord :
    (s.setRecord sk r).tags sk' = if sk' = sk then r.tags else s.tags sk' := by
  unfold tags
  rw [record_setRecord]
  by_cases h : sk' = sk
  · rw [if_pos h, if_pos h]
  · rw [if_neg h, if_neg h]

end

end NpmState

/-! ## Operations -/

/-- The atomic operations. `storeBlob` stands for the operations on the blob of a record, whose
    content does not change: reading the dist-tags reads a record and its blob. `respond`
    sends the response. -/
inductive NpmOp where
  | nowUtc
  | storeBlob
  | readTags (sk : String)
  | putArtifact (sk : String) (r : NpmRecord)
  | putTags (sk : String) (r : NpmRecord) (own : Tags)
  | putIfAbsent (sk : String) (r : NpmRecord)
  | respond (ok : Bool)

/-- Replies; `none` is a failure of the store. -/
def NpmOp.Reply : NpmOp → Type
  | .nowUtc => DateTime
  | .readTags _ => Option Tags
  | .respond _ => Unit
  | _ => Option Unit

/-- What an operation of task `i` does; one that fails has no effect. -/
def NpmState.exec (i : ℕ) (o : NpmOp) (b : Bool) (s : NpmState) : Option (NpmState × o.Reply) :=
  match o with
  | .nowUtc => some (s, s.now)
  | .storeBlob => some (s, if b then some () else none)
  | .readTags sk =>
      let tags := if b then s.tags sk else .empty
      some ({ s with seen := Function.update s.seen i tags }, if b then some tags else none)
  | .putArtifact sk r => some (if b then (s.setRecord sk r, some ()) else (s, none))
  | .putTags sk r own =>
      some (if b then
          ({ s.setRecord sk r with given := Function.update s.given i (some own) }, some ())
        else (s, none))
  | .putIfAbsent sk r =>
      some (if b then (if (s.record sk).isSome then s else s.setRecord sk r, some ())
        else (s, none))
  | .respond ok => some ({ s with answered := Function.update s.answered i (some ok) }, ())

/-- A function of the handlers. -/
abbrev NpmTask (α : Type) : Type 1 := Fallible DepotError NpmOp NpmOp.Reply α

/-! ## The functions -/

section

variable (x : NpmExt)

/-- The record of a document (lines 151–160 and 186–200). -/
def documentRecord (now : DateTime) (j : Json) : NpmRecord where
  record := recordAt now (x.length (.document j)) "application/json" .npmMetadata true
    (some (x.blake3 (.document j)))
  content := some (.document j)

/-- The record of a tarball (lines 102–125). -/
def tarballRecord (now : DateTime) (npm : NpmPackageMeta) (data : Bytes) : NpmRecord where
  record := recordAt now (x.length (.tarball data)) "application/octet-stream" .npmPackage false
    (some (x.blake3 (.tarball data)))
  npm := some npm
  content := some (.tarball data)

def npmFlagRecord (now : DateTime) : NpmRecord where
  record := recordAt now 0 "text/plain" .npmMetadata true none

/-- `now_utc`. -/
def npmNow : NpmTask DateTime := Fallible.issue NpmOp.nowUtc

/-- Storing and claiming a blob. -/
def npmBlob : NpmTask Unit := do
  attempt .storage NpmOp.storeBlob id
  attempt .storage NpmOp.storeBlob id

/-- `get_dist_tags` (lines 382–399). -/
def getDistTags (name : String) : NpmTask Tags :=
  attempt .storage (NpmOp.readTags (normalizePath (distTagsPath x name))) id

/-- `put_package` (lines 62–232). -/
def putNpmPackage (name version filename : String) (data : Bytes) (metadata : Json)
    (distTags : Tags) : NpmTask Unit := do
  let now ← npmNow
  npmBlob
  let record := tarballRecord x now
    { name, version, filename, sha1 := x.sha1 data, sha512 := x.sha512 data } data
  npmBlob
  let existing ← Fallible.capture (getDistTags x name)
  -- `unwrap_or_default`: tags that cannot be read are none
  let merged := (existing.toOption.getD .empty).overlay distTags.entries
  npmBlob
  attempt .storage
    (NpmOp.putArtifact (normalizePath (tarballPath x name version filename)) record) id
  attempt .storage
    (NpmOp.putArtifact (normalizePath (versionPath x name version))
      (documentRecord x now metadata)) id
  attempt .storage
    (NpmOp.putTags (normalizePath (distTagsPath x name))
      (documentRecord x now (tagsJson merged)) distTags) id

/-- `set_stale_flag` (lines 720–743). -/
def setNpmStale : NpmTask Unit := do
  let now ← npmNow
  attempt .storage
    (NpmOp.putIfAbsent (normalizePath npmStalePath) (npmFlagRecord now)) id

/-- The key of the attachment of a version (lines 926–945). -/
def attachmentKey (package version : String) (attachments : List (String × Json)) :
    Option String :=
  let expected := package ++ "-" ++ version ++ ".tgz"
  let norm := normalizeName x package ++ "-" ++ version ++ ".tgz"
  if (Json.lookup expected attachments).isSome then some expected
  else if (Json.lookup norm attachments).isSome then some norm
  else attachments.head?.map Prod.fst

/-- The part of a name after its last slash. -/
def bareName (package : String) : String := String.ofList (splitLast package.toList).2

/-- The name of the file that is stored for a version (lines 947–949). -/
def storedFilename (package version : String) : String :=
  normalizeName x (bareName package) ++ "-" ++ version ++ ".tgz"

/-- The tarball of a version (lines 926–969). -/
def attachmentData (package version : String) (attachments : List (String × Json)) :
    Except DepotError Bytes :=
  match attachmentKey x package version attachments with
  | none => .error (.badRequest ("no attachment found for version " ++ version))
  | some key =>
      match ((Json.lookup key attachments).bind fun a => a.get "data").bind Json.asStr with
      | none => .error (.badRequest "attachment missing 'data' field")
      | some text =>
          match x.decode text with
          | none => .error (.badRequest "invalid base64 in attachment")
          | some data => .ok data

/-- The versions in the payload. -/
def Json.versions (payload : Json) : List (String × Json) :=
  ((payload.get "versions").bind Json.asObject).getD []

/-- The dist-tags of a body (lines 904–922). -/
def Json.distTags (payload : Json) : Tags :=
  let tags := Tags.overlay .empty
    ((((payload.get "dist-tags").bind Json.asObject).getD []).filterMap stringEntry)
  if (tags.get "latest").isSome then tags
  else
    match payload.versions.getLast? with
    | some e => tags.insert "latest" e.1
    | none => tags

/-- One version of a body (lines 924–995). -/
def publishVersion (package : String) (attachments : List (String × Json)) (distTags : Tags)
    (e : String × Json) : NpmTask Unit := do
  let data ← Fallible.ofExcept (attachmentData x package e.1 attachments)
  putNpmPackage x package e.1 (storedFilename x package e.1) data e.2 distTags

/-- `publish_inner` (lines 864–1018), once the request is admitted and its body parsed. -/
def publishInner (package : String) (payload : Json) : NpmTask Unit := do
  let versions ← Fallible.ofExcept (((payload.get "versions").bind Json.asObject).elim
    (.error (.badRequest "missing 'versions' field")) .ok)
  let attachments ← Fallible.ofExcept (((payload.get "_attachments").bind Json.asObject).elim
    (.error (.badRequest "missing '_attachments' field")) .ok)
  Fallible.each (publishVersion x package attachments payload.distTags) versions
  Fallible.ignore setNpmStale

end

/-! ## The system -/

/-- A publish of the package whose normalised name is `norm`. -/
structure Publish (x : NpmExt) (norm : String) where
  package : String
  payload : Json
  isPackage : normalizeName x package = norm

section

variable (x : NpmExt) (norm : String)

/-- What a publish executes: its response says whether it has succeeded. -/
def Publish.code (p : Publish x norm) : NpmTask Unit := do
  let result ← Fallible.capture (publishInner x p.package p.payload)
  Fallible.issue (NpmOp.respond result.toOption.isSome)

/-- Any number of publishes of a package run concurrently while time passes. -/
def publishSystem : System NpmOp NpmOp.Reply NpmState (Publish x norm) ℕ where
  exec i _ o b s := s.exec i o b
  code p := (p.code x norm).run.bind fun _ => .pure ()
  env d s := some { s with now := s.now + d }
  leave _ s := s

/-- The key of the dist-tags of the package. -/
def tagsSk (norm : String) : String := normalizePath ("_dist-tags/" ++ norm)

/-- The key of the document of a version of the package. -/
def versionSk (norm version : String) : String :=
  normalizePath ("_versions/" ++ norm ++ "/" ++ version)

end

end Depot
