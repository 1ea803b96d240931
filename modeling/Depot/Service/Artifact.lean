import Depot.Core.Effects

/-!
# Artifact records

Reading, writing and deleting artifact records together with their entries in
the browse tree (`core/src/service/artifact.rs`).

Results:
* `effects_upsertTreeFile`, `effects_getArtifact` and siblings: what the
  functions may change.
-/

namespace Depot

open Lib

section

variable (x : Ext)

/-- The tree entry of an artifact record (`upsert_tree_file`, lines 22–33). -/
def treeFileEntry (record : ArtifactRecord) : TreeEntry where
  kind := .file record.size record.contentType record.kind record.blobId record.contentHash
    record.createdAt
  lastModifiedAt := record.updatedAt
  lastAccessedAt := record.lastAccessedAt

/-- `upsert_tree_file` (lines 20–37). -/
def upsertTreeFile (repo path : String) (record : ArtifactRecord) : Async Unit :=
  Fallible.ignore (kvPut (treeEntryKey x.shardOf repo path) (.tree (treeFileEntry record)))

/-- `delete_tree_file` (lines 40–43). -/
def deleteTreeFile (repo path : String) : Async Unit :=
  Fallible.ignore (kvDelete (treeEntryKey x.shardOf repo path))

/-- `PUT_ARTIFACT_MAX_RETRIES`. -/
def putArtifactMaxRetries : ℕ := 3

/-- `DateTime::UNIX_EPOCH`. -/
def unixEpoch : DateTime := 0

/-- The record as it is stored (lines 77–84). -/
def prepareRecord (path : String) (record : ArtifactRecord) : ArtifactRecord :=
  { record with
    lastAccessedAt :=
      if record.lastAccessedAt = unixEpoch then record.createdAt else record.lastAccessedAt
    path := path }

/-- The attempts of `put_artifact` (lines 51–104). -/
def putArtifactAttempts (repo path : String) (record : ArtifactRecord) :
    ℕ → Async (Option ArtifactRecord)
  | 0 => throw (.conflict ("put_artifact failed after 3 retries due to concurrent writes: " ++
      repo ++ "/" ++ path))
  | attempts + 1 => do
      let key := artifactKey x.shardOf repo path
      let old ← typedGetVersioned Value.artifact? key
      let record' := prepareRecord path record
      let written ← kvPutIfVersion key (.artifact record') (old.map Prod.snd)
      if written then do
        upsertTreeFile x repo path record'
        pure (old.map Prod.fst)
      else putArtifactAttempts repo path record attempts

/-- `put_artifact` (lines 51–104): the record it has replaced. -/
def putArtifact (repo path : String) (record : ArtifactRecord) :
    Async (Option ArtifactRecord) :=
  if path = "" then throw (.badRequest "empty artifact path")
  else putArtifactAttempts x repo path record putArtifactMaxRetries

/-- `put_artifact_if_absent` (lines 109–129). -/
def putArtifactIfAbsent (repo path : String) (record : ArtifactRecord) : Async Bool := do
  let record' := prepareRecord path record
  let written ← kvPutIfAbsent (artifactKey x.shardOf repo path) (.artifact record')
  if written then upsertTreeFile x repo path record'
  pure written

/-- `get_artifact` (lines 133–140). -/
def getArtifact (repo path : String) : Async (Option ArtifactRecord) :=
  typedGet Value.artifact? (artifactKey x.shardOf repo path)

/-- `delete_artifact` (lines 143–156). -/
def deleteArtifact (repo path : String) : Async (Option ArtifactRecord) := do
  match ← kvDeleteReturning (artifactKey x.shardOf repo path) with
  | some v => do
      deleteTreeFile x repo path
      some <$> decode Value.artifact? v
  | none => pure none

/-- `delete_artifacts_paired_batch` (lines 180–256). -/
def deleteArtifactsPairedBatch (repo : String) (paths : List String) : Async Unit :=
  if paths = [] then pure ()
  else do
    let _ ← kvDeleteBatch (paths.map (artifactKey x.shardOf repo))
    Fallible.ignore (kvDeleteBatch (paths.map (treeEntryKey x.shardOf repo)))

/-! ## What the functions may change -/

variable {x} {es : List Effect}

theorem effects_upsertTreeFile (h : Effect.table .dirEntries ∈ es) (repo path : String)
    (record : ArtifactRecord) : Effects es (upsertTreeFile x repo path record) :=
  (effects_kvPut h _).ignore

theorem effects_getArtifact (repo path : String) : Effects es (getArtifact x repo path) :=
  effects_typedGet _ _

end

end Depot
