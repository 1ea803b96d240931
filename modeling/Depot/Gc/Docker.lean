import Depot.Core.Json
import Depot.Lib.Search
import Depot.Service.Artifact
import Depot.Service.Scan

/-!
# Collecting Docker records

Which blob references and manifests of a Docker repository are deleted
(`server/src/server/worker/blob_reaper/docker_gc.rs`). The digests that a
manifest refers to are in its JSON, which is kept in a blob store.
-/

namespace Depot

open Lib

/-! ## Manifests -/

namespace Json

/-- `value.get("digest").and_then(|d| d.as_str())`. -/
def digest (v : Json) : Option String := (v.get "digest").bind asStr

/-- The digests of the entries of an array field. -/
def digestsAt (key : String) (v : Json) : List String :=
  (((v.get key).bind asArray).getD []).filterMap digest

/-- The digests of the config and the layers (lines 300–313). -/
def layers (v : Json) : List String :=
  ((v.get "config").bind digest).toList ++ v.digestsAt "layers"

/-- The digests of the child manifests of a list or an index (lines 316–322). -/
def children (v : Json) : List String := v.digestsAt "manifests"

end Json

/-- `extract_manifest_refs` (lines 292–325); `parse` is `serde_json::from_str` of
    the text in UTF-8. -/
def extractManifestRefs (parse : Bytes → Option Json) (json : Bytes) : List String :=
  match parse json with
  | some v => v.layers ++ v.children
  | none => []

/-! ## Paths -/

/-- The text after the last occurrence of a separator, as `rsplit_once` finds
    it. -/
def afterLast (sep : List Char) : List Char → Option (List Char)
  | [] => none
  | c :: cs =>
      match afterLast sep cs with
      | some rest => some rest
      | none => if sep.isPrefixOf (c :: cs) then some ((c :: cs).drop sep.length) else none

/-- `path.contains("/{dir}") || path.starts_with(dir)`. -/
def inDockerDir (dir path : String) : Bool :=
  decide (('/' :: dir.toList) <:+: path.toList) || hasPrefix dir path

/-- The digest in a path (lines 160–167 and 213–220). -/
def digestOf (dir path : String) : Option String :=
  match afterLast ('/' :: dir.toList) path.toList with
  | some digest => some (String.ofList digest)
  | none => if hasPrefix dir path then some (String.ofList (path.toList.drop dir.toList.length))
      else none

/-- The directories of a Docker repository. -/
def blobsDir : String := "_blobs/"

/-- The directory of the manifests. -/
def manifestsDir : String := "_manifests/"

/-- The directory of the tags. -/
def tagsDir : String := "_tags/"

/-! ## The records of a repository -/

/-- `ShardResult`. -/
structure ShardResult where
  manifests : List (String × ArtifactRecord) := []
  blobRefs : List (String × DateTime × ℕ) := []
  tagDigests : List String := []

/-- An entry of a page (lines 94–112). -/
def ShardResult.add (sr : ShardResult) (e : String × Value) : ShardResult :=
  match e.2.artifact? with
  | none => sr
  | some record =>
      if inDockerDir blobsDir e.1 then
        { sr with blobRefs := sr.blobRefs ++ [(e.1, record.createdAt, record.size)] }
      else if inDockerDir manifestsDir e.1 then
        { sr with manifests := sr.manifests ++ [(e.1, record)] }
      else if inDockerDir tagsDir e.1 then
        match record.kind with
        | .dockerTag digest _ => { sr with tagDigests := sr.tagDigests ++ [digest] }
        | _ => sr
      else sr

/-- What the shards have found, put together (lines 136–143). -/
def ShardResult.concat (rs : List ShardResult) : ShardResult where
  manifests := rs.flatMap ShardResult.manifests
  blobRefs := rs.flatMap ShardResult.blobRefs
  tagDigests := rs.flatMap ShardResult.tagDigests

section

variable (x : Ext) (parse : Bytes → Option Json)

/-- The message of a cancelled pass. -/
def dockerGcCancelled : String := "Docker GC cancelled"

/-- One shard (lines 69–128). -/
def scanDockerShard (part : Part) : ℕ → Option String → ShardResult → Async ShardResult
  | 0, _, _ => orPanic none
  | fuel + 1, cursor, sr => do
      checkCancelled dockerGcCancelled
      let result ← kvScanRange part (cursor.getD "") none 1000
      let sr' := result.items.foldl ShardResult.add sr
      if result.done then pure sr'
      else
        match result.items.getLast? with
        | some e => scanDockerShard part fuel (some (cursorAfter e.1)) sr'
        | none => pure sr'

/-- `read_manifest_json` (lines 328–343), with the blob store that was resolved. -/
def readManifest (blobs : Option String) (record : ArtifactRecord) : Async (Option Bytes) :=
  match blobs, record.blobId with
  | some store, some blobId =>
      if blobId = "" then pure none
      else do
        match ← Fallible.capture (blobRead store blobId) with
        | .ok data => pure data
        | .error _ => pure none
  | _, _ => pure none

/-! ## Phase A: blob references -/

/-- The capacity of the layer filter (lines 149–153): ten layers for each
    manifest. -/
def layerCapacity (manifests : List (String × ArtifactRecord)) : ℕ := max manifests.length 1 * 10

/-- The digests that a manifest adds to the layer filter (lines 156–160). -/
def addLayers (blobs : Option String) (filter : Bloom) (m : String × ArtifactRecord) :
    Async Bloom := do
  match ← readManifest blobs m.2 with
  | some json => pure ((extractManifestRefs parse json).foldl (Bloom.set x) filter)
  | none => pure filter

/-- The blob references to delete (lines 165–187). -/
def blobDeletions (graceCutoff : DateTime) (filter : Bloom)
    (blobRefs : List (String × DateTime × ℕ)) : List (String × ℕ) :=
  blobRefs.filterMap fun r =>
    if graceCutoff < r.2.1 then none
    else
      match digestOf blobsDir r.1 with
      | some digest => if filter.check x digest then none else some (r.1, r.2.2)
      | none => none

/-- The updates for the deleted records. -/
def recordsRemoved (repo : String) (deleted : List (String × ℕ)) : Async Unit :=
  Fallible.each (fun d => dirChanged repo d.1 (-1) (-d.2)) deleted

/-- A batch of deletions, and how many there are. -/
def deleteDockerRecords (repo : String) (dryRun : Bool) (deletions : List (String × ℕ)) :
    Async ℕ :=
  if deletions ≠ [] ∧ dryRun = false then do
    deleteArtifactsPairedBatch x repo (deletions.map Prod.fst)
    recordsRemoved repo deletions
    pure deletions.length
  else pure 0

/-! ## Phase B: manifests -/

/-- A list or an index, by its content type. -/
def isManifestList (contentType : String) : Bool :=
  decide ("manifest.list".toList <:+: contentType.toList) ||
    decide ("image.index".toList <:+: contentType.toList)

/-- `children_of`: the children that were found for a digest last. -/
abbrev ChildrenOf := List (String × List String)

/-- The children of a manifest. -/
def ChildrenOf.next (m : ChildrenOf) (digest : String) : List String :=
  ((m.find? fun e => decide (e.1 = digest)).map Prod.snd).getD []

/-- A manifest in the map (lines 224–233). -/
def addChildren (blobs : Option String) (m : ChildrenOf) (e : String × ArtifactRecord) :
    Async ChildrenOf :=
  if isManifestList e.2.contentType then do
    match digestOf manifestsDir e.1, ← readManifest blobs e.2 with
    | some digest, some json => pure ((digest, extractManifestRefs parse json) :: m)
    | _, _ => pure m
  else pure m

/-- The manifests to delete (lines 252–269). -/
def manifestDeletions (graceCutoff : DateTime) (reachable : List String)
    (manifests : List (String × ArtifactRecord)) : List (String × ℕ) :=
  manifests.filterMap fun m =>
    if graceCutoff < m.2.createdAt then none
    else
      match digestOf manifestsDir m.1 with
      | some digest => if digest ∈ reachable then none else some (m.1, m.2.size)
      | none => none

/-! ## The pass -/

/-- `DOCKER_GC_GRACE_SECS`. -/
def dockerGcGraceSecs : ℕ := 3600

/-- Phase A (lines 147–197). -/
def layerPhase (repo : RepoConfig) (dryRun : Bool) (graceCutoff : DateTime)
    (blobs : Option String) (found : ShardResult) : Async ℕ := do
  let seed : ℕ ← Fallible.issue Op.seed
  let filter ← Fallible.fold (addLayers x parse blobs) found.manifests
    ⟨layerCapacity found.manifests, seed, 0⟩
  deleteDockerRecords x repo.name dryRun (blobDeletions x graceCutoff filter found.blobRefs)

/-- Phase B (lines 199–284). -/
def manifestPhase (fuel : ℕ) (repo : RepoConfig) (dryRun : Bool) (graceCutoff : DateTime)
    (blobs : Option String) (found : ShardResult) : Async ℕ :=
  if repo.cleanupUntaggedManifests then do
    let childrenOf ← Fallible.fold (addChildren parse blobs) found.manifests []
    let reachable ← orPanic (search childrenOf.next fuel found.tagDigests.reverse [])
    deleteDockerRecords x repo.name dryRun (manifestDeletions graceCutoff reachable found.manifests)
  else pure 0

/-- `docker_gc` (lines 40–287): the number of deleted records. `order` is the order in which the
    tasks of the shards end, which is that of their results (lines 130–143). -/
def dockerGc (fuel : ℕ) (order : List ℕ) (repo : RepoConfig) (dryRun : Bool) : Async ℕ := do
  let now ← utcNow
  let graceCutoff := now - dockerGcGraceSecs * secondNs
  let shardResults ← Fallible.join (order.map fun shard =>
    scanDockerShard (artifactShardPk repo.name shard) fuel none {})
  let found := ShardResult.concat shardResults
  let registered ← storesGet repo.store
  let blobs := if registered then some repo.store else none
  let deletedBlobs ← layerPhase x parse repo dryRun graceCutoff blobs found
  let deletedManifests ← manifestPhase x parse fuel repo dryRun graceCutoff blobs found
  pure (deletedBlobs + deletedManifests)

end

end Depot
