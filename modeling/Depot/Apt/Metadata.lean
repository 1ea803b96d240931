import Depot.Core.KeyText
import Depot.Index.Stored
import Depot.Writes.Snapshots

/-!
# Reading and storing Apt metadata

The files of a distribution as `get_metadata` answers them and `store_metadata_file` and
`store_inrelease` store them (`format/apt/src/store/store.rs`), over the records of a repository
that nothing else writes.

Results:
* `byHash_ne_read`: what is stored for a path is not at the path itself.
* `readArtifact_storeMetadataFile`: what is read after a file has been stored.
-/

namespace Depot

open Lib

/-- Whether a path has a by-hash part (`contains("/by-hash/SHA256/")`). -/
def isByHash (metaPath : String) : Bool :=
  decide ("/by-hash/SHA256/".toList <:+: metaPath.toList)

/-- The path of a file of a distribution as it is requested. -/
def distsPath (distribution metaPath : String) : String :=
  "dists/" ++ distribution ++ "/" ++ metaPath

namespace RecordTable

section

variable (x : IndexExt) (e : SnapshotExt) (t : RecordTable StoredRecord)
variable (distribution metaPath : String)

/-- The release of a distribution (`get_metadata`, lines 387–395). -/
def aptRelease : Option String :=
  (t.readArtifact (inReleasePath distribution)).map fun data => extractRelease (e.lossy data)

/-- What an apt client reads of the checksums in the `Release` file. -/
def releaseEntries : List (String × String × ℕ) :=
  ((t.aptRelease e distribution).map (parseReleaseSha256 e)).getD []

/-- `get_release_gpg` (lines 421–439); `gpg` is the detached signature of a release. -/
def releaseGpg (gpg : String → Bytes) : Option Bytes := (t.aptRelease e distribution).map gpg

/-- `resolve_via_release` (lines 444–464). -/
def resolveViaRelease : Option Bytes :=
  match (t.releaseEntries e distribution).find? fun entry => entry.1 = metaPath with
  | some entry => t.readArtifact (byHashPath distribution metaPath entry.2.1)
  | none => none

/-- `get_metadata` (lines 376–404). -/
def aptMetadata (gpg : String → Bytes) : Option Bytes :=
  if metaPath = "InRelease" then t.readArtifact (inReleasePath distribution)
  else if metaPath = "Release" then (t.aptRelease e distribution).map utf8
  else if metaPath = "Release.gpg" then t.releaseGpg e distribution gpg
  else if isByHash metaPath then t.readArtifact (distsPath distribution metaPath)
  else t.resolveViaRelease e distribution metaPath

/-- The record of a stored file (lines 692–706). -/
def metadataRecord (now : DateTime) (data : Bytes) : StoredRecord where
  record := recordAt now data.length "application/octet-stream" .aptMetadata true
    (some (x.sha256 data))
  content := some data

/-- `store_metadata_file` (lines 660–724): the file is put at its by-hash path if nothing is
    there. -/
def storeMetadataFile (relPath : String) (data : Bytes) (now : DateTime) :
    RecordTable StoredRecord :=
  t.putStoredIfAbsent (byHashPath distribution relPath (x.sha256 data)) (metadataRecord x now data)

/-- `store_inrelease` (lines 727–786). -/
def storeInrelease (text : String) (now : DateTime) : RecordTable StoredRecord :=
  t.putStored (inReleasePath distribution)
    { record := recordAt now (utf8 text).length "text/plain" .aptMetadata true
        (some (x.sha256 (utf8 text)))
      content := some (utf8 text) }

end

end RecordTable

/-! ## Keys of files -/

theorem segments_single {cs : List Char} (h : '/' ∉ cs) : (segments cs).length ≤ 1 := by
  have hsplit : cs.splitOn '/' = [cs] := by
    refine List.splitOnP_eq_singleton fun c hc => ?_
    rw [beq_eq_false_iff_ne]
    rintro rfl
    exact h hc
  rw [segments, hsplit]
  exact List.length_filter_le _ _

theorem slash_notMem_splitLast (cs : List Char) : '/' ∉ (splitLast cs).2 := by
  intro hmem
  have hall := List.mem_rtakeWhile_imp (p := (· ≠ '/')) hmem
  simp at hall

/-- The directory of a path and the last segment. -/
theorem segments_splitLast (cs : List Char) :
    segments cs = segments ((splitLast cs).1.getD []) ++ segments (splitLast cs).2 := by
  cases h : (splitLast cs).1 with
  | none => rw [splitLast_none h, Option.getD_none]; rfl
  | some dir =>
    conv_lhs => rw [splitLast_some h]
    rw [segments_append_slash]
    rfl

theorem segments_distsPath (distribution metaPath : String) :
    segments (distsPath distribution metaPath).toList =
      segments ("dists/" ++ distribution).toList ++ segments metaPath.toList := by
  have hlist : (distsPath distribution metaPath).toList =
      ("dists/" ++ distribution).toList ++ '/' :: metaPath.toList := by
    simp [distsPath]
  rw [hlist, segments_append_slash]

/-- The by-hash path is in the directory of the file. -/
theorem segments_byHashPath (distribution relPath sha256 : String) :
    segments (byHashPath distribution relPath sha256).toList =
      segments ("dists/" ++ distribution).toList ++
        segments ((splitLast relPath.toList).1.getD []) ++
          (["by-hash".toList, "SHA256".toList] ++ segments sha256.toList) := by
  have htail : ∀ front : String, segments (front ++ "/by-hash/SHA256/" ++ sha256).toList =
      segments front.toList ++ (["by-hash".toList, "SHA256".toList] ++ segments sha256.toList) := by
    intro front
    have hlist : (front ++ "/by-hash/SHA256/" ++ sha256).toList = front.toList ++
        '/' :: ("by-hash".toList ++ '/' :: ("SHA256".toList ++ '/' :: sha256.toList)) := by
      simp
    have hdir : segments "by-hash".toList = ["by-hash".toList] := by decide
    have hsub : segments "SHA256".toList = ["SHA256".toList] := by decide
    rw [hlist, segments_append_slash, segments_append_slash, segments_append_slash, hdir, hsub]
    rfl
  unfold byHashPath
  split
  · rename_i dir hdir
    rw [hdir, Option.getD_some]
    split_ifs with hempty
    · rw [htail, hempty]
      simp [segments]
    · have hfront : ("dists/" ++ distribution ++ "/" ++ String.ofList dir).toList =
          ("dists/" ++ distribution).toList ++ '/' :: dir := by simp
      rw [htail, hfront, segments_append_slash]
  · rename_i hdir
    rw [hdir, htail]
    simp [segments]

/-- What is stored for a path is not at the path itself: it is deeper by the two directories of
    the hashes. -/
theorem byHash_ne_read (distribution relPath sha256 : String) :
    normalizePath (distsPath distribution relPath) ≠
      normalizePath (byHashPath distribution relPath sha256) := by
  rw [Ne, normalizePath_eq_iff, SameSegments, segments_distsPath, segments_byHashPath,
    segments_splitLast relPath.toList, List.append_assoc, List.append_right_inj,
    List.append_right_inj]
  intro heq
  have hlast := segments_single (slash_notMem_splitLast relPath.toList)
  rw [heq] at hlast
  simp at hlast

namespace RecordTable

section

variable {x : IndexExt} {e : SnapshotExt} {t : RecordTable StoredRecord}
variable {distribution relPath : String} {data : Bytes} {now : DateTime}

/-- What is read after a file has been stored. -/
theorem readArtifact_storeMetadataFile (path : String) :
    (t.storeMetadataFile x distribution relPath data now).readArtifact path =
      if normalizePath path = normalizePath (byHashPath distribution relPath (x.sha256 data)) ∧
          t.find (byHashPath distribution relPath (x.sha256 data)) = none then some data
      else t.readArtifact path :=
  readArtifact_putStoredIfAbsent _ _ _ _

/-- Storing a file leaves the release alone. -/
theorem aptRelease_storeMetadataFile (d : String) :
    (t.storeMetadataFile x distribution relPath data now).aptRelease e d = t.aptRelease e d := by
  have hne : ¬ (normalizePath (inReleasePath d) =
        normalizePath (byHashPath distribution relPath (x.sha256 data)) ∧
      t.find (byHashPath distribution relPath (x.sha256 data)) = none) :=
    fun h => byHash_ne_inRelease x distribution d relPath data h.1.symm
  rw [aptRelease, readArtifact_storeMetadataFile, if_neg hne, aptRelease]

end

end RecordTable

end Depot
