import Depot.Apt.Metadata
import Depot.Index.Lines

/-!
# Metadata of an Apt cache

A request for metadata that a cache repository does not have is answered by its upstream, and
the answer is stored (`cache_serve_metadata`, `format/apt/src/api.rs` lines 463–514).

Results:
* `aptMetadata_store_byHash`: a file requested by its hash is not found afterwards.
* `resolve_store_iff`: when a file requested by its name is.
* `fetch_kept_iff`: when a second request is answered without the upstream.
-/

namespace Depot

open Lib
open RecordTable (aptRelease releaseEntries releaseGpg)

/-! ## The request -/

/-- What a request is answered, whether the upstream was asked, and the records afterwards. -/
structure CacheReply where
  data : Option Bytes
  fetched : Bool
  table : RecordTable StoredRecord

section

variable (x : IndexExt) (e : SnapshotExt) (gpg : String → Bytes)

/-- `cache_serve_metadata` once the release is fresh (lines 463–514): a file that is missing is
    fetched and stored, whatever its path; a failure to store it is ignored. `upstream` is the
    body of a successful answer. -/
def cacheServe (t : RecordTable StoredRecord) (distribution metaPath : String)
    (upstream : Option Bytes) (now : DateTime) : CacheReply :=
  match t.aptMetadata e distribution metaPath gpg with
  | some data => ⟨some data, false, t⟩
  | none =>
      match upstream with
      | some bytes => ⟨some bytes, true, t.storeMetadataFile x distribution metaPath bytes now⟩
      | none => ⟨none, true, t⟩

/-- A request that was answered by the upstream, for a file whose hash the stored release
    names. -/
structure LazyFetch where
  table : RecordTable StoredRecord
  distribution : String
  metaPath : String
  bytes : Bytes
  now : DateTime
  missing : table.aptMetadata e distribution metaPath gpg = none
  named : ∃ entry ∈ table.releaseEntries e distribution, entry.2.1 = x.sha256 bytes

end

namespace LazyFetch

variable {x : IndexExt} {e : SnapshotExt} {gpg : String → Bytes} (f : LazyFetch x e gpg)

/-- The by-hash path at which the file is stored. -/
def storedPath : String := byHashPath f.distribution f.metaPath (x.sha256 f.bytes)

/-- The records after the request. -/
def after : RecordTable StoredRecord :=
  f.table.storeMetadataFile x f.distribution f.metaPath f.bytes f.now

/-- The file is served from the records, to any later request. -/
structure Kept : Prop where
  read : f.after.aptMetadata e f.distribution f.metaPath gpg = some f.bytes
  served : ∀ upstream now,
    cacheServe x e gpg f.after f.distribution f.metaPath upstream now =
      ⟨some f.bytes, false, f.after⟩

/-- The first entry for the path names the hash, and the path under which the file is stored is
    free; the path itself has no by-hash part. -/
structure Resolvable : Prop where
  byName : isByHash f.metaPath = false
  entry : ((f.table.releaseEntries e f.distribution).find? fun entry =>
    entry.1 = f.metaPath).any fun entry =>
      normalizePath (byHashPath f.distribution f.metaPath entry.2.1) = normalizePath f.storedPath
  free : f.table.find f.storedPath = none

/-! ## What is read afterwards -/

theorem release_stored : (f.table.aptRelease e f.distribution).isSome := by
  obtain ⟨entry, hmem, -⟩ := f.named
  cases h : f.table.aptRelease e f.distribution with
  | some release => rfl
  | none =>
    rw [releaseEntries, h] at hmem
    cases hmem

/-- A missing file is none of those that are made from the release. -/
theorem metaPath_ne : f.metaPath ≠ "InRelease" ∧ f.metaPath ≠ "Release" ∧
    f.metaPath ≠ "Release.gpg" := by
  obtain ⟨release, hrelease⟩ := Option.isSome_iff_exists.mp f.release_stored
  have hmissing := f.missing
  refine ⟨fun h => ?_, fun h => ?_, fun h => ?_⟩
  · rw [RecordTable.aptMetadata, if_pos h] at hmissing
    rw [aptRelease, hmissing] at hrelease
    cases hrelease
  · have hname : ¬ "Release" = "InRelease" := by decide
    rw [RecordTable.aptMetadata, h, if_neg hname, if_pos rfl, hrelease] at hmissing
    cases hmissing
  · have hname : ¬ "Release.gpg" = "InRelease" := by decide
    have hname' : ¬ "Release.gpg" = "Release" := by decide
    rw [RecordTable.aptMetadata, h, if_neg hname, if_neg hname', if_pos rfl,
      releaseGpg, hrelease] at hmissing
    cases hmissing

/-- How the file is read, before and after. -/
theorem aptMetadata_eq (t : RecordTable StoredRecord) :
    t.aptMetadata e f.distribution f.metaPath gpg =
      if isByHash f.metaPath then t.readArtifact (distsPath f.distribution f.metaPath)
      else t.resolveViaRelease e f.distribution f.metaPath := by
  obtain ⟨h₁, h₂, h₃⟩ := f.metaPath_ne
  rw [RecordTable.aptMetadata, if_neg h₁, if_neg h₂, if_neg h₃]

theorem readArtifact_after (path : String) : f.after.readArtifact path =
    if normalizePath path = normalizePath f.storedPath ∧ f.table.find f.storedPath = none then
      some f.bytes
    else f.table.readArtifact path :=
  RecordTable.readArtifact_storeMetadataFile path

/-- A file that is requested by its hash is stored two directories deeper than it is read. -/
theorem aptMetadata_store_byHash (h : isByHash f.metaPath = true) :
    f.after.aptMetadata e f.distribution f.metaPath gpg = none := by
  have hmissing := f.missing
  rw [f.aptMetadata_eq, if_pos h] at hmissing ⊢
  have hne : ¬ (normalizePath (distsPath f.distribution f.metaPath) =
      normalizePath f.storedPath ∧ f.table.find f.storedPath = none) :=
    fun heq => byHash_ne_read _ _ _ heq.1
  rw [f.readArtifact_after, if_neg hne, hmissing]

theorem releaseEntries_after :
    f.after.releaseEntries e f.distribution = f.table.releaseEntries e f.distribution := by
  rw [releaseEntries, after, RecordTable.aptRelease_storeMetadataFile, releaseEntries]

/-- A file that is requested by its name is found when the first entry for it names the hash,
    and nothing was stored for the hash. -/
theorem resolve_store_iff (h : isByHash f.metaPath = false) :
    f.after.aptMetadata e f.distribution f.metaPath gpg = some f.bytes ↔ f.Resolvable := by
  have hmissing := f.missing
  rw [f.aptMetadata_eq, if_neg (by simp [h]), RecordTable.resolveViaRelease] at hmissing ⊢
  rw [f.releaseEntries_after]
  cases hfind : (f.table.releaseEntries e f.distribution).find? fun entry =>
      entry.1 = f.metaPath with
  | none =>
    refine ⟨nofun, fun hr => ?_⟩
    have hentry := hr.entry
    rw [hfind] at hentry
    cases hentry
  | some entry =>
    rw [hfind] at hmissing
    dsimp only at hmissing ⊢
    rw [f.readArtifact_after]
    constructor
    · intro hread
      split at hread
      · rename_i hkey
        exact ⟨h, by rw [hfind]; simpa using hkey.1, hkey.2⟩
      · rw [hmissing] at hread
        cases hread
    · intro hr
      have hentry := hr.entry
      rw [hfind] at hentry
      rw [if_pos ⟨by simpa using hentry, hr.free⟩]

end LazyFetch

/-- **Main theorem.** After a lazy fetch the file is served from the records, without another
    request to the upstream, exactly when it was requested by its name, the first entry of the
    release for that name has its hash, and nothing was stored for that hash in the directory:
    a file that is requested by its hash is stored where no request looks. -/
theorem fetch_kept_iff {x : IndexExt} {e : SnapshotExt} {gpg : String → Bytes}
    (f : LazyFetch x e gpg) : f.Kept ↔ f.Resolvable := by
  constructor
  · intro h
    cases hhash : isByHash f.metaPath with
    | false => exact (f.resolve_store_iff hhash).mp h.read
    | true =>
      have hread := h.read
      rw [f.aptMetadata_store_byHash hhash] at hread
      cases hread
  · intro h
    have hread := (f.resolve_store_iff h.byName).mpr h
    exact ⟨hread, fun upstream now => by simp only [cacheServe, hread]⟩

/-! ## A request by hash -/

/-- A hash in hexadecimal digits. -/
def zeros : String := String.ofList (List.replicate 64 '0')

/-- A release with one file, which has this hash. -/
def zerosRelease : String :=
  "Acquire-By-Hash: yes\nSHA256:\n " ++ zeros ++ " 1 main/binary-amd64/Packages\n"

/-- A cache with that release. -/
def zerosTable : RecordTable StoredRecord :=
  ⟨[("dists/stable/InRelease",
    { record := recordAt 0 1 "text/plain" .aptMetadata true none
      content := some (utf8 zerosRelease) })], by decide⟩

theorem zerosTable_release : zerosTable.aptRelease .plain "stable" = some zerosRelease := by
  have hsk : normalizePath (inReleasePath "stable") = "dists/stable/InRelease" := by decide +kernel
  have hread : zerosTable.readArtifact (inReleasePath "stable") = some (utf8 zerosRelease) := by
    rw [RecordTable.readArtifact, RecordTable.find, hsk,
      SortedMap.mem_entries_iff.mp List.mem_cons_self, Option.bind_some]
  have hplain : extractRelease zerosRelease = zerosRelease := by decide +kernel
  rw [aptRelease, hread, Option.map_some]
  exact congrArg some ((congrArg extractRelease (SnapshotExt.lossy_utf8 _ _)).trans hplain)

theorem zerosTable_entries :
    zerosTable.releaseEntries .plain "stable" = [("main/binary-amd64/Packages", zeros, 1)] := by
  rw [releaseEntries, zerosTable_release]
  decide +kernel

/-- The file is requested by its name. -/
def packagesFetch : LazyFetch .sample .plain utf8 where
  table := zerosTable
  distribution := "stable"
  metaPath := "main/binary-amd64/Packages"
  bytes := [1]
  now := 0
  missing := by
    have hname : zerosTable.readArtifact (byHashPath "stable" "main/binary-amd64/Packages" zeros) =
        none := by decide +kernel
    have hresolved : zerosTable.resolveViaRelease .plain "stable" "main/binary-amd64/Packages" =
        none := by
      rw [RecordTable.resolveViaRelease, zerosTable_entries, List.find?_cons_of_pos (by decide)]
      exact hname
    rw [RecordTable.aptMetadata, if_neg (by decide), if_neg (by decide), if_neg (by decide),
      if_neg (by decide +kernel), hresolved]
  named := ⟨_, by rw [zerosTable_entries]; exact List.mem_cons_self, rfl⟩

/-- A second request is answered from the records. -/
theorem fetch_kept_packages : packagesFetch.Kept := by
  refine (fetch_kept_iff packagesFetch).mpr ⟨by decide +kernel, ?_, by decide +kernel⟩
  have hfind : (zerosTable.releaseEntries .plain "stable").find?
      (fun entry => entry.1 = "main/binary-amd64/Packages") =
        some ("main/binary-amd64/Packages", zeros, 1) := by
    rw [zerosTable_entries, List.find?_cons_of_pos (by decide)]
  exact (Option.any_eq_true _ _).mpr ⟨_, hfind, decide_eq_true rfl⟩

/-- The file is requested by its hash. -/
def zerosFetch : LazyFetch .sample .plain utf8 where
  table := zerosTable
  distribution := "stable"
  metaPath := "main/binary-amd64/by-hash/SHA256/" ++ zeros
  bytes := [1]
  now := 0
  missing := by decide +kernel
  named := ⟨_, by rw [zerosTable_entries]; exact List.mem_cons_self, rfl⟩

/-- The second request asks the upstream again. -/
theorem byHash_fetched_again : ¬ zerosFetch.Kept ∧
    (cacheServe .sample .plain utf8 zerosFetch.after zerosFetch.distribution zerosFetch.metaPath
      (some [1]) 0).fetched = true := by
  have hread := zerosFetch.aptMetadata_store_byHash (by decide +kernel)
  refine ⟨fun h => ?_, by simp only [cacheServe, hread]⟩
  have hkept := h.read
  rw [hread] at hkept
  cases hkept

end Depot
