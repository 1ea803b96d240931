import Depot.Core.Chrono

/-!
# Records

The values the server keeps in its key-value store
(`core/src/store/kv/records.rs`), with the fields the modelled functions read
or write.
-/

namespace Depot

/-- The UUID under which a blob store keeps a blob. -/
abbrev BlobId := String

/-! ## Artifacts -/

/-- `ArtifactKind`, without the metadata of the package formats. -/
inductive ArtifactKind where
  | raw
  | dockerBlob (dockerDigest : String)
  | dockerManifest (dockerDigest : String)
  | dockerTag (digest tag : String)
  | aptPackage
  | aptMetadata
  | pypiPackage
  | goModule
  | helmChart
  | helmMetadata
  | cargoCrate
  | yumPackage
  | yumMetadata
  | npmPackage
  | npmMetadata
  deriving DecidableEq

/-- `ArtifactRecord`: what is stored for a path of a repository. -/
structure ArtifactRecord where
  size : ℕ
  contentType : String := "application/octet-stream"
  createdAt : DateTime
  updatedAt : DateTime
  lastAccessedAt : DateTime
  path : String := ""
  kind : ArtifactKind := .raw
  internal : Bool := false
  blobId : Option BlobId
  contentHash : Option String
  etag : Option String := none
  deriving DecidableEq

/-- `TreeEntryKind`. -/
inductive TreeEntryKind where
  | dir (artifactCount totalBytes : ℕ)
  | file (size : ℕ) (contentType : String) (artifactKind : ArtifactKind)
      (blobId : Option BlobId) (contentHash : Option String) (createdAt : DateTime)
  deriving DecidableEq

/-- `TreeEntry`: a node of the browse tree. -/
structure TreeEntry where
  kind : TreeEntryKind
  lastModifiedAt : DateTime
  lastAccessedAt : DateTime
  deriving DecidableEq

/-- `BlobRecord`: the blob that holds a content hash in a store. -/
structure BlobRecord where
  blobId : BlobId
  hash : String
  size : ℕ
  createdAt : DateTime
  store : String
  deriving DecidableEq

/-- `UploadSessionRecord`: a chunked upload in progress. -/
structure UploadSessionRecord where
  uuid : String
  repo : String
  image : Option String
  blobId : BlobId
  store : String
  size : ℕ
  chunkBlobIds : List BlobId
  createdAt : DateTime
  updatedAt : DateTime
  deriving DecidableEq

/-! ## Coordination and configuration -/

/-- `LeaseRecord`. -/
structure LeaseRecord where
  holder : String
  renewedAt : DateTime
  ttlSecs : UInt64
  deriving DecidableEq

/-- `RepoKind`, without the upstream settings. -/
inductive RepoKind where
  | hosted
  | cache (cacheTtlSecs : UInt64)
  | proxy (members : List String) (writeMember : Option String)
  deriving DecidableEq

/-- `ArtifactFormat`. -/
inductive ArtifactFormat where
  | raw | docker | pypi | apt | golang | helm | cargo | yum | npm
  deriving DecidableEq

/-- `RepoConfig`, with the format and the Docker clean-up flag of its
    `FormatConfig`. -/
structure RepoConfig where
  name : String
  kind : RepoKind := .hosted
  format : ArtifactFormat := .raw
  cleanupUntaggedManifests : Bool := false
  store : String
  cleanupMaxUnaccessedDays : Option UInt64 := none
  cleanupMaxAgeDays : Option UInt64 := none
  deleting : Bool := false
  deriving DecidableEq

/-- `StoreRecord`. -/
structure StoreRecord where
  name : String
  createdAt : DateTime := 0
  deriving DecidableEq

/-- `StoreStatsRecord`. -/
structure StoreStatsRecord where
  blobCount : ℕ
  totalBytes : ℕ
  updatedAt : DateTime
  deriving DecidableEq

/-- A stored payload. Decoding it as the wrong type fails, as deserialising
    the bytes of another record does. -/
inductive Value where
  | artifact (r : ArtifactRecord)
  | tree (e : TreeEntry)
  | blob (b : BlobRecord)
  | session (s : UploadSessionRecord)
  | lease (l : LeaseRecord)
  | repo (c : RepoConfig)
  | store (s : StoreRecord)
  | storeStats (s : StoreStatsRecord)
  | timestamp (t : DateTime)
  deriving DecidableEq

end Depot
