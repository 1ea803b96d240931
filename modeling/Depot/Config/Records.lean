import Depot.Core.Settings
import Depot.Auth.Backend

/-!
# Configuration records

Repositories and stores as administrators configure them
(`core/src/store/kv/records.rs`), with the fields that the API and the backup carry.
-/

namespace Depot.Config

/-- `CURRENT_RECORD_VERSION` (line 11). -/
def currentRecordVersion : UInt32 := 5

/-! ## Stores -/

/-- `StoreKind` (lines 35–67). -/
inductive StoreKind where
  | file (root : String) (sync : Bool) (ioSize : UInt64) (directIo : Bool)
  | s3 (bucket : String) (endpoint : Option String) (region : String) (keyPrefix : Option String)
      (accessKey secretKey : Option String) (maxRetries : UInt32) (connectTimeoutSecs : UInt64)
      (readTimeoutSecs : UInt64) (retryMode : String)
  deriving DecidableEq

/-- `StoreRecord` (lines 81–87). -/
structure StoreRecord where
  schemaVersion : UInt32 := currentRecordVersion
  name : String
  kind : StoreKind
  createdAt : DateTime := 0
  deriving DecidableEq

/-! ## Repositories -/

/-- `UpstreamAuth` (lines 325–328). -/
structure UpstreamAuth where
  username : String
  password : Option String := none
  deriving DecidableEq

/-- `RepoType` (lines 509–513). -/
inductive RepoType where
  | hosted
  | cache
  | proxy
  deriving DecidableEq

/-- `RepoKind` (lines 334–348). -/
inductive RepoKind where
  | hosted
  | cache (upstreamUrl : String) (cacheTtlSecs : UInt64) (upstreamAuth : Option UpstreamAuth)
  | proxy (members : List String) (writeMember : Option String)
  deriving DecidableEq

/-- `ContentDisposition` (lines 364–367). -/
inductive ContentDisposition where
  | attachment
  | inline
  deriving DecidableEq

/-- `FormatConfig` (lines 375–413), without the field of `Apt` that is never written. -/
inductive FormatConfig where
  | raw (contentDisposition : Option ContentDisposition)
  | docker (listen : Option String) (cleanupUntaggedManifests : Option Bool)
  | pypi
  | apt
  | golang
  | helm
  | cargo
  | yum (repodataDepth : Option UInt32)
  | npm
  deriving DecidableEq

/-- `artifact_format` (lines 417–429). -/
def FormatConfig.artifactFormat : FormatConfig → ArtifactFormat
  | .raw _ => .raw
  | .docker .. => .docker
  | .pypi => .pypi
  | .apt => .apt
  | .golang => .golang
  | .helm => .helm
  | .cargo => .cargo
  | .yum _ => .yum
  | .npm => .npm

/-- `repodata_depth` (lines 452–457). -/
def FormatConfig.repodataDepth : FormatConfig → UInt32
  | .yum depth => depth.getD 0
  | _ => 0

/-- `RepoConfig` (lines 473–492). -/
structure RepoConfig where
  schemaVersion : UInt32 := currentRecordVersion
  name : String
  kind : RepoKind := .hosted
  formatConfig : FormatConfig := .raw none
  store : String
  createdAt : DateTime := 0
  cleanupMaxUnaccessedDays : Option UInt64 := none
  cleanupMaxAgeDays : Option UInt64 := none
  deleting : Bool := false
  deriving DecidableEq

end Depot.Config
