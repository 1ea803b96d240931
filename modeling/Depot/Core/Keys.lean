import Depot.Core.Records
import Mathlib.Data.List.DropRight
import Mathlib.Data.List.Infix

/-!
# Keys

How records are addressed (`core/src/store/keys.rs`): a table, a partition key
and a sort key. Large tables are split into 256 partitions by a hash of the
sort key.
-/

namespace Depot

/-- The tables the modelled functions use. -/
inductive Table where
  | repos | artifacts | blobs | metadata | stores | dirEntries | uploadSessions | leases
  deriving DecidableEq

/-- A partition key: `SINGLE_PK`, or `"{scope}/{shard}"`. The shard is a number
    and has no slash, so the text determines both parts. -/
inductive Pk where
  | single
  | sharded (scope : String) (shard : ℕ)
  deriving DecidableEq

/-- A partition of a table. -/
structure Part where
  table : Table
  pk : Pk
  deriving DecidableEq

/-- `KeyTriple`. -/
structure Key where
  part : Part
  sk : String
  deriving DecidableEq

/-- The scope of a key: the repository of an artifact, the store of a blob. -/
def Key.scope (k : Key) : String :=
  match k.part.pk with
  | .single => ""
  | .sharded scope _ => scope

/-- `NUM_SHARDS`. -/
def numShards : ℕ := 256

/-! ## Paths -/

/-- The slow path of `normalize_path`: collapse runs of slashes. -/
def collapseSlashes (prevSlash : Bool) : List Char → List Char
  | [] => []
  | c :: cs =>
      if c = '/' then
        if prevSlash then collapseSlashes true cs else '/' :: collapseSlashes true cs
      else c :: collapseSlashes false cs

/-- `path.trim_matches('/')`. -/
def trimSlashes (cs : List Char) : List Char := (cs.dropWhile (· = '/')).rdropWhile (· = '/')

/-- `normalize_path` (lines 123–143), on characters. -/
def normalizeChars (path : List Char) : List Char :=
  let trimmed := trimSlashes path
  if ['/', '/'] <:+: trimmed then collapseSlashes false trimmed else trimmed

/-- `normalize_path`. -/
def normalizePath (path : String) : String := String.ofList (normalizeChars path.toList)

/-- The text before the last slash, if there is one, and the text after it. -/
def splitLast (path : List Char) : Option (List Char) × List Char :=
  let name := path.rtakeWhile (· ≠ '/')
  (if path.length = name.length then none else some (path.take (path.length - name.length - 1)),
    name)

/-- `ROOT_PARENT`. -/
def rootParent : String := "_root"

/-- `tree_parent` (lines 156–165). -/
def treeParent (path : String) : String :=
  if path = "" then rootParent
  else String.ofList ((splitLast path.toList).1.getD [])

/-- `tree_name` (lines 169–175). -/
def treeName (path : String) : String :=
  if path = "" then "" else String.ofList (splitLast path.toList).2

/-- `TREE_SK_SEP`. -/
def treeSkSep : Char := Char.ofNat 0

/-- `tree_sort_key` (lines 182–190). -/
def treeSortKey (path : String) : String :=
  treeParent path ++ String.singleton treeSkSep ++ treeName path

/-- `tree_children_sk_prefix` (lines 222–227). -/
def treeChildrenSkPrefix (parentPath : String) : String :=
  parentPath ++ String.singleton treeSkSep

/-- `prefix_end` of that prefix: its last byte, a zero, becomes a one. -/
def treeChildrenSkEnd (parentPath : String) : String :=
  parentPath ++ String.singleton (Char.ofNat 1)

/-- `tree_sk_name` (lines 193–200). -/
def treeSkName (sk : String) : String :=
  String.ofList (sk.toList.rtakeWhile (· ≠ treeSkSep))

/-! ## Keys

`shardOf` is `shard_of`, the first two bytes of the BLAKE3 hash of a sort key
modulo the number of shards. -/

/-- `repo_key`. -/
def repoKey (name : String) : Key := ⟨⟨.repos, .single⟩, name⟩

/-- `upload_session_key`. -/
def uploadSessionKey (uuid : String) : Key := ⟨⟨.uploadSessions, .single⟩, uuid⟩

/-- `lease_key`. -/
def leaseKey (name : String) : Key := ⟨⟨.leases, .single⟩, name⟩

/-- `artifact_shard_pk`, in the artifact table. -/
def artifactShardPk (repo : String) (shard : ℕ) : Part := ⟨.artifacts, .sharded repo shard⟩

/-- `blob_shard_pk`, in the blob table. -/
def blobShardPk (store : String) (shard : ℕ) : Part := ⟨.blobs, .sharded store shard⟩

/-- `tree_shard_pk`, in the table of directory entries. -/
def treeShardPk (repo : String) (shard : ℕ) : Part := ⟨.dirEntries, .sharded repo shard⟩

section Sharded

variable (shardOf : String → ℕ)

/-- `artifact_key` (lines 86–93). -/
def artifactKey (repo path : String) : Key :=
  let clean := normalizePath path
  ⟨artifactShardPk repo (shardOf clean), clean⟩

/-- `blob_key` (lines 103–109). -/
def blobKey (store hash : String) : Key := ⟨blobShardPk store (shardOf hash), hash⟩

/-- `tree_entry_key` (lines 205–212). -/
def treeEntryKey (repo path : String) : Key :=
  let clean := normalizePath path
  ⟨treeShardPk repo (shardOf (treeParent clean)), treeSortKey clean⟩

end Sharded

end Depot
