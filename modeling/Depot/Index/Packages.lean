import Depot.Core.Paths
import Depot.Core.World

/-!
# Packages

The records of the repositories that publish an index (`core/src/store/kv/metadata.rs`),
and the paths under which packages and index files are stored
(`format/apt/src/store/parse.rs`, `format/yum/src/store/store.rs`,
`format/helm/src/store.rs`).

Results:
* `suffix_normalizeChars`, `head_normalizeChars`: the ends of a path survive `normalize_path`.
* `clean_repodataPrefix`: the directory of a group of packages is a clean path.
-/

namespace Depot

open List

/-! ## Metadata -/

/-- `AptPackageMeta`. -/
structure AptPackageMeta where
  package : String
  version : String := "1.0"
  architecture : String := "amd64"
  distribution : String
  component : String := "main"
  maintainer : String := ""
  depends : String := ""
  pkgSection : String := ""
  priority : String := "optional"
  installedSize : String := ""
  description : String := ""
  sha256 : String := ""
  deriving DecidableEq

/-- `RpmDep`. -/
structure RpmDep where
  name : String
  flags : String
  epoch : String
  ver : String
  rel : String
  deriving DecidableEq

/-- `RpmFileEntry`. -/
structure RpmFileEntry where
  path : String
  fileType : String
  deriving DecidableEq

/-- `RpmChangelog`. -/
structure RpmChangelog where
  author : String
  timestamp : ℕ
  text : String
  deriving DecidableEq

/-- `RpmPackageMeta`. -/
structure RpmPackageMeta where
  name : String
  epoch : ℕ := 0
  version : String := "1.0"
  release : String := "1"
  arch : String := "noarch"
  summary : String := ""
  description : String := ""
  url : String := ""
  license : String := ""
  vendor : String := ""
  group : String := ""
  buildhost : String := ""
  buildtime : ℕ := 0
  packager : String := ""
  installedSize : ℕ := 0
  archiveSize : ℕ := 0
  sha256 : String := ""
  requires : List RpmDep := []
  provides : List RpmDep := []
  conflicts : List RpmDep := []
  obsoletes : List RpmDep := []
  files : List RpmFileEntry := []
  changelogs : List RpmChangelog := []
  deriving DecidableEq

/-- `HelmChartMeta`. -/
structure HelmChartMeta where
  name : String
  version : String
  appVersion : String := ""
  description : String := ""
  apiVersion : String := ""
  chartType : String := ""
  keywords : List String := []
  home : String := ""
  sources : List String := []
  icon : String := ""
  deprecated : Bool := false
  sha256 : String := ""
  deriving DecidableEq

/-- What the `kind` of a record says about the package, if the record is one. -/
inductive PackageMeta where
  | other
  | apt (apt : AptPackageMeta)
  | yum (rpm : RpmPackageMeta)
  | helm (helm : HelmChartMeta)
  deriving DecidableEq

/-- A record with the metadata in its `kind` and the content of its blob, if it has one. -/
structure StoredRecord where
  record : ArtifactRecord
  packageMeta : PackageMeta := .other
  content : Option Bytes := none
  deriving DecidableEq

/-- The content of an index file; packages and flags are none. -/
def StoredRecord.file? (r : StoredRecord) : Option Bytes :=
  match r.packageMeta with
  | .other => r.content
  | _ => none

/-! ## Paths of packages -/

/-- `pool_prefix` (`parse.rs`, lines 26–32). A byte range that cuts a character is `None`. -/
def poolPrefix (package : String) : String :=
  match package.toList with
  | 'l' :: 'i' :: 'b' :: c :: _ => if c.toNat < 0x80 then "lib" ++ String.singleton c else "lib"
  | c :: _ => if c.toNat < 0x80 then String.singleton c else "_"
  | [] => "_"

/-- `pool_path` (`parse.rs`, lines 35–38). -/
def poolPath (component package filename : String) : String :=
  "pool/" ++ component ++ "/" ++ poolPrefix package ++ "/" ++ package ++ "/" ++ filename

/-- `packages_kv_path` (`yum/src/store/store.rs`, lines 940–947). -/
def packagesKvPath (directory filename : String) : String :=
  let dir := String.ofList (trimSlashes directory.toList)
  if dir = "" then filename else dir ++ "/" ++ filename

/-- `chart_path` (`helm/src/store.rs`, lines 157–159). -/
def chartPath (name version : String) : String := name ++ "-" ++ version ++ ".tgz"

/-! ## Paths of index files -/

/-- `by_hash_path` (`apt/src/store/store.rs`, lines 24–31). -/
def byHashPath (distribution relPath sha256 : String) : String :=
  match (splitLast relPath.toList).1 with
  | some dir =>
      if dir = [] then "dists/" ++ distribution ++ "/by-hash/SHA256/" ++ sha256
      else "dists/" ++ distribution ++ "/" ++ String.ofList dir ++ "/by-hash/SHA256/" ++ sha256
  | none => "dists/" ++ distribution ++ "/by-hash/SHA256/" ++ sha256

/-- The path of an `InRelease` file. -/
def inReleasePath (distribution : String) : String := "dists/" ++ distribution ++ "/InRelease"

/-- The path of the flag of a distribution. -/
def aptStalePath (distribution : String) : String := "_apt/metadata_stale/" ++ distribution

/-- The directory part and its first `depth` segments. -/
def dirPrefix (depth : ℕ) (path : List Char) : List Char :=
  match (splitLast path).1 with
  | some dir => ['/'].intercalate ((dir.splitOn '/').take depth)
  | none => []

/-- `repodata_prefix` (`yum/src/store/store.rs`, lines 953–965). -/
def repodataPrefix (kvPath : String) (depth : ℕ) : String :=
  if depth = 0 then "" else String.ofList (dirPrefix depth kvPath.toList)

/-- `repodata_dir` (`yum/src/store/store.rs`, lines 968–974). -/
def repodataDir (pfx : String) : String :=
  if pfx = "" then "repodata" else pfx ++ "/repodata"

/-- The path of a `repomd.xml` file. -/
def repomdPath (pfx : String) : String := repodataDir pfx ++ "/repomd.xml"

/-- The path of the flag of a Yum repository. -/
def yumStalePath : String := "_yum/metadata_stale"

def helmFlagPath : String := "_helm/metadata_stale"

def helmIndexPath : String := "_helm/meta/index.yaml"

/-! ## The ends of a normalised path -/

theorem collapse_suffix {b : List Char} (hb : '/' ∉ b) (p : Bool) (cs : List Char) :
    b <:+ collapseSlashes p (cs ++ b) := by
  have hself : ∀ p, collapseSlashes p b = b := by
    induction b with
    | nil => exact fun _ => rfl
    | cons c b ih =>
      intro p
      have hc : c ≠ '/' := fun h => hb (h ▸ mem_cons_self)
      rw [collapseSlashes, if_neg hc, ih (fun h => hb (mem_cons_of_mem c h))]
  induction cs generalizing p with
  | nil =>
    have hb : collapseSlashes p ([] ++ b) = b := hself p
    exact hb.symm ▸ suffix_rfl
  | cons c cs ih =>
    rw [cons_append, collapseSlashes]
    split_ifs
    · exact ih true
    · exact (ih true).trans (suffix_cons _ _)
    · exact (ih false).trans (suffix_cons _ _)

/-- A last segment stays the end of the path. -/
theorem suffix_normalizeChars {b : List Char} (hne : b ≠ []) (hb : '/' ∉ b) (cs : List Char) :
    b <:+ normalizeChars (cs ++ b) := by
  have hdrop : ∃ cs', (cs ++ b).dropWhile (· = '/') = cs' ++ b := by
    induction cs with
    | nil =>
      refine ⟨[], ?_⟩
      rw [nil_append, dropWhile_eq_self_iff]
      intro hpos hslash
      exact hb (of_decide_eq_true hslash ▸ getElem_mem hpos)
    | cons c cs ih =>
      rw [cons_append, dropWhile_cons]
      split_ifs
      · exact ih
      · exact ⟨c :: cs, rfl⟩
  obtain ⟨cs', hcs'⟩ := hdrop
  have htrim : trimSlashes (cs ++ b) = cs' ++ b := by
    rw [trimSlashes, hcs', rdropWhile_eq_self_iff]
    intro hnil hslash
    rw [getLast_append_of_ne_nil _ hne] at hslash
    exact hb (of_decide_eq_true hslash ▸ getLast_mem hne)
  rw [normalizeChars, htrim]
  split_ifs
  · exact collapse_suffix hb false cs'
  · exact List.suffix_append _ _

/-- A path that does not start with a slash starts the same afterwards. -/
theorem head_normalizeChars {c : Char} (hc : c ≠ '/') (cs : List Char) :
    (normalizeChars (c :: cs)).head? = some c := by
  have hdrop : (c :: cs).dropWhile (· = '/') = c :: cs := by
    rw [dropWhile_cons, if_neg (by simpa using hc)]
  have htrim : (trimSlashes (c :: cs)).head? = some c := by
    rw [trimSlashes, hdrop]
    have hpre := rdropWhile_prefix (· = '/') (c :: cs)
    cases hr : (c :: cs).rdropWhile (· = '/') with
    | nil =>
      have hall := rdropWhile_eq_nil_iff.mp hr c mem_cons_self
      exact absurd (of_decide_eq_true hall) hc
    | cons d ds =>
      rw [hr] at hpre
      rw [head?_cons, (cons_prefix_cons.mp hpre).1]
  rw [normalizeChars]
  split_ifs
  · rw [collapse_head_false, htrim]
  · exact htrim

/-! ## Groups of packages -/

/-- The first segments of a path end at its end or before a slash. -/
theorem take_segments (k : ℕ) (segs : List (List Char)) :
    ∃ rest, ['/'].intercalate segs = ['/'].intercalate (segs.take (k + 1)) ++ rest ∧
      (rest = [] ∨ rest.head? = some '/') := by
  induction segs generalizing k with
  | nil => exact ⟨[], by simp, .inl rfl⟩
  | cons seg segs ih =>
    cases segs with
    | nil => exact ⟨[], by simp, .inl rfl⟩
    | cons seg' segs =>
      cases k with
      | zero =>
        refine ⟨'/' :: ['/'].intercalate (seg' :: segs), ?_, .inr rfl⟩
        rw [intercalate_cons_cons, take_succ_cons, take_zero, intercalate_singleton, append_assoc]
        rfl
      | succ k =>
        obtain ⟨rest, hrest, hend⟩ := ih k
        refine ⟨rest, ?_, hend⟩
        rw [take_succ_cons] at hrest ⊢
        rw [intercalate_cons_cons, hrest, take_succ_cons, intercalate_cons_cons,
          append_assoc, append_assoc, append_assoc]

/-- What is left of a clean path before a slash, or at its end, is clean. -/
theorem clean_before {front rest : List Char} (h : CleanChars (front ++ rest))
    (hrest : rest = [] ∨ rest.head? = some '/') : CleanChars front := by
  refine ⟨fun hhead => h.head ?_, fun hlast => ?_, fun hdouble => h.double ?_⟩
  · rw [head?_append, hhead]
    rfl
  · rcases hrest with rfl | hslash
    · rw [append_nil] at h
      exact h.last hlast
    · obtain ⟨init, rfl⟩ := getLast?_eq_some_iff.mp hlast
      obtain ⟨tail, rfl⟩ := head?_eq_some_iff.mp hslash
      exact h.double ⟨init, tail, by simp⟩
  · exact hdouble.trans (prefix_append _ _).isInfix

/-- The directory of a group of packages is a clean path. -/
theorem clean_repodataPrefix {path : String} (h : CleanPath path) (depth : ℕ) :
    CleanPath (repodataPrefix path depth) := by
  have hempty : CleanPath "" := ⟨by simp, by simp, by simp⟩
  unfold repodataPrefix
  cases depth with
  | zero => exact hempty
  | succ k =>
    rw [if_neg (Nat.succ_ne_zero k), CleanPath, String.toList_ofList, dirPrefix]
    cases hdir : (splitLast path.toList).1 with
    | none => exact hempty
    | some dir =>
      have hclean := clean_parent h
      rw [hdir, Option.getD_some] at hclean
      obtain ⟨rest, hrest, hend⟩ := take_segments k (dir.splitOn '/')
      rw [intercalate_splitOn] at hrest
      rw [hrest] at hclean
      exact clean_before hclean hend

end Depot
