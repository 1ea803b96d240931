import Depot.Index.Texts
import Depot.Service.Scan
import Mathlib.Data.List.Dedup

/-!
# What a rebuild writes

The three formats whose repositories publish an index: which index lists a record, where its
flag is, and the files a rebuild writes for a list of packages
(`rebuild_metadata` of `format/apt/src/store/store.rs` and `format/yum/src/store/store.rs`,
`rebuild_index` of `format/helm/src/store.rs`).

Results:
* `aptFormat`, `yumFormat`, `helmFormat`: the formats, with what the paths of their files
  have in common.
-/

namespace Depot

open List
open String (toList toList_append toList_inj)

/-! ## Formats -/

/-- A file of an index. A file at a path with its hash is written once; the one that
    publishes the index (`commit`) is written over. -/
structure IndexWrite where
  path : String
  contentType : String := "application/octet-stream"
  data : Bytes
  commit : Bool := false
  deriving DecidableEq

/-- The key of a file. -/
def IndexWrite.sk (w : IndexWrite) : String := normalizePath w.path

/-- A format: the index that lists a package, the names requests can give an index, the path
    of its flag, the kind of its metadata, the prefixes a rebuild scans, the files it writes
    for the packages it has found, the keys of those that publish them, by the paths of the
    packages, the file without which a request rebuilds the index in any case, and whether the
    clock is read again for the file that publishes the index. -/
structure IndexFormat where
  keyOf : PackageMeta → Option String
  named : String → Bool
  stalePath : String → String
  metadataKind : ArtifactKind
  prefixes : List String
  plan : String → DateTime → List (String × StoredRecord) → List IndexWrite
  commits : String → List String → List String
  required : Option String := none
  datedAgain : Bool := false
  keyOf_other : keyOf .other = none
  prefixes_apart : prefixes.Pairwise fun p q => ∀ sk, hasPrefix p sk = true → hasPrefix q sk = false
  stale_inj : ∀ {k k'}, named k = true → named k' = true →
    normalizePath (stalePath k) = normalizePath (stalePath k') → k = k'
  stale_ne : ∀ {k k' now pkgs w}, w ∈ plan k now pkgs → w.sk ≠ normalizePath (stalePath k')
  file_ne_commit : ∀ {k k' now now' pkgs pkgs' w w'}, w ∈ plan k now pkgs →
    w' ∈ plan k' now' pkgs' → w.commit = false → w'.commit = true → w.sk ≠ w'.sk
  commit_key : ∀ {k k' now now' pkgs pkgs' w w'}, named k = true → named k' = true →
    w ∈ plan k now pkgs → w' ∈ plan k' now' pkgs' → w.commit = true → w'.commit = true →
    w.sk = w'.sk → k = k'
  commit_once : ∀ {k now pkgs w w'}, (∀ e ∈ pkgs, CleanPath e.1) → w ∈ plan k now pkgs →
    w' ∈ plan k now pkgs → w.commit = true → w'.commit = true → w.sk = w'.sk → w = w'
  mem_commits : ∀ {k now pkgs sk}, sk ∈ commits k (pkgs.map Prod.fst) ↔
    ∃ w ∈ plan k now pkgs, w.commit = true ∧ w.sk = sk
  commits_mono : ∀ {k ps ps'}, ps ⊆ ps' → commits k ps ⊆ commits k ps'

/-! ## Apt -/

def PackageMeta.apt? : PackageMeta → Option AptPackageMeta
  | .apt m => some m
  | _ => none

def PackageMeta.isYum : PackageMeta → Bool
  | .yum _ => true
  | _ => false

/-- Whether it is that of a Helm chart. -/
def PackageMeta.isHelm : PackageMeta → Bool
  | .helm _ => true
  | _ => false

/-- The packages of a component and an architecture (lines 522–533). -/
def aptGroup (component arch : String) (pkgs : List (String × StoredRecord)) :
    List (String × StoredRecord) :=
  pkgs.filter fun e => e.2.packageMeta.apt?.any fun apt =>
    apt.component = component && apt.architecture = arch

/-- The text of a `Packages` file (lines 578–597). -/
def packagesText (component arch : String) (pkgs : List (String × StoredRecord)) : String :=
  String.join ((aptGroup component arch pkgs ++ aptGroup component "all" pkgs).map fun e =>
    generatePackagesStanza e.2 e.1 ++ "\n")

/-- The components, `main` if there are none (lines 551–558). -/
def aptComponents (pkgs : List (String × StoredRecord)) : List String :=
  let discovered := sortedDistinct (pkgs.filterMap fun e =>
    e.2.packageMeta.apt?.map AptPackageMeta.component)
  if discovered = [] then ["main"] else discovered

/-- The architectures other than `all`, `amd64` if there are none (lines 560–570). -/
def concreteArchs (pkgs : List (String × StoredRecord)) : List String :=
  let archs := (pkgs.filterMap fun e =>
    e.2.packageMeta.apt?.map AptPackageMeta.architecture).dedup.filter (· ≠ "all")
  if archs = [] then ["amd64"] else archs

section

variable (x : IndexExt)

/-- The `Packages` and `Packages.gz` files, with their paths below the distribution (lines
    577–624). -/
def aptFiles (pkgs : List (String × StoredRecord)) : List (String × Bytes) :=
  (aptComponents pkgs).flatMap fun component => (concreteArchs pkgs).flatMap fun arch =>
    let dir := component ++ "/binary-" ++ arch
    let plain := utf8 (packagesText component arch pkgs)
    [(dir ++ "/Packages", plain), (dir ++ "/Packages.gz", x.gzip plain)]

/-- The checksums of the files that a `Release` lists. -/
def releaseChecksums (files : List (String × Bytes)) : List ReleaseFileEntry :=
  files.map fun f => ⟨f.1, x.sha256 f.2, f.2.length⟩

/-- The files of a distribution (lines 575–654): each file under its hash, then `InRelease`. -/
def aptPlan (distribution : String) (now : DateTime) (pkgs : List (String × StoredRecord)) :
    List IndexWrite :=
  (aptFiles x pkgs).map (fun f =>
    { path := byHashPath distribution f.1 (x.sha256 f.2), data := f.2 }) ++
    [{  path := inReleasePath distribution
        contentType := "text/plain"
        data := utf8 (x.sign now (generateRelease x now distribution (aptComponents pkgs)
          (concreteArchs pkgs) (releaseChecksums x (aptFiles x pkgs))))
        commit := true }]

/-! ## Yum -/

/-- The directories of the groups (lines 367–375). -/
def repodataGroups (depth : ℕ) (paths : List String) : List String :=
  let groups := sortedDistinct (paths.map (repodataPrefix · depth))
  if groups = [] ∧ depth = 0 then [""] else groups

/-- An entry of `repomd.xml`. -/
def repoDataEntry (filename : String) (gz text : Bytes) : RepoDataEntry where
  filename := filename
  checksum := x.sha256 gz
  size := gz.length
  openChecksum := x.sha256 text
  openSize := text.length

/-- The name of a compressed file. -/
def hashedName (kind : String) (gz : Bytes) : String :=
  x.sha256 gz ++ "-" ++ kind ++ ".xml.gz"

/-- The files of a group (lines 380–440): three files under their hashes, then
    `repomd.xml`. -/
def yumGroupPlan (now : DateTime) (pfx : String) (group : List (String × StoredRecord)) :
    List IndexWrite :=
  let rd := repodataDir pfx
  let primary := utf8 (generatePrimaryXml group pfx)
  let filelists := utf8 (generateFilelistsXml group)
  let other := utf8 (generateOtherXml group)
  let primaryName := hashedName x "primary" (x.gzip primary)
  let filelistsName := hashedName x "filelists" (x.gzip filelists)
  let otherName := hashedName x "other" (x.gzip other)
  [{ path := rd ++ "/" ++ primaryName, data := x.gzip primary },
    { path := rd ++ "/" ++ filelistsName, data := x.gzip filelists },
    { path := rd ++ "/" ++ otherName, data := x.gzip other },
    { path := repomdPath pfx
      contentType := "application/xml"
      data := utf8 (generateRepomdXml (timestamp now)
        (repoDataEntry x primaryName (x.gzip primary) primary)
        (repoDataEntry x filelistsName (x.gzip filelists) filelists)
        (repoDataEntry x otherName (x.gzip other) other) (timestamp now))
      commit := true }]

/-- The files of all groups. -/
def yumPlan (depth : ℕ) (now : DateTime) (pkgs : List (String × StoredRecord)) :
    List IndexWrite :=
  (repodataGroups depth (pkgs.map Prod.fst)).flatMap fun pfx =>
    yumGroupPlan x now pfx (pkgs.filter fun e => repodataPrefix e.1 depth = pfx)

/-! ## Helm -/

/-- The index of the charts. -/
def helmPlan (now : DateTime) (pkgs : List (String × StoredRecord)) : List IndexWrite :=
  [{ path := helmIndexPath
     contentType := "application/x-yaml"
     data := utf8 (helmIndexText x now pkgs)
     commit := true }]

end

/-! ## Paths of the files -/

variable {path : String}

/-- A last segment stays the end of the path. -/
theorem suffix_normalizePath {name : List Char} (hne : name ≠ [])
    (hslash : '/' ∉ name) (h : name <:+ path.toList) : name <:+ (normalizePath path).toList := by
  obtain ⟨front, hfront⟩ := h
  rw [normalizePath, String.toList_ofList, ← hfront]
  exact suffix_normalizeChars hne hslash front

theorem head_normalizePath {c : Char} (hc : c ≠ '/')
    (h : path.toList.head? = some c) : (normalizePath path).toList.head? = some c := by
  obtain ⟨tail, htail⟩ := head?_eq_some_iff.mp h
  rw [normalizePath, String.toList_ofList, htail]
  exact head_normalizeChars hc tail

theorem suffix_append (a b : String) : b.toList <:+ (a ++ b).toList := by
  rw [toList_append]
  exact List.suffix_append _ _

/-- Paths with different ends are different. -/
theorem ne_of_suffix {p q : String} {a b : List Char} (ha : a <:+ p.toList) (hb : b <:+ q.toList)
    (hlen : a.length ≤ b.length) (hab : ¬ a <:+ b) : p ≠ q := by
  rintro rfl
  exact hab (suffix_of_suffix_length_le ha hb hlen)

theorem cleanPath_of_eq (h : normalizePath path = path) : CleanPath path := by
  rw [← h]
  exact clean_normalizePath _

variable {dir d d' pfx : String}

/-- A name below a clean directory. -/
theorem cleanPath_append {name : String} (hdir : CleanPath dir) (hne : dir ≠ "")
    (hname : CleanPath name) (hname' : name ≠ "") : CleanPath (dir ++ "/" ++ name) := by
  rw [CleanPath, toList_append, toList_append, append_assoc]
  exact clean_append hdir (toList_ne_nil hne) hname (toList_ne_nil hname')

theorem normalizeChars_slash {cs : List Char} (h : CleanChars cs) (hne : cs ≠ []) :
    normalizeChars (cs ++ ['/']) = cs := by
  have htrim : trimSlashes (cs ++ ['/']) = trimSlashes cs := by
    have hdrop : ∀ tail, (cs ++ tail).dropWhile (· = '/') = cs ++ tail := by
      intro tail
      obtain ⟨c, cs', rfl⟩ := exists_cons_of_ne_nil hne
      rw [cons_append, dropWhile_cons, if_neg]
      intro hslash
      exact h.head (congrArg some (of_decide_eq_true hslash))
    have hself := hdrop []
    rw [append_nil] at hself
    rw [trimSlashes, trimSlashes, hdrop, hself, rdropWhile_concat_pos _ _ _ (by decide)]
  rw [normalizeChars, htrim, ← normalizeChars, normalizeChars_clean h]

/-- A clean path, or none, below a clean directory. -/
theorem normalizePath_below (hdir : CleanPath dir) (hne : dir ≠ "")
    (h : normalizePath path = path) :
    normalizePath (dir ++ "/" ++ path) = if path = "" then dir else dir ++ "/" ++ path := by
  split_ifs with hp
  · subst hp
    have hlist : (dir ++ "/" ++ "").toList = dir.toList ++ ['/'] := by
      rw [String.append_empty, toList_append]
      rfl
    rw [normalizePath, hlist, normalizeChars_slash hdir (toList_ne_nil hne), String.ofList_toList]
  · exact normalizePath_clean (cleanPath_append hdir hne (cleanPath_of_eq h) hp)

/-- The names of metadata files have no slash. -/
theorem hex_no_slash (x : IndexExt) (data : Bytes) : '/' ∉ (x.sha256 data).toList := by
  intro h
  have hhex := x.sha256_hex data _ h
  revert hhex
  decide

theorem sha256_ne_nil (x : IndexExt) (data : Bytes) : (x.sha256 data).toList ≠ [] := by
  intro h
  have hlen := x.sha256_length data
  rw [← String.length_toList, h] at hlen
  cases hlen

theorem byHashPath_suffix (d rel sha : String) : sha.toList <:+ (byHashPath d rel sha).toList := by
  unfold byHashPath
  split
  · split_ifs
    · exact suffix_append _ _
    · exact suffix_append _ _
  · exact suffix_append _ _

theorem head_append {a : String} {c : Char} (h : a.toList.head? = some c) (b : String) :
    (a ++ b).toList.head? = some c := by
  rw [toList_append, head?_append, h]
  rfl

theorem byHashPath_head (d rel sha : String) : (byHashPath d rel sha).toList.head? = some 'd' := by
  have hdists : "dists/".toList.head? = some 'd' := by decide +kernel
  unfold byHashPath
  split
  · split_ifs
    · exact head_append (head_append (head_append hdists _) _) _
    · exact head_append (head_append (head_append (head_append (head_append hdists _) _) _) _) _
  · exact head_append (head_append (head_append hdists _) _) _

/-- The key of an `InRelease` file. -/
theorem inReleasePath_sk (h : normalizePath d = d) :
    normalizePath (inReleasePath d) = if d = "" then "dists/InRelease" else inReleasePath d := by
  split_ifs with hd
  · subst hd
    decide +kernel
  · have hname : CleanPath "InRelease" := clean_name (by decide +kernel)
    have hdists : CleanPath "dists" := clean_name (by decide +kernel)
    have hdir := cleanPath_append hdists (by decide +kernel) (cleanPath_of_eq h) hd
    have hpath : inReleasePath d = "dists" ++ "/" ++ d ++ "/" ++ "InRelease" := by
      have hfront : "dists/" = "dists" ++ "/" := by decide +kernel
      have hback : "/InRelease" = "/" ++ "InRelease" := by decide +kernel
      calc inReleasePath d = "dists" ++ "/" ++ d ++ "/InRelease" :=
            congrArg (· ++ d ++ "/InRelease") hfront
        _ = "dists" ++ "/" ++ d ++ ("/" ++ "InRelease") := congrArg (_ ++ ·) hback
        _ = "dists" ++ "/" ++ d ++ "/" ++ "InRelease" := String.append_assoc.symm
    have hne : "dists" ++ "/" ++ d ≠ "" := by
      intro hnil
      have hlist := congrArg toList hnil
      simp only [toList_append] at hlist
      cases hlist
    rw [hpath]
    exact normalizePath_clean (cleanPath_append hdir hne hname (by decide +kernel))

theorem inReleasePath_inj (h : normalizePath d = d) (h' : normalizePath d' = d')
    (heq : normalizePath (inReleasePath d) = normalizePath (inReleasePath d')) : d = d' := by
  have hlen : ∀ e : String, inReleasePath e ≠ "dists/InRelease" := by
    intro e hpath
    have hsum := congrArg String.length hpath
    rw [inReleasePath, String.length_append, String.length_append] at hsum
    have h16 : "dists/".length + "/InRelease".length = 16 := by decide +kernel
    have h15 : "dists/InRelease".length = 15 := by decide +kernel
    omega
  rw [inReleasePath_sk h, inReleasePath_sk h'] at heq
  split_ifs at heq with hd hd' hd'
  · rw [hd, hd']
  · exact absurd heq.symm (hlen d')
  · exact absurd heq (hlen d)
  · have hlist := congrArg toList heq
    simp only [inReleasePath, toList_append] at hlist
    rw [append_left_inj, append_right_inj] at hlist
    exact toList_inj.mp hlist

/-- The flag of a distribution is determined by its key. -/
theorem aptStalePath_inj (h : normalizePath d = d) (h' : normalizePath d' = d')
    (heq : normalizePath (aptStalePath d) = normalizePath (aptStalePath d')) : d = d' := by
  have hdir : CleanPath "_apt/metadata_stale" := cleanPath_of_eq (by decide +kernel)
  have hsk : ∀ e, normalizePath e = e → normalizePath (aptStalePath e) =
      if e = "" then "_apt/metadata_stale" else "_apt/metadata_stale" ++ "/" ++ e := by
    intro e he
    have hpath : aptStalePath e = "_apt/metadata_stale" ++ "/" ++ e := by
      have hfront : "_apt/metadata_stale/" = "_apt/metadata_stale" ++ "/" := by decide +kernel
      exact congrArg (· ++ e) hfront
    rw [hpath]
    exact normalizePath_below hdir (by decide +kernel) he
  have hlen : ∀ e : String, "_apt/metadata_stale" ++ "/" ++ e ≠ "_apt/metadata_stale" := by
    intro e hpath
    have hsum := congrArg String.length hpath
    rw [String.length_append, String.length_append] at hsum
    have hslash : "/".length = 1 := by decide +kernel
    omega
  rw [hsk d h, hsk d' h'] at heq
  split_ifs at heq with hd hd' hd'
  · rw [hd, hd']
  · exact absurd heq.symm (hlen d')
  · exact absurd heq (hlen d)
  · have hlist := congrArg toList heq
    simp only [toList_append] at hlist
    rw [append_right_inj] at hlist
    exact toList_inj.mp hlist

theorem inReleasePath_head (d : String) : (inReleasePath d).toList.head? = some 'd' := by
  have hdists : "dists/".toList.head? = some 'd' := by decide +kernel
  exact head_append (head_append hdists _) _

/-! ## The formats -/

variable {pkgs : List (String × StoredRecord)} {now : DateTime} {w : IndexWrite} {x : IndexExt}

/-- What `aptPlan` writes. -/
theorem mem_aptPlan (h : w ∈ aptPlan x d now pkgs) :
    (w.commit = false ∧ ∃ rel data, w.path = byHashPath d rel (x.sha256 data)) ∨
      (w.commit = true ∧ w.path = inReleasePath d) := by
  rcases mem_append.mp h with h | h
  · obtain ⟨f, -, rfl⟩ := mem_map.mp h
    exact .inl ⟨rfl, f.1, f.2, rfl⟩
  · obtain rfl := mem_singleton.mp h
    exact .inr ⟨rfl, rfl⟩

theorem aptPlan_head (h : w ∈ aptPlan x d now pkgs) : w.sk.toList.head? = some 'd' := by
  refine head_normalizePath (by decide) ?_
  rcases mem_aptPlan h with ⟨-, rel, data, hpath⟩ | ⟨-, hpath⟩
  · rw [hpath]
    exact byHashPath_head _ _ _
  · rw [hpath]
    exact inReleasePath_head d

/-- A file under its hash is no `InRelease` file. -/
theorem byHash_ne_inRelease (x : IndexExt) (d d' rel : String) (data : Bytes) :
    normalizePath (byHashPath d rel (x.sha256 data)) ≠ normalizePath (inReleasePath d') := by
  have hsha := suffix_normalizePath (sha256_ne_nil x data) (hex_no_slash x data)
    (byHashPath_suffix d rel (x.sha256 data))
  have hname : ['R', 'e', 'l', 'e', 'a', 's', 'e'] <:+ (inReleasePath d').toList := by
    refine IsSuffix.trans ?_ (suffix_append _ "/InRelease")
    decide +kernel
  have hrel := suffix_normalizePath (by decide) (by decide) hname
  intro heq
  rw [← heq] at hrel
  have hle : ['R', 'e', 'l', 'e', 'a', 's', 'e'].length ≤ (x.sha256 data).toList.length := by
    rw [String.length_toList, x.sha256_length]
    decide
  have hsuf := suffix_of_suffix_length_le hrel hsha hle
  have hhex := x.sha256_hex data 'R' (hsuf.subset mem_cons_self)
  revert hhex
  decide

/-- Apt: an index for each distribution. -/
def aptFormat (x : IndexExt) : IndexFormat where
  keyOf m := m.apt?.map AptPackageMeta.distribution
  named distribution := normalizePath distribution = distribution
  stalePath := aptStalePath
  metadataKind := .aptMetadata
  prefixes := ["pool/", "_pool/"]
  plan := aptPlan x
  commits distribution _ := [normalizePath (inReleasePath distribution)]
  datedAgain := true
  keyOf_other := rfl
  prefixes_apart := by
    refine pairwise_pair.mpr fun sk hp => decide_eq_false fun hq => ?_
    obtain ⟨tail, htail⟩ := of_decide_eq_true hp
    obtain ⟨tail', htail'⟩ := hq
    rw [← htail] at htail'
    have hhead := congrArg head? htail'
    rw [head?_append, head?_append] at hhead
    revert hhead
    have h1 : "pool/".toList.head? = some 'p' := by decide +kernel
    have h2 : "_pool/".toList.head? = some '_' := by decide +kernel
    rw [h1, h2]
    intro hchar
    revert hchar
    exact nofun
  stale_inj h h' heq := aptStalePath_inj (of_decide_eq_true h) (of_decide_eq_true h') heq
  stale_ne := by
    intro k k' now pkgs w hw heq
    have hhead := aptPlan_head hw
    rw [heq] at hhead
    have hflag : (aptStalePath k').toList.head? = some '_' := head_append (by decide +kernel) k'
    rw [head_normalizePath (by decide) hflag] at hhead
    revert hhead
    decide
  file_ne_commit := by
    intro k k' now now' pkgs pkgs' w w' hw hw' hc hc'
    rcases mem_aptPlan hw with ⟨-, rel, data, hpath⟩ | ⟨hcommit, -⟩
    · rcases mem_aptPlan hw' with ⟨hcommit, -⟩ | ⟨-, hpath'⟩
      · rw [hc'] at hcommit
        cases hcommit
      · rw [IndexWrite.sk, IndexWrite.sk, hpath, hpath']
        exact byHash_ne_inRelease x k k' rel data
    · rw [hc] at hcommit
      cases hcommit
  commit_key := by
    intro k k' now now' pkgs pkgs' w w' hk hk' hw hw' hc hc' heq
    rcases mem_aptPlan hw with ⟨hcommit, -⟩ | ⟨-, hpath⟩
    · rw [hc] at hcommit
      cases hcommit
    · rcases mem_aptPlan hw' with ⟨hcommit, -⟩ | ⟨-, hpath'⟩
      · rw [hc'] at hcommit
        cases hcommit
      · rw [IndexWrite.sk, IndexWrite.sk, hpath, hpath'] at heq
        exact inReleasePath_inj (of_decide_eq_true hk) (of_decide_eq_true hk') heq
  commit_once := by
    intro k now pkgs w w' _ hw hw' hc hc' _
    have hlast : ∀ v ∈ aptPlan x k now pkgs, v.commit = true →
        (aptPlan x k now pkgs).getLast? = some v := by
      intro v hv hvc
      rcases mem_append.mp hv with hv | hv
      · obtain ⟨f, -, rfl⟩ := mem_map.mp hv
        cases hvc
      · obtain rfl := mem_singleton.mp hv
        rw [aptPlan]
        exact getLast?_concat
    exact Option.some.inj ((hlast w hw hc).symm.trans (hlast w' hw' hc'))
  mem_commits := by
    intro k now pkgs sk
    rw [mem_singleton]
    constructor
    · rintro rfl
      exact ⟨_, mem_append_right _ (mem_singleton_self _), rfl, rfl⟩
    · rintro ⟨w, hw, hc, rfl⟩
      rcases mem_aptPlan hw with ⟨hcommit, -⟩ | ⟨-, hpath⟩
      · rw [hc] at hcommit
        cases hcommit
      · rw [IndexWrite.sk, hpath]
  commits_mono _ := List.Subset.refl _

variable {group : List (String × StoredRecord)}

/-- What `yumPlan` writes. -/
theorem mem_yumGroupPlan
    (h : w ∈ yumGroupPlan x now pfx group) : (w.commit = false ∧ ['g', 'z'] <:+ w.path.toList) ∨
      (w.commit = true ∧ w.path = repomdPath pfx) := by
  have hgz : ∀ (rd kind : String) (gz : Bytes),
      ['g', 'z'] <:+ (rd ++ "/" ++ hashedName x kind gz).toList := by
    intro rd kind gz
    have hname : ['g', 'z'] <:+ (hashedName x kind gz).toList :=
      IsSuffix.trans (by decide +kernel) (suffix_append _ ".xml.gz")
    exact hname.trans (suffix_append _ _)
  rcases mem_cons.mp h with rfl | h
  · exact .inl ⟨rfl, hgz _ _ _⟩
  rcases mem_cons.mp h with rfl | h
  · exact .inl ⟨rfl, hgz _ _ _⟩
  rcases mem_cons.mp h with rfl | h
  · exact .inl ⟨rfl, hgz _ _ _⟩
  obtain rfl := mem_singleton.mp h
  exact .inr ⟨rfl, rfl⟩

variable {depth : ℕ}

theorem mem_yumPlan (h : w ∈ yumPlan x depth now pkgs) :
    ∃ pfx ∈ repodataGroups depth (pkgs.map Prod.fst), w ∈ yumGroupPlan x now pfx
      (pkgs.filter fun e => repodataPrefix e.1 depth = pfx) :=
  mem_flatMap.mp h

theorem mem_sortedDistinct {texts : List String} {s : String} :
    s ∈ sortedDistinct texts ↔ s ∈ texts := by
  rw [sortedDistinct, mem_insertionSort, mem_dedup]

/-- The groups of packages at some paths. -/
theorem mem_repodataGroups {paths : List String} : pfx ∈ repodataGroups depth paths ↔
      (∃ path ∈ paths, repodataPrefix path depth = pfx) ∨ depth = 0 ∧ pfx = "" := by
  have hmem : pfx ∈ sortedDistinct (paths.map (repodataPrefix · depth)) ↔
      ∃ path ∈ paths, repodataPrefix path depth = pfx := by
    rw [mem_sortedDistinct, mem_map]
  unfold repodataGroups
  dsimp only
  split_ifs with h
  · rw [h.1] at hmem
    rw [← hmem, mem_singleton]
    simp [h.2]
  · rw [hmem]
    refine ⟨.inl, fun hor => hor.elim id fun ⟨hd, hp⟩ => ?_⟩
    have hne : sortedDistinct (paths.map (repodataPrefix · depth)) ≠ [] := fun hnil => h ⟨hnil, hd⟩
    obtain ⟨pfx', hpfx'⟩ := exists_mem_of_ne_nil _ hne
    obtain ⟨path, hpath, -⟩ := mem_map.mp (mem_sortedDistinct.mp hpfx')
    refine ⟨path, hpath, ?_⟩
    rw [repodataPrefix, if_pos hd, hp]

/-- The group of clean paths is determined by the key of its `repomd.xml`. -/
theorem repomdPath_inj {pfx' : String} (h : CleanPath pfx) (h' : CleanPath pfx')
    (heq : normalizePath (repomdPath pfx) = normalizePath (repomdPath pfx')) : pfx = pfx' := by
  have hclean : ∀ p, CleanPath p → normalizePath (repomdPath p) = repomdPath p := by
    intro p hp
    have hname : CleanPath "repomd.xml" := clean_name (by decide +kernel)
    have hrd : CleanPath "repodata" := clean_name (by decide +kernel)
    have hback : "/repomd.xml" = "/" ++ "repomd.xml" := by decide +kernel
    have hpath : repomdPath p = repodataDir p ++ "/" ++ "repomd.xml" :=
      (congrArg (_ ++ ·) hback).trans String.append_assoc.symm
    rw [hpath]
    refine normalizePath_clean (cleanPath_append ?_ ?_ hname (by decide +kernel))
    · unfold repodataDir
      split_ifs with hnil
      · exact hrd
      · have hmid : "/repodata" = "/" ++ "repodata" := by decide +kernel
        have hdir : p ++ "/repodata" = p ++ "/" ++ "repodata" :=
          (congrArg (_ ++ ·) hmid).trans String.append_assoc.symm
        rw [hdir]
        exact cleanPath_append hp hnil hrd (by decide +kernel)
    · unfold repodataDir
      split_ifs with hnil
      · decide +kernel
      · intro hempty
        have hlist := congrArg String.length hempty
        rw [String.length_append] at hlist
        have hlen : "/repodata".length = 9 := by decide +kernel
        have hzero : "".length = 0 := by decide +kernel
        omega
  rw [hclean pfx h, hclean pfx' h'] at heq
  have hlist := congrArg toList heq
  simp only [repomdPath, toList_append] at hlist
  rw [append_left_inj] at hlist
  have hdir := toList_inj.mp hlist
  unfold repodataDir at hdir
  have hlen : ∀ p : String, p ++ "/repodata" ≠ "repodata" := by
    intro p hp
    have hsum := congrArg String.length hp
    rw [String.length_append] at hsum
    have h9 : "/repodata".length = 9 := by decide +kernel
    have h8 : "repodata".length = 8 := by decide +kernel
    omega
  split_ifs at hdir with hp hp' hp'
  · rw [hp, hp']
  · exact absurd hdir.symm (hlen pfx')
  · exact absurd hdir (hlen pfx)
  · have hchars := congrArg toList hdir
    rw [toList_append, toList_append, append_left_inj] at hchars
    exact toList_inj.mp hchars

/-- The file that publishes a group is the last one. -/
theorem yumGroupPlan_last (h : w ∈ yumGroupPlan x now pfx group) (hc : w.commit = true) :
    (yumGroupPlan x now pfx group).getLast? = some w := by
  unfold yumGroupPlan at h ⊢
  rcases mem_cons.mp h with rfl | h
  · cases hc
  rcases mem_cons.mp h with rfl | h
  · cases hc
  rcases mem_cons.mp h with rfl | h
  · cases hc
  obtain rfl := mem_singleton.mp h
  rfl

theorem yumGroupPlan_commit (x : IndexExt) (now : DateTime) (pfx : String)
    (group : List (String × StoredRecord)) :
    ∃ w ∈ yumGroupPlan x now pfx group, w.commit = true ∧ w.path = repomdPath pfx := by
  refine ⟨_, mem_cons_of_mem _ (mem_cons_of_mem _ (mem_cons_of_mem _ mem_cons_self)), rfl, rfl⟩

/-- The key of a `repomd.xml`. -/
def repomdSk (pfx : String) : String := normalizePath (repomdPath pfx)

theorem yum_sk (h : w ∈ yumPlan x depth now pkgs) :
    (w.commit = false ∧ ['g', 'z'] <:+ w.sk.toList) ∨
      (w.commit = true ∧ ['x', 'm', 'l'] <:+ w.sk.toList) := by
  obtain ⟨pfx, -, hw⟩ := mem_yumPlan h
  rcases mem_yumGroupPlan hw with ⟨hc, hgz⟩ | ⟨hc, hpath⟩
  · exact .inl ⟨hc, suffix_normalizePath (by decide) (by decide) hgz⟩
  · refine .inr ⟨hc, suffix_normalizePath (by decide) (by decide) ?_⟩
    rw [hpath]
    exact IsSuffix.trans (by decide +kernel) (suffix_append _ "/repomd.xml")

/-- Yum: one index, published in groups. -/
def yumFormat (x : IndexExt) (depth : ℕ) : IndexFormat where
  keyOf m := if m.isYum then some "" else none
  named key := key = ""
  stalePath _ := yumStalePath
  metadataKind := .yumMetadata
  prefixes := [""]
  plan _ := yumPlan x depth
  commits _ paths := (repodataGroups depth paths).map repomdSk
  keyOf_other := rfl
  prefixes_apart := pairwise_singleton _ _
  stale_inj h h' _ := (of_decide_eq_true h).trans (of_decide_eq_true h').symm
  stale_ne := by
    intro k k' now pkgs w hw heq
    have hflag : ['s', 't', 'a', 'l', 'e'] <:+ (normalizePath yumStalePath).toList := by
      decide +kernel
    rw [← heq] at hflag
    rcases yum_sk hw with ⟨-, hsuf⟩ | ⟨-, hsuf⟩
    · exact ne_of_suffix hsuf hflag (by decide) (by decide) rfl
    · exact ne_of_suffix hsuf hflag (by decide) (by decide) rfl
  file_ne_commit := by
    intro k k' now now' pkgs pkgs' w w' hw hw' hc hc'
    rcases yum_sk hw with ⟨-, hsuf⟩ | ⟨hcommit, -⟩
    · rcases yum_sk hw' with ⟨hcommit, -⟩ | ⟨-, hsuf'⟩
      · rw [hc'] at hcommit
        cases hcommit
      · exact ne_of_suffix hsuf hsuf' (by decide) (by decide)
    · rw [hc] at hcommit
      cases hcommit
  commit_key h h' _ _ _ _ _ := (of_decide_eq_true h).trans (of_decide_eq_true h').symm
  commit_once := by
    intro k now pkgs w w' hclean hw hw' hc hc' heq
    have hgroup : ∀ pfx ∈ repodataGroups depth (pkgs.map Prod.fst), CleanPath pfx := by
      intro pfx hpfx
      rcases mem_repodataGroups.mp hpfx with ⟨path, hpath, rfl⟩ | ⟨-, rfl⟩
      · obtain ⟨e, he, rfl⟩ := mem_map.mp hpath
        exact clean_repodataPrefix (hclean e he) depth
      · exact cleanPath_of_eq (by decide +kernel)
    obtain ⟨pfx, hpfx, hw⟩ := mem_yumPlan hw
    obtain ⟨pfx', hpfx', hw'⟩ := mem_yumPlan hw'
    have hpath : ∀ {p g v}, v ∈ yumGroupPlan x now p g → v.commit = true →
        v.path = repomdPath p := by
      intro p g v hv hvc
      rcases mem_yumGroupPlan hv with ⟨hcommit, -⟩ | ⟨-, hpath⟩
      · rw [hvc] at hcommit
        cases hcommit
      · exact hpath
    rw [IndexWrite.sk, IndexWrite.sk, hpath hw hc, hpath hw' hc'] at heq
    obtain rfl := repomdPath_inj (hgroup pfx hpfx) (hgroup pfx' hpfx') heq
    exact Option.some.inj ((yumGroupPlan_last hw hc).symm.trans (yumGroupPlan_last hw' hc'))
  mem_commits := by
    intro k now pkgs sk
    rw [mem_map]
    constructor
    · rintro ⟨pfx, hpfx, rfl⟩
      obtain ⟨w, hw, hc, hpath⟩ := yumGroupPlan_commit x now pfx
        (pkgs.filter fun e => repodataPrefix e.1 depth = pfx)
      exact ⟨w, mem_flatMap.mpr ⟨pfx, hpfx, hw⟩, hc, by rw [IndexWrite.sk, hpath, repomdSk]⟩
    · rintro ⟨w, hw, hc, rfl⟩
      obtain ⟨pfx, hpfx, hw⟩ := mem_yumPlan hw
      refine ⟨pfx, hpfx, ?_⟩
      rcases mem_yumGroupPlan hw with ⟨hcommit, -⟩ | ⟨-, hpath⟩
      · rw [hc] at hcommit
        cases hcommit
      · rw [IndexWrite.sk, hpath, repomdSk]
  commits_mono := by
    intro k ps ps' hsub sk hsk
    obtain ⟨pfx, hpfx, rfl⟩ := mem_map.mp hsk
    refine mem_map_of_mem (mem_repodataGroups.mpr ?_)
    rcases mem_repodataGroups.mp hpfx with ⟨path, hpath, heq⟩ | hroot
    · exact .inl ⟨path, hsub hpath, heq⟩
    · exact .inr hroot

/-- Helm: one index in one file. -/
def helmFormat (x : IndexExt) : IndexFormat where
  keyOf m := if m.isHelm then some "" else none
  named key := key = ""
  stalePath _ := helmFlagPath
  metadataKind := .helmMetadata
  prefixes := [""]
  plan _ := helmPlan x
  commits _ _ := [normalizePath helmIndexPath]
  required := some helmIndexPath
  keyOf_other := rfl
  prefixes_apart := pairwise_singleton _ _
  stale_inj h h' _ := (of_decide_eq_true h).trans (of_decide_eq_true h').symm
  stale_ne := by
    intro k k' now pkgs w hw
    obtain rfl := mem_singleton.mp hw
    show normalizePath helmIndexPath ≠ normalizePath helmFlagPath
    decide +kernel
  file_ne_commit := by
    intro k k' now now' pkgs pkgs' w w' hw _ hc
    obtain rfl := mem_singleton.mp hw
    cases hc
  commit_key h h' _ _ _ _ _ := (of_decide_eq_true h).trans (of_decide_eq_true h').symm
  commit_once := by
    intro k now pkgs w w' _ hw hw' _ _ _
    rw [mem_singleton.mp hw, mem_singleton.mp hw']
  mem_commits := by
    intro k now pkgs sk
    rw [mem_singleton]
    constructor
    · rintro rfl
      exact ⟨_, mem_singleton_self _, rfl, rfl⟩
    · rintro ⟨w, hw, -, rfl⟩
      obtain rfl := mem_singleton.mp hw
      rfl
  commits_mono _ := List.Subset.refl _

/-- The formats whose repositories publish an index. -/
inductive PackageFormat where
  | apt
  | yum (repodataDepth : ℕ)
  | helm
  deriving DecidableEq

/-- The index format of a package format. -/
def PackageFormat.format (x : IndexExt) : PackageFormat → IndexFormat
  | .apt => aptFormat x
  | .yum depth => yumFormat x depth
  | .helm => helmFormat x

end Depot
