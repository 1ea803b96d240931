import Depot.Index.Packages

/-!
# The texts of the index files

What the files of a package index say (`format/apt/src/store/metadata.rs`,
`format/yum/src/store/metadata.rs`, `rebuild_index` of `format/helm/src/store.rs`).
-/

namespace Depot

open String (ofList)

/-! ## What comes from outside -/

/-- An entry of a Helm index (`HelmIndexEntry`). -/
structure HelmIndexEntry where
  helm : HelmChartMeta
  digest : String
  urls : List String
  created : String
  deriving DecidableEq

/-- `HelmIndex`: the charts by name. -/
structure HelmIndex where
  entries : List (String × List HelmIndexEntry)
  generated : String
  deriving DecidableEq

/-- A character of a hexadecimal number. -/
def isHex (c : Char) : Bool := c.isDigit || ('a' ≤ c && c ≤ 'f')

/-- Functions of other crates. -/
structure IndexExt where
  /-- `keys::shard_of`. -/
  shardOf : String → ℕ
  shardOf_lt : ∀ sk, shardOf sk < numShards
  /-- `hex::encode(Sha256::digest(data))`. -/
  sha256 : Bytes → String
  sha256_hex : ∀ data, ∀ c ∈ (sha256 data).toList, isHex c = true
  sha256_length : ∀ data, (sha256 data).length = 64
  /-- `GzEncoder` and `gzip_compress`. -/
  gzip : Bytes → Bytes
  /-- `now.format("%a, %d %b %Y %H:%M:%S UTC")`. -/
  releaseDate : DateTime → String
  /-- `sign_inrelease`: the signed text, or the text itself without a key or after a failure. -/
  sign : DateTime → String → String
  /-- `to_rfc3339`. -/
  rfc3339 : DateTime → String
  /-- `serde_yml::to_string`. -/
  yaml : HelmIndex → String

/-- Simple functions of the other crates. -/
def IndexExt.sample : IndexExt where
  shardOf _ := 0
  shardOf_lt _ := by decide
  sha256 _ := ofList (List.replicate 64 '0')
  sha256_hex _ c hc := by
    rw [String.toList_ofList] at hc
    rw [List.eq_of_mem_replicate hc]
    decide
  sha256_length _ := by rw [String.length_ofList, List.length_replicate]
  gzip data := data
  releaseDate _ := "Mon, 01 Jan 2024 00:00:00 UTC"
  sign _ text := text
  rfc3339 _ := "2024-01-01T00:00:00+00:00"
  yaml index := "apiVersion: v1\nentries: " ++ ", ".intercalate (index.entries.map Prod.fst) ++
    "\ngenerated: " ++ index.generated ++ "\n"

/-- The bytes of a text. -/
def utf8 (text : String) : Bytes := text.toUTF8.toList

/-! ## Apt -/

/-- `ReleaseFileEntry`. -/
structure ReleaseFileEntry where
  path : String
  sha256 : String
  size : ℕ
  deriving DecidableEq

/-- A line of a stanza that is left out if it says nothing. -/
def optionalLine (label text : String) : String :=
  if text = "" then "" else label ++ ": " ++ text ++ "\n"

/-- `generate_packages_stanza` (lines 84–158) of an Apt package. -/
def packagesStanza (apt : AptPackageMeta) (size : ℕ) (path : String) : String :=
  let filename := if path.startsWith "_pool/" then ofList (path.toList.drop 1) else path
  "Package: " ++ apt.package ++ "\n" ++
  "Version: " ++ apt.version ++ "\n" ++
  "Architecture: " ++ apt.architecture ++ "\n" ++
  optionalLine "Maintainer" apt.maintainer ++
  optionalLine "Depends" apt.depends ++
  optionalLine "Section" apt.pkgSection ++
  "Priority: " ++ apt.priority ++ "\n" ++
  (if apt.installedSize = "0" then "" else optionalLine "Installed-Size" apt.installedSize) ++
  "Filename: " ++ filename ++ "\n" ++
  "Size: " ++ toString size ++ "\n" ++
  "SHA256: " ++ apt.sha256 ++ "\n" ++
  optionalLine "Description" apt.description

/-- What a record of another kind is listed as. -/
def unknownPackage : AptPackageMeta where
  package := "unknown"
  version := "0.0.0"
  distribution := ""
  pkgSection := "misc"
  installedSize := "0"

/-- `generate_packages_stanza`. -/
def generatePackagesStanza (r : StoredRecord) (path : String) : String :=
  match r.packageMeta with
  | .apt apt => packagesStanza apt r.record.size path
  | _ => packagesStanza unknownPackage r.record.size path

/-- `{:>16}`. -/
def padLeft (width : ℕ) (text : String) : String :=
  ofList (List.replicate (width - text.length) ' ') ++ text

/-- `generate_release` (lines 161–188). -/
def generateRelease (x : IndexExt) (now : DateTime) (distribution : String)
    (components architectures : List String) (checksums : List ReleaseFileEntry) : String :=
  "Suite: " ++ distribution ++ "\n" ++
  "Codename: " ++ distribution ++ "\n" ++
  "Components: " ++ " ".intercalate components ++ "\n" ++
  "Architectures: " ++ " ".intercalate architectures ++ "\n" ++
  "Date: " ++ x.releaseDate now ++ "\n" ++
  "Acquire-By-Hash: yes\n" ++
  "SHA256:\n" ++
  String.join (checksums.map fun entry =>
    " " ++ entry.sha256 ++ " " ++ padLeft 16 (toString entry.size) ++ " " ++ entry.path ++ "\n")

/-! ## Yum -/

/-- `xml_escape` (lines 19–25). -/
def xmlEscape (s : String) : String :=
  String.join (s.toList.map fun c =>
    if c = '&' then "&amp;" else if c = '<' then "&lt;" else if c = '>' then "&gt;"
    else if c = Char.ofNat 34 then "&quot;" else if c = Char.ofNat 39 then "&apos;"
    else String.singleton c)

/-- `write_deps_xml` (lines 121–145). -/
def depsXml (tag : String) (deps : List RpmDep) : String :=
  if deps = [] then ""
  else
    "    <" ++ tag ++ ">\n" ++
    String.join (deps.map fun dep =>
      if dep.flags = "" then "      <rpm:entry name=\"" ++ xmlEscape dep.name ++ "\"/>\n"
      else "      <rpm:entry name=\"" ++ xmlEscape dep.name ++ "\" flags=\"" ++
        xmlEscape dep.flags ++ "\" epoch=\"" ++ xmlEscape dep.epoch ++ "\" ver=\"" ++
        xmlEscape dep.ver ++ "\" rel=\"" ++ xmlEscape dep.rel ++ "\"/>\n") ++
    "    </" ++ tag ++ ">\n"

/-- `timestamp()`: whole seconds. -/
def timestamp (t : DateTime) : ℤ := t / secondNs

/-- The path of a package relative to the directory of its group. -/
def locationHref (path pfx : String) : String :=
  if pfx = "" then path
  else if pfx.toList.isPrefixOf path.toList then
    ofList ((path.toList.drop pfx.length).dropWhile (· = '/'))
  else ofList (path.toList.dropWhile (· = '/'))

/-- The version element of a package. -/
def versionXml (rpm : RpmPackageMeta) : String :=
  "  <version epoch=\"" ++ toString rpm.epoch ++ "\" ver=\"" ++ xmlEscape rpm.version ++
    "\" rel=\"" ++ xmlEscape rpm.release ++ "\"/>\n"

/-- An element with a text. -/
def elementXml (indent tag text : String) : String :=
  indent ++ "<" ++ tag ++ ">" ++ xmlEscape text ++ "</" ++ tag ++ ">\n"

/-- An entry of `primary.xml`. -/
def primaryEntryXml (rpm : RpmPackageMeta) (record : ArtifactRecord) (href : String) : String :=
  "<package type=\"rpm\">\n" ++
  elementXml "  " "name" rpm.name ++
  elementXml "  " "arch" rpm.arch ++
  versionXml rpm ++
  "  <checksum type=\"sha256\" pkgid=\"YES\">" ++ rpm.sha256 ++ "</checksum>\n" ++
  elementXml "  " "summary" rpm.summary ++
  elementXml "  " "description" rpm.description ++
  elementXml "  " "packager" rpm.packager ++
  elementXml "  " "url" rpm.url ++
  "  <time file=\"" ++ toString (timestamp record.createdAt) ++ "\" build=\"" ++
    toString rpm.buildtime ++ "\"/>\n" ++
  "  <size package=\"" ++ toString record.size ++ "\" installed=\"" ++
    toString rpm.installedSize ++ "\" archive=\"" ++ toString rpm.archiveSize ++ "\"/>\n" ++
  "  <location href=\"" ++ xmlEscape href ++ "\"/>\n" ++
  "  <format>\n" ++
  elementXml "    " "rpm:license" rpm.license ++
  elementXml "    " "rpm:vendor" rpm.vendor ++
  elementXml "    " "rpm:group" rpm.group ++
  elementXml "    " "rpm:buildhost" rpm.buildhost ++
  depsXml "rpm:requires" rpm.requires ++
  depsXml "rpm:provides" rpm.provides ++
  depsXml "rpm:conflicts" rpm.conflicts ++
  depsXml "rpm:obsoletes" rpm.obsoletes ++
  "  </format>\n" ++
  "</package>\n"

/-- The head of an XML file. -/
def xmlHeader : String := "<?xml version=\"1.0\" encoding=\"UTF-8\"?>\n"

/-- The entries of the Yum packages of a group. -/
def rpmEntries (f : RpmPackageMeta → ArtifactRecord → String → String)
    (packages : List (String × StoredRecord)) : String :=
  String.join (packages.map fun e =>
    match e.2.packageMeta with
    | .yum rpm => f rpm e.2.record e.1
    | _ => "")

/-- `generate_primary_xml` (lines 33–119). -/
def generatePrimaryXml (packages : List (String × StoredRecord)) (pfx : String) : String :=
  xmlHeader ++
  "<metadata xmlns=\"http://linux.duke.edu/metadata/common\" " ++
  "xmlns:rpm=\"http://linux.duke.edu/metadata/rpm\" packages=\"" ++
  toString packages.length ++ "\">\n" ++
  rpmEntries (fun rpm record path => primaryEntryXml rpm record (locationHref path pfx)) packages ++
  "</metadata>\n"

/-- The head of an entry of `filelists.xml` and `other.xml`. -/
def packageIdXml (rpm : RpmPackageMeta) : String :=
  "<package pkgid=\"" ++ rpm.sha256 ++ "\" name=\"" ++ xmlEscape rpm.name ++ "\" arch=\"" ++
    xmlEscape rpm.arch ++ "\">\n" ++ versionXml rpm

/-- A file of `filelists.xml`. -/
def fileXml (file : RpmFileEntry) : String :=
  (if file.fileType = "dir" then "  <file type=\"dir\">"
  else if file.fileType = "ghost" then "  <file type=\"ghost\">" else "  <file>") ++
    xmlEscape file.path ++ "</file>\n"

/-- `generate_filelists_xml` (lines 148–189). -/
def generateFilelistsXml (packages : List (String × StoredRecord)) : String :=
  xmlHeader ++
  "<filelists xmlns=\"http://linux.duke.edu/metadata/filelists\" packages=\"" ++
  toString packages.length ++ "\">\n" ++
  rpmEntries (fun rpm _ _ =>
    packageIdXml rpm ++ String.join (rpm.files.map fileXml) ++ "</package>\n") packages ++
  "</filelists>\n"

/-- A change of `other.xml`. -/
def changelogXml (cl : RpmChangelog) : String :=
  "  <changelog author=\"" ++ xmlEscape cl.author ++ "\" date=\"" ++ toString cl.timestamp ++
    "\">" ++ xmlEscape cl.text ++ "</changelog>\n"

/-- `generate_other_xml` (lines 192–228). -/
def generateOtherXml (packages : List (String × StoredRecord)) : String :=
  xmlHeader ++
  "<otherdata xmlns=\"http://linux.duke.edu/metadata/other\" packages=\"" ++
  toString packages.length ++ "\">\n" ++
  rpmEntries (fun rpm _ _ =>
    packageIdXml rpm ++ String.join (rpm.changelogs.map changelogXml) ++ "</package>\n")
    packages ++
  "</otherdata>\n"

/-- `RepoDataEntry`. -/
structure RepoDataEntry where
  filename : String
  checksum : String
  size : ℕ
  openChecksum : String
  openSize : ℕ

/-- A file that `repomd.xml` names. -/
def repoDataXml (timestamp : ℤ) (dataType : String) (entry : RepoDataEntry) : String :=
  "  <data type=\"" ++ dataType ++ "\">\n" ++
  "    <checksum type=\"sha256\">" ++ entry.checksum ++ "</checksum>\n" ++
  "    <open-checksum type=\"sha256\">" ++ entry.openChecksum ++ "</open-checksum>\n" ++
  "    <location href=\"repodata/" ++ entry.filename ++ "\"/>\n" ++
  "    <timestamp>" ++ toString timestamp ++ "</timestamp>\n" ++
  "    <size>" ++ toString entry.size ++ "</size>\n" ++
  "    <open-size>" ++ toString entry.openSize ++ "</open-size>\n" ++
  "  </data>\n"

/-- `generate_repomd_xml` (lines 350–388). -/
def generateRepomdXml (revision : ℤ) (primary filelists other : RepoDataEntry)
    (timestamp : ℤ) : String :=
  xmlHeader ++
  "<repomd xmlns=\"http://linux.duke.edu/metadata/repo\">\n" ++
  "  <revision>" ++ toString revision ++ "</revision>\n" ++
  repoDataXml timestamp "primary" primary ++
  repoDataXml timestamp "filelists" filelists ++
  repoDataXml timestamp "other" other ++
  "</repomd>\n"

/-! ## Helm -/

/-- The entry of a chart (`rebuild_index`, lines 509–525). -/
def helmIndexEntry (x : IndexExt) (helm : HelmChartMeta) (record : ArtifactRecord) :
    HelmIndexEntry where
  helm := helm
  digest := "sha256:" ++ helm.sha256
  urls := [chartPath helm.name helm.version]
  created := x.rfc3339 record.createdAt

def chartEntries (x : IndexExt) (packages : List (String × StoredRecord)) (name : String) :
    List HelmIndexEntry :=
  packages.filterMap fun e =>
    match e.2.packageMeta with
    | .helm helm => if helm.name = name then some (helmIndexEntry x helm e.2.record) else none
    | _ => none

def chartNames (packages : List (String × StoredRecord)) : List String :=
  packages.filterMap fun e =>
    match e.2.packageMeta with
    | .helm helm => some helm.name
    | _ => none

/-- Sorted, each text once. -/
def sortedDistinct (texts : List String) : List String :=
  texts.dedup.insertionSort (· ≤ ·)

/-- The index of the charts (`rebuild_index`, lines 494–543). -/
def helmIndexText (x : IndexExt) (now : DateTime) (packages : List (String × StoredRecord)) :
    String :=
  x.yaml {
    entries := (sortedDistinct (chartNames packages)).map fun name =>
      (name, chartEntries x packages name)
    generated := x.rfc3339 now }

end Depot
