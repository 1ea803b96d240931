import Depot.Writes.Stores

/-!
# Component uploads

The uploads of the Nexus-compatible API, `POST /service/rest/v1/components`
(`server/src/server/api/nexus_compat.rs`, lines 603–905). They commit with the same functions as
the uploads of the formats, and each propagates staleness in its own way, or not at all.
-/

namespace Depot

open Lib

/-- The last field that has one of some names. -/
def UploadForm.lastOf (form : UploadForm) (names : List String) : Option Bytes :=
  (form.fields.reverse.find? fun f => decide (f.1 ∈ names)).map Prod.snd

section

variable (x : Ext) (p : PackageExt)

/-- The last field of a name that is text. -/
def UploadForm.lastText (form : UploadForm) (name : String) : Option String :=
  ((form.fields.filter fun f => f.1 = name).filterMap fun f => p.text f.2).getLast?

/-- `upload_component_yum` (lines 650–704). -/
def uploadComponentYum (r : Route) (fields : List FormField) : Async Unit := do
  let form ← readForm r.target.store "yum.asset" "package.rpm" fields
  let file ← formFile "yum.asset" form
  let filename := (form.text p "yum.asset.filename").getD file.name
  yumCommitPackage x p r.target.name r.target.store ((form.text p "yum.directory").getD "") filename
    file.blobId file.data

/-- `upload_component_apt` (lines 706–770). -/
def uploadComponentApt (r : Route) (fields : List FormField) : Async Unit := do
  let form ← readForm r.target.store "apt.asset" "package.deb" fields
  let file ← formFile "apt.asset" form
  match form.text p "apt.asset.distribution" with
  | none => throw (.badRequest "missing 'apt.asset.distribution' field")
  | some distribution =>
      aptCommitPackage x p r.target.name r.target.store distribution
        ((form.lastText p "apt.asset.component").getD "main") file

/-- `upload_component_helm` (lines 772–821). -/
def uploadComponentHelm (r : Route) (fields : List FormField) : Async Unit := do
  let form ← readForm r.target.store "helm.asset" "chart.tgz" fields
  let file ← formFile "helm.asset" form
  helmCommitChart x p r.target.name r.target.store file.blobId file.data
  propagateToParents x r.target.name .helm helmFlagPath

/-- `upload_component_pypi` (lines 823–905). -/
def uploadComponentPypi (r : Route) (fields : List FormField) : Async Unit := do
  let form ← readForm r.target.store "pypi.asset" "package.tar.gz" fields
  let file ← formFile "pypi.asset" form
  match (form.lastOf ["pypi.asset.name", "name"]).bind p.text with
  | none => throw (.badRequest "missing 'pypi.asset.name' field")
  | some name =>
      match (form.lastOf ["pypi.asset.version", "version"]).bind p.text with
      | none => throw (.badRequest "missing 'pypi.asset.version' field")
      | some version => do
          pypiCommitPackage x p r.target.name r.target.store name version none file
          Fallible.ignore (raiseFlag x r.target.name pypiStalePath .raw)
          propagateToParents x r.target.name .pypi pypiStalePath

/-- `upload_component` (lines 618–648), once the target is resolved. -/
def uploadComponent (r : Route) (fields : List FormField) : Async Unit := do
  blobStore r.target.store
  match r.addressed.format with
  | .yum => uploadComponentYum x p r fields
  | .apt => uploadComponentApt x p r fields
  | .helm => uploadComponentHelm x p r fields
  | .pypi => uploadComponentPypi x p r fields
  | other => throw (.badRequest ("Nexus component upload is not supported for " ++ other.text ++
      " repositories"))

end

/-! ## Package writes -/

/-- A write of a package: a request of its format, or a component upload. -/
inductive PackageWrite where
  | request (j : RoutedWrite)
  | component (r : Route) (fields : List FormField)

namespace PackageWrite

/-- The route of a write. -/
def route : PackageWrite → Route
  | request j => j.route
  | component r _ => r

/-- The handler of a write. -/
def handler (x : Ext) (p : PackageExt) : PackageWrite → Async Unit
  | request j => j.write.handler x p j.route
  | component r fields => uploadComponent x p r fields

/-- The target of the write is the one that is resolved for it; a component upload is resolved as
    the other uploads are. -/
def routed (w : World) : PackageWrite → Bool
  | request j => j.routed w
  | component r fields => RoutedWrite.routed w ⟨r, .upload fields⟩

end PackageWrite

end Depot
