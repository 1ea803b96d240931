import Depot.Index.Packages
import Depot.Service.Artifact
import Depot.Service.Table

/-!
# Records with their contents

The records of a repository together with the contents of their blobs, as the stores of the
package formats write and read them.
-/

namespace Depot

open Lib

/-- The record as `put_artifact` stores it at a path. -/
def StoredRecord.prepared (r : StoredRecord) (path : String) : StoredRecord :=
  { r with record := prepareRecord path r.record }

@[simp] theorem StoredRecord.prepared_content (r : StoredRecord) (path : String) :
    (r.prepared path).content = r.content := rfl

@[simp] theorem StoredRecord.prepared_packageMeta (r : StoredRecord) (path : String) :
    (r.prepared path).packageMeta = r.packageMeta := rfl

namespace RecordTable

variable (t : RecordTable StoredRecord) (path : String) (r : StoredRecord)

/-- `put_artifact`. -/
def putStored : RecordTable StoredRecord := t.put path (r.prepared path)

/-- `put_artifact_if_absent`. -/
def putStoredIfAbsent : RecordTable StoredRecord := t.putIfAbsent path (r.prepared path)

/-- `read_artifact` of the formats: a record without its blob reads as none. -/
def readArtifact : Option Bytes := (t.find path).bind StoredRecord.content

theorem readArtifact_putStored (path' : String) : (t.putStored path r).readArtifact path' =
    if normalizePath path' = normalizePath path then r.content else t.readArtifact path' := by
  rw [readArtifact, putStored, find_put]
  split_ifs <;> rfl

theorem readArtifact_putStoredIfAbsent (path' : String) :
    (t.putStoredIfAbsent path r).readArtifact path' =
      if normalizePath path' = normalizePath path ∧ t.find path = none then r.content
      else t.readArtifact path' := by
  unfold putStoredIfAbsent putIfAbsent
  cases hfind : t.find path with
  | some r' => simp
  | none =>
    have hput := t.readArtifact_putStored path r path'
    rw [putStored] at hput
    simpa using hput

end RecordTable

end Depot
