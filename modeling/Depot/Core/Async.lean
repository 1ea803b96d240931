import Depot.Core.World
import Depot.Lib.Fallible

/-!
# Asynchronous functions

The functions of the program as tasks over the operations of the shared state,
with the errors they return (`core/src/error.rs`), the methods of `KvStore`
(`core/src/store/kv/trait_def.rs`) and the typed helpers over them
(`core/src/service/typed.rs`).

Results:
* `Value.lease?_eq_some` and its siblings: a value decodes as one record only.
-/

namespace Depot

open Lib
open Fallible (attempt)

/-! ## Errors -/

/-- `DepotError`, with the cases the modelled functions return; the flag of
    `storage` is `Retryability::Transient`. `docker` is the response that
    `docker_error` builds; there an error of another layer is reported with the
    code `UNKNOWN` and its own text, and is kept as it is. -/
inductive DepotError where
  | storage (transient : Bool)
  | badRequest (msg : String)
  | forbidden (msg : String)
  | conflict (msg : String)
  | notFound (msg : String)
  | notAllowed (msg : String)
  | dataIntegrity (msg : String)
  | internal (msg : String)
  | upstream (msg : String)
  | docker (code msg : String) (status : ℕ)
  deriving DecidableEq

/-- An asynchronous function of the program. -/
abbrev Async (α : Type) : Type 1 := Fallible DepotError Op R α

/-- A value that is absent where the program panics. -/
def orPanic {α : Type} : Option α → Async α
  | some a => pure a
  | none => Fallible.issue Op.stop >>= fun e => nomatch e

/-- `Utc::now()`. -/
def utcNow : Async DateTime := Fallible.issue Op.now

/-- `Uuid::new_v4().to_string()`. -/
def newUuid : Async String := Fallible.issue Op.uuid

/-! ## The key-value store -/

/-- `kv.get_versioned`. -/
def kvGetVersioned (k : Key) : Async (Option (Versioned Value)) :=
  attempt .storage (.read k) id

/-- `kv.get`. -/
def kvGet (k : Key) : Async (Option Value) :=
  attempt .storage (.read k) fun r => r.map fun c => c.map Versioned.value

/-- `kv.put`. -/
def kvPut (k : Key) (v : Value) : Async Unit :=
  attempt .storage (.write k (.put v)) fun r => r.map fun _ => ()

/-- `kv.put_if_version`. -/
def kvPutIfVersion (k : Key) (v : Value) (expectedVersion : Option ℕ) : Async Bool :=
  attempt .storage (.write k (.putIf v expectedVersion)) fun r => r.map Prod.fst

/-- `kv.put_if_absent`. -/
def kvPutIfAbsent (k : Key) (v : Value) : Async Bool := kvPutIfVersion k v none

/-- `kv.delete`. -/
def kvDelete (k : Key) : Async Bool :=
  attempt .storage (.write k .remove) fun r => r.map Prod.fst

/-- `kv.delete_returning`. -/
def kvDeleteReturning (k : Key) : Async (Option Value) :=
  attempt .storage (.write k .remove) fun r => r.map Prod.snd

/-- `kv.delete_batch`, one delete at a time. -/
def kvDeleteBatch (keys : List Key) : Async (List Bool) :=
  Fallible.fold (fun hits k => do
    let hit ← kvDelete k
    pure (hits ++ [hit])) keys []

/-- `ScanResult`. -/
structure ScanResult where
  items : List (String × Value)
  done : Bool

/-- `kv.scan_range`. -/
def kvScanRange (part : Part) (skStart : String) (skEnd : Option String) (limit : ℕ) :
    Async ScanResult :=
  attempt .storage (.scan part skStart skEnd limit) fun r => r.map fun p => ⟨p.1, p.2⟩

/-- The cursor after a page: `format!("{}\0", last_sk)`. -/
def cursorAfter (sk : String) : String := sk ++ String.singleton (Char.ofNat 0)

/-! ## Decoding -/

namespace Value

/-- The artifact record in a value; other bytes do not decode. -/
def artifact? : Value → Option ArtifactRecord
  | .artifact r => some r
  | _ => none

/-- The tree entry in a value. -/
def tree? : Value → Option TreeEntry
  | .tree e => some e
  | _ => none

/-- The blob record in a value. -/
def blob? : Value → Option BlobRecord
  | .blob b => some b
  | _ => none

/-- The upload session in a value. -/
def session? : Value → Option UploadSessionRecord
  | .session s => some s
  | _ => none

def lease? : Value → Option LeaseRecord
  | .lease l => some l
  | _ => none

/-- The repository in a value. -/
def repo? : Value → Option RepoConfig
  | .repo c => some c
  | _ => none

variable {v : Value}

theorem artifact?_eq_some {r : ArtifactRecord} :
    v.artifact? = some r ↔ v = .artifact r := by cases v <;> simp [artifact?]

theorem blob?_eq_some {b : BlobRecord} : v.blob? = some b ↔ v = .blob b := by
  cases v <;> simp [blob?]

theorem session?_eq_some {s : UploadSessionRecord} :
    v.session? = some s ↔ v = .session s := by cases v <;> simp [session?]

theorem lease?_eq_some {l : LeaseRecord} : v.lease? = some l ↔ v = .lease l := by
  cases v <;> simp [lease?]

end Value

/-- `rmp_serde::from_slice(&bytes)?`. -/
def decode {α : Type} (as? : Value → Option α) (v : Value) : Async α :=
  match as? v with
  | some a => pure a
  | none => throw (.storage false)

/-- `typed_get` (lines 19–29). -/
def typedGet {α : Type} (as? : Value → Option α) (k : Key) : Async (Option α) := do
  match ← kvGet k with
  | some v => some <$> decode as? v
  | none => pure none

/-- `typed_get_versioned` (lines 44–54). -/
def typedGetVersioned {α : Type} (as? : Value → Option α) (k : Key) : Async (Option (α × ℕ)) := do
  match ← kvGetVersioned k with
  | some c => do
      let a ← decode as? c.value
      pure (some (a, c.version))
  | none => pure none

/-- `typed_list` with an empty prefix (lines 69–83). -/
def typedList {α : Type} (as? : Value → Option α) (part : Part) (limit : ℕ) :
    Async (List α) := do
  let result ← kvScanRange part "" none limit
  Fallible.fold (fun acc e => do
    let a ← decode as? e.2
    pure (acc ++ [a])) result.items []

/-! ## Blob stores, updates and cancellation -/

/-- `blobs.put`. -/
def blobPut (store : String) (blobId : BlobId) (data : Bytes) : Async Unit :=
  attempt .storage (.blob store (.put blobId data)) id

/-- `blobs.delete`. -/
def blobDelete (store : String) (blobId : BlobId) : Async Unit :=
  attempt .storage (.blob store (.delete blobId)) id

/-- `blobs.open_read`, with the data of the blob. -/
def blobRead (store : String) (blobId : BlobId) : Async (Option Bytes) :=
  attempt .storage (.blob store (.read blobId)) id

/-- `blobs.create_writer`: the file that is written to. -/
def createWriter (store : String) (blobId : BlobId) : Async ℕ :=
  attempt .storage (.blob store (.createWriter blobId)) id

/-- `writer.write_chunk`, after `offset` bytes. -/
def writeChunk (store : String) (blobId : BlobId) (inode offset : ℕ) (data : Bytes) :
    Async Unit :=
  attempt .storage (.blob store (.writeAt blobId inode offset data)) id

/-- `writer.finish`. -/
def finishWriter : Async Unit := Fallible.check (.storage true)

/-- `let _ = writer.abort().await`. -/
def abortWriter (store : String) (blobId : BlobId) : Async Unit :=
  Fallible.ignore (blobDelete store blobId)

/-- The loop that writes a request body to a blob: the chunks that are left and
    the data written so far. The client may break off before each chunk; empty
    chunks are skipped, and an error runs `onError` before it is returned. -/
def writeBody (clientError : DepotError) (onError : Async Unit) (store : String)
    (blobId : BlobId) (inode : ℕ) : List Bytes → Bytes → Async Bytes
  | [], data => pure data
  | chunk :: body, data => do
      let result ← Fallible.capture (do
        Fallible.check clientError
        if chunk = [] then pure ()
        else writeChunk store blobId inode data.length chunk)
      match result with
      | .ok () => writeBody clientError onError store blobId inode body (data ++ chunk)
      | .error e => do
          onError
          throw e

/-- `stores.get(name)`, as whether the store is registered. -/
def storesGet (name : String) : Async Bool := Fallible.issue (Op.store name)

/-- `parent_dir` (`update.rs`, lines 157–162). -/
def parentDir (path : String) : String := String.ofList ((splitLast path.toList).1.getD [])

/-- A number as `i64`: a sum of two of them, or a `u64` that is cast. -/
def toI64 (z : ℤ) : ℤ := z.bmod (2 ^ 64)

theorem toI64_eq {z : ℤ} (hle : -2 ^ 63 ≤ z) (hlt : z < 2 ^ 63) : toI64 z = z :=
  Int.bmod_eq_of_le (by omega) (by omega)

/-- `dir_changed` (`update.rs`, lines 137–152); its callers compute the deltas
    in `i64`, from sizes that they cast. -/
def dirChanged (repo path : String) (countDelta bytesDelta : ℤ) : Async Unit :=
  Fallible.issue
    (Op.send (.dir repo (parentDir (normalizePath path)) (toI64 countDelta) (toI64 bytesDelta)))

/-- The deltas of a record that is written over another one, or over none, as
    every write path computes them (`delta` in `docker/src/promote.rs`). -/
def putDelta (newSize : ℕ) (oldSize : Option ℕ) : ℤ × ℤ :=
  match oldSize with
  | some old => (0, newSize - old)
  | none => (1, newSize)

/-- The update a write path sends for a record it has written. -/
def recordPut (repo path : String) (record : ArtifactRecord) (old : Option ArtifactRecord) :
    Async Unit :=
  let d := putDelta record.size (old.map ArtifactRecord.size)
  dirChanged repo path d.1 d.2

/-- The update a delete path sends for a record it has removed. -/
def recordRemoved (repo path : String) (old : ArtifactRecord) : Async Unit :=
  dirChanged repo path (-1) (-old.size)

/-- `store_changed` (`update.rs`, lines 124–133). -/
def storeChanged (store : String) (countDelta bytesDelta : ℤ) : Async Unit :=
  Fallible.issue (Op.send (.store store countDelta bytesDelta))

/-- `if cancel.is_cancelled() { return Err(..) }`. -/
def checkCancelled (msg : String) : Async Unit := do
  let cancelled : Bool ← Fallible.issue Op.poll
  if cancelled then throw (.internal msg)

/-! ## Rules for proofs -/

section Rules

variable {S J E G α β : Type} {sys : System Op R S J E} {rules : Rules Op S J E} {i : ℕ} {j : J}
variable {A : Contract S J G} {pre err : View S J G → Prop} {post : β → View S J G → Prop}

/-- After a panic nothing has to be shown. -/
theorem FTriple.orPanic (hstop : ∀ ok s, sys.exec i j .stop ok s = none) {a : Option α}
    {f : α → Async β} (h : ∀ b, a = some b → FTriple sys rules i j A pre (f b) post err) :
    FTriple sys rules i j A pre (orPanic a >>= f) post err := by
  cases a with
  | some b => exact h b rfl
  | none =>
    intro w hi hw u hu hiu ok s r _ hx
    rw [hstop] at hx
    cases hx

theorem FTriple.decode {as? : Value → Option α} {v : Value} {f : α → Async β}
    (hs : A.Stable err) (hne : ∀ w, A.inv w → pre w → err w)
    (h : ∀ a, as? v = some a → FTriple sys rules i j A pre (f a) post err) :
    FTriple sys rules i j A pre (decode as? v >>= f) post err := by
  unfold Depot.decode
  cases hv : as? v with
  | some a => exact h a hv
  | none => exact fun w hi hw => FTriple.throw (α := β) hs w hi (hne w hi hw)

end Rules

end Depot
