import Depot.Core.Effects

/-!
# Blob records

Each store maps the hash of a content to the blob that holds it
(`core/src/service/blob.rs`), so that a content is stored once.

Results:
* `effects_putDedupRecord` and siblings: what the functions may change.
-/

namespace Depot

open Lib

section

variable (x : Ext)

/-- `put_dedup_record` (lines 42–71): `none` when the record was created, else
    the blob of the record that exists. -/
def putDedupRecord (store : String) (record : BlobRecord) : Async (Option BlobId) := do
  let rec_ := { record with store := store }
  let key := blobKey x.shardOf store rec_.hash
  if ← kvPutIfAbsent key (.blob rec_) then pure none
  else
    match ← typedGet Value.blob? key with
    | some existing => pure (some existing.blobId)
    | none => do
        -- the record was deleted between the two operations
        kvPut key (.blob rec_)
        pure none

/-- What follows the claim in `claim_or_reuse_blob`: drop the duplicate. -/
def reuseBlob (store : String) (record : BlobRecord) : Option BlobId → Async BlobId
  | some existing =>
      if existing ≠ record.blobId then do
        Fallible.ignore (blobDelete store record.blobId)
        pure existing
      else pure record.blobId
  | none => pure record.blobId

/-- `put_dedup_record_counted` (lines 139–150). -/
def putDedupRecordCounted (store : String) (record : BlobRecord) : Async (Option BlobId) := do
  let existing ← putDedupRecord x store record
  if existing.isNone then storeChanged store 1 record.size
  pure existing

/-- `claim_or_reuse_blob_counted` (lines 161–183). -/
def claimOrReuseBlobCounted (store : String) (record : BlobRecord) : Async BlobId := do
  let existing ← putDedupRecordCounted x store record
  reuseBlob store record existing

/-! ## What the functions may change -/

variable {x} {es : List Effect}

theorem effects_putDedupRecord (h : Effect.table .blobs ∈ es) (store : String)
    (record : BlobRecord) : Effects es (putDedupRecord x store record) := by
  refine (effects_kvPutIfAbsent h _).bind fun written => ?_
  cases written with
  | true => exact effects_pure _
  | false =>
    refine (effects_typedGet _ _).bind fun r => ?_
    cases r with
    | some existing => exact effects_pure _
    | none => exact (effects_kvPut h _).bind fun _ => effects_pure _

theorem effects_reuseBlob (h : Effect.files ∈ es) (store : String) (record : BlobRecord)
    (existing : Option BlobId) : Effects es (reuseBlob store record existing) := by
  cases existing with
  | none => exact effects_pure _
  | some b =>
    by_cases hb : b ≠ record.blobId
    · rw [reuseBlob, if_pos hb]
      exact (effects_blobDelete h _ _).ignore.bind fun _ => effects_pure _
    · rw [reuseBlob, if_neg hb]
      exact effects_pure _

theorem effects_putDedupRecordCounted (h : Effect.table .blobs ∈ es)
    (hs : Effect.storeStats ∈ es) (store : String) (record : BlobRecord) :
    Effects es (putDedupRecordCounted x store record) := by
  refine (effects_putDedupRecord h store record).bind fun existing => ?_
  cases existing with
  | none => exact (effects_storeChanged hs _ _ _).bind fun _ => effects_pure _
  | some b => exact effects_pure _

theorem effects_claimOrReuseBlobCounted (h : Effect.table .blobs ∈ es)
    (hs : Effect.storeStats ∈ es) (hf : Effect.files ∈ es) (store : String)
    (record : BlobRecord) : Effects es (claimOrReuseBlobCounted x store record) :=
  (effects_putDedupRecordCounted h hs store record).bind fun existing =>
    effects_reuseBlob hf store record existing

end

end Depot
