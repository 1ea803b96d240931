import Depot.Core.Async

/-!
# What functions may change

Each operation changes one kind of state at most: a table of the key-value
store, the blob files, the collector's state or the statistics. `Effects es p`
bounds what the function `p` may change; proofs about a system use it for the
functions whose details do not matter to them.

Results:
* `effects_kvGet` and its siblings: the functions of the stores.
-/

namespace Depot

open Lib
open Fallible (Uses attempt)

/-- What an operation may change. -/
inductive Effect where
  | none
  | table (t : Table)
  | files
  | gc
  | dirStats
  | storeStats
  deriving DecidableEq

/-- What an operation may change. -/
def Op.effect : Op → Effect
  | .write k _ => .table k.part.table
  | .blob _ (.read _) => .none
  | .blob _ (.scan _) => .none
  | .blob _ _ => .files
  | .gc _ _ => .gc
  | .send (.dir ..) => .dirStats
  | .send (.store ..) => .storeStats
  | _ => .none

/-- An operation that changes nothing outside `es`. -/
def Within (es : List Effect) (o : Op) : Prop := o.effect = .none ∨ o.effect ∈ es

/-- A function that changes nothing outside `es`. -/
def Effects (es : List Effect) {α : Type} (p : Async α) : Prop := Uses (Within es) p

variable {es : List Effect} {α β σ : Type}

/-! ## The constructs -/

variable {p : Async α}

theorem Effects.bind {f : α → Async β} (hp : Effects es p)
    (hf : ∀ a, Effects es (f a)) : Effects es (p >>= f) := Uses.bind hp hf

theorem Effects.map {f : α → β} (hp : Effects es p) : Effects es (f <$> p) := by
  refine Task.Uses.bind hp fun r => ?_
  cases r with
  | ok a => trivial
  | error e => trivial

theorem effects_pure (a : α) : Effects es (pure a : Async α) := Fallible.uses_pure a

theorem effects_throw (e : DepotError) : Effects es (throw e : Async α) := Fallible.uses_throw e

theorem effects_check (e : DepotError) : Effects es (Fallible.check e : Async Unit) :=
  Fallible.uses_check e

theorem Effects.capture (hp : Effects es p) : Effects es (Fallible.capture p) :=
  Uses.capture hp

theorem Effects.ignore (hp : Effects es p) : Effects es (Fallible.ignore p) :=
  Uses.ignore hp

variable {xs : List β}

theorem Effects.fold {f : σ → β → Async σ} {s : σ}
    (h : ∀ s, ∀ x ∈ xs, Effects es (f s x)) : Effects es (Fallible.fold f xs s) :=
  Uses.fold h

theorem Effects.each {f : β → Async Unit} (h : ∀ x ∈ xs, Effects es (f x)) :
    Effects es (Fallible.each f xs) :=
  Uses.each h

theorem Effects.join {f : β → Async α} (h : ∀ x ∈ xs, Effects es (f x)) :
    Effects es (Fallible.join (xs.map f)) := by
  refine Uses.join fun p hp => ?_
  obtain ⟨x, hx, rfl⟩ := List.mem_map.mp hp
  exact h x hx

/-- A conditional before the rest of a function. -/
theorem Effects.when {c : Prop} [Decidable c] {p : Async PUnit} {f : PUnit → Async β}
    (hp : Effects es p) (hf : ∀ u, Effects es (f u)) :
    Effects es (if c then p >>= f else f ⟨⟩) := by
  split_ifs
  · exact hp.bind hf
  · exact hf _

theorem effects_issue {o : Op} (h : Within es o) :
    Effects es (Fallible.issue o : Async (R o)) := Fallible.uses_issue h

theorem effects_attempt {o : Op} {f : R o → Option α} (h : Within es o) :
    Effects es (attempt .storage o f) := Fallible.uses_attempt h

/-! ## The functions of the stores -/

theorem effects_orPanic (a : Option α) : Effects es (orPanic a) := by
  cases a with
  | some a => exact effects_pure a
  | none => exact (effects_issue (.inl rfl)).bind fun e => nomatch e

theorem effects_utcNow : Effects es utcNow := effects_issue (.inl rfl)

theorem effects_newUuid : Effects es newUuid := effects_issue (.inl rfl)

theorem effects_kvGet (k : Key) : Effects es (kvGet k) := effects_attempt (.inl rfl)

theorem effects_kvGetVersioned (k : Key) : Effects es (kvGetVersioned k) :=
  effects_attempt (.inl rfl)

theorem effects_kvScanRange (part : Part) (start : String) (stop : Option String) (limit : ℕ) :
    Effects es (kvScanRange part start stop limit) := effects_attempt (.inl rfl)

section

variable {k : Key} (h : Effect.table k.part.table ∈ es)
include h

theorem effects_kvPut (v : Value) : Effects es (kvPut k v) := effects_attempt (.inr h)

theorem effects_kvPutIfVersion (v : Value) (e : Option ℕ) : Effects es (kvPutIfVersion k v e) :=
  effects_attempt (.inr h)

theorem effects_kvPutIfAbsent (v : Value) : Effects es (kvPutIfAbsent k v) :=
  effects_attempt (.inr h)

theorem effects_kvDelete : Effects es (kvDelete k) := effects_attempt (.inr h)

end

theorem effects_kvDeleteBatch {ks : List Key} (h : ∀ k ∈ ks, Effect.table k.part.table ∈ es) :
    Effects es (kvDeleteBatch ks) :=
  Effects.fold fun _ k hk => (effects_kvDelete (h k hk)).bind fun _ => effects_pure _

theorem effects_decode (as? : Value → Option α) (v : Value) : Effects es (decode as? v) := by
  unfold decode
  split
  · exact effects_pure _
  · exact effects_throw _

theorem effects_typedGet (as? : Value → Option α) (k : Key) : Effects es (typedGet as? k) := by
  refine (effects_kvGet k).bind fun c => ?_
  cases c with
  | some v => exact (effects_decode as? v).map
  | none => exact effects_pure _

theorem effects_typedGetVersioned (as? : Value → Option α) (k : Key) :
    Effects es (typedGetVersioned as? k) := by
  refine (effects_kvGetVersioned k).bind fun c => ?_
  cases c with
  | some c => exact (effects_decode as? c.value).bind fun _ => effects_pure _
  | none => exact effects_pure _

theorem effects_typedList (as? : Value → Option α) (part : Part) (limit : ℕ) :
    Effects es (typedList as? part limit) := by
  refine (effects_kvScanRange part _ _ limit).bind fun result => Effects.fold fun _ e _ => ?_
  exact (effects_decode as? e.2).bind fun _ => effects_pure _

theorem effects_blobRead (store : String) (b : BlobId) : Effects es (blobRead store b) :=
  effects_attempt (.inl rfl)

theorem effects_storesGet (name : String) : Effects es (storesGet name) := effects_issue (.inl rfl)

theorem effects_finishWriter : Effects es finishWriter := effects_check _

theorem effects_checkCancelled (msg : String) : Effects es (checkCancelled msg) := by
  refine (effects_issue (.inl rfl)).bind fun (cancelled : Bool) => ?_
  cases cancelled with
  | true => exact effects_throw _
  | false => exact effects_pure _

section

variable (h : Effect.files ∈ es)
include h

section

variable (store : String) (b : BlobId)

theorem effects_blobPut (data : Bytes) :
    Effects es (blobPut store b data) := effects_attempt (.inr h)

theorem effects_blobDelete : Effects es (blobDelete store b) :=
  effects_attempt (.inr h)

theorem effects_createWriter : Effects es (createWriter store b) :=
  effects_attempt (.inr h)

theorem effects_writeChunk (inode offset : ℕ) (data : Bytes) :
    Effects es (writeChunk store b inode offset data) := effects_attempt (.inr h)

theorem effects_abortWriter : Effects es (abortWriter store b) :=
  (effects_blobDelete h store b).ignore

end

theorem effects_writeBody (e : DepotError) {onError : Async Unit} (hone : Effects es onError)
    (store : String) (b : BlobId) (inode : ℕ) (body : List Bytes) (data : Bytes) :
    Effects es (writeBody e onError store b inode body data) := by
  induction body generalizing data with
  | nil => exact effects_pure _
  | cons chunk body ih =>
    have hstep : Effects es (do
        Fallible.check e
        if chunk = [] then pure () else writeChunk store b inode data.length chunk) := by
      refine (effects_check e).bind fun _ => ?_
      split_ifs
      · exact effects_pure _
      · exact effects_writeChunk h store b inode _ chunk
    refine hstep.capture.bind fun r => ?_
    cases r with
    | ok _ => exact ih _
    | error _ => exact hone.bind fun _ => effects_throw _

end

theorem effects_dirChanged (h : Effect.dirStats ∈ es) (repo path : String) (c b : ℤ) :
    Effects es (dirChanged repo path c b) := effects_issue (.inr h)

theorem effects_storeChanged (h : Effect.storeStats ∈ es) (store : String) (c b : ℤ) :
    Effects es (storeChanged store c b) := effects_issue (.inr h)

end Depot
