import Depot.Core.Keys
import Depot.Core.Settings
import Depot.Lib.SortedMap
import Depot.Lib.Task
import Depot.Lib.Versioned
import Mathlib.Data.Prod.Lex
import Mathlib.Data.Nat.Bitwise

/-!
# The shared state and its atomic operations

What the tasks of a server share: the clock, the key-value store, the blob
stores, the collector's candidate map and the channel of statistics updates,
with the operations that take effect at one instant. An operation of a store
can fail; it then has no effect.

Results:
* `World.cell_setCell`, `World.file_setFile`: what a write does to each key and
  to each file.
-/

namespace Depot

open Lib
open Function (update update_of_ne update_self)

/-! ## The world outside the repository -/

/-- A byte string. -/
abbrev Bytes := List UInt8

/-- Functions of other crates. -/
structure Ext where
  /-- `keys::shard_of`: two bytes of a BLAKE3 hash, modulo `NUM_SHARDS`. -/
  shardOf : String → ℕ
  shardOf_lt : ∀ sk, shardOf sk < numShards
  /-- `Uuid::new_v4`: the identifiers in the order they are drawn. -/
  uuid : ℕ → String
  uuid_inj : Function.Injective uuid
  /-- The hexadecimal BLAKE3 and SHA-256 hashes. -/
  blake3 : Bytes → String
  sha256 : Bytes → String
  /-- The top-level directory (a hexadecimal byte) under which a blob is kept. -/
  fileShard : BlobId → ℕ
  fileShard_lt : ∀ b, fileShard b < 256
  /-- The bit positions of a Bloom filter for an item, by its capacity and its
      random seed. -/
  bloomBits : ℕ → ℕ → String → List ℕ

/-- Functions that can be evaluated: hashes that spell out their input. -/
def Ext.sample : Ext where
  shardOf sk := sk.length % numShards
  shardOf_lt _ := Nat.mod_lt _ (by decide)
  uuid n := String.ofList (List.replicate n 'u')
  uuid_inj m n h := by simpa using congrArg (fun s => s.toList.length) h
  blake3 data := String.ofList (data.map fun b => Char.ofNat (b.toNat + 0x100))
  sha256 data := String.ofList (data.map fun b => Char.ofNat (b.toNat + 0x200))
  fileShard b := b.length % 256
  fileShard_lt _ := Nat.mod_lt _ (by decide)
  bloomBits _ _ item := [item.toList.foldl (fun h c => (h * 31 + c.toNat) % 1000003) 7]

/-! ## Bloom filters -/

/-- A Bloom filter: its parameters and its bitmap. -/
structure Bloom where
  items : ℕ
  seed : ℕ
  bits : ℕ
  deriving DecidableEq

/-- `Bloom::set`. -/
def Bloom.set (x : Ext) (f : Bloom) (item : String) : Bloom :=
  { f with bits := (x.bloomBits f.items f.seed item).foldl (fun bits i => bits ||| 2 ^ i) f.bits }

/-- `Bloom::check`. -/
def Bloom.check (x : Ext) (f : Bloom) (item : String) : Bool :=
  (x.bloomBits f.items f.seed item).all fun i => f.bits.testBit i

/-! ## The collector's state -/

/-- `GcState`: the pass counter, and for each orphan candidate (store and blob)
    the pass that saw it first. -/
structure GcState where
  orphanCandidates : SortedMap (String ×ₗ BlobId) ℕ := SortedMap.empty
  pass : ℕ := 0

def candidateKey (store : String) (blobId : BlobId) : String ×ₗ BlobId := toLex (store, blobId)

/-- What the consumer of the orphan walk decides about a file. -/
inductive Verdict where
  | delete | grace | capped | recorded
  deriving DecidableEq

/-- One step of the consumer (`gc_pass.rs` lines 727–777). -/
def GcState.judge (g : GcState) (currentPass maxOrphanCandidates : ℕ) (store : String)
    (blobId : BlobId) : GcState × Verdict :=
  match g.orphanCandidates.get (candidateKey store blobId) with
  | some firstSeenPass =>
      if 1 ≤ currentPass - firstSeenPass then
        ({ g with orphanCandidates := g.orphanCandidates.erase (candidateKey store blobId) },
          .delete)
      else (g, .grace)
  | none =>
      if maxOrphanCandidates ≤ g.orphanCandidates.entries.length then (g, .capped)
      else
        ({ g with orphanCandidates :=
            g.orphanCandidates.insert (candidateKey store blobId) currentPass }, .recorded)

/-- `orphan_candidates.retain(|(_s, blob_id), _| !combined.check(blob_id))`. -/
def GcState.prune (x : Ext) (g : GcState) (combined : Bloom) : GcState :=
  { g with orphanCandidates :=
      g.orphanCandidates.restrict fun k => !combined.check x (ofLex k).2 }

/-! ## The state -/

/-- A blob file: the file behind the path and its content. -/
structure BlobFile where
  inode : ℕ
  content : Bytes
  deriving DecidableEq

/-- `DirDelta` and `StoreDelta`: the statistics updates sent to the worker that
    maintains the counters. -/
inductive Delta where
  | dir (repo dirPath : String) (countDelta bytesDelta : ℤ)
  | store (store : String) (countDelta bytesDelta : ℤ)
  deriving DecidableEq

/-- The shared state: the clock, the number of identifiers drawn so far, the
    key-value store, the registered blob stores and their files, the collector
    state of each instance with its lock, and the updates sent. -/
structure World where
  now : DateTime
  drawn : ℕ := 0
  kv : Part → SortedMap String (Versioned Value) := fun _ => SortedMap.empty
  stores : List String := []
  files : String → SortedMap BlobId BlobFile := fun _ => SortedMap.empty
  gc : String → GcState := fun _ => {}
  locked : String → Bool := fun _ => false
  deltas : List Delta := []

namespace World

variable (w : World)

/-- The value and version at a key. -/
def cell (k : Key) : Option (Versioned Value) := (w.kv k.part).get k.sk

/-- The value at a key. -/
def value (k : Key) : Option Value := (w.cell k).map Versioned.value

/-- Set or remove the value at a key. -/
def setCell (k : Key) (c : Option (Versioned Value)) : World :=
  { w with kv := update w.kv k.part ((w.kv k.part).assign k.sk c) }

/-- The file of a blob in a store. -/
def file (store : String) (blobId : BlobId) : Option BlobFile := (w.files store).get blobId

/-- Set or remove the file of a blob. -/
def setFile (store : String) (blobId : BlobId) (f : Option BlobFile) : World :=
  { w with files := update w.files store ((w.files store).assign blobId f) }

/-- Replace the collector state of an instance. -/
def setGc (inst : String) (g : GcState) : World :=
  { w with gc := update w.gc inst g }

variable {w}

@[simp] theorem setCell_now (k : Key) (c) : (w.setCell k c).now = w.now := rfl

/-- A write changes its own key only. -/
theorem cell_setCell (k k' : Key) (c : Option (Versioned Value)) :
    (w.setCell k c).cell k' = if k' = k then c else w.cell k' := by
  obtain ⟨part, sk⟩ := k
  obtain ⟨part', sk'⟩ := k'
  simp only [cell, setCell, Key.mk.injEq]
  by_cases hp : part' = part
  · subst hp
    rw [update_self, SortedMap.get_assign]
    simp
  · rw [update_of_ne hp]
    simp [hp]

@[simp] theorem cell_setCell_self (k : Key) (c : Option (Versioned Value)) :
    (w.setCell k c).cell k = c := by rw [cell_setCell, if_pos rfl]

theorem cell_setCell_of_ne {k k' : Key} (h : k' ≠ k) (c : Option (Versioned Value)) :
    (w.setCell k c).cell k' = w.cell k' := by rw [cell_setCell, if_neg h]

@[simp] theorem cell_setCell_same (k k' : Key) : (w.setCell k (w.cell k)).cell k' = w.cell k' := by
  rw [cell_setCell]
  split_ifs with h
  · rw [h]
  · rfl

theorem file_setFile (s s' : String) (b b' : BlobId) (f : Option BlobFile) :
    (w.setFile s b f).file s' b' = if s' = s ∧ b' = b then f else w.file s' b' := by
  simp only [file, setFile]
  by_cases hs : s' = s
  · subst hs
    rw [update_self, SortedMap.get_assign]
    simp
  · rw [update_of_ne hs]
    simp [hs]

end World

/-! ## Operations -/

/-- Operations on the files of one blob store. -/
inductive BlobOp where
  | put (blobId : BlobId) (data : Bytes)
  | read (blobId : BlobId)
  | delete (blobId : BlobId)
  | createWriter (blobId : BlobId)
  | writeAt (blobId : BlobId) (inode offset : ℕ) (data : Bytes)
  | scan (shard : ℕ)

/-- Operations on the collector state of one instance. -/
inductive GcOp where
  | lock
  | unlock
  | beginPass
  | prune (combined : Bloom)
  | judge (currentPass maxOrphanCandidates : ℕ) (store : String) (blobId : BlobId)
  | reset

/-- The atomic operations. `stop` is a task that makes no further progress: it
    panicked, or it went round a loop more often than the model follows. `poll`
    looks at the cancellation token of a background task. -/
inductive Op where
  | stop
  | poll
  | now
  | uuid
  | seed
  | read (k : Key)
  | write (k : Key) (c : CellOp Value)
  | scan (part : Part) (start : String) (stop : Option String) (limit : ℕ)
  | store (name : String)
  | blob (store : String) (o : BlobOp)
  | gc (inst : String) (o : GcOp)
  | send (d : Delta)

/-- Replies of the blob operations. -/
def BlobOp.Reply : BlobOp → Type
  | .put .. => Unit
  | .read _ => Option Bytes
  | .delete _ => Unit
  | .createWriter _ => ℕ
  | .writeAt .. => Unit
  | .scan _ => List (BlobId × ℕ)

/-- Replies of the collector operations. -/
def GcOp.Reply : GcOp → Type
  | .beginPass => ℕ
  | .judge .. => Verdict
  | _ => Unit

/-- Replies; where the outer `Option` is `none`, the store has failed. A write
    tells whether it went through and what was there before. -/
def R : Op → Type
  | .stop => Empty
  | .poll => Bool
  | .now => DateTime
  | .uuid => String
  | .seed => ℕ
  | .read _ => Option (Option (Versioned Value))
  | .write .. => Option (Bool × Option Value)
  | .scan .. => Option (List (String × Value) × Bool)
  | .store _ => Bool
  | .blob _ o => Option o.Reply
  | .gc _ o => o.Reply
  | .send _ => Unit

namespace World

/-- Overwrite `content` from `offset` on, filling a gap with zeros. -/
def overwrite (content : Bytes) (offset : ℕ) (data : Bytes) : Bytes :=
  content.take offset ++ List.replicate (offset - content.length) 0 ++ data ++
    content.drop (offset + data.length)

/-- A blob operation that succeeds. Creating a file over an existing path
    truncates the file behind it; data written to a file whose path has been
    removed since is never seen. -/
def execBlob (x : Ext) (w : World) (store : String) : (o : BlobOp) → World × o.Reply
  | .put blobId data =>
      match w.file store blobId with
      | some f => (w.setFile store blobId (some { f with content := data }), ())
      | none =>
          ({ (w.setFile store blobId (some ⟨w.drawn, data⟩)) with drawn := w.drawn + 1 }, ())
  | .read blobId => (w, (w.file store blobId).map BlobFile.content)
  | .delete blobId => (w.setFile store blobId none, ())
  | .createWriter blobId =>
      match w.file store blobId with
      | some f => (w.setFile store blobId (some { f with content := [] }), f.inode)
      | none =>
          ({ (w.setFile store blobId (some ⟨w.drawn, []⟩)) with drawn := w.drawn + 1 }, w.drawn)
  | .writeAt blobId inode offset data =>
      match w.file store blobId with
      | some f =>
          if f.inode = inode then
            (w.setFile store blobId (some { f with content := overwrite f.content offset data }),
              ())
          else (w, ())
      | none => (w, ())
  | .scan shard =>
      (w, ((w.files store).entries.filter fun e => x.fileShard e.1 = shard).map fun e =>
        (e.1, e.2.content.length))

/-- A collector operation. -/
def execGc (x : Ext) (w : World) (inst : String) : (o : GcOp) → Option (World × o.Reply)
  | .lock =>
      if w.locked inst then none
      else some ({ w with locked := update w.locked inst true }, ())
  | .unlock => some ({ w with locked := update w.locked inst false }, ())
  | .beginPass =>
      some (w.setGc inst { (w.gc inst) with pass := (w.gc inst).pass + 1 }, (w.gc inst).pass + 1)
  | .prune combined => some (w.setGc inst ((w.gc inst).prune x combined), ())
  | .judge currentPass maxOrphanCandidates store blobId =>
      let r := (w.gc inst).judge currentPass maxOrphanCandidates store blobId
      some (w.setGc inst r.1, r.2)
  | .reset => some (w.setGc inst {}, ())

/-- What an operation does; `ok` says whether the stores let it succeed, and
    for `poll` that the task has not been cancelled. -/
def exec (x : Ext) (o : Op) (ok : Bool) (w : World) : Option (World × R o) :=
  match o with
  | .stop => none
  | .poll => some (w, !ok)
  | .now => some (w, w.now)
  | .uuid => some ({ w with drawn := w.drawn + 1 }, x.uuid w.drawn)
  | .seed => some ({ w with drawn := w.drawn + 1 }, w.drawn)
  | .read k => some (w, if ok then some (w.cell k) else none)
  | .write k c =>
      some (if ok then (w.setCell k (c.apply (w.cell k)),
          some (c.enabled (w.cell k), w.value k))
        else (w, none))
  | .scan part start stop limit =>
      let page := (w.kv part).page start stop limit
      some (w, if ok then some (page.1.map fun e => (e.1, e.2.value), page.2) else none)
  | .store name => some (w, decide (name ∈ w.stores))
  | .blob store o =>
      some (if ok then ((execBlob x w store o).1, some (execBlob x w store o).2) else (w, none))
  | .gc inst o => execGc x w inst o
  | .send d => some ({ w with deltas := w.deltas ++ [d] }, ())

theorem execBlob_now (x : Ext) (w : World) (store : String) (o : BlobOp) :
    (execBlob x w store o).1.now = w.now := by
  cases o <;> simp only [execBlob] <;> (repeat' split) <;> rfl

theorem execGc_now {x : Ext} {w w' : World} {inst : String} {o : GcOp} {r : o.Reply}
    (h : execGc x w inst o = some (w', r)) : w'.now = w.now := by
  cases o <;> simp only [execGc] at h <;> (try split at h) <;> cases h <;> rfl

/-- No operation moves the clock. -/
theorem exec_now {x : Ext} {o : Op} {ok : Bool} {w w' : World} {r : R o}
    (h : exec x o ok w = some (w', r)) : w'.now = w.now := by
  cases o with
  | stop => cases h
  | gc inst o => exact execGc_now h
  | blob store o =>
    cases ok <;> cases h
    · rfl
    · exact execBlob_now x w store o
  | write k c => cases ok <;> cases h <;> rfl
  | _ => cases h; rfl

end World

end Depot
