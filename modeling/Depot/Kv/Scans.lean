import Depot.Kv.FlatKeys
import Depot.Kv.Redb
import Depot.Lib.SortedMap

/-!
# The embedded backend over flat keys

Every table of the embedded backend is one ordered map from flat keys to envelopes
(`kv/redb/src/redb_kv.rs`, lines 540–816). What a client expects is a map from tables, partition
keys and sort keys, in which a scan returns the entries of one partition in an interval.

Results:
* `scanLoop_eq`: the loop of a scan is a page of its range.
* `holds_write`: writes keep the representation and return what a client expects.
* `serve_fits`: every request is answered as a client expects, if the partition keys lie apart.
-/

namespace Depot.Redb

open Lib List
open SortedMap (mem_entries_iff mem_range)

/-! ## The database -/

/-- The tables of a database. -/
abbrev Db := String → SortedMap (List UInt8) Bytes

namespace Db

variable (db : Db)

/-- The bytes at a key. -/
def read (k : String × List UInt8) : Option Bytes := (db k.1).get k.2

/-- `t.insert` and `t.remove`. -/
def assign (k : String × List UInt8) (v : Option Bytes) : Db :=
  Function.update db k.1 ((db k.1).assign k.2 v)

/-- The write of `Put` (lines 264–284). -/
def put (k : String × List UInt8) (value : Bytes) : Db :=
  let currentVersion := ((db.read k).map readVersion).getD 0
  db.assign k (some (wrapEnvelope (currentVersion + 1) value))

/-- One operation inside a transaction (lines 263–412). -/
def write : WriteOp (String × List UInt8) → Db × OpResult
  | .put key value => (db.put key value, .unit)
  | .putIfVersion key value expectedVersion =>
      if !versionMatches expectedVersion ((db.read key).map readVersion) then (db, .bool false)
      else (db.assign key (some (wrapEnvelope (expectedVersion.getD 0 + 1) value)), .bool true)
  | .delete key => (db.assign key none, .bool (db.read key).isSome)
  | .deleteReturning key =>
      (db.assign key none, .optBytes ((db.read key).map fun raw => (unwrapEnvelope raw).1))
  | .deleteIfVersion key expectedVersion =>
      if (db.read key).map readVersion ≠ some expectedVersion then (db, .bool false)
      else (db.assign key none, .bool (db.read key).isSome)
  | .deleteBatch keys =>
      let (db', existed) := keys.foldl (fun (acc : Db × List Bool) key =>
        (acc.1.assign key none, acc.2 ++ [(acc.1.read key).isSome])) (db, [])
      (db', .bools existed)
  | .putBatch entries => (entries.foldl (fun acc e => acc.put e.1 e.2) db, .unit)

@[simp] theorem read_assign (k k' : String × List UInt8) (v : Option Bytes) :
    (db.assign k v).read k' = if k' = k then v else db.read k' := by
  obtain ⟨t, f⟩ := k
  obtain ⟨t', f'⟩ := k'
  unfold read assign
  by_cases ht : t' = t
  · subst ht
    rw [Function.update_self, SortedMap.get_assign]
    simp
  · rw [Function.update_of_ne ht]
    simp [ht]

end Db

/-! ## Requests -/

namespace WriteOp

variable {K L : Type}

/-- The operation on other keys. -/
def map (f : K → L) : WriteOp K → WriteOp L
  | .put key value => .put (f key) value
  | .putIfVersion key value expectedVersion => .putIfVersion (f key) value expectedVersion
  | .delete key => .delete (f key)
  | .deleteReturning key => .deleteReturning (f key)
  | .deleteIfVersion key expectedVersion => .deleteIfVersion (f key) expectedVersion
  | .deleteBatch keys => .deleteBatch (keys.map f)
  | .putBatch entries => .putBatch (entries.map fun e => (f e.1, e.2))

/-- The keys that the operation names. -/
def keys : WriteOp K → List K
  | .put key _ => [key]
  | .putIfVersion key _ _ => [key]
  | .delete key => [key]
  | .deleteReturning key => [key]
  | .deleteIfVersion key _ => [key]
  | .deleteBatch keys => keys
  | .putBatch entries => entries.map Prod.fst

end WriteOp

/-- The requests of a client; a key of a write is a partition key and a sort key. -/
inductive Request where
  | get (table pk sk : String)
  | getVersioned (table pk sk : String)
  | write (table : String) (op : WriteOp (String × String))
  | scanPrefix (table pk skPrefix : String) (limit : ℕ)
  | scanRange (table pk skStart : String) (skEnd : Option String) (limit : ℕ)

/-- The replies; `scanned` is `ScanResult`. -/
inductive Reply where
  | value (v : Option Bytes)
  | versioned (v : Option (Bytes × UInt64))
  | written (r : OpResult)
  | scanned (items : List (String × Bytes)) (done : Bool)
  deriving DecidableEq

/-- What a request names: the table and the partition keys. -/
def Request.parts : Request → List (String × String)
  | .get table pk _ => [(table, pk)]
  | .getVersioned table pk _ => [(table, pk)]
  | .write table op => op.keys.map fun k => (table, k.1)
  | .scanPrefix table pk _ _ => [(table, pk)]
  | .scanRange table pk _ _ _ => [(table, pk)]

/-- The payload of a stored value. -/
def payload (raw : Bytes) : Bytes := (unwrapEnvelope raw).1

/-- The loop of a scan over the entries of its range (lines 751–767 and 797–806); `accept` is the
    check of `scan_prefix`. -/
def scanLoop (accept : List UInt8 → Bool) (prefixLen limit : ℕ) :
    List (List UInt8 × Bytes) → List (String × Bytes) → List (String × Bytes) × Bool
  | [], results => (results, true)
  | e :: rest, results =>
      if limit ≤ results.length then (results, false)
      else if !accept e.1 then (results, true)
      else scanLoop accept prefixLen limit rest
        (results ++ [(extractSk e.1 prefixLen, payload e.2)])

/-- The operations of `RedbKvStore`. -/
def Db.serve (db : Db) : Request → Db × Reply
  | .get table pk sk => (db, .value ((db.read (table, flatKey pk sk)).map payload))
  | .getVersioned table pk sk =>
      (db, .versioned ((db.read (table, flatKey pk sk)).map unwrapEnvelope))
  | .write table op =>
      let r := db.write (op.map fun k => (table, flatKey k.1 k.2))
      (r.1, .written r.2)
  | .scanPrefix table pk skPrefix limit =>
      let p := partitionPrefix pk ++ utf8 skPrefix
      let r := scanLoop p.isPrefixOf (partitionPrefix pk).length limit
        ((db table).range p (prefixRangeEnd p)) []
      (db, .scanned r.1 r.2)
  | .scanRange table pk skStart skEnd limit =>
      let stop := match skEnd with
        | some e => some (flatKey pk e)
        | none => prefixRangeEnd (partitionPrefix pk)
      let r := scanLoop (fun _ => true) (partitionPrefix pk).length limit
        ((db table).range (flatKey pk skStart) stop) []
      (db, .scanned r.1 r.2)

/-! ## What a client expects -/

/-- The stored bytes by table, partition key and sort key. -/
abbrev Contents := State (String × String × String)

/-- A scan of a partition: the entries within an interval of sort keys in ascending order, cut at
    the limit, and whether there are no more. -/
def ScanOf (content : String → Option Bytes) (within : String → Prop) (limit : ℕ)
    (items : List (String × Bytes)) (done : Bool) : Prop :=
  ∃ all : List (String × Bytes), all.Pairwise (fun a b => utf8 a.1 < utf8 b.1) ∧
    (∀ sk v, (sk, v) ∈ all ↔ content sk = some v ∧ within sk) ∧
    items = all.take limit ∧ done = decide (all.length ≤ limit)

namespace Contents

variable (a : Contents)

/-- The contents after a request. -/
def step : Request → Contents
  | .write table op => (execute a (op.map fun k => (table, k))).1
  | _ => a

/-- The reply is the one that is expected. -/
def Fits : Request → Reply → Prop
  | .get table pk sk, .value v => v = (a (table, pk, sk)).map payload
  | .getVersioned table pk sk, .versioned v => v = (a (table, pk, sk)).map unwrapEnvelope
  | .write table op, .written r => r = (execute a (op.map fun k => (table, k))).2
  | .scanPrefix table pk skPrefix limit, .scanned items done =>
      ScanOf (fun sk => (a (table, pk, sk)).map payload) (fun sk => utf8 skPrefix <+: utf8 sk) limit
        items done
  | .scanRange table pk skStart skEnd limit, .scanned items done =>
      ScanOf (fun sk => (a (table, pk, sk)).map payload)
        (fun sk => utf8 skStart ≤ utf8 sk ∧ ∀ e ∈ skEnd, utf8 sk < utf8 e) limit items done
  | _, _ => False

end Contents

/-- A database holds the contents of some partitions and nothing else. -/
structure Holds (known : String → String → Prop) (a : Contents) (db : Db) : Prop where
  cells : ∀ table pk, known table pk → ∀ sk, db.read (table, flatKey pk sk) = a (table, pk, sk)
  keys : ∀ table flat v, db.read (table, flat) = some v →
    ∃ pk sk, known table pk ∧ flat = flatKey pk sk

/-- Partition keys of one table lie apart. -/
def AllApart (known : String → String → Prop) : Prop :=
  ∀ table pk pk', known table pk → known table pk' → Apart pk pk'

/-! ## Writes -/

section

variable {known : String → String → Prop} {a : Contents} {db : Db}

theorem Holds.empty : Holds known (fun _ => none) fun _ => .empty := by
  refine ⟨fun _ _ _ _ => rfl, fun table flat v h => ?_⟩
  cases h

theorem Holds.assign (hap : AllApart known) (h : Holds known a db) {table pk : String}
    (hk : known table pk) (sk : String) (v : Option Bytes) :
    Holds known (Function.update a (table, pk, sk) v) (db.assign (table, flatKey pk sk) v) := by
  refine ⟨fun table' pk' hk' sk' => ?_, fun table' flat v' hv' => ?_⟩
  · rw [Db.read_assign, Function.update_apply, h.cells _ _ hk']
    refine if_congr ?_ rfl rfl
    simp only [Prod.mk.injEq]
    constructor
    · rintro ⟨rfl, hflat⟩
      obtain ⟨rfl, rfl⟩ := flatKey_inj_of_apart (hap _ _ _ hk' hk) hflat
      exact ⟨rfl, rfl, rfl⟩
    · rintro ⟨rfl, rfl, rfl⟩
      exact ⟨rfl, rfl⟩
  · rw [Db.read_assign] at hv'
    split_ifs at hv' with heq
    · obtain ⟨rfl, rfl⟩ := Prod.mk.inj heq
      exact ⟨pk, sk, hk, rfl⟩
    · exact h.keys _ _ _ hv'

theorem Holds.put (hap : AllApart known) (h : Holds known a db) {table pk : String}
    (hk : known table pk) (sk : String) (value : Bytes) :
    Holds known (putKey a (table, pk, sk) value) (db.put (table, flatKey pk sk) value) := by
  unfold putKey Db.put
  rw [h.cells _ _ hk]
  exact h.assign hap hk sk _

theorem Holds.putBatch (hap : AllApart known) {table : String}
    {entries : List ((String × String) × Bytes)} (h : Holds known a db)
    (hk : ∀ e ∈ entries, known table e.1.1) :
    Holds known ((entries.map fun e => ((table, e.1), e.2)).foldl
        (fun acc e => putKey acc e.1 e.2) a)
      ((entries.map fun e => ((table, flatKey e.1.1 e.1.2), e.2)).foldl
        (fun acc e => acc.put e.1 e.2) db) := by
  induction entries generalizing a db with
  | nil => exact h
  | cons e entries ih =>
    exact ih (h.put hap (hk e mem_cons_self) e.1.2 e.2) fun e' he' =>
      hk e' (mem_cons_of_mem e he')

theorem Holds.deleteBatch (hap : AllApart known) {table : String} {keys : List (String × String)}
    (h : Holds known a db) (hk : ∀ k ∈ keys, known table k.1) (existed : List Bool) :
    let r := (keys.map fun k => (table, flatKey k.1 k.2)).foldl
      (fun (acc : Db × List Bool) key =>
        (acc.1.assign key none, acc.2 ++ [(acc.1.read key).isSome])) (db, existed)
    let r' := (keys.map fun k => (table, k)).foldl
      (fun (acc : Contents × List Bool) key =>
        (Function.update acc.1 key none, acc.2 ++ [(acc.1 key).isSome])) (a, existed)
    Holds known r'.1 r.1 ∧ r.2 = r'.2 := by
  induction keys generalizing a db existed with
  | nil => exact ⟨h, rfl⟩
  | cons k keys ih =>
    have hread := h.cells table k.1 (hk k mem_cons_self) k.2
    have hnext := ih (h.assign hap (hk k mem_cons_self) k.2 none)
      (fun k' hk' => hk k' (mem_cons_of_mem k hk')) (existed ++ [(a (table, k)).isSome])
    simp only [map_cons, foldl_cons, hread]
    exact hnext

/-- A write keeps the representation and returns what is expected. -/
theorem holds_write (hap : AllApart known) (h : Holds known a db) {table : String}
    {op : WriteOp (String × String)} (hk : ∀ k ∈ op.keys, known table k.1) :
    Holds known (execute a (op.map fun k => (table, k))).1
        (db.write (op.map fun k => (table, flatKey k.1 k.2))).1 ∧
      (db.write (op.map fun k => (table, flatKey k.1 k.2))).2 =
        (execute a (op.map fun k => (table, k))).2 := by
  cases op with
  | put key value => exact ⟨h.put hap (hk key mem_cons_self) _ _, rfl⟩
  | delete key | deleteReturning key =>
    have hread := h.cells table key.1 (hk key mem_cons_self) key.2
    simp only [WriteOp.map, Db.write, execute, hread]
    exact ⟨h.assign hap (hk key mem_cons_self) _ _, trivial⟩
  | putIfVersion key | deleteIfVersion key =>
    have hread := h.cells table key.1 (hk key mem_cons_self) key.2
    simp only [WriteOp.map, Db.write, execute, hread]
    split_ifs
    · exact ⟨h, rfl⟩
    · exact ⟨h.assign hap (hk key mem_cons_self) _ _, rfl⟩
  | deleteBatch keys =>
    obtain ⟨hheld, hexisted⟩ := h.deleteBatch hap hk []
    exact ⟨hheld, congrArg OpResult.bools hexisted⟩
  | putBatch entries =>
    exact ⟨h.putBatch hap fun e he => hk e.1 (mem_map_of_mem he), rfl⟩

/-! ## Scans -/

/-- The loop of a scan cuts the range at the limit. -/
theorem scanLoop_eq {accept : List UInt8 → Bool} {prefixLen limit : ℕ}
    {es : List (List UInt8 × Bytes)} (hall : ∀ e ∈ es, accept e.1 = true)
    {results : List (String × Bytes)} (hle : results.length ≤ limit) :
    scanLoop accept prefixLen limit es results =
      (results ++ (es.take (limit - results.length)).map fun e =>
        (extractSk e.1 prefixLen, payload e.2),
        decide (es.length ≤ limit - results.length)) := by
  induction es generalizing results with
  | nil => simp [scanLoop]
  | cons e es ih =>
    unfold scanLoop
    by_cases hfull : limit ≤ results.length
    · have hzero : limit - results.length = 0 := by omega
      rw [if_pos hfull, hzero]
      simp
    · obtain ⟨room, hroom⟩ : ∃ room, limit - results.length = room + 1 :=
        ⟨limit - results.length - 1, by omega⟩
      have hlen : (results ++ [(extractSk e.1 prefixLen, payload e.2)]).length =
          results.length + 1 := by simp
      have hrest : limit - (results.length + 1) = room := by omega
      rw [if_neg hfull, if_neg (by simp [hall e mem_cons_self]),
        ih (fun e' he' => hall e' (mem_cons_of_mem e he')) (by omega), hlen, hrest, hroom]
      simp

theorem flatKey_lt_iff {pk sk sk' : String} : flatKey pk sk < flatKey pk sk' ↔ utf8 sk < utf8 sk' := by
  rw [← not_le, ← not_le, flatKey_eq, flatKey_eq, append_le_append_iff]

variable {table pk : String}

section

variable (hap : AllApart known) (h : Holds known a db)

include hap h

/-- A range of flat keys that stays within a partition is a scan of the partition. -/
theorem scanOf_range (hk : known table pk) {start : List UInt8} {stop : Option (List UInt8)}
    {within : String → Prop} (limit : ℕ)
    (hrange : ∀ flat, start ≤ flat → (∀ e ∈ stop, flat < e) → partitionPrefix pk <+: flat)
    (hwithin : ∀ sk, (start ≤ flatKey pk sk ∧ ∀ e ∈ stop, flatKey pk sk < e) ↔ within sk) :
    ScanOf (fun sk => (a (table, pk, sk)).map payload) within limit
      ((((db table).range start stop).take limit).map fun e =>
        (extractSk e.1 (partitionPrefix pk).length, payload e.2))
      (decide (((db table).range start stop).length ≤ limit)) := by
  have hflat : ∀ e ∈ (db table).range start stop, ∃ sk, e.1 = flatKey pk sk := by
    intro e he
    obtain ⟨hmem, hstart, hstop⟩ := mem_range.mp he
    obtain ⟨pk', sk, hk', heq⟩ := h.keys table e.1 e.2 (mem_entries_iff.mp hmem)
    have hpk := hrange e.1 hstart hstop
    rw [heq] at hpk
    obtain rfl := eq_of_partitionPrefix (hap _ _ _ hk hk') hpk
    exact ⟨sk, heq⟩
  refine ⟨((db table).range start stop).map fun e =>
    (extractSk e.1 (partitionPrefix pk).length, payload e.2), ?_, ?_, ?_, ?_⟩
  · rw [pairwise_map]
    refine ((db table).range_sorted start stop).imp_of_mem fun {e e'} he he' hlt => ?_
    obtain ⟨sk, hsk⟩ := hflat e he
    obtain ⟨sk', hsk'⟩ := hflat e' he'
    rw [hsk, hsk'] at hlt ⊢
    rw [extractSk_flatKey, extractSk_flatKey]
    exact flatKey_lt_iff.mp hlt
  · intro sk v
    dsimp only
    rw [← hwithin, mem_map, ← h.cells _ _ hk]
    constructor
    · rintro ⟨e, he, heq⟩
      obtain ⟨sk', hsk'⟩ := hflat e he
      obtain ⟨hmem, hstart, hstop⟩ := mem_range.mp he
      rw [hsk', extractSk_flatKey] at heq
      obtain ⟨rfl, rfl⟩ := Prod.mk.inj heq
      rw [hsk'] at hstart hstop
      refine ⟨?_, hstart, hstop⟩
      have hget : db.read (table, flatKey pk sk') = some e.2 := by
        rw [← hsk']
        exact mem_entries_iff.mp hmem
      rw [hget]
      rfl
    · rintro ⟨hv, hstart, hstop⟩
      obtain ⟨raw, hraw, rfl⟩ := Option.map_eq_some_iff.mp hv
      refine ⟨(flatKey pk sk, raw), mem_range.mpr ⟨mem_entries_iff.mpr hraw, hstart, hstop⟩, ?_⟩
      rw [extractSk_flatKey]
  · rw [map_take]
  · rw [length_map]

theorem fits_scanPrefix (hk : known table pk) (skPrefix : String) (limit : ℕ) :
    a.Fits (.scanPrefix table pk skPrefix limit)
      (db.serve (.scanPrefix table pk skPrefix limit)).2 := by
  obtain ⟨stop, hstop⟩ := prefixRangeEnd_append (utf8 skPrefix) (prefixRangeEnd_partition pk)
  have hbetween : ∀ flat, (partitionPrefix pk ++ utf8 skPrefix ≤ flat ∧ ∀ e ∈ some stop, flat < e) ↔
      partitionPrefix pk ++ utf8 skPrefix <+: flat := by
    intro flat
    rw [← between_iff hstop]
    simp
  have hall : ∀ e ∈ (db table).range (partitionPrefix pk ++ utf8 skPrefix) (some stop),
      (partitionPrefix pk ++ utf8 skPrefix).isPrefixOf e.1 = true := by
    intro e he
    obtain ⟨-, hrange⟩ := mem_range.mp he
    exact isPrefixOf_iff_prefix.mpr ((hbetween e.1).mp hrange)
  show ScanOf _ _ limit (scanLoop _ _ limit _ []).1 (scanLoop _ _ limit _ []).2
  rw [hstop, scanLoop_eq hall (Nat.zero_le limit)]
  refine scanOf_range hap h hk limit (fun flat hstart hlt => ?_) fun sk => ?_
  · exact (prefix_append _ _).trans ((hbetween flat).mp ⟨hstart, hlt⟩)
  · rw [hbetween, flatKey_eq, prefix_append_right_inj]

theorem fits_scanRange
    (hk : known table pk) (skStart : String) (skEnd : Option String) (limit : ℕ) :
    a.Fits (.scanRange table pk skStart skEnd limit)
      (db.serve (.scanRange table pk skStart skEnd limit)).2 := by
  have hown : ∀ sk, partitionPrefix pk <+: flatKey pk sk := by
    intro sk
    rw [flatKey_eq]
    exact prefix_append _ _
  have hfrom : ∀ sk, partitionPrefix pk ≤ flatKey pk sk := by
    intro sk
    rw [flatKey_eq]
    exact le_append _ _
  have hle : ∀ sk, flatKey pk skStart ≤ flatKey pk sk ↔ utf8 skStart ≤ utf8 sk := by
    intro sk
    rw [flatKey_eq, flatKey_eq, append_le_append_iff]
  show ScanOf _ _ limit (scanLoop _ _ limit _ []).1 (scanLoop _ _ limit _ []).2
  cases skEnd with
  | some e =>
    rw [scanLoop_eq (fun _ _ => rfl) (Nat.zero_le limit)]
    refine scanOf_range hap h hk limit (fun flat hstart hlt => ?_) fun sk => ?_
    · exact prefix_of_between ((hfrom skStart).trans hstart) (hlt _ rfl).le (hown e)
    · rw [hle]
      simp [flatKey_lt_iff]
  | none =>
    obtain ⟨stop, hstop⟩ := prefixRangeEnd_partition pk
    dsimp only
    rw [hstop, scanLoop_eq (fun _ _ => rfl) (Nat.zero_le limit)]
    refine scanOf_range hap h hk limit (fun flat hstart hlt => ?_) fun sk => ?_
    · exact (between_iff hstop).mp ⟨(hfrom skStart).trans hstart, hlt _ rfl⟩
    · have hlt := ((between_iff hstop).mpr (hown sk)).2
      rw [hle]
      simp [hlt]

/-- A request is answered as a client expects, and the representation is kept. -/
theorem serve_fits {r : Request} (hk : ∀ part ∈ r.parts, known part.1 part.2) :
    Holds known (a.step r) (db.serve r).1 ∧ a.Fits r (db.serve r).2 := by
  cases r with
  | get table pk sk =>
    refine ⟨h, ?_⟩
    show Option.map payload _ = Option.map payload _
    rw [h.cells _ _ (hk _ mem_cons_self)]
  | getVersioned table pk sk =>
    refine ⟨h, ?_⟩
    show Option.map unwrapEnvelope _ = Option.map unwrapEnvelope _
    rw [h.cells _ _ (hk _ mem_cons_self)]
  | write table op =>
    exact holds_write hap h fun k hmem => hk (table, k.1) (mem_map_of_mem hmem)
  | scanPrefix table pk skPrefix limit =>
    exact ⟨h, fits_scanPrefix hap h (hk _ mem_cons_self) skPrefix limit⟩
  | scanRange table pk skStart skEnd limit =>
    exact ⟨h, fits_scanRange hap h (hk _ mem_cons_self) skStart skEnd limit⟩

end

/-- The expected reply is unique. -/
theorem Contents.Fits.unique {r : Request} {reply reply' : Reply} (h : a.Fits r reply)
    (h' : a.Fits r reply') : reply = reply' := by
  have hscan : ∀ {content : String → Option Bytes} {within : String → Prop} {limit : ℕ}
      {items items' : List (String × Bytes)} {done done' : Bool},
      ScanOf content within limit items done → ScanOf content within limit items' done' →
      Reply.scanned items done = .scanned items' done' := by
    rintro content within limit items items' done done' ⟨all, hsorted, hmem, rfl, rfl⟩
      ⟨all', hsorted', hmem', rfl, rfl⟩
    have : Std.Irrefl fun a b : String × Bytes => utf8 a.1 < utf8 b.1 :=
      ⟨fun a => lt_irrefl (utf8 a.1)⟩
    have : Std.Antisymm fun a b : String × Bytes => utf8 a.1 < utf8 b.1 :=
      ⟨fun a b h h' => absurd h' h.asymm⟩
    have heq : all = all' := List.Pairwise.eq_of_mem_iff hsorted hsorted' fun {e} =>
      (hmem e.1 e.2).trans (hmem' e.1 e.2).symm
    rw [heq]
  cases r <;> cases reply <;> first | exact h.elim | skip
  all_goals cases reply' <;> first | exact h'.elim | skip
  all_goals first | exact hscan h h' | exact congrArg _ (h.trans h'.symm)

end

end Depot.Redb
