import Depot.Kv.Scans

/-!
# The sharded backend

`kv/redb/src/sharded_redb.rs` spreads the partitions over several databases by the hash of the
partition key. A request goes to the database of its partition; a batch is taken apart by shard,
and the answers are put back in the order of the keys.

**Deviation.** A single database and a sharded one answer alike, and as a client expects, only if
no partition key is another one followed by a zero byte and more (see `FlatKeys`).

Results:
* `serve_holds`: a request is answered by the shards as a client expects.
* `sharded_scans_agree`: both backends answer every sequence of requests as a client expects.
* `scan_leaks`: a scan that returns an entry of another partition.
-/

namespace Depot.Redb

open List
open Function (update update_apply update_of_ne update_self)

/-! ## Batches by shard -/

/-- `blake3::hash` and the number of databases, `scaling_factor`. -/
structure Sharding where
  blake3 : String → ℕ
  shards : ℕ
  shards_pos : 0 < shards

/-- The flags of a batch of deletions. -/
def OpResult.existed : OpResult → List Bool
  | .bools bs => bs
  | _ => []

/-- The state of all databases. -/
abbrev Shards := ℕ → Db

namespace Sharding

variable (s : Sharding)

/-- `shard_index` (lines 67–73); the mask is one less than the number of databases. -/
def shardIndex (pk : String) : ℕ := s.blake3 pk &&& (s.shards - 1)

theorem shardIndex_lt (pk : String) : s.shardIndex pk < s.shards := by
  have hle : s.shardIndex pk ≤ s.shards - 1 := Nat.and_le_right
  have hpos := s.shards_pos
  omega

/-- A request to one database. -/
def route (w : Shards) (i : ℕ) (r : Request) : Shards × Reply :=
  let x := (w i).serve r
  (update w i x.1, x.2)

def write (w : Shards) (i : ℕ) (table : String) (op : WriteOp (String × String)) :
    Shards × OpResult :=
  let x := (w i).write (op.map fun k => (table, flatKey k.1 k.2))
  (update w i x.1, x.2)

/-- `per_shard`: the keys of a shard with their places in the batch. -/
def perShard (keys : List (String × String)) (i : ℕ) : List ((String × String) × ℕ) :=
  keys.zipIdx.filter fun e => s.shardIndex e.1.1 = i

/-- `output[orig_idx] = *result` for the results of one shard. -/
def scatter (results : List Bool) (indices : List ℕ) (output : List Bool) : List Bool :=
  (results.zip indices).foldl (fun out p => out.set p.2 p.1) output

/-- One round of the loop of `delete_batch` (lines 175–187). -/
def deleteShard (table : String) (keys : List (String × String)) (acc : Shards × List Bool)
    (i : ℕ) : Shards × List Bool :=
  let entries := s.perShard keys i
  if entries.isEmpty then acc
  else
    let x := write acc.1 i table (.deleteBatch (entries.map Prod.fst))
    (x.1, scatter x.2.existed (entries.map Prod.snd) acc.2)

/-- One round of the loop of `put_batch` (lines 211–219). -/
def putShard (table : String) (entries : List ((String × String) × Bytes)) (w : Shards)
    (i : ℕ) : Shards :=
  let group := entries.filter fun e => s.shardIndex e.1.1 = i
  if group.isEmpty then w else (write w i table (.putBatch group)).1

/-- `delete_batch` (lines 153–190) and `put_batch` (lines 192–221), and the other writes. -/
def serveWrite (w : Shards) (table : String) : WriteOp (String × String) → Shards × OpResult
  | .deleteBatch [] => (w, .bools [])
  | .deleteBatch (first :: rest) =>
      let keys := first :: rest
      if keys.all fun k => s.shardIndex k.1 = s.shardIndex first.1 then
        write w (s.shardIndex first.1) table (.deleteBatch keys)
      else
        let x := (List.range s.shards).foldl (s.deleteShard table keys)
          (w, replicate keys.length false)
        (x.1, .bools x.2)
  | .putBatch [] => (w, .unit)
  | .putBatch (first :: rest) =>
      let entries := first :: rest
      if entries.all fun e => s.shardIndex e.1.1 = s.shardIndex first.1.1 then
        write w (s.shardIndex first.1.1) table (.putBatch entries)
      else ((List.range s.shards).foldl (s.putShard table entries) w, .unit)
  | .put key value => write w (s.shardIndex key.1) table (.put key value)
  | .putIfVersion key value expectedVersion =>
      write w (s.shardIndex key.1) table (.putIfVersion key value expectedVersion)
  | .delete key => write w (s.shardIndex key.1) table (.delete key)
  | .deleteReturning key => write w (s.shardIndex key.1) table (.deleteReturning key)
  | .deleteIfVersion key expectedVersion =>
      write w (s.shardIndex key.1) table (.deleteIfVersion key expectedVersion)

/-- The operations of `ShardedRedbKvStore`. -/
def serve (w : Shards) : Request → Shards × Reply
  | .write table op =>
      let x := s.serveWrite w table op
      (x.1, .written x.2)
  | .get table pk sk => route w (s.shardIndex pk) (.get table pk sk)
  | .getVersioned table pk sk => route w (s.shardIndex pk) (.getVersioned table pk sk)
  | .scanPrefix table pk skPrefix limit =>
      route w (s.shardIndex pk) (.scanPrefix table pk skPrefix limit)
  | .scanRange table pk skStart skEnd limit =>
      route w (s.shardIndex pk) (.scanRange table pk skStart skEnd limit)

end Sharding

/-! ## What batches do to contents -/

section

variable {K : Type} [DecidableEq K]

/-- Which keys a batch of deletions finds. -/
def existing (a : State K) : List K → List Bool
  | [] => []
  | k :: ks => (a k).isSome :: existing (update a k none) ks

@[simp] theorem length_existing (a : State K) (keys : List K) :
    (existing a keys).length = keys.length := by
  induction keys generalizing a with
  | nil => rfl
  | cons k ks ih => rw [existing, length_cons, ih, length_cons]

theorem deleteBatch_snd (a : State K) (keys : List K) (existed : List Bool) :
    (keys.foldl (fun (acc : State K × List Bool) key =>
      (update acc.1 key none, acc.2 ++ [(acc.1 key).isSome])) (a, existed)).2 =
      existed ++ existing a keys := by
  induction keys generalizing a existed with
  | nil => rw [existing, append_nil]; rfl
  | cons k ks ih => rw [foldl_cons, ih, existing, append_assoc, singleton_append]

theorem execute_deleteBatch (a : State K) (keys : List K) :
    (execute a (.deleteBatch keys)).2 = .bools (existing a keys) := by
  show OpResult.bools _ = _
  rw [deleteBatch_snd, nil_append]

theorem execute_deleteBatch_apply (a : State K) (keys : List K) (key : K) :
    (execute a (.deleteBatch keys)).1 key = if key ∈ keys then none else a key := by
  show (keys.foldl _ (a, [])).1 key = _
  rw [deleteBatch_fst, deleteKeys_apply]

variable {a b : State K}

/-- The flags depend on the keys of the batch alone. -/
theorem existing_congr {keys : List K} (h : ∀ k ∈ keys, a k = b k) :
    existing a keys = existing b keys := by
  induction keys generalizing a b with
  | nil => rfl
  | cons k ks ih =>
    rw [existing, existing, h k mem_cons_self]
    refine congrArg _ (ih fun k' hk' => ?_)
    rw [update_apply, update_apply, h k' (mem_cons_of_mem k hk')]

theorem existing_map {L : Type} [DecidableEq L] (a : State L) {f : K → L}
    (hf : Function.Injective f) (keys : List K) :
    existing a (keys.map f) = existing (fun k => a (f k)) keys := by
  induction keys generalizing a with
  | nil => rfl
  | cons k ks ih =>
    rw [map_cons, existing, existing, ih]
    refine congrArg _ (existing_congr fun k' _ => ?_)
    rw [update_apply, update_apply]
    simp only [hf.eq_iff]

/-- The flags of a part of a batch are those of the whole batch. -/
theorem existing_part (a : State K) (p : K → Bool) (keys : List K) (n : ℕ) :
    (existing a (((keys.zipIdx n).filter fun e => p e.1).map Prod.fst)).zip
        (((keys.zipIdx n).filter fun e => p e.1).map Prod.snd) =
      (((keys.zip (existing a keys)).zipIdx n).filter fun e => p e.1.1).map
        fun e => (e.1.2, e.2) := by
  induction keys generalizing a n with
  | nil => rfl
  | cons k ks ih =>
    rw [existing, zipIdx_cons, zip_cons_cons, zipIdx_cons, filter_cons, filter_cons]
    dsimp only
    by_cases hk : p k = true
    · rw [if_pos hk, if_pos hk, map_cons, map_cons, existing, zip_cons_cons, ih, map_cons]
    · rw [if_neg hk, if_neg hk, ← ih]
      refine congrArg₂ _ (existing_congr fun k' hk' => ?_) rfl
      obtain ⟨e, he, rfl⟩ := mem_map.mp hk'
      refine (update_of_ne ?_ _ _).symm
      rintro rfl
      exact hk (mem_filter.mp he).2

/-- A batch of puts changes a key as the part with this key does. -/
theorem putBatch_part (p : K → Bool) {k : K} (hk : p k = true) (h : a k = b k)
    (entries : List (K × Bytes)) : entries.foldl (fun acc e => putKey acc e.1 e.2) a k =
      (entries.filter fun e => p e.1).foldl (fun acc e => putKey acc e.1 e.2) b k := by
  induction entries generalizing a b with
  | nil => exact h
  | cons e entries ih =>
    rw [foldl_cons, filter_cons]
    by_cases he : p e.1 = true
    · rw [if_pos he, foldl_cons]
      refine ih ?_
      unfold putKey
      rw [update_apply, update_apply]
      split_ifs with heq
      · rw [← heq, h]
      · exact h
    · rw [if_neg he]
      refine ih ?_
      rw [putKey, update_of_ne, h]
      rintro rfl
      exact he hk

omit [DecidableEq K] in
theorem WriteOp.keys_map {L : Type} (f : K → L) (op : WriteOp K) :
    (op.map f).keys = op.keys.map f := by
  cases op with
  | putBatch entries =>
    show (entries.map _).map Prod.fst = (entries.map Prod.fst).map f
    rw [map_map, map_map]
    rfl
  | put key value => rfl
  | putIfVersion key value expectedVersion => rfl
  | delete key => rfl
  | deleteReturning key => rfl
  | deleteIfVersion key expectedVersion => rfl
  | deleteBatch keys => rfl

/-- An operation leaves the other keys. -/
theorem execute_other {op : WriteOp K} {key : K} (h : key ∉ op.keys) :
    (execute a op).1 key = a key := by
  cases op with
  | put k | delete k | deleteReturning k =>
    exact update_of_ne (by simpa [WriteOp.keys] using h) _ _
  | putIfVersion k | deleteIfVersion k =>
    simp only [execute]
    split_ifs
    · rfl
    · exact update_of_ne (by simpa [WriteOp.keys] using h) _ _
  | deleteBatch keys => exact (execute_deleteBatch_apply a keys key).trans (if_neg h)
  | putBatch entries =>
    refine (putBatch_part (fun k => decide (k = key)) (decide_eq_true rfl) rfl entries).trans ?_
    have hnone : entries.filter (fun e => decide (e.1 = key)) = [] := by
      refine filter_eq_nil_iff.mpr fun e he heq => h ?_
      rw [← of_decide_eq_true heq]
      exact mem_map_of_mem he
    rw [hnone]
    rfl

end

/-! ## Putting the answers back -/

theorem length_scatter (results : List Bool) (indices : List ℕ) (output : List Bool) :
    (Sharding.scatter results indices output).length = output.length := by
  unfold Sharding.scatter
  induction results.zip indices generalizing output with
  | nil => rfl
  | cons p ps ih => rw [foldl_cons, ih, length_set]

variable {flags output : List Bool}

/-- The results of a shard are put to their places. -/
theorem getElem?_foldl_set {ps : List (Bool × ℕ)} (h : ∀ p ∈ ps, flags[p.2]? = some p.1)
    (hlen : output.length = flags.length) (i : ℕ) :
    (ps.foldl (fun out p => out.set p.2 p.1) output)[i]? =
      if i ∈ ps.map Prod.snd then flags[i]? else output[i]? := by
  induction ps generalizing output with
  | nil => simp
  | cons p ps ih =>
    have hp := h p mem_cons_self
    obtain ⟨hlt, -⟩ := List.getElem?_eq_some_iff.mp hp
    rw [foldl_cons, ih (fun q hq => h q (mem_cons_of_mem p hq))
      (by rw [length_set, hlen]), map_cons]
    by_cases hmem : i ∈ ps.map Prod.snd
    · rw [if_pos hmem, if_pos (mem_cons_of_mem _ hmem)]
    · rw [if_neg hmem, getElem?_set]
      by_cases hi : p.2 = i
      · subst hi
        rw [if_pos rfl, if_pos (by omega), if_pos mem_cons_self, hp]
      · have hnot : i ∉ p.2 :: ps.map Prod.snd := by
          rw [mem_cons, not_or]
          exact ⟨Ne.symm hi, hmem⟩
        rw [if_neg hi, if_neg hnot]

/-! ## The databases together -/

theorem Holds.congr {known : String → String → Prop} {a b : Contents} {db : Db}
    (h : Holds known a db) (hab : ∀ table pk sk, known table pk → a (table, pk, sk) = b (table, pk, sk)) :
    Holds known b db :=
  ⟨fun table pk hk sk => (h.cells table pk hk sk).trans (hab table pk sk hk), h.keys⟩

namespace Sharding

variable (s : Sharding)

/-- The partitions of one database. -/
def Own (known : String → String → Prop) (i : ℕ) (table pk : String) : Prop :=
  known table pk ∧ s.shardIndex pk = i

/-- Every database holds its own partitions. -/
def HoldsAll (known : String → String → Prop) (a : Contents) (w : Shards) : Prop :=
  ∀ i, Holds (s.Own known i) a (w i)

variable {s} {known : String → String → Prop} {a : Contents} {w : Shards}

theorem own_apart (hap : AllApart known) (i : ℕ) : AllApart (s.Own known i) :=
  fun table pk pk' h h' => hap table pk pk' h.1 h'.1

theorem holdsAll_empty : s.HoldsAll known (fun _ => none) fun _ _ => .empty :=
  fun _ => Holds.empty

variable {table : String} {op : WriteOp (String × String)}

/-- A write whose keys belong to one shard. -/
theorem holdsAll_write (hap : AllApart known) (h : s.HoldsAll known a w) {i : ℕ}
    (hk : ∀ k ∈ op.keys, s.Own known i table k.1) :
    s.HoldsAll known (execute a (op.map fun k => (table, k))).1 (write w i table op).1 ∧
      (write w i table op).2 = (execute a (op.map fun k => (table, k))).2 := by
  obtain ⟨hheld, hreply⟩ := holds_write (own_apart hap i) (h i) hk
  refine ⟨fun j => ?_, hreply⟩
  show Holds _ _ (update w i _ j)
  by_cases hj : j = i
  · subst hj
    rw [update_self]
    exact hheld
  · rw [update_of_ne hj]
    refine (h j).congr fun table' pk sk hown => (execute_other fun hmem => hj ?_).symm
    obtain ⟨k, hkmem, heq⟩ : ∃ k ∈ op.keys, (table, k) = (table', pk, sk) := by
      rw [WriteOp.keys_map] at hmem
      exact mem_map.mp hmem
    obtain ⟨-, rfl⟩ := Prod.mk.inj heq
    rw [← hown.2, (hk _ hkmem).2]

/-- The contents as they are when the shards before `m` are done. -/
def Between (s : Sharding) (known : String → String → Prop) (a b : Contents) (m : ℕ)
    (w : Shards) : Prop :=
  ∀ i, Holds (s.Own known i) (if i < m then b else a) (w i)

theorem Between.first {b : Contents} (h : s.HoldsAll known a w) : Between s known a b 0 w := by
  intro i
  rw [if_neg (Nat.not_lt_zero i)]
  exact h i

theorem Between.last {b : Contents} (h : Between s known a b s.shards w) :
    s.HoldsAll known b w := by
  intro i
  refine (h i).congr fun table pk sk hown => ?_
  rw [if_pos (hown.2 ▸ s.shardIndex_lt pk)]

variable {m : ℕ}

/-- The round of a shard brings its contents to the end of the batch. -/
theorem Between.round {b : Contents} (h : Between s known a b m w) {w' : Shards}
    (hother : ∀ i, i ≠ m → w' i = w i) (hown : Holds (s.Own known m) a (w m) →
      Holds (s.Own known m) b (w' m)) : Between s known a b (m + 1) w' := by
  intro i
  by_cases hi : i = m
  · subst hi
    have hbefore := h i
    rw [if_neg (lt_irrefl i)] at hbefore
    rw [if_pos (Nat.lt_succ_self i)]
    exact hown hbefore
  · have hbefore := h i
    rw [hother i hi]
    by_cases hlt : i < m
    · rw [if_pos hlt] at hbefore
      rw [if_pos (by omega)]
      exact hbefore
    · rw [if_neg hlt] at hbefore
      rw [if_neg (by omega)]
      exact hbefore

theorem write_other {i : ℕ} (h : i ≠ m) : (write w m table op).1 i = w i :=
  update_of_ne h _ _

theorem write_own :
    (write w m table op).1 m = ((w m).write (op.map fun k => (table, flatKey k.1 k.2))).1 :=
  update_self _ _ _

variable {entries : List ((String × String) × Bytes)}

/-- One round of a batch of puts. -/
theorem between_putShard (hap : AllApart known)
    (hk : ∀ e ∈ entries, known table e.1.1) (h : Between s known a
      (execute a ((WriteOp.putBatch entries).map fun k => (table, k))).1 m w) :
    Between s known a (execute a ((WriteOp.putBatch entries).map fun k => (table, k))).1 (m + 1)
      (s.putShard table entries w m) := by
  have hpart : ∀ table' pk sk, s.Own known m table' pk →
      (execute a ((WriteOp.putBatch (entries.filter fun e => s.shardIndex e.1.1 = m)).map
        fun k => (table, k))).1 (table', pk, sk) =
      (execute a ((WriteOp.putBatch entries).map fun k => (table, k))).1 (table', pk, sk) := by
    intro table' pk sk hown
    have hcut := putBatch_part (fun k : String × String × String => decide (s.shardIndex k.2.1 = m))
      (a := a) (b := a) (k := (table', pk, sk)) (decide_eq_true hown.2) rfl
      (entries.map fun e => ((table, e.1), e.2))
    rw [filter_map] at hcut
    exact hcut.symm
  unfold putShard
  dsimp only
  split_ifs with hempty
  · refine h.round (fun _ _ => rfl) fun hheld => hheld.congr fun table' pk sk hown => ?_
    rw [← hpart table' pk sk hown, List.isEmpty_iff.mp hempty]
    rfl
  · refine h.round (fun i hi => write_other hi) fun hheld => ?_
    rw [write_own]
    refine (holds_write (own_apart hap m) hheld fun k hmem => ?_).1.congr hpart
    obtain ⟨e, he, rfl⟩ := mem_map.mp hmem
    obtain ⟨hentry, hshard⟩ := mem_filter.mp he
    exact ⟨hk e hentry, of_decide_eq_true hshard⟩

/-- The flags of the shards before `m` are in their places. -/
structure Filled (s : Sharding) (keys : List (String × String)) (flags : List Bool) (m : ℕ)
    (output : List Bool) : Prop where
  length : output.length = flags.length
  places : ∀ (i : ℕ) (k : String × String), keys[i]? = some k →
    output[i]? = if s.shardIndex k.1 < m then flags[i]? else some false

variable {keys : List (String × String)}

theorem Filled.first (hlen : flags.length = keys.length) :
    Filled s keys flags 0 (replicate keys.length false) := by
  refine ⟨by rw [length_replicate, hlen], fun i k hk => ?_⟩
  obtain ⟨hlt, -⟩ := List.getElem?_eq_some_iff.mp hk
  rw [if_neg (Nat.not_lt_zero _), getElem?_replicate, if_pos hlt]

theorem Filled.last {flags output : List Bool}
    (hlen : flags.length = keys.length) (h : Filled s keys flags s.shards output) :
    output = flags := by
  apply ext_getElem?
  intro i
  cases hk : keys[i]? with
  | some k => rw [h.places i k hk, if_pos (s.shardIndex_lt k.1)]
  | none =>
    have hle := List.getElem?_eq_none_iff.mp hk
    rw [getElem?_eq_none (by rw [h.length]; omega), getElem?_eq_none (by omega)]

/-- The keys of a shard in a batch. -/
theorem mem_perShard {e : (String × String) × ℕ} :
    e ∈ s.perShard keys m ↔ keys[e.2]? = some e.1 ∧ s.shardIndex e.1.1 = m := by
  rw [perShard, mem_filter, mem_zipIdx_iff_getElem?]
  simp

/-- The flags of a shard are scattered to their places. -/
theorem Filled.round {c : State (String × String)}
    (h : Filled s keys (existing c keys) m output) : Filled s keys (existing c keys) (m + 1)
      (scatter (existing c ((s.perShard keys m).map Prod.fst)) ((s.perShard keys m).map Prod.snd)
        output) := by
  have hpart : (existing c ((s.perShard keys m).map Prod.fst)).zip
      ((s.perShard keys m).map Prod.snd) = _ :=
    existing_part c (fun k : String × String => decide (s.shardIndex k.1 = m)) keys 0
  have hindices : ((existing c ((s.perShard keys m).map Prod.fst)).zip
      ((s.perShard keys m).map Prod.snd)).map Prod.snd = (s.perShard keys m).map Prod.snd :=
    map_snd_zip (by rw [length_existing, length_map, length_map])
  have hflags : ∀ p ∈ (existing c ((s.perShard keys m).map Prod.fst)).zip
      ((s.perShard keys m).map Prod.snd), (existing c keys)[p.2]? = some p.1 := by
    intro p hp
    rw [hpart] at hp
    obtain ⟨e, he, rfl⟩ := mem_map.mp hp
    have hget := mem_zipIdx_iff_getElem?.mp (mem_filter.mp he).1
    exact (getElem?_zip_eq_some.mp hget).2
  refine ⟨(length_scatter _ _ _).trans h.length, fun i k hk => ?_⟩
  unfold scatter
  rw [getElem?_foldl_set hflags h.length, hindices, h.places i k hk]
  have hmem : i ∈ (s.perShard keys m).map Prod.snd ↔ s.shardIndex k.1 = m := by
    rw [mem_map]
    constructor
    · rintro ⟨e, he, rfl⟩
      obtain ⟨hget, hshard⟩ := mem_perShard.mp he
      rw [hk] at hget
      obtain rfl := Option.some.inj hget
      exact hshard
    · intro hshard
      exact ⟨(k, i), mem_perShard.mpr ⟨hk, hshard⟩, rfl⟩
  by_cases hshard : s.shardIndex k.1 = m
  · rw [if_pos (hmem.mpr hshard), if_pos (by omega)]
  · rw [if_neg fun hi => hshard (hmem.mp hi)]
    by_cases hlt : s.shardIndex k.1 < m
    · rw [if_pos hlt, if_pos (by omega)]
    · rw [if_neg hlt, if_neg (by omega)]

variable (hap : AllApart known)

include hap

/-- One round of a batch of deletions. -/
theorem between_deleteShard (hk : ∀ k ∈ keys, known table k.1)
    {acc : Shards × List Bool} (h : Between s known a
      (execute a ((WriteOp.deleteBatch keys).map fun k => (table, k))).1 m acc.1)
    (hf : Filled s keys (existing (fun k => a (table, k)) keys) m acc.2) :
    Between s known a (execute a ((WriteOp.deleteBatch keys).map fun k => (table, k))).1 (m + 1)
        (s.deleteShard table keys acc m).1 ∧
      Filled s keys (existing (fun k => a (table, k)) keys) (m + 1)
        (s.deleteShard table keys acc m).2 := by
  have hpart : ∀ table' pk sk, s.Own known m table' pk →
      (execute a ((WriteOp.deleteBatch ((s.perShard keys m).map Prod.fst)).map
        fun k => (table, k))).1 (table', pk, sk) =
      (execute a ((WriteOp.deleteBatch keys).map fun k => (table, k))).1 (table', pk, sk) := by
    intro table' pk sk hown
    have hmem : (table', pk, sk) ∈ ((s.perShard keys m).map Prod.fst).map (fun k => (table, k)) ↔
        (table', pk, sk) ∈ keys.map fun k => (table, k) := by
      rw [mem_map, mem_map]
      constructor
      · rintro ⟨k, hmem, heq⟩
        obtain ⟨e, he, rfl⟩ := mem_map.mp hmem
        exact ⟨e.1, mem_of_getElem? (mem_perShard.mp he).1, heq⟩
      · rintro ⟨k, hmem, heq⟩
        obtain ⟨i, hi⟩ := mem_iff_getElem?.mp hmem
        obtain ⟨-, rfl⟩ := Prod.mk.inj heq
        exact ⟨_, mem_map.mpr ⟨((pk, sk), i), mem_perShard.mpr ⟨hi, hown.2⟩, rfl⟩, heq⟩
    have hshard := execute_deleteBatch_apply a
      (((s.perShard keys m).map Prod.fst).map fun k => (table, k)) (table', pk, sk)
    have hwhole := execute_deleteBatch_apply a (keys.map fun k => (table, k)) (table', pk, sk)
    by_cases hin : (table', pk, sk) ∈ keys.map fun k => (table, k)
    · exact (hshard.trans (if_pos (hmem.mpr hin))).trans (hwhole.trans (if_pos hin)).symm
    · exact (hshard.trans (if_neg fun h => hin (hmem.mp h))).trans (hwhole.trans (if_neg hin)).symm
  have hround := hf.round
  unfold deleteShard
  dsimp only
  split_ifs with hempty
  · rw [List.isEmpty_iff.mp hempty] at hround
    refine ⟨h.round (fun _ _ => rfl) fun hheld => hheld.congr fun table' pk sk hown => ?_, hround⟩
    rw [← hpart table' pk sk hown, List.isEmpty_iff.mp hempty]
    rfl
  · have hheld := h m
    rw [if_neg (lt_irrefl m)] at hheld
    have hshardKeys : ∀ k ∈ (WriteOp.deleteBatch ((s.perShard keys m).map Prod.fst)).keys,
        s.Own known m table k.1 := by
      intro k hmem
      obtain ⟨e, he, rfl⟩ := mem_map.mp hmem
      obtain ⟨hget, hshard⟩ := mem_perShard.mp he
      exact ⟨hk _ (mem_of_getElem? hget), hshard⟩
    obtain ⟨hheld', hreply⟩ := holds_write (own_apart hap m) hheld hshardKeys
    have hflags : (write acc.1 m table (.deleteBatch ((s.perShard keys m).map Prod.fst))).2 =
        .bools (existing (fun k => a (table, k)) ((s.perShard keys m).map Prod.fst)) := by
      refine hreply.trans ((execute_deleteBatch a _).trans ?_)
      rw [existing_map a fun k k' heq => (Prod.mk.inj heq).2]
    rw [hflags]
    refine ⟨h.round (fun i hi => write_other hi) fun _ => ?_, hround⟩
    rw [write_own]
    exact hheld'.congr hpart

theorem deleteRounds (h : s.HoldsAll known a w) (hk : ∀ k ∈ keys, known table k.1) (m : ℕ) :
    let acc := (List.range m).foldl (s.deleteShard table keys)
      (w, replicate keys.length false)
    Between s known a (execute a ((WriteOp.deleteBatch keys).map fun k => (table, k))).1 m acc.1 ∧
      Filled s keys (existing (fun k => a (table, k)) keys) m acc.2 := by
  induction m with
  | zero => exact ⟨Between.first h, Filled.first (length_existing _ keys)⟩
  | succ m ih =>
    rw [range_succ, List.foldl_append]
    exact between_deleteShard hap hk ih.1 ih.2

theorem putRounds (h : s.HoldsAll known a w) (hk : ∀ e ∈ entries, known table e.1.1) (m : ℕ) :
    Between s known a (execute a ((WriteOp.putBatch entries).map fun k => (table, k))).1 m
      ((List.range m).foldl (s.putShard table entries) w) := by
  induction m with
  | zero => exact Between.first h
  | succ m ih =>
    rw [range_succ, List.foldl_append]
    exact between_putShard hap hk ih

/-- A write to the shards does what a client expects. -/
theorem serveWrite_holds (h : s.HoldsAll known a w) (hk : ∀ k ∈ op.keys, known table k.1) :
    s.HoldsAll known (execute a (op.map fun k => (table, k))).1 (s.serveWrite w table op).1 ∧
      (s.serveWrite w table op).2 = (execute a (op.map fun k => (table, k))).2 := by
  have hone : ∀ key : String × String, known table key.1 →
      ∀ k ∈ [key], s.Own known (s.shardIndex key.1) table k.1 := by
    intro key hkey k hmem
    obtain rfl := mem_singleton.mp hmem
    exact ⟨hkey, rfl⟩
  cases op with
  | put key | putIfVersion key | delete key | deleteReturning key | deleteIfVersion key =>
    exact holdsAll_write hap h (hone key (hk key mem_cons_self))
  | deleteBatch keys =>
    cases keys with
    | nil => exact ⟨h, rfl⟩
    | cons first rest =>
      simp only [serveWrite]
      split_ifs with hsame
      · exact holdsAll_write hap h fun k hmem =>
          ⟨hk k hmem, of_decide_eq_true (all_eq_true.mp hsame k hmem)⟩
      · obtain ⟨hbetween, hfilled⟩ := deleteRounds (s := s) hap h (show ∀ k ∈ first :: rest, known table k.1 from hk) s.shards
        refine ⟨hbetween.last, ?_⟩
        have hflags := execute_deleteBatch a ((first :: rest).map fun k => (table, k))
        rw [existing_map a fun k k' heq => (Prod.mk.inj heq).2] at hflags
        rw [hfilled.last (length_existing _ _)]
        exact hflags.symm
  | putBatch entries =>
    have hkeys : ∀ e ∈ entries, known table e.1.1 :=
      fun e he => hk e.1 (mem_map_of_mem he)
    cases entries with
    | nil => exact ⟨h, rfl⟩
    | cons first rest =>
      simp only [serveWrite]
      split_ifs with hsame
      · refine holdsAll_write hap h fun k hmem => ⟨hk k hmem, ?_⟩
        obtain ⟨e, he, rfl⟩ := mem_map.mp hmem
        exact of_decide_eq_true (all_eq_true.mp hsame e he)
      · exact ⟨(putRounds hap h hkeys s.shards).last, rfl⟩

/-- A request that reads is answered by its shard. -/
theorem route_holds (h : s.HoldsAll known a w) {r : Request} {i : ℕ}
    (hk : ∀ part ∈ r.parts, s.Own known i part.1 part.2) (hread : ∀ db : Db, (db.serve r).1 = db) :
    s.HoldsAll known a (route w i r).1 ∧ a.Fits r (route w i r).2 := by
  refine ⟨?_, (serve_fits (own_apart hap i) (h i) hk).2⟩
  show s.HoldsAll known a (update w i ((w i).serve r).1)
  rw [hread, Function.update_eq_self]
  exact h

/-- A request is answered by the shards as a client expects. -/
theorem serve_holds (h : s.HoldsAll known a w) {r : Request}
    (hk : ∀ part ∈ r.parts, known part.1 part.2) :
    s.HoldsAll known (a.step r) (s.serve w r).1 ∧ a.Fits r (s.serve w r).2 := by
  have hone : ∀ table pk : String, known table pk →
      ∀ part ∈ [(table, pk)], s.Own known (s.shardIndex pk) part.1 part.2 := by
    intro table pk hkey part hmem
    obtain rfl := mem_singleton.mp hmem
    exact ⟨hkey, rfl⟩
  cases r with
  | get table pk sk =>
    exact route_holds hap h (hone table pk (hk _ mem_cons_self)) fun _ => rfl
  | getVersioned table pk sk =>
    exact route_holds hap h (hone table pk (hk _ mem_cons_self)) fun _ => rfl
  | write table op =>
    exact serveWrite_holds hap h fun k hmem => hk (table, k.1) (mem_map_of_mem hmem)
  | scanPrefix table pk skPrefix limit =>
    exact route_holds hap h (hone table pk (hk _ mem_cons_self)) fun _ => rfl
  | scanRange table pk skStart skEnd limit =>
    exact route_holds hap h (hone table pk (hk _ mem_cons_self)) fun _ => rfl

end Sharding

/-! ## Sequences of requests -/

/-- The replies to a sequence of requests. -/
def replies {σ : Type} (serve : σ → Request → σ × Reply) (state : σ) : List Request → List Reply
  | [] => []
  | r :: rs => (serve state r).2 :: replies serve (serve state r).1 rs

/-- Every reply is the one that a client expects. -/
def Contents.FitsAll (a : Contents) : List Request → List Reply → Prop
  | [], answers => answers = []
  | r :: rs, answers =>
      ∃ reply rest, answers = reply :: rest ∧ a.Fits r reply ∧ (a.step r).FitsAll rs rest

/-- The expected replies are unique. -/
theorem Contents.FitsAll.unique {a : Contents} {rs : List Request} {answers answers' : List Reply}
    (h : a.FitsAll rs answers) (h' : a.FitsAll rs answers') : answers = answers' := by
  induction rs generalizing a answers answers' with
  | nil => exact h.trans h'.symm
  | cons r rs ih =>
    obtain ⟨reply, rest, rfl, hfit, hrest⟩ := h
    obtain ⟨reply', rest', rfl, hfit', hrest'⟩ := h'
    rw [hfit.unique hfit', ih hrest hrest']

/-- An implementation that keeps a representation answers every sequence as expected. -/
theorem fitsAll_of_serve {σ : Type} {serve : σ → Request → σ × Reply}
    {Held : Contents → σ → Prop} {ok : Request → Prop}
    (hserve : ∀ a state r, ok r → Held a state →
      Held (a.step r) (serve state r).1 ∧ a.Fits r (serve state r).2)
    {a : Contents} {state : σ} (h : Held a state) {rs : List Request} (hok : ∀ r ∈ rs, ok r) :
    a.FitsAll rs (replies serve state rs) := by
  induction rs generalizing a state with
  | nil => rfl
  | cons r rs ih =>
    obtain ⟨hheld, hfit⟩ := hserve a state r (hok r mem_cons_self) h
    exact ⟨_, _, rfl, hfit, ih hheld fun r' hr' => hok r' (mem_cons_of_mem r hr')⟩

/-- The partitions that a sequence of requests names. -/
def Named (rs : List Request) (table pk : String) : Prop := ∃ r ∈ rs, (table, pk) ∈ r.parts

/-- **Main theorem.** If no partition key of a table is another one followed by a zero byte and
    more, then a single database and a sharded one both answer every sequence of requests as a
    client expects, and thus alike. -/
theorem sharded_scans_agree (s : Sharding) {rs : List Request} (hap : AllApart (Named rs)) :
    Contents.FitsAll (fun _ => none) rs (replies Db.serve (fun _ => .empty) rs) ∧
      replies s.serve (fun _ _ => .empty) rs = replies Db.serve (fun _ => .empty) rs := by
  have hnamed : ∀ r ∈ rs, ∀ part ∈ r.parts, Named rs part.1 part.2 :=
    fun r hr part hpart => ⟨r, hr, hpart⟩
  have hsingle : Contents.FitsAll (fun _ => none) rs (replies Db.serve (fun _ => .empty) rs) := by
    have hempty : Holds (Named rs) (fun _ => none) fun _ => .empty := Holds.empty
    refine fitsAll_of_serve (fun a db r hok hheld => ?_) hempty hnamed
    exact serve_fits hap hheld hok
  have hshards : Contents.FitsAll (fun _ => none) rs (replies s.serve (fun _ _ => .empty) rs) := by
    have hempty : s.HoldsAll (Named rs) (fun _ => none) fun _ _ => .empty :=
      Sharding.holdsAll_empty
    refine fitsAll_of_serve (fun a w r hok hheld => ?_) hempty hnamed
    exact Sharding.serve_holds hap hheld hok
  exact ⟨hsingle, hshards.unique hsingle⟩

/-- Two databases, with the hashes of two partition keys. -/
def twoShards : Sharding where
  blake3 pk := if pk = "a/7" then 2647590735269213326 else 15365796103419519155
  shards := 2
  shards_pos := by decide

/-- Entries in both databases, a scan, and a batch of deletions over both. -/
def mixed : List Request :=
  [.write "artifacts" (.putBatch [(("a/7", "x"), [1]), (("b/3", "y"), [2]), (("a/7", "z"), [3])]),
    .scanRange "artifacts" "a/7" "" none 1,
    .write "artifacts" (.deleteBatch [("b/3", "x"), ("a/7", "x"), ("b/3", "y")])]

/-- The replies of both backends to this sequence. -/
theorem sharded_scans_agree_mixed :
    replies Db.serve (fun _ => .empty) mixed =
        [.written .unit, .scanned [("x", [1])] false, .written (.bools [false, true, true])] ∧
      Contents.FitsAll (fun _ => none) mixed (replies Db.serve (fun _ => .empty) mixed) ∧
      replies twoShards.serve (fun _ _ => .empty) mixed =
        replies Db.serve (fun _ => .empty) mixed := by
  refine ⟨by decide +kernel, @sharded_scans_agree twoShards mixed ?_⟩
  have hfree : ∀ part ∈ mixed.flatMap Request.parts, 0 ∉ utf8 part.2 := by decide +kernel
  rintro table pk pk' ⟨r, hr, hpart⟩ ⟨r', hr', hpart'⟩
  exact apart_of_zero_free (hfree _ (mem_flatMap.mpr ⟨r, hr, hpart⟩))
    (hfree _ (mem_flatMap.mpr ⟨r', hr', hpart'⟩))

/-! ## A zero byte in a partition key -/

/-- An entry of the partition `a/7\0b/3`, and a scan of the partition `a/7`. -/
def leak : List Request :=
  [.write "artifacts" (.put ("a/7\x00b/3", "c") [1]), .scanPrefix "artifacts" "a/7" "" 10]

/-- **Counterexample.** The scan returns an entry of another partition. -/
theorem scan_leaks :
    replies Db.serve (fun _ => .empty) leak = [.written .unit, .scanned [("b/3\x00c", [1])] true] ∧
      ¬Contents.FitsAll (fun _ => none) leak (replies Db.serve (fun _ => .empty) leak) := by
  have hreplies : replies Db.serve (fun _ => .empty) leak =
      [.written .unit, .scanned [("b/3\x00c", [1])] true] := by decide +kernel
  refine ⟨hreplies, ?_⟩
  rw [hreplies]
  rintro ⟨_, _, heq, -, _, _, heq', hfit, -⟩
  obtain ⟨rfl, rfl⟩ := List.cons.inj heq
  obtain ⟨rfl, rfl⟩ := List.cons.inj heq'
  obtain ⟨all, -, hmem, hitems, -⟩ := hfit
  have hin : ("b/3\x00c", [1]) ∈ all.take 10 := by
    rw [← hitems]
    exact mem_cons_self
  obtain ⟨hcontent, -⟩ := (hmem _ _).mp (mem_of_mem_take hin)
  cases hcontent

end Depot.Redb
