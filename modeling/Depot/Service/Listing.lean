import Depot.Service.Pagination

/-!
# Listing and searching artifacts

The pages of a repository's artifacts (`core/src/service/artifact.rs`, lines
261–432).

Results:
* `collectArtifacts_eq`: the batches of all shards together are the artifacts of
  the repository.
* `fetchPage_eq`: a page is a window of the naive listing.
* `pages_exact`: following the cursors from the first page gives the naive
  listing, page by page, and then stops.
* `pages_of_changes`: what a client gets while the repository changes.
-/

namespace Depot

open Lib List

/-! ## The functions -/

/-- What is asked for: `MergeOp` in `core/src/repo/proxy.rs`. -/
inductive MergeOp where
  | list (skPrefix : String)
  | search (query : String)

section

variable (t : Text) (w : World)

/-- The streams over the shards of a repository. -/
def artifactStreams (repo skPrefix scanStart : String) (filter : Option String)
    (batchSize : ℕ) : List ShardStream :=
  (List.range numShards).map fun shard =>
    ShardStream.new (artifactShardPk repo shard) skPrefix scanStart filter batchSize

/-- The end of `list_artifacts` and of `search_artifacts`. -/
def mergePage (streams : List ShardStream) (cursorPath : Option String)
    (pagination : Pagination) : Except DepotError (PaginatedResult (String × ArtifactRecord)) :=
  let skip := if cursorPath.isSome then 0 else pagination.offset
  (kWayMerge t w Value.artifact? streams cursorPath skip pagination.limit).map fun items =>
    paginateResults t items pagination.limit

/-- Where `list_artifacts` starts to read a shard (lines 273–276). -/
def listStart (skPrefix : String) (cursorPath : Option String) : String :=
  match cursorPath with
  | some cp => if skPrefix < cp then cp else skPrefix
  | none => skPrefix

/-- `list_artifacts` (lines 261–298); `perShard` is `per_shard_batch`. -/
def listArtifacts (perShard : ℕ → ℕ) (repo skPrefix : String) (pagination : Pagination) :
    Except DepotError (PaginatedResult (String × ArtifactRecord)) :=
  let cursorPath := decodeCursor t pagination.cursor
  mergePage t w (artifactStreams repo skPrefix (listStart skPrefix cursorPath) none
    (perShard pagination.limit)) cursorPath pagination

/-- `search_artifacts` (lines 301–345). -/
def searchArtifacts (perShard : ℕ → ℕ) (repo query : String) (pagination : Pagination) :
    Except DepotError (PaginatedResult (String × ArtifactRecord)) :=
  let queryLower := t.toLowercase query
  let cursorPath := decodeCursor t pagination.cursor
  let start := cursorPath.getD ""
  mergePage t w (artifactStreams repo "" start (some queryLower) (perShard pagination.limit))
    cursorPath pagination

/-- The page of a listing or of a search. -/
def MergeOp.fetchPage (op : MergeOp) (perShard : ℕ → ℕ) (repo : String)
    (pagination : Pagination) : Except DepotError (PaginatedResult (String × ArtifactRecord)) :=
  match op with
  | .list skPrefix => listArtifacts t w perShard repo skPrefix pagination
  | .search query => searchArtifacts t w perShard repo query pagination

/-- The callback of `fold_all_artifacts` (lines 415–419). -/
def foldCallback {σ : Type} (fold : σ → String → ArtifactRecord → Except DepotError σ)
    (state : σ) (sk : String) (v : Value) : Except DepotError (σ × Bool) :=
  match v.artifact? with
  | some record => (fold state sk record).map fun state => (state, true)
  | none => .error (.storage false)

/-- `fold_all_artifacts` (lines 388–432); the shards are merged in their order. -/
def foldAllArtifacts {σ : Type} (repo skPrefix : String) (init : σ)
    (fold : σ → String → ArtifactRecord → Except DepotError σ) (merge : σ → σ → σ) :
    Except DepotError σ := do
  let states ← (List.range numShards).mapM fun shard =>
    forEachInPartition w (artifactShardPk repo shard) skPrefix scanBatchSize (foldCallback fold)
      init
  match states with
  | [] => pure init
  | state :: states => pure (states.foldl merge state)

/-! ## The naive listing -/

/-- Append an artifact to those that are collected already. -/
def collectInto (acc : List (String × ArtifactRecord)) (sk : String) (record : ArtifactRecord) :
    Except DepotError (List (String × ArtifactRecord)) := .ok (acc ++ [(sk, record)])

/-- All artifacts of a repository, as `fold_all_artifacts` finds them. -/
def collectArtifacts (repo : String) : Except DepotError (List (String × ArtifactRecord)) :=
  foldAllArtifacts w repo "" [] collectInto (· ++ ·)

/-- The paths that are asked for: those that begin with a text, or contain one when both are in
    lower case. -/
def MergeOp.keeps (op : MergeOp) (path : String) : Bool :=
  match op with
  | .list skPrefix => hasPrefix skPrefix path
  | .search query => decide ((t.toLowercase query).toList <:+: (t.toLowercase path).toList)

/-- Collect all, filter, sort. -/
def naiveListing (op : MergeOp) (repo : String) :
    Except DepotError (List (String × ArtifactRecord)) :=
  (collectArtifacts w repo).map fun all => sortByKey (all.filter fun e => op.keeps t e.1)

end

/-- A client that asks for pages of `limit` items and follows the cursors; the
    pages it has got when it stops, if that is within `fuel` requests. -/
def followCursor {α : Type} (fetch : Pagination → Except DepotError (PaginatedResult α))
    (limit : ℕ) : ℕ → Option String → Except DepotError (Option (List (List α)))
  | 0, _ => .ok none
  | fuel + 1, cursor =>
      match fetch { cursor := cursor, limit := limit } with
      | .error err => .error err
      | .ok page =>
          match page.nextCursor with
          | none => .ok (some [page.items])
          | some next =>
              (followCursor fetch limit fuel (some next)).map fun pages =>
                pages.map (page.items :: ·)

/-! ## What a repository holds -/

/-- Every record in the shards of a repository is an artifact that is kept where
    its path belongs. -/
def World.ArtifactsStored (w : World) (x : Ext) (repo : String) : Prop :=
  ∀ shard < numShards, ∀ sk v, w.value ⟨artifactShardPk repo shard, sk⟩ = some v →
    x.shardOf sk = shard ∧ v.artifact?.isSome = true

/-- The artifact at a path. -/
def World.artifact (w : World) (x : Ext) (repo path : String) : Option ArtifactRecord :=
  (w.value ⟨artifactShardPk repo (x.shardOf path), path⟩).bind Value.artifact?

/-- An artifact that is written where its key says keeps the repository in order. -/
theorem World.ArtifactsStored.write {w : World} {x : Ext} {repo : String}
    (h : w.ArtifactsStored x repo) (repo' path : String) (version : ℕ) (r : ArtifactRecord) :
    (w.setCell (artifactKey x.shardOf repo' path) (some ⟨version, .artifact r⟩)).ArtifactsStored
      x repo := by
  intro shard hshard sk v hv
  rw [value, cell_setCell] at hv
  split_ifs at hv with hk
  · obtain ⟨hpart, rfl⟩ := (Key.mk.injEq ..).mp hk
    obtain rfl : v = .artifact r := (Option.some.inj hv).symm
    simp only [artifactShardPk, Part.mk.injEq, Pk.sharded.injEq] at hpart
    exact ⟨hpart.2.2.symm, rfl⟩
  · exact h shard hshard sk v hv

/-! ## Collecting -/

theorem mapM_ok {α β : Type} {f : α → Except DepotError β} {g : α → β} {l : List α}
    (h : ∀ a ∈ l, f a = .ok (g a)) : l.mapM f = .ok (l.map g) := by
  induction l with
  | nil => rfl
  | cons a l ih =>
    rw [mapM_cons, h a mem_cons_self, ih fun b hb => h b (mem_cons_of_mem _ hb)]
    rfl

variable {α : Type}

theorem foldl_append (l : List (List α)) (acc : List α) :
    l.foldl (· ++ ·) acc = acc ++ l.flatten := by
  induction l generalizing acc with
  | nil => simp
  | cons x l ih => rw [foldl_cons, ih, flatten_cons, append_assoc]

variable {x : Ext} {t : Text} {w : World} {repo : String}

/-- The entries of a shard. -/
def World.shardEntries (w : World) (repo : String) (shard : ℕ) : List (String × Value) :=
  w.matching (artifactShardPk repo shard) "" ""

/-- All artifacts of a repository, shard by shard. -/
def World.artifactsOf (w : World) (repo : String) : List (String × ArtifactRecord) :=
  ((List.range numShards).map fun shard =>
    (w.shardEntries repo shard).filterMap (listed Value.artifact?)).flatten

theorem hasPrefix_empty (sk : String) : hasPrefix "" sk = true :=
  decide_eq_true (List.nil_prefix)

theorem World.mem_shardEntries {shard : ℕ} {e : String × Value} :
    e ∈ w.shardEntries repo shard ↔ w.value ⟨artifactShardPk repo shard, e.1⟩ = some e.2 := by
  rw [shardEntries, mem_matching]
  constructor
  · exact And.left
  · intro hv
    refine ⟨hv, ?_, hasPrefix_empty _⟩
    exact le_of_hasPrefix (of_decide_eq_true (hasPrefix_empty _))

/-- The callback of the collection gathers what it is shown. -/
theorem visitEntries_collect {es : List (String × Value)}
    (hd : ∀ e ∈ es, e.2.artifact?.isSome = true) (acc : List (String × ArtifactRecord)) :
    visitEntries "" (foldCallback collectInto) es acc =
      .ok (acc ++ es.filterMap (listed Value.artifact?), true) := by
  induction es generalizing acc with
  | nil => simp [visitEntries]
  | cons e es ih =>
    obtain ⟨r, hr⟩ := Option.isSome_iff_exists.mp (hd e mem_cons_self)
    have hl : listed Value.artifact? e = some (e.1, r) := by rw [listed, hr, Option.map_some]
    rw [visitEntries, if_pos (hasPrefix_empty _), foldCallback, hr, filterMap_cons_some hl]
    show visitEntries "" _ es (acc ++ [(e.1, r)]) = _
    rw [ih (fun e' he' => hd e' (mem_cons_of_mem _ he')), append_assoc, singleton_append]

/-- The batches of all shards together are the artifacts of the repository. -/
theorem collectArtifacts_eq (h : w.ArtifactsStored x repo) :
    collectArtifacts w repo = .ok (w.artifactsOf repo) := by
  have hshard : ∀ shard ∈ List.range numShards, forEachInPartition w (artifactShardPk repo shard)
      "" scanBatchSize (foldCallback collectInto) [] =
        .ok ((w.shardEntries repo shard).filterMap (listed Value.artifact?)) := by
    intro shard hin
    rw [forEachInPartition_eq (by decide)]
    show (visitEntries "" _ (w.shardEntries repo shard) []).map Prod.fst = _
    rw [visitEntries_collect fun e he =>
      (h shard (List.mem_range.mp hin) e.1 e.2 (World.mem_shardEntries.mp he)).2]
    rfl
  rw [collectArtifacts, foldAllArtifacts, mapM_ok hshard, World.artifactsOf]
  generalize ((List.range numShards).map fun shard =>
    (w.shardEntries repo shard).filterMap (listed Value.artifact?)) = states
  cases states with
  | nil => rfl
  | cons state states => exact congrArg Except.ok (foldl_append states state)

/-! ## The artifacts in ascending order -/

variable {path : String} {r : ArtifactRecord}

theorem mem_listed {entries : List (String × Value)} :
    (path, r) ∈ entries.filterMap (listed Value.artifact?) ↔ (path, .artifact r) ∈ entries := by
  rw [mem_filterMap]
  constructor
  · rintro ⟨e, he, hl⟩
    obtain ⟨r', hr', heq⟩ := Option.map_eq_some_iff.mp hl
    obtain ⟨rfl, rfl⟩ := Prod.mk.inj heq
    rwa [← Value.artifact?_eq_some.mp hr']
  · intro he
    exact ⟨_, he, rfl⟩

theorem World.mem_artifactsOf (h : w.ArtifactsStored x repo)
    : (path, r) ∈ w.artifactsOf repo ↔ w.artifact x repo path = some r := by
  rw [artifactsOf, mem_flatten, artifact]
  constructor
  · rintro ⟨entries, hin, hr⟩
    obtain ⟨shard, hshard, rfl⟩ := mem_map.mp hin
    have hv := mem_shardEntries.mp (mem_listed.mp hr)
    obtain ⟨rfl, _⟩ := h shard (List.mem_range.mp hshard) path _ hv
    rw [hv]
    rfl
  · intro hr
    obtain ⟨v, hv, hvr⟩ := Option.bind_eq_some_iff.mp hr
    obtain rfl := Value.artifact?_eq_some.mp hvr
    refine ⟨_, mem_map.mpr ⟨x.shardOf path, List.mem_range.mpr (x.shardOf_lt path), rfl⟩, ?_⟩
    exact mem_listed.mpr (mem_shardEntries.mpr hv)

theorem World.shardEntries_sorted (w : World) (repo : String) (shard : ℕ) :
    (w.shardEntries repo shard).Pairwise fun a b => a.1 < b.1 :=
  (w.entriesFrom_sorted _ _ _).filter _

/-- A path occurs in one shard only, and there once. -/
theorem World.shards_nodup (h : w.ArtifactsStored x repo) {f : ℕ → List (String × Value)}
    (hs : ∀ shard, (f shard).Pairwise fun a b => a.1 < b.1)
    (hf : ∀ shard, ∀ e ∈ f shard, w.value ⟨artifactShardPk repo shard, e.1⟩ = some e.2) :
    (((List.range numShards).map f).flatten.map Prod.fst).Nodup := by
  rw [map_flatten, map_map]
  refine nodup_flatten.mpr ⟨?_, ?_⟩
  · intro keys hkeys
    obtain ⟨shard, _, rfl⟩ := mem_map.mp hkeys
    exact nodup_keys_of_sorted (hs shard)
  · refine pairwise_map.mpr ((nodup_range).imp_of_mem fun {a b} ha hb hab => ?_)
    intro path hpa hpb
    obtain ⟨e, hea, rfl⟩ := mem_map.mp hpa
    obtain ⟨e', heb, heq⟩ := mem_map.mp hpb
    have ha' := (h a (List.mem_range.mp ha) _ _ (hf a e hea)).1
    have hb' := (h b (List.mem_range.mp hb) _ _ (hf b e' heb)).1
    rw [heq] at hb'
    exact hab (ha'.symm.trans hb')

theorem World.artifactsOf_nodup (h : w.ArtifactsStored x repo) :
    ((w.artifactsOf repo).map Prod.fst).Nodup := by
  have hkeys := shards_nodup h (w.shardEntries_sorted repo) fun shard e => mem_shardEntries.mp
  have hflat : w.artifactsOf repo = (((List.range numShards).map
      (w.shardEntries repo)).flatten).filterMap (listed Value.artifact?) := by
    rw [artifactsOf, filterMap_flatten, map_map]
    rfl
  rw [hflat]
  refine pairwise_map.mpr ((pairwise_map.mp hkeys).filterMap _ ?_)
  intro e e' hne b hb b' hb'
  obtain ⟨_, _, rfl⟩ := Option.map_eq_some_iff.mp hb
  obtain ⟨_, _, rfl⟩ := Option.map_eq_some_iff.mp hb'
  exact hne

/-- The artifacts of a repository in ascending order of their paths. -/
def World.sortedArtifacts (w : World) (repo : String) : List (String × ArtifactRecord) :=
  sortByKey (w.artifactsOf repo)

theorem World.sortedArtifacts_sorted (h : w.ArtifactsStored x repo) :
    (w.sortedArtifacts repo).Pairwise fun a b => a.1 < b.1 :=
  sortByKey_sorted (artifactsOf_nodup h)

theorem World.mem_sortedArtifacts (h : w.ArtifactsStored x repo) :
    (path, r) ∈ w.sortedArtifacts repo ↔ w.artifact x repo path = some r :=
  mem_sortByKey.trans (mem_artifactsOf h)

/-- The naive listing is the sorted artifacts that are asked for. -/
theorem naiveListing_eq (h : w.ArtifactsStored x repo) (op : MergeOp) : naiveListing t w op repo =
      .ok ((w.sortedArtifacts repo).filter fun e => op.keeps t e.1) := by
  have hnodup : (((w.artifactsOf repo).filter fun e => op.keeps t e.1).map Prod.fst).Nodup :=
    (World.artifactsOf_nodup h).sublist (filter_sublist.map _)
  rw [naiveListing, collectArtifacts_eq h]
  refine congrArg Except.ok (eq_of_mem_iff_of_sorted (sortByKey_sorted hnodup)
    ((World.sortedArtifacts_sorted h).filter _) fun e => ?_)
  rw [mem_sortByKey, mem_filter, mem_filter, World.sortedArtifacts, mem_sortByKey]

/-! ## One page -/

def storedEntry (e : String × ArtifactRecord) : String × Value := (e.1, .artifact e.2)

variable {skPrefix start : String} {filter cursorPath : Option String} {batchSize limit : ℕ}

/-- What the streams of a page deliver together. -/
theorem streams_perm (h : w.ArtifactsStored x repo) :
    (((w.sortedArtifacts repo).filter fun e => decide (start ≤ e.1) && hasPrefix skPrefix e.1 &&
      ShardStream.keeps t filter e.1).map storedEntry).Perm
      ((artifactStreams repo skPrefix start filter batchSize).map fun s => s.rest t w).flatten := by
  have hmem : ∀ shard e, e ∈ (ShardStream.new (artifactShardPk repo shard) skPrefix start filter
      batchSize).rest t w ↔ w.value ⟨artifactShardPk repo shard, e.1⟩ = some e.2 ∧
        start ≤ e.1 ∧ hasPrefix skPrefix e.1 = true ∧ ShardStream.keeps t filter e.1 = true := by
    intro shard e
    show e ∈ [] ++ (w.matching _ _ _).filter _ ↔ _
    rw [nil_append, mem_filter, World.mem_matching, and_assoc, and_assoc]
    rfl
  have hsorted : ∀ shard, ((ShardStream.new (artifactShardPk repo shard) skPrefix start filter
      batchSize).rest t w).Pairwise fun a b => a.1 < b.1 := fun shard =>
    ((w.entriesFrom_sorted _ _ _).filter _).filter _
  have hnodup := World.shards_nodup h hsorted fun shard e he => ((hmem shard e).mp he).1
  rw [artifactStreams, map_map]
  refine (perm_ext_iff_of_nodup ?_ hnodup.of_map).mpr fun e => ?_
  · have hkeys := nodup_keys_of_sorted ((World.sortedArtifacts_sorted h).filter
      fun e => decide (start ≤ e.1) && hasPrefix skPrefix e.1 && ShardStream.keeps t filter e.1)
    refine Nodup.of_map Prod.fst ?_
    rw [map_map]
    exact hkeys
  · rw [mem_map, mem_flatten]
    constructor
    · rintro ⟨⟨path, r⟩, hin, rfl⟩
      obtain ⟨hr, hcond⟩ := mem_filter.mp hin
      obtain ⟨v, hv, hvr⟩ := Option.bind_eq_some_iff.mp ((World.mem_sortedArtifacts h).mp hr)
      obtain rfl := Value.artifact?_eq_some.mp hvr
      refine ⟨_, mem_map.mpr ⟨x.shardOf path, List.mem_range.mpr (x.shardOf_lt path), rfl⟩,
        (hmem _ _).mpr ⟨hv, ?_⟩⟩
      simpa [storedEntry, and_assoc] using hcond
    · rintro ⟨rest, hin, he⟩
      obtain ⟨shard, hshard, rfl⟩ := mem_map.mp hin
      obtain ⟨hv, hcond⟩ := (hmem shard e).mp he
      obtain ⟨rfl, hd⟩ := h shard (List.mem_range.mp hshard) _ _ hv
      obtain ⟨r, hr⟩ := Option.isSome_iff_exists.mp hd
      refine ⟨(e.1, r), mem_filter.mpr ⟨(World.mem_sortedArtifacts h).mpr ?_, ?_⟩, ?_⟩
      · rw [World.artifact, hv]
        exact hr
      · simpa [and_assoc] using hcond
      · exact Prod.ext rfl (Value.artifact?_eq_some.mp hr).symm

/-- A merge over the shards of a repository returns a window of its sorted
    artifacts. -/
theorem mergePage_eq (h : w.ArtifactsStored x repo) (hb : 0 < batchSize) (hstart : skPrefix ≤ start)
    (cursorPath : Option String) (pagination : Pagination) :
    mergePage t w (artifactStreams repo skPrefix start filter batchSize) cursorPath pagination =
      .ok (paginateResults t (((((w.sortedArtifacts repo).filter fun e => decide (start ≤ e.1) &&
          hasPrefix skPrefix e.1 && ShardStream.keeps t filter e.1).filter fun e =>
            afterCursor cursorPath e.1).drop
              (if cursorPath.isSome then 0 else pagination.offset)).take (pagination.limit + 1))
        pagination.limit) := by
  have hok : ∀ s ∈ artifactStreams repo skPrefix start filter batchSize, s.Ok := by
    intro s hs
    obtain ⟨shard, _, rfl⟩ := mem_map.mp hs
    exact ⟨rfl, hstart, hb⟩
  have hsorted : ∀ s ∈ artifactStreams repo skPrefix start filter batchSize,
      (s.rest t w).Pairwise fun a b => a.1 < b.1 := by
    intro s hs
    obtain ⟨shard, _, rfl⟩ := mem_map.mp hs
    exact ((w.entriesFrom_sorted _ _ _).filter _).filter _
  have hL : ((((w.sortedArtifacts repo).filter fun e => decide (start ≤ e.1) &&
      hasPrefix skPrefix e.1 && ShardStream.keeps t filter e.1)).map storedEntry).Pairwise
        fun a b => a.1 < b.1 :=
    pairwise_map.mpr ((World.sortedArtifacts_sorted h).filter _)
  have hdecode : ∀ e ∈ (((w.sortedArtifacts repo).filter fun e => decide (start ≤ e.1) &&
      hasPrefix skPrefix e.1 && ShardStream.keeps t filter e.1)).map storedEntry,
        (Value.artifact? e.2).isSome = true := by
    intro e he
    obtain ⟨a, _, rfl⟩ := mem_map.mp he
    rfl
  rw [mergePage, kWayMerge_eq hok hsorted (streams_perm h) hL hdecode, Except.map]
  congr 2
  rw [filter_map, ← map_drop, ← map_take, filterMap_map]
  exact filterMap_some

theorem afterCursor_eq_true :
    afterCursor cursorPath path = true ↔ ∀ cp ∈ cursorPath, cp < path := by
  cases cursorPath <;> simp [afterCursor]

theorem afterCursor_some (cp path : String) : afterCursor (some cp) path = decide (cp < path) :=
  Bool.eq_iff_iff.mpr (by rw [afterCursor_eq_true]; simp)

/-- A scan that starts at the prefix, or at the cursor if that comes later, misses
    nothing after the cursor. -/
theorem afterCursor_start (hstart : start = skPrefix ∨ start ∈ cursorPath) (q : Bool) :
    (afterCursor cursorPath path && (decide (start ≤ path) && hasPrefix skPrefix path && q)) =
      (afterCursor cursorPath path && (hasPrefix skPrefix path && q)) := by
  by_cases ha : afterCursor cursorPath path = true
  · by_cases hp : hasPrefix skPrefix path = true
    · have hle : start ≤ path := by
        rcases hstart with rfl | hin
        · exact le_of_hasPrefix (of_decide_eq_true hp)
        · exact (afterCursor_eq_true.mp ha start hin).le
      simp [hle]
    · simp [hp]
  · simp [ha]

theorem le_listStart (skPrefix : String) (cursorPath : Option String) :
    skPrefix ≤ listStart skPrefix cursorPath := by
  unfold listStart
  split
  · split_ifs with hlt
    · exact hlt.le
    · exact le_rfl
  · exact le_rfl

theorem listStart_eq (skPrefix : String) (cursorPath : Option String) :
    listStart skPrefix cursorPath = skPrefix ∨ listStart skPrefix cursorPath ∈ cursorPath := by
  unfold listStart
  split
  · split_ifs
    · exact .inr rfl
    · exact .inl rfl
  · exact .inl rfl

/-- A page of a listing or a search is a window of the naive listing. -/
theorem fetchPage_eq (h : w.ArtifactsStored x repo) (op : MergeOp) {perShard : ℕ → ℕ}
    (pagination : Pagination) (hb : 0 < perShard pagination.limit) :
    op.fetchPage t w perShard repo pagination =
      .ok (paginateResults t
        (((((w.sortedArtifacts repo).filter fun e => op.keeps t e.1).filter fun e =>
          afterCursor (decodeCursor t pagination.cursor) e.1).drop
            (if pagination.cursor.isSome then 0 else pagination.offset)).take
              (pagination.limit + 1)) pagination.limit) := by
  have hsome : (decodeCursor t pagination.cursor).isSome = pagination.cursor.isSome :=
    Option.isSome_map
  have hempty : ∀ sk : String, "" ≤ sk := fun sk =>
    le_of_hasPrefix (of_decide_eq_true (hasPrefix_empty sk))
  rw [← hsome]
  cases op with
  | list skPrefix =>
    simp only [MergeOp.fetchPage, listArtifacts, MergeOp.keeps]
    rw [mergePage_eq h hb (le_listStart _ _), filter_filter, filter_filter]
    simp only [afterCursor_start (listStart_eq _ _)]
    simp only [ShardStream.keeps, Option.all_none, Bool.and_true]
  | search query =>
    simp only [MergeOp.fetchPage, searchArtifacts, MergeOp.keeps]
    have hstart : (decodeCursor t pagination.cursor).getD "" = "" ∨
        (decodeCursor t pagination.cursor).getD "" ∈ decodeCursor t pagination.cursor := by
      cases decodeCursor t pagination.cursor with
      | none => exact .inl rfl
      | some cp => exact .inr rfl
    rw [mergePage_eq h hb (hempty _), filter_filter, filter_filter]
    simp only [afterCursor_start hstart]
    simp only [hasPrefix_empty, Bool.true_and, ShardStream.keeps, Option.all_some]

/-! ## Following the cursors -/

/-- The page over a window: at most `limit` items, and a cursor to the last of
    them if there are more. -/
theorem paginateResults_take (M : List (String × α)) (hl : 0 < limit) :
    paginateResults t (M.take (limit + 1)) limit =
      ⟨M.take limit, if limit < M.length then M[limit - 1]?.map fun e => encodeCursor t e.1
        else none⟩ := by
  rw [paginateResults, take_take, min_eq_left (Nat.le_succ limit),
    getElem?_take_of_lt (by omega), length_take]
  congr 1
  split_ifs with hlt
  · have hmore : decide (limit < min (limit + 1) M.length) = true := decide_eq_true (by omega)
    rw [hmore]
    cases M[limit - 1]? <;> rfl
  · have hmore : decide (limit < min (limit + 1) M.length) = false := decide_eq_false (by omega)
    rw [hmore]
    cases M[limit - 1]? <;> rfl

variable {N : List (String × α)}

/-- What comes after the last item of a page is the rest of the listing. -/
theorem filter_afterCursor
    (hs : N.Pairwise fun a b => a.1 < b.1) {k : ℕ} {e : String × α} (he : N[k]? = some e) :
    (N.filter fun a => afterCursor (some e.1) a.1) = N.drop (k + 1) := by
  simp only [afterCursor_some]
  induction N generalizing k with
  | nil => rfl
  | cons a N ih =>
    obtain ⟨ha, hs'⟩ := pairwise_cons.mp hs
    rw [filter_cons, drop_succ_cons]
    cases k with
    | zero =>
      obtain rfl : a = e := by simpa using he
      rw [decide_eq_false (lt_irrefl a.1), if_neg Bool.false_ne_true, drop_zero]
      exact filter_eq_self.mpr fun b hb => decide_eq_true (ha b hb)
    | succ k =>
      have hin : N[k]? = some e := by simpa using he
      rw [decide_eq_false (ha e (mem_of_getElem? hin)).asymm, if_neg Bool.false_ne_true, ih hs' hin]

/-- From a cursor on, the pages are the rest of the listing `N`, if each of them is
    what the listing has after its cursor. -/
theorem followCursor_eq (hs : N.Pairwise fun a b => a.1 < b.1) (hl : 0 < limit)
    {fetch : Pagination → Except DepotError (PaginatedResult (String × α))}
    (hfetch : ∀ cursor, fetch { cursor := cursor, limit := limit } =
      .ok (paginateResults t ((N.filter fun e =>
        afterCursor (decodeCursor t cursor) e.1).take (limit + 1)) limit))
    {fuel k : ℕ} {cursor : Option String}
    (hc : (N.filter fun e => afterCursor (decodeCursor t cursor) e.1) = N.drop k)
    (hf : (N.drop k).length < fuel) :
    ∃ pages, followCursor fetch limit fuel cursor = .ok (some pages) ∧
      pages.flatten = N.drop k := by
  induction fuel generalizing k cursor with
  | zero => omega
  | succ fuel ih =>
    rw [followCursor, hfetch, hc, paginateResults_take _ hl]
    split_ifs with hmore
    · have hlt : limit - 1 < (N.drop k).length := by omega
      have he : (N.drop k)[limit - 1]? = some (N.drop k)[limit - 1] :=
        getElem?_eq_getElem hlt
      have hnext : k + (limit - 1) + 1 = k + limit := by omega
      have hrest := filter_afterCursor hs (getElem?_drop.symm.trans he)
      rw [hnext, ← decodeCursor_encodeCursor t] at hrest
      have hshort : (N.drop (k + limit)).length < fuel := by
        rw [length_drop] at hf hmore ⊢
        omega
      obtain ⟨pages, hpages, hflat⟩ := ih hrest hshort
      refine ⟨(N.drop k).take limit :: pages, ?_, ?_⟩
      · rw [he, Option.map_some]
        dsimp only
        rw [hpages]
        rfl
      · rw [flatten_cons, hflat, ← drop_drop, take_append_drop]
    · refine ⟨[(N.drop k).take limit], rfl, ?_⟩
      rw [flatten_singleton, take_of_length_le (not_lt.mp hmore)]

/-- **Main theorem.** Following the cursors from the first page gives the naive
    listing, in ascending order and each artifact once, and then stops: for every
    layout of the shards, batch size and page size. -/
theorem pages_exact (t : Text) (x : Ext) (w : World) (repo : String)
    (h : w.ArtifactsStored x repo) (op : MergeOp) (perShard : ℕ → ℕ) (limit : ℕ)
    (hl : 0 < limit) (hb : 0 < perShard limit) :
    ∃ naive pages, naiveListing t w op repo = .ok naive ∧
      followCursor (op.fetchPage t w perShard repo) limit (naive.length + 1) none =
        .ok (some pages) ∧ pages.flatten = naive ∧ naive.Pairwise (fun a b => a.1 < b.1) ∧
      ∀ path r, (path, r) ∈ naive ↔ w.artifact x repo path = some r ∧ op.keeps t path = true := by
  have hfetch : ∀ cursor, op.fetchPage t w perShard repo { cursor := cursor, limit := limit } =
      .ok (paginateResults t ((((w.sortedArtifacts repo).filter fun e =>
        op.keeps t e.1).filter fun e =>
          afterCursor (decodeCursor t cursor) e.1).take (limit + 1)) limit) := by
    intro cursor
    rw [fetchPage_eq h op _ hb]
    dsimp only
    rw [ite_self, drop_zero]
  have hsorted := (World.sortedArtifacts_sorted h).filter fun e => op.keeps t e.1
  have hall : (((w.sortedArtifacts repo).filter fun e => op.keeps t e.1).filter fun e =>
      afterCursor (decodeCursor t none) e.1) =
        ((w.sortedArtifacts repo).filter fun e => op.keeps t e.1).drop 0 :=
    filter_true _
  obtain ⟨pages, hpages, hflat⟩ := followCursor_eq hsorted hl hfetch hall (Nat.lt_succ_self _)
  refine ⟨_, pages, naiveListing_eq h op, hpages, hflat, hsorted, fun path r => ?_⟩
  rw [mem_filter, World.mem_sortedArtifacts h]

/-- Text functions for the examples: an alphabet of 256 characters. -/
def Text.sample : Text where
  toLowercase s := s.toLower
  base64Encode data := String.ofList (data.data.toList.map fun b => Char.ofNat (b.toNat + 0x100))
  base64Decode s := some ⟨(s.toList.map fun c => UInt8.ofNat (c.toNat - 0x100)).toArray⟩
  decode_encode data := by
    have hb : ∀ b : UInt8, UInt8.ofNat ((Char.ofNat (b.toNat + 0x100)).toNat - 0x100) = b := by
      intro b
      have hlt : b.toNat < 256 := b.toNat_lt
      have hv : (b.toNat + 0x100).isValidChar := by
        unfold Nat.isValidChar
        omega
      have hn : (Char.ofNat (b.toNat + 0x100)).toNat = b.toNat + 0x100 := by
        rw [Char.ofNat, dif_pos hv]
        rfl
      rw [hn, Nat.add_sub_cancel, UInt8.ofNat_toNat]
    rw [String.toList_ofList, map_map]
    congr
    exact (map_congr_left fun b _ => hb b).trans (map_id _)

/-- A server without records. -/
theorem artifactsStored_empty (x : Ext) (repo : String) :
    World.ArtifactsStored { now := 0 } x repo := fun _ _ _ _ hv => nomatch hv

/-- Three artifacts in pages of two. -/
theorem pages_exact_two : let r : ArtifactRecord :=
      ⟨1, "text/plain", 0, 0, 0, "", .raw, false, some "b", some "h", none⟩
    let w := (((({ now := 0 } : World).setCell (artifactKey Ext.sample.shardOf "r" "a/1")
      (some ⟨1, .artifact r⟩)).setCell (artifactKey Ext.sample.shardOf "r" "a/22")
      (some ⟨1, .artifact r⟩)).setCell (artifactKey Ext.sample.shardOf "r" "b")
      (some ⟨1, .artifact r⟩))
    ∃ naive pages, naiveListing Text.sample w (.list "a/") "r" = .ok naive ∧
      followCursor ((MergeOp.list "a/").fetchPage Text.sample w perShardBatch "r") 2
        (naive.length + 1) none = .ok (some pages) ∧
      pages.flatten = naive ∧
      naive.Pairwise (fun a b => a.1 < b.1) ∧
      ∀ path r, (path, r) ∈ naive ↔
        w.artifact Ext.sample "r" path = some r ∧
          (MergeOp.list "a/").keeps Text.sample path = true :=
  pages_exact Text.sample Ext.sample _ "r"
    ((((artifactsStored_empty Ext.sample "r").write "r" "a/1" 1 _).write "r" "a/22" 1 _).write
      "r" "b" 1 _) (.list "a/") perShardBatch 2 (by decide) (by decide)

/-! ## Pages of a repository that changes -/

/-- A client that follows the cursors while the repository changes, each page from the state of
    its time: the pages it has got, and whether the last of them was the last page. -/
def followChanges {α : Type} (fetch : World → Pagination → Except DepotError (PaginatedResult α))
    (limit : ℕ) : List World → Option String → Except DepotError (List (List α) × Bool)
  | [], _ => .ok ([], false)
  | w :: ws, cursor =>
      match fetch w { cursor := cursor, limit := limit } with
      | .error err => .error err
      | .ok page =>
          match page.nextCursor with
          | none => .ok ([page.items], true)
          | some next => (followChanges fetch limit ws (some next)).map fun r =>
              (page.items :: r.1, r.2)

/-- The pages that a client has got from states of a repository, one from each: after the cursor,
    in ascending order and no path twice, each item as it was in the state of its page; and after
    the last page everything that was there in all of these states. -/
structure PagesOf (t : Text) (x : Ext) (repo : String) (op : MergeOp) (cursor : Option String)
    (ws : List World) (pages : List (List (String × ArtifactRecord))) (last : Bool) : Prop where
  ascending : pages.flatten.Pairwise fun a b => a.1 < b.1
  after : ∀ e ∈ pages.flatten, afterCursor (decodeCursor t cursor) e.1 = true
  stored : Forall₂ (fun w page => ∀ e ∈ page, w.artifact x repo e.1 = some e.2 ∧
    op.keeps t e.1 = true) ws pages
  complete : last = true → ∀ path, afterCursor (decodeCursor t cursor) path = true →
    op.keeps t path = true → (∀ w ∈ ws, (w.artifact x repo path).isSome) →
      path ∈ pages.flatten.map Prod.fst

/-- A page before those that follow its cursor: `N` is what the first state has after `cursor`. -/
theorem PagesOf.cons {op : MergeOp} {cursor : Option String} {ws : List World}
    {pages : List (List (String × ArtifactRecord))} {last : Bool}
    {N : List (String × ArtifactRecord)} (hl : 0 < limit)
    (hsorted : N.Pairwise fun a b => a.1 < b.1)
    (hmem : ∀ {path r}, (path, r) ∈ N ↔ (w.artifact x repo path = some r ∧
      op.keeps t path = true) ∧ afterCursor (decodeCursor t cursor) path = true)
    {e : String × ArtifactRecord} (he : N[limit - 1]? = some e)
    (h : PagesOf t x repo op (some (encodeCursor t e.1)) ws pages last) :
    PagesOf t x repo op cursor (w :: ws) (N.take limit :: pages) last := by
  obtain ⟨hasc, hafter, hstored, hall⟩ := h
  rw [decodeCursor_encodeCursor] at hafter hall
  have hrest := filter_afterCursor hsorted he
  rw [Nat.sub_add_cancel hl] at hrest
  have hlater : ∀ a ∈ pages.flatten, e.1 < a.1 := fun a ha =>
    afterCursor_eq_true.mp (hafter a ha) _ rfl
  have hcut := pairwise_append.mp ((take_append_drop limit N).symm ▸ hsorted)
  have hback : ∀ a ∈ N.take limit, a.1 ≤ e.1 := by
    refine fun a ha => not_lt.mp fun hgt => lt_irrefl a.1 (hcut.2.2 a ha a ?_)
    rw [← hrest, mem_filter, afterCursor_some]
    exact ⟨mem_of_mem_take ha, decide_eq_true hgt⟩
  refine ⟨?_, ?_, .cons (fun a ha => (hmem.mp (mem_of_mem_take ha)).1) hstored,
    fun hend path hcursor hkeep hthere => ?_⟩
  · rw [flatten_cons]
    exact pairwise_append.mpr
      ⟨hcut.1, hasc, fun a ha b hb => (hback a ha).trans_lt (hlater b hb)⟩
  · rw [flatten_cons]
    refine forall_mem_append.mpr ⟨fun a ha => (hmem.mp (mem_of_mem_take ha)).2, fun a ha => ?_⟩
    refine afterCursor_eq_true.mpr fun c hc => ?_
    exact (afterCursor_eq_true.mp (hmem.mp (mem_of_getElem? he)).2 c hc).trans (hlater a ha)
  · obtain ⟨r, hr⟩ := Option.isSome_iff_exists.mp (hthere w mem_cons_self)
    have hin := hmem.mpr ⟨⟨hr, hkeep⟩, hcursor⟩
    rw [← take_append_drop limit N, mem_append, ← hrest, mem_filter] at hin
    rw [flatten_cons, map_append, mem_append]
    exact hin.imp (mem_map_of_mem (f := Prod.fst)) fun hlate =>
      hall hend path hlate.2 hkeep fun w' hw' => hthere w' (mem_cons_of_mem w hw')

/-- **Main theorem.** Whatever is written between the requests, a client gets no path twice and
    each artifact as it was when its page was read, in ascending order; and after the last page it
    has got every artifact that was there at every request. -/
theorem pages_of_changes (op : MergeOp) {perShard : ℕ → ℕ} (hl : 0 < limit)
    (hb : 0 < perShard limit) {ws : List World} (hws : ∀ w ∈ ws, w.ArtifactsStored x repo)
    (cursor : Option String) : ∃ pages last,
      followChanges (fun w => op.fetchPage t w perShard repo) limit ws cursor =
        .ok (pages, last) ∧
      PagesOf t x repo op cursor (ws.take pages.length) pages last := by
  induction ws generalizing cursor with
  | nil => exact ⟨[], false, rfl, .nil, nofun, .nil, nofun⟩
  | cons w ws ih =>
    obtain ⟨hw, hws⟩ := forall_mem_cons.mp hws
    obtain ⟨N, hN⟩ : ∃ N, N = ((w.sortedArtifacts repo).filter fun e => op.keeps t e.1).filter
      fun e => afterCursor (decodeCursor t cursor) e.1 := ⟨_, rfl⟩
    have hsorted : N.Pairwise fun a b => a.1 < b.1 := by
      rw [hN]
      exact ((World.sortedArtifacts_sorted hw).filter _).filter _
    have hmem : ∀ {path r}, (path, r) ∈ N ↔ (w.artifact x repo path = some r ∧
        op.keeps t path = true) ∧ afterCursor (decodeCursor t cursor) path = true := by
      intro path r
      rw [hN, mem_filter, mem_filter, World.mem_sortedArtifacts hw]
    have hfetch := fetchPage_eq (t := t) hw op { cursor := cursor, limit := limit } hb
    dsimp only at hfetch
    rw [ite_self, drop_zero, ← hN, paginateResults_take N hl] at hfetch
    simp only [followChanges, hfetch]
    split_ifs with hmore
    · have hlast := getElem?_eq_getElem (show limit - 1 < N.length by omega)
      obtain ⟨pages, last, hrun, hpages⟩ := ih hws (some (encodeCursor t N[limit - 1].1))
      rw [hlast, Option.map_some]
      simp only [hrun]
      exact ⟨_, last, rfl, hpages.cons hl hsorted hmem hlast⟩
    · rw [take_of_length_le (not_lt.mp hmore)]
      refine ⟨[N], true, rfl, ?_, ?_, ?_, fun _ path hafter hkeep hthere => ?_⟩
      · rwa [flatten_singleton]
      · rw [flatten_singleton]
        exact fun e he => (hmem.mp he).2
      · exact .cons (fun e he => (hmem.mp he).1) .nil
      · obtain ⟨r, hr⟩ := Option.isSome_iff_exists.mp (hthere w mem_cons_self)
        rw [flatten_singleton]
        exact mem_map_of_mem (hmem.mpr ⟨⟨hr, hkeep⟩, hafter⟩)

def sampleArtifact : ArtifactRecord :=
  ⟨1, "text/plain", 0, 0, 0, "", .raw, false, some "b", some "h", none⟩

/-- A repository with this artifact at each of the paths. -/
def artifactsAt (paths : List String) : World :=
  paths.foldl (fun w path => w.setCell (artifactKey Ext.sample.shardOf "r" path)
    (some ⟨1, .artifact sampleArtifact⟩)) { now := 0 }

/-- The client gets `a`; then `a` and `b` are deleted, and it gets `c`. -/
theorem pages_of_changes_delete :
    followChanges (fun w => (MergeOp.list "").fetchPage Text.sample w perShardBatch "r") 1
        [artifactsAt ["a", "b", "c"], artifactsAt ["c"]] none =
      .ok ([[("a", sampleArtifact)], [("c", sampleArtifact)]], true) ∧
    PagesOf Text.sample Ext.sample "r" (.list "") none [artifactsAt ["a", "b", "c"], artifactsAt ["c"]]
      [[("a", sampleArtifact)], [("c", sampleArtifact)]] true := by
  have hempty := artifactsStored_empty Ext.sample "r"
  have hstored : ∀ w ∈ [artifactsAt ["a", "b", "c"], artifactsAt ["c"]],
      w.ArtifactsStored Ext.sample "r" :=
    forall_mem_cons.mpr ⟨((hempty.write "r" "a" 1 _).write "r" "b" 1 _).write "r" "c" 1 _,
      forall_mem_singleton.mpr (hempty.write "r" "c" 1 _)⟩
  obtain ⟨pages, last, hrun, hpages⟩ := pages_of_changes (t := Text.sample) (.list "")
    Nat.one_pos (show 0 < perShardBatch 1 by decide) hstored none
  have hread : (followChanges (fun w => (MergeOp.list "").fetchPage Text.sample w perShardBatch
      "r") 1 [artifactsAt ["a", "b", "c"], artifactsAt ["c"]] none).toOption =
        some ([[("a", sampleArtifact)], [("c", sampleArtifact)]], true) := by decide +kernel
  rw [hrun] at hread
  obtain ⟨rfl, rfl⟩ := Prod.mk.inj (Option.some.inj hread)
  exact ⟨hrun, hpages⟩

end Depot
