import Depot.Lib.Union
import Depot.Repo.Resolve
import Depot.Service.Listing

/-!
# Pages of a proxy

A proxy repository lists the artifacts of its members, the first member winning
(`core/src/repo/proxy.rs`). Every member is asked for one item more than a page
holds, and the offset is applied after the items are merged.

**Deviations.** A page whose offset goes beyond what the members were asked for misses
items. And a member is asked for what is stored under its own name, so that one which is
a proxy itself lists nothing, although it has a listing: that of its members.

Results:
* `proxyPage_iff`: exactly when a page is the window of the merged listing that
  was asked for.
-/

namespace Depot

open Lib List
open SortedMap (union keysOf)

section

variable (t : Text) (w : World)

/-- One member in the loop of `paginated_merge` (lines 207–251): its items are added
    unless their paths are there; a member that fails is skipped. -/
def mergeMember (op : MergeOp) (cursor : Option String) (perMemberLimit : ℕ)
    (merged : SortedMap String ArtifactRecord) (memberName : String) :
    SortedMap String ArtifactRecord :=
  match op.fetchPage t w perShardBatch memberName
      { cursor := cursor, offset := 0, limit := perMemberLimit } with
  | .ok page => merged.addAbsent page.items
  | .error _ => merged

/-- How many merged items are skipped: the offset counts on the first page only
    (lines 254–258). -/
def Pagination.skip (pagination : Pagination) : ℕ :=
  if pagination.cursor.isNone then pagination.offset else 0

/-- `paginated_merge` (lines 188–266). -/
def paginatedMerge (members : List String) (pagination : Pagination) (op : MergeOp) :
    Except DepotError (PaginatedResult (String × ArtifactRecord)) :=
  if members = [] then .ok ⟨[], none⟩
  else
    let perMemberLimit := pagination.limit + 1
    let merged := members.foldl (mergeMember t w op pagination.cursor perMemberLimit)
      SortedMap.empty
    .ok (paginateResults t ((merged.entries.drop pagination.skip).take perMemberLimit)
      pagination.limit)

/-! ## The merged listing -/

/-- What is asked for of the artifacts stored under a name, after the cursor if there is one. -/
def MergeOp.stored (op : MergeOp) (cursor : Option String) (repo : String) :
    SortedMap String ArtifactRecord :=
  SortedMap.empty.addAbsent (((w.sortedArtifacts repo).filter fun e => op.keeps t e.1).filter
    fun e => afterCursor (decodeCursor t cursor) e.1)

/-- The members of a repository that is a proxy. -/
def World.proxyMembers (repo : String) : Option (List String) :=
  match ((w.value (repoKey repo)).bind Value.repo?).map RepoConfig.kind with
  | some (.proxy members _) => some members
  | _ => none

/-- The listing of a repository: of a proxy that of its members, down to the depth to which
    requests are resolved, and of any other one what is stored under its name. -/
def MergeOp.listing (op : MergeOp) (cursor : Option String) :
    ℕ → String → SortedMap String ArtifactRecord
  | 0, repo =>
      match w.proxyMembers repo with
      | none => op.stored t w cursor repo
      | some _ => SortedMap.empty
  | left + 1, repo =>
      match w.proxyMembers repo with
      | none => op.stored t w cursor repo
      | some members => union (members.map (listing op cursor left))

/-- The listings of the members of a proxy. -/
def MergeOp.listings (op : MergeOp) (cursor : Option String) (members : List String) :
    List (SortedMap String ArtifactRecord) :=
  members.map (op.listing t w cursor maxProxyDepth)

/-- The artifacts of all members; the first member with a path wins. -/
def MergeOp.mergedListing (op : MergeOp) (cursor : Option String) (members : List String) :
    SortedMap String ArtifactRecord :=
  union (op.listings t w cursor members)

/-- The first items that are stored under the name of each member. -/
def MergeOp.fetched (op : MergeOp) (cursor : Option String) (n : ℕ) (members : List String) :
    List (SortedMap String ArtifactRecord) :=
  members.map fun m => (op.stored t w cursor m).first n

end

/-- A page is the window of `limit` items from number `offset` on, with a cursor
    if items remain. -/
structure PaginatedResult.IsWindow {α : Type} (page : PaginatedResult α) (all : List α)
    (offset limit : ℕ) : Prop where
  items : page.items = (all.drop offset).take limit
  more : page.nextCursor.isSome ↔ offset + limit < all.length

/-- Every item of the window is what the first member that fetched its path has fetched, as
    many paths before it were fetched as the listings have, and if items remain after the
    window more paths were fetched, else as many as there are. -/
def WindowFetched {α : Type} (listings fetched : List (SortedMap String α))
    (offset limit : ℕ) : Prop :=
  (∀ e ∈ ((union listings).entries.drop offset).take limit,
    fetched.findSome? (fun m => m.get e.1) = some e.2 ∧
    ((keysOf fetched).filter (· < e.1)).card = ((keysOf listings).filter (· < e.1)).card) ∧
  min ((keysOf fetched).card - offset) (limit + 1) =
    min ((keysOf listings).card - offset) (limit + 1)

/-! ## What a page holds -/

variable {t : Text} {x : Ext} {w : World} {members : List String} {op : MergeOp}

theorem MergeOp.entries_stored {repo : String} (h : w.ArtifactsStored x repo)
    (cursor : Option String) :
    (op.stored t w cursor repo).entries =
      ((w.sortedArtifacts repo).filter fun e => op.keeps t e.1).filter fun e =>
        afterCursor (decodeCursor t cursor) e.1 :=
  SortedMap.entries_addAbsent (((World.sortedArtifacts_sorted h).filter _).filter _)

theorem perShardBatch_pos (limit : ℕ) : 0 < perShardBatch limit := by
  unfold perShardBatch
  omega

/-- Every member contributes the first items that are stored under its name. -/
theorem foldl_mergeMember (h : ∀ m ∈ members, w.ArtifactsStored x m) (cursor : Option String)
    (n : ℕ) : members.foldl (mergeMember t w op cursor n) SortedMap.empty =
      union (op.fetched t w cursor n members) := by
  rw [union, MergeOp.fetched, foldl_map]
  generalize (SortedMap.empty : SortedMap String ArtifactRecord) = merged
  induction members generalizing merged with
  | nil => rfl
  | cons m members ih =>
    have hm := h m mem_cons_self
    have hpage : mergeMember t w op cursor n merged m =
        merged.addAbsent ((op.stored t w cursor m).first n).entries := by
      rw [mergeMember, fetchPage_eq hm op _ (perShardBatch_pos _)]
      dsimp only
      rw [ite_self, drop_zero, ← op.entries_stored hm cursor, paginateResults, take_take,
        min_eq_left (Nat.le_succ n)]
      rfl
    rw [foldl_cons, foldl_cons, hpage]
    exact ih (fun m' hm' => h m' (mem_cons_of_mem _ hm')) _

theorem paginateResults_isSome {α : Type} (items : List (String × α)) (limit : ℕ) :
    (paginateResults t items limit).nextCursor.isSome ↔ limit < items.length := by
  rw [paginateResults]
  dsimp only
  rw [Option.isSome_map]
  constructor
  · intro hs
    obtain ⟨e, he⟩ := Option.isSome_iff_exists.mp hs
    exact of_decide_eq_true (Option.filter_eq_some_iff.mp he).2
  · intro hlt
    have hin := getElem?_eq_getElem (show limit - 1 < items.length by omega)
    exact Option.isSome_iff_exists.mpr ⟨_, Option.filter_eq_some_iff.mpr ⟨hin, decide_eq_true hlt⟩⟩

/-- The page of a proxy is a window of what the members have returned. -/
theorem paginatedMerge_eq (h : ∀ m ∈ members, w.ArtifactsStored x m) (pagination : Pagination) :
    ∃ page, paginatedMerge t w members pagination op = .ok page ∧
      page.IsWindow (union (op.fetched t w pagination.cursor (pagination.limit + 1) members)).entries
        pagination.skip pagination.limit := by
  unfold paginatedMerge
  split_ifs with hnil
  · subst hnil
    refine ⟨_, rfl, ?_, ?_⟩
    · show [] = (drop _ []).take _
      rw [drop_nil, take_nil]
    · simp [union, MergeOp.fetched, SortedMap.empty]
  · dsimp only
    rw [foldl_mergeMember h]
    refine ⟨_, rfl, ?_, ?_⟩
    · rw [paginateResults, take_take, min_eq_left (Nat.le_succ _)]
    · rw [paginateResults_isSome, length_take, length_drop]
      omega

/-- What `WindowFetched` says about the merged items. -/
theorem windowFetched_iff {α : Type} (listings fetched : List (SortedMap String α))
    (offset limit : ℕ) : WindowFetched listings fetched offset limit ↔
      (((union fetched).entries.drop offset).take limit =
          ((union listings).entries.drop offset).take limit ∧
        (offset + limit < (union fetched).entries.length ↔
          offset + limit < (union listings).entries.length)) := by
  rw [SortedMap.window_eq_iff, WindowFetched, SortedMap.length_union, SortedMap.length_union]
  simp only [SortedMap.get_union, SortedMap.rank_union]

/-- **Main theorem.** A page of a proxy is the window of the merged listing exactly
    when the window lies within what is stored under the names of the members and fetched. -/
theorem proxyPage_iff (t : Text) (x : Ext) (w : World) (members : List String)
    (h : ∀ m ∈ members, w.ArtifactsStored x m) (op : MergeOp) (pagination : Pagination) :
    (∃ page, paginatedMerge t w members pagination op = .ok page ∧
      page.IsWindow (op.mergedListing t w pagination.cursor members).entries pagination.skip
        pagination.limit) ↔
    WindowFetched (op.listings t w pagination.cursor members)
      (op.fetched t w pagination.cursor (pagination.limit + 1) members) pagination.skip
        pagination.limit := by
  obtain ⟨page, hpage, hitems, hmore⟩ := paginatedMerge_eq (t := t) h pagination
  rw [windowFetched_iff, ← hitems, ← hmore]
  constructor
  · rintro ⟨page', hpage', hitems', hmore'⟩
    obtain rfl : page = page' := Except.ok.inj (hpage.symm.trans hpage')
    exact ⟨hitems', hmore'⟩
  · rintro ⟨hitems', hmore'⟩
    exact ⟨page, hpage, hitems', hmore'⟩

/-- A repository with small artifacts at some paths. -/
def World.holding (w : World) (x : Ext) (repo : String) (paths : List String) : World :=
  paths.foldl (fun w path => w.setCell (artifactKey x.shardOf repo path)
    (some ⟨1, .artifact ⟨1, "text/plain", 0, 0, 0, path, .raw, false, some "b", some "h", none⟩⟩)) w

theorem World.ArtifactsStored.holding {repo : String} (h : w.ArtifactsStored x repo)
    (repo' : String) (paths : List String) : (w.holding x repo' paths).ArtifactsStored x repo := by
  unfold World.holding
  induction paths generalizing w with
  | nil => exact h
  | cons path paths ih =>
    rw [foldl_cons]
    exact ih (h.write repo' path 1 _)

/-- A server with these repositories. -/
def World.configured (configs : List RepoConfig) : World :=
  configs.foldl (fun w c => w.setCell (repoKey c.name) (some ⟨1, .repo c⟩)) { now := 0 }

theorem World.ArtifactsStored.configured (x : Ext) (configs : List RepoConfig) (repo : String) :
    (World.configured configs).ArtifactsStored x repo := by
  suffices ∀ w : World, w.ArtifactsStored x repo →
      (configs.foldl (fun w c => w.setCell (repoKey c.name) (some ⟨1, .repo c⟩))
        w).ArtifactsStored x repo from this _ (artifactsStored_empty x repo)
  induction configs with
  | nil => exact fun _ h => h
  | cons c configs ih =>
    intro w h
    refine ih _ fun shard hshard sk v hv => h shard hshard sk v ?_
    rwa [World.value, World.cell_setCell, if_neg (by simp [artifactShardPk, repoKey])] at hv

/-- A hosted repository, and a proxy over it. -/
def hostedAndInner : List RepoConfig :=
  [{ name := "m", store := "s" }, { name := "n", kind := .proxy ["m"] none, store := "s" }]

/-- Three artifacts in a member, and a page of one item from number one on. -/
theorem proxyPage_iff_three :
    let w := (World.configured hostedAndInner).holding Ext.sample "m" ["a", "bb", "ccc"]
    (∃ page, paginatedMerge Text.sample w ["m"] { offset := 1, limit := 1 } (.list "") =
        .ok page ∧
      page.IsWindow ((MergeOp.list "").mergedListing Text.sample w none ["m"]).entries 1 1) ↔
    WindowFetched ((MergeOp.list "").listings Text.sample w none ["m"])
      ((MergeOp.list "").fetched Text.sample w none 2 ["m"]) 1 1 :=
  proxyPage_iff Text.sample Ext.sample _ ["m"]
    (fun m _ => (World.ArtifactsStored.configured _ _ m).holding "m" _) (.list "")
    { offset := 1, limit := 1 }

/-- A search in a member with five hits: the page of two items from number three on
    is empty, and no cursor says that there are more. So is the first page of a listing of a
    member that is a proxy itself. -/
theorem proxyPage_misses :
    let w := (World.configured hostedAndInner).holding Ext.sample "m"
      ["x/a", "x/bb", "x/ccc", "x/dddd", "x/eeeee"]
    (∀ m, w.ArtifactsStored Ext.sample m) ∧
      (¬ ∃ page, paginatedMerge Text.sample w ["m"] { offset := 3, limit := 2 } (.search "x/") =
          .ok page ∧
        page.IsWindow ((MergeOp.search "x/").mergedListing Text.sample w none ["m"]).entries
          3 2) ∧
      ¬ ∃ page, paginatedMerge Text.sample w ["n"] { limit := 2 } (.list "") = .ok page ∧
        page.IsWindow ((MergeOp.list "").mergedListing Text.sample w none ["n"]).entries 0 2 := by
  have hmissed : ∀ (w : World) (members : List String) (pagination : Pagination) (op : MergeOp)
      (offset : ℕ), ((paginatedMerge Text.sample w members pagination op).toOption.map fun p =>
          p.items.map Prod.fst) = some [] →
        (((op.mergedListing Text.sample w none members).entries.drop offset).take
          pagination.limit) ≠ [] →
        ¬ ∃ page, paginatedMerge Text.sample w members pagination op = .ok page ∧
          page.IsWindow (op.mergedListing Text.sample w none members).entries offset
            pagination.limit := by
    rintro w members pagination op offset hempty hwindow ⟨page, hpage, hitems, -⟩
    rw [hpage] at hempty
    rw [← hitems] at hwindow
    exact hwindow (map_eq_nil_iff.mp (Option.some.inj hempty))
  refine ⟨fun m => (World.ArtifactsStored.configured _ _ m).holding "m" _, ?_, ?_⟩
  · exact hmissed _ _ { offset := 3, limit := 2 } _ 3 (by decide +kernel) (by decide +kernel)
  · exact hmissed _ _ { limit := 2 } _ 0 (by decide +kernel) (by decide +kernel)

end Depot
