import Depot.Tree.Rebuild
import Mathlib.Data.List.Perm.Subperm
import Mathlib.Data.Multiset.ZeroCons

/-!
# Listing a directory

`list_children` (`core/src/service/directory.rs`, lines 46–96), over any tree table in
which every node of the tree has an entry of its kind, whatever the entry says. The listing
reads one range of sort keys; it is exact when that range holds the children and nothing else.

Results:
* `list_children_exact`: a directory is listed exactly if and only if no child has a zero
  byte in its name, none is both a file and a directory, and no other node has a key in
  the range.
* `listed_after_rebuild`: the listing after a rebuild.
-/

namespace Depot

open Lib List

/-- `DirEntry`, as far as it is not constant. -/
structure DirEntry where
  artifactCount : ℕ
  totalBytes : ℕ
  lastModifiedAt : DateTime
  lastAccessedAt : DateTime
  deriving DecidableEq

/-- The entry as a directory of a listing. -/
def TreeEntry.asDir? (te : TreeEntry) : Option DirEntry :=
  match te.kind with
  | .dir count bytes => some ⟨count, bytes, te.lastModifiedAt, te.lastAccessedAt⟩
  | .file .. => none

/-- The entry as a file of a listing. -/
def TreeEntry.asFile? (te : TreeEntry) : Option TreeEntry :=
  match te.kind with
  | .dir .. => none
  | .file .. => some te

/-- `dirs` and `files`. -/
abbrev ChildrenResult := List (String × DirEntry) × List (String × TreeEntry)

/-- `prefix.trim_end_matches('/')`. -/
def trimEndSlashes (path : String) : String := String.ofList (path.toList.rdropWhile (· = '/'))

/-- The callback of `list_children` (lines 64–88). -/
def visitChild (acc : ChildrenResult) (sk : String) (value : Value) :
    Except DepotError (ChildrenResult × Bool) :=
  let name := treeSkName sk
  match value.tree? with
  | none => .error (.storage false)
  | some te =>
      .ok ((acc.1 ++ (te.asDir?.map fun d => (name, d)).toList,
        acc.2 ++ (te.asFile?.map fun f => (name, f)).toList), true)

section

variable (x : Ext) (w : World) (repo : String)

/-- `list_children` (lines 46–96). -/
def listChildren (dir : String) : Except DepotError ChildrenResult :=
  let clean := trimEndSlashes dir
  (forEachInPartition w (treeShardPk repo (x.shardOf clean)) (treeChildrenSkPrefix clean)
    scanBatchSize visitChild ([], [])).map fun r => (sortByKey r.1, sortByKey r.2)

end

/-! ## Children -/

/-- The node at `path` is an immediate child of the directory `dir`. -/
def IsChild (dir path : String) : Prop := path ≠ "" ∧ treeParent path = dir

instance (dir path : String) : Decidable (IsChild dir path) :=
  inferInstanceAs (Decidable (_ ∧ _))

/-- The directories among named entries. -/
def dirsOf (entries : List (String × TreeEntry)) : List (String × DirEntry) :=
  entries.filterMap fun n => n.2.asDir?.map fun d => (n.1, d)

/-- The files among named entries. -/
def filesOf (entries : List (String × TreeEntry)) : List (String × TreeEntry) :=
  entries.filterMap fun n => n.2.asFile?.map fun f => (n.1, f)

/-- The nodes that are children of a directory, under their names. -/
def childrenAmong (dir : String) (nodes : List (String × TreeEntry)) :
    List (String × TreeEntry) :=
  (nodes.filter fun n => IsChild dir n.1).map fun n => (treeName n.1, n.2)

/-- Nodes for artifacts: a file for each of them, and a directory for each path that one of them
    lies below. What their entries say beside the kind is left open. -/
structure TreeNodes (arts : List (String × ArtifactRecord)) where
  files : List (String × TreeEntry)
  dirs : List (String × TreeEntry)
  files_paths : files.map Prod.fst = (treeFiles arts).map Prod.fst
  dirs_paths : dirs.map Prod.fst = (treeDirs arts).map Prod.fst
  files_kind : ∀ n ∈ files, n.2.asFile? = some n.2 ∧ n.2.asDir? = none
  dirs_kind : ∀ n ∈ dirs, n.2.asFile? = none

/-- All nodes. -/
def TreeNodes.all {arts : List (String × ArtifactRecord)} (t : TreeNodes arts) :
    List (String × TreeEntry) := t.files ++ t.dirs

section

variable (x : Ext) (repo : String) {arts : List (String × ArtifactRecord)} (t : TreeNodes arts)

/-- Every node has under its key the entry of a node with that key, and there are no other
    entries. -/
structure TreeOf (w : World) : Prop where
  sound : ∀ k v, InTree repo k → w.value k = some v →
    ∃ n ∈ t.all, nodeKey x repo n.1 = k ∧ v = .tree n.2
  complete : ∀ n ∈ t.all, (w.value (nodeKey x repo n.1)).isSome = true

/-- Over every such table, the listing has the directories and the files that are children,
    each once. -/
def ListsExactly (dir : String) : Prop :=
  ∀ w, TreeOf x repo t w → ∃ dirs files, listChildren x w repo dir = .ok (dirs, files) ∧
    dirs.Perm (dirsOf (childrenAmong (trimEndSlashes dir) t.dirs)) ∧
    files.Perm (childrenAmong (trimEndSlashes dir) t.files)

/-- The key of the node lies in the range that is read for the directory. -/
def InRange (dir path : String) : Prop :=
  (nodeKey x repo path).part = treeShardPk repo (x.shardOf dir) ∧
    hasPrefix (treeChildrenSkPrefix dir) (nodeKey x repo path).sk = true

instance (dir path : String) : Decidable (InRange x repo dir path) :=
  inferInstanceAs (Decidable (_ ∧ _))

/-- What the listing of a directory needs: names without a zero byte, no child that is both
    a file and a directory, and in the range only what is at a child's key. -/
structure ListsApart (dir : String) : Prop where
  names : ∀ c ∈ t.all, IsChild dir c.1 → NulFree (treeName c.1)
  kinds : ∀ f ∈ t.files, IsChild dir f.1 → ∀ d ∈ t.dirs, f.1 ≠ d.1
  range : ∀ n ∈ t.all, InRange x repo dir n.1 →
    ∃ c ∈ t.all, IsChild dir c.1 ∧ nodeKey x repo c.1 = nodeKey x repo n.1 ∧ c.2 = n.2

end

/-! ## What the listing shows -/

/-- A scanned entry under its name. -/
def named (e : String × Value) : Option (String × TreeEntry) :=
  e.2.tree?.map fun te => (treeSkName e.1, te)

theorem dirsOf_append (l l' : List (String × TreeEntry)) :
    dirsOf (l ++ l') = dirsOf l ++ dirsOf l' := filterMap_append

theorem filesOf_append (l l' : List (String × TreeEntry)) :
    filesOf (l ++ l') = filesOf l ++ filesOf l' := filterMap_append

/-- The tree entry of a directory. -/
def DirEntry.node (n : String × DirEntry) : String × TreeEntry :=
  (n.1, ⟨.dir n.2.artifactCount n.2.totalBytes, n.2.lastModifiedAt, n.2.lastAccessedAt⟩)

/-- Entries are directories or files. -/
theorem perm_dirs_files (l : List (String × TreeEntry)) :
    l.Perm ((dirsOf l).map DirEntry.node ++ filesOf l) := by
  induction l with
  | nil => exact Perm.refl _
  | cons n l ih =>
    obtain ⟨name, kind, modified, accessed⟩ := n
    cases kind with
    | dir count bytes => exact ih.cons _
    | file size ct kind blob hash created => exact (ih.cons _).trans perm_middle.symm

/-- Two lists agree if they have the same directories and the same files. -/
theorem perm_iff {l l' : List (String × TreeEntry)} :
    l.Perm l' ↔ (dirsOf l).Perm (dirsOf l') ∧ (filesOf l).Perm (filesOf l') := by
  constructor
  · exact fun h => ⟨h.filterMap _, h.filterMap _⟩
  · rintro ⟨hd, hf⟩
    exact (perm_dirs_files l).trans (((hd.map _).append hf).trans (perm_dirs_files l').symm)

theorem visitChild_fold {skPrefix : String} {es : List (String × Value)}
    (hp : ∀ e ∈ es, hasPrefix skPrefix e.1 = true) (hd : ∀ e ∈ es, e.2.tree?.isSome = true)
    (acc : ChildrenResult) : visitEntries skPrefix visitChild es acc =
      .ok ((acc.1 ++ dirsOf (es.filterMap named), acc.2 ++ filesOf (es.filterMap named)),
        true) := by
  induction es generalizing acc with
  | nil =>
    rw [visitEntries, filterMap_nil]
    simp [dirsOf, filesOf]
  | cons e es ih =>
    obtain ⟨te, hte⟩ := Option.isSome_iff_exists.mp (hd e mem_cons_self)
    have hn : named e = some (treeSkName e.1, te) := by rw [named, hte, Option.map_some]
    have hstep : visitChild acc e.1 e.2 =
        .ok ((acc.1 ++ dirsOf [(treeSkName e.1, te)], acc.2 ++ filesOf [(treeSkName e.1, te)]),
          true) := by
      rw [visitChild, hte]
      obtain ⟨kind, modified, accessed⟩ := te
      cases kind with
      | dir count bytes => rfl
      | file size ct kind blob hash created => rfl
    rw [visitEntries, if_pos (hp e mem_cons_self), hstep]
    dsimp only
    rw [ih (fun e' he' => hp e' (mem_cons_of_mem _ he'))
      (fun e' he' => hd e' (mem_cons_of_mem _ he')), filterMap_cons_some hn,
      append_assoc, append_assoc, ← dirsOf_append, ← filesOf_append,
      singleton_append]

variable {n : String × TreeEntry}

section

variable {x : Ext} {w : World} {repo : String} {arts : List (String × ArtifactRecord)}
  {t : TreeNodes arts} {dir : String}

/-- The entries in the range of a directory. -/
def World.childRange (w : World) (x : Ext) (repo dir : String) : List (String × Value) :=
  w.matching (treeShardPk repo (x.shardOf dir)) (treeChildrenSkPrefix dir)
    (treeChildrenSkPrefix dir)

/-- The key of a sort key in the range of a directory. -/
def rangeKey (x : Ext) (repo dir sk : String) : Key := ⟨treeShardPk repo (x.shardOf dir), sk⟩

theorem rangeKey_inTree (x : Ext) (repo dir sk : String) : InTree repo (rangeKey x repo dir sk) :=
  ⟨_, x.shardOf_lt _, rfl⟩

variable {e : String × Value}

theorem mem_childRange : e ∈ w.childRange x repo dir ↔
    w.value (rangeKey x repo dir e.1) = some e.2 ∧
      hasPrefix (treeChildrenSkPrefix dir) e.1 = true := by
  rw [World.childRange, World.mem_matching]
  constructor
  · rintro ⟨hv, -, hp⟩
    exact ⟨hv, hp⟩
  · rintro ⟨hv, hp⟩
    exact ⟨hv, le_of_hasPrefix (of_decide_eq_true hp), hp⟩

theorem childRange_nodup (w : World) (x : Ext) (repo dir : String) :
    ((w.childRange x repo dir).map Prod.fst).Nodup :=
  nodup_keys_of_sorted ((w.entriesFrom_sorted _ _ _).filter _)

/-- The entries that the listing of a directory shows. -/
def World.shown (w : World) (x : Ext) (repo dir : String) : List (String × TreeEntry) :=
  (w.childRange x repo dir).filterMap named

theorem TreeOf.range_tree (h : TreeOf x repo t w)
    (he : e ∈ w.childRange x repo dir) : ∃ n ∈ t.all,
      nodeKey x repo n.1 = rangeKey x repo dir e.1 ∧ e.2 = .tree n.2 :=
  h.sound _ _ (rangeKey_inTree x repo dir e.1) (mem_childRange.mp he).1

theorem listChildren_eq (h : TreeOf x repo t w) (dir : String) : listChildren x w repo dir =
      .ok (sortByKey (dirsOf (w.shown x repo (trimEndSlashes dir))),
        sortByKey (filesOf (w.shown x repo (trimEndSlashes dir)))) := by
  have hd : ∀ e ∈ w.childRange x repo (trimEndSlashes dir), e.2.tree?.isSome = true := by
    intro e he
    obtain ⟨n, -, -, hv⟩ := h.range_tree he
    rw [hv]
    rfl
  have hfold := visitChild_fold (fun e he => (mem_childRange.mp he).2) hd ([], [])
  rw [World.childRange] at hfold
  rw [listChildren, forEachInPartition_eq (by decide), hfold]
  rfl

/-- The listing is exact if it shows the children. -/
theorem listsExactly_iff : ListsExactly x repo t dir ↔ ∀ w, TreeOf x repo t w →
    (w.shown x repo (trimEndSlashes dir)).Perm
      (childrenAmong (trimEndSlashes dir) t.all) := by
  have hsplit : childrenAmong (trimEndSlashes dir) t.all =
      childrenAmong (trimEndSlashes dir) t.files ++
        childrenAmong (trimEndSlashes dir) t.dirs := by
    unfold childrenAmong TreeNodes.all
    rw [filter_append, map_append]
  have hfiles : ∀ n ∈ childrenAmong (trimEndSlashes dir) t.files,
      n.2.asFile? = some n.2 ∧ n.2.asDir? = none := by
    intro n hn
    obtain ⟨n', hn', rfl⟩ := mem_map.mp hn
    exact t.files_kind n' (mem_filter.mp hn').1
  have hdirs : ∀ n ∈ childrenAmong (trimEndSlashes dir) t.dirs,
      n.2.asFile? = none := by
    intro n hn
    obtain ⟨n', hn', rfl⟩ := mem_map.mp hn
    exact t.dirs_kind n' (mem_filter.mp hn').1
  have hd : dirsOf (childrenAmong (trimEndSlashes dir) t.all) =
      dirsOf (childrenAmong (trimEndSlashes dir) t.dirs) := by
    have hnil : dirsOf (childrenAmong (trimEndSlashes dir) t.files) = [] :=
      filterMap_eq_nil_iff.mpr fun n hn => by rw [(hfiles n hn).2, Option.map_none]
    rw [hsplit, dirsOf_append, hnil, nil_append]
  have hf : filesOf (childrenAmong (trimEndSlashes dir) t.all) =
      childrenAmong (trimEndSlashes dir) t.files := by
    have hnil : filesOf (childrenAmong (trimEndSlashes dir) t.dirs) = [] :=
      filterMap_eq_nil_iff.mpr fun n hn => by rw [hdirs n hn, Option.map_none]
    have hself : filesOf (childrenAmong (trimEndSlashes dir) t.files) =
        childrenAmong (trimEndSlashes dir) t.files := by
      unfold filesOf
      rw [filterMap_congr (g := some) fun n hn => by rw [(hfiles n hn).1]; rfl,
        filterMap_some]
    rw [hsplit, filesOf_append, hnil, append_nil, hself]
  refine forall₂_congr fun w hw => ?_
  rw [listChildren_eq hw, perm_iff, hd, hf]
  constructor
  · rintro ⟨dirs, files, heq, hdp, hfp⟩
    obtain ⟨rfl, rfl⟩ := Prod.mk.inj (Except.ok.inj heq)
    exact ⟨(perm_sortByKey _).symm.trans hdp, (perm_sortByKey _).symm.trans hfp⟩
  · rintro ⟨hdp, hfp⟩
    exact ⟨_, _, rfl, (perm_sortByKey _).trans hdp, (perm_sortByKey _).trans hfp⟩

/-! ## The children's keys -/

/-- The entries of the children of a directory. -/
def childEntries (t : TreeNodes arts) (dir : String) : List (String × Value) :=
  (t.all.filter fun n => IsChild dir n.1).map fun n => (treeSortKey n.1, .tree n.2)

variable {path : String}

theorem child_key (h : IsChild dir path) :
    nodeKey x repo path = rangeKey x repo dir (treeSortKey path) := by
  rw [nodeKey, h.2]
  rfl

/-- A child's key lies in the range of its directory. -/
theorem child_inRange (h : IsChild dir path) : InRange x repo dir path := by
  refine ⟨by rw [child_key h]; rfl, decide_eq_true ?_⟩
  rw [child_key h, ← h.2]
  show _ <+: (treeSortKey path).toList
  rw [toList_treeSortKey, treeChildrenSkPrefix, String.toList_append, String.toList_singleton]
  exact ⟨_, by rw [append_assoc]; rfl⟩

theorem inRange_key (h : InRange x repo dir path) :
    nodeKey x repo path = rangeKey x repo dir (treeSortKey path) := by
  rw [rangeKey, ← h.1]
  rfl

/-- Children of one directory with one sort key are one path. -/
theorem child_path_inj {p q : String} (hp : CleanPath p) (hq : CleanPath q) (hcp : IsChild dir p)
    (hcq : IsChild dir q) (h : treeSortKey p = treeSortKey q) : p = q := by
  have hlist := congrArg String.toList h
  rw [toList_treeSortKey, toList_treeSortKey, hcp.2, hcq.2, append_cancel_left_eq] at hlist
  exact path_ext hp hq hcp.1 hcq.1 (hcp.2.trans hcq.2.symm)
    (String.toList_inj.mp (List.cons.inj hlist).2)

/-- The nodes are at the paths of the tree. -/
theorem TreeNodes.paths (t : TreeNodes arts) :
    t.all.map Prod.fst = (treeNodes arts).map Prod.fst := by
  rw [TreeNodes.all, map_append, t.files_paths, t.dirs_paths, treeNodes, map_append]

theorem TreeNodes.clean (t : TreeNodes arts) (hn : n ∈ t.all) : CleanPath n.1 :=
  clean_node (t.paths ▸ mem_map_of_mem hn)

theorem childEntries_nodup (h : (arts.map fun e => normalizePath e.1).Nodup)
    (hk : ∀ f ∈ t.files, IsChild dir f.1 → ∀ d ∈ t.dirs, f.1 ≠ d.1) :
    ((childEntries t dir).map Prod.fst).Nodup := by
  have hpaths : ((t.all.filter fun n => IsChild dir n.1).map Prod.fst).Nodup := by
    have hfiles : (t.files.map Prod.fst).Nodup := by
      rw [t.files_paths, treeFiles, map_map]
      exact h
    have hdirs : (t.dirs.map Prod.fst).Nodup := by
      rw [t.dirs_paths]
      exact treeDirs_nodup arts
    rw [TreeNodes.all, filter_append, map_append, nodup_append]
    refine ⟨(filter_sublist.map _).nodup hfiles,
      (filter_sublist.map _).nodup hdirs, fun p hp q hq heq => ?_⟩
    obtain ⟨f, hf, rfl⟩ := mem_map.mp hp
    obtain ⟨d, hd, rfl⟩ := mem_map.mp hq
    obtain ⟨hf, hc⟩ := mem_filter.mp hf
    exact hk f hf (of_decide_eq_true hc) d (mem_filter.mp hd).1 heq
  have hkeys : (childEntries t dir).map Prod.fst =
      ((t.all.filter fun n => IsChild dir n.1).map Prod.fst).map treeSortKey := by
    rw [childEntries, map_map, map_map]
    rfl
  rw [hkeys]
  refine hpaths.map_on fun p hp q hq heq => ?_
  obtain ⟨n, hn, rfl⟩ := mem_map.mp hp
  obtain ⟨n', hn', rfl⟩ := mem_map.mp hq
  obtain ⟨hn, hc⟩ := mem_filter.mp hn
  obtain ⟨hn', hc'⟩ := mem_filter.mp hn'
  exact child_path_inj (t.clean hn) (t.clean hn')
    (of_decide_eq_true hc) (of_decide_eq_true hc') heq

theorem mem_childEntries : e ∈ childEntries t dir ↔
    ∃ c ∈ t.all, IsChild dir c.1 ∧ treeSortKey c.1 = e.1 ∧ e.2 = .tree c.2 := by
  rw [childEntries, mem_map]
  constructor
  · rintro ⟨c, hc, rfl⟩
    obtain ⟨hc, hchild⟩ := mem_filter.mp hc
    exact ⟨c, hc, of_decide_eq_true hchild, rfl, rfl⟩
  · rintro ⟨c, hc, hchild, hk, hv⟩
    exact ⟨c, mem_filter.mpr ⟨hc, decide_eq_true hchild⟩, Prod.ext hk hv.symm⟩

/-! ## The condition is enough -/

theorem treeSkName_sortKey {p : String} (h : NulFree (treeName p)) :
    treeSkName (treeSortKey p) = treeName p := by
  have hname : ∀ c ∈ (treeName p).toList, decide (c ≠ treeSkSep) = true :=
    fun c hc => decide_eq_true fun heq => h (heq ▸ hc)
  have hstop : ∀ l, (treeSkSep :: l).takeWhile (fun c => decide (c ≠ treeSkSep)) = [] := by
    intro l
    simp
  rw [treeSkName, toList_treeSortKey, rtakeWhile, reverse_append, reverse_cons,
    append_assoc, takeWhile_append_of_pos fun c hc => hname c (mem_reverse.mp hc),
    singleton_append, hstop, append_nil, reverse_reverse, String.ofList_toList]

theorem shown_of_childEntries
    (hn : ∀ c ∈ t.all, IsChild dir c.1 → NulFree (treeName c.1)) :
    (childEntries t dir).filterMap named = childrenAmong dir t.all := by
  rw [childEntries, childrenAmong, filterMap_map, ← filterMap_eq_map]
  refine filterMap_congr fun c hc => ?_
  obtain ⟨hc, hchild⟩ := mem_filter.mp hc
  show some (treeSkName (treeSortKey c.1), c.2) = _
  rw [treeSkName_sortKey (hn c hc (of_decide_eq_true hchild))]
  rfl

/-- In the range there is what the children have. -/
theorem ListsApart.childRange (ha : ListsApart x repo t dir)
    (h : (arts.map fun e => normalizePath e.1).Nodup) (hw : TreeOf x repo t w) :
    (w.childRange x repo dir).Perm (childEntries t dir) := by
  have hkeys := childEntries_nodup h ha.kinds
  refine (perm_ext_iff_of_nodup (childRange_nodup w x repo dir).of_map hkeys.of_map).mpr ?_
  intro e
  constructor
  · intro he
    obtain ⟨n, hn, hk, hv⟩ := hw.range_tree he
    have hin : InRange x repo dir n.1 := by
      unfold InRange
      rw [hk]
      exact ⟨rfl, (mem_childRange.mp he).2⟩
    obtain ⟨c, hc, hchild, hck, hce⟩ := ha.range n hn hin
    refine mem_childEntries.mpr ⟨c, hc, hchild, ?_, by rw [hv, hce]⟩
    exact congrArg Key.sk (hck.trans hk)
  · intro he
    obtain ⟨c, hc, hchild, hk, hv⟩ := mem_childEntries.mp he
    have hrange : InRange x repo dir c.1 := child_inRange hchild
    obtain ⟨v, hval⟩ := Option.isSome_iff_exists.mp (hw.complete c hc)
    obtain ⟨n, hn, hnk, hnv⟩ := hw.sound _ _ (nodeKey_inTree x repo c.1) hval
    have hnin : InRange x repo dir n.1 := by
      unfold InRange
      rw [hnk]
      exact hrange
    obtain ⟨c', hc', hchild', hck', hce'⟩ := ha.range n hn hnin
    have hsame : (treeSortKey c'.1, Value.tree c'.2) = (treeSortKey c.1, Value.tree c.2) := by
      refine inj_on_of_nodup_map hkeys (mem_childEntries.mpr ⟨c', hc', hchild', rfl, rfl⟩)
        (mem_childEntries.mpr ⟨c, hc, hchild, rfl, rfl⟩) ?_
      exact congrArg Key.sk (hck'.trans hnk)
    rw [mem_childRange, ← hk, ← child_key hchild, hval, hnv, ← hce', (Prod.mk.inj hsame).2, hv]
    exact ⟨rfl, hrange.2⟩

theorem ListsApart.exact (ha : ListsApart x repo t (trimEndSlashes dir))
    (h : (arts.map fun e => normalizePath e.1).Nodup) : ListsExactly x repo t dir := by
  refine listsExactly_iff.mpr fun w hw => ?_
  rw [← shown_of_childEntries ha.names]
  exact (ha.childRange h hw).filterMap _

/-! ## The condition is needed -/

variable {entries : List (Key × TreeEntry)}

theorem World.value_putBatch_or {k : Key} {v : Value} (h : (w.putBatch entries).value k = some v) :
    (∃ e, (k, e) ∈ entries ∧ v = .tree e) ∨ w.value k = some v := by
  induction entries generalizing w with
  | nil => exact .inr h
  | cons e entries ih =>
    have hstep : w.putBatch (e :: entries) =
        (w.setCell e.1 ((CellOp.put (Value.tree e.2)).apply (w.cell e.1))).putBatch entries := rfl
    rw [hstep] at h
    rcases ih h with ⟨e', hin, hv⟩ | hv
    · exact .inl ⟨e', mem_cons_of_mem _ hin, hv⟩
    · by_cases hk : k = e.1
      · subst hk
        rw [value, cell_setCell_self] at hv
        exact .inl ⟨e.2, mem_cons_self, (Option.some.inj hv).symm⟩
      · rw [value, cell_setCell_of_ne hk] at hv
        exact .inr hv

theorem World.value_putBatch_isSome {k : Key}
    (h : k ∈ entries.map Prod.fst) : ((w.putBatch entries).value k).isSome = true := by
  induction entries generalizing w with
  | nil => cases h
  | cons e entries ih =>
    have hstep : w.putBatch (e :: entries) =
        (w.setCell e.1 ((CellOp.put (Value.tree e.2)).apply (w.cell e.1))).putBatch entries := rfl
    rw [hstep]
    by_cases hin : k ∈ entries.map Prod.fst
    · exact ih hin
    · rw [map_cons, mem_cons] at h
      obtain rfl := h.resolve_right hin
      rw [value_putBatch_of_notMem hin, value, cell_setCell_self]
      rfl

/-- There is a table for all nodes. -/
theorem exists_treeOf (x : Ext) (repo : String) (t : TreeNodes arts) :
    ∃ w, TreeOf x repo t w := by
  refine ⟨({ now := 0 } : World).putBatch (t.all.map (keyed x repo)), ?_, ?_⟩
  · intro k v _ hv
    rcases World.value_putBatch_or hv with ⟨e, hin, rfl⟩ | hv
    · obtain ⟨n, hn, heq⟩ := mem_map.mp hin
      obtain ⟨rfl, rfl⟩ := Prod.mk.inj heq
      exact ⟨n, hn, rfl, rfl⟩
    · cases hv
  · exact fun n hn =>
      World.value_putBatch_isSome (mem_map_of_mem (mem_map_of_mem hn))

/-- Whichever of the nodes with a key was written last. -/
theorem TreeOf.setCell (h : TreeOf x repo t w) (hn : n ∈ t.all) :
    TreeOf x repo t (w.setCell (nodeKey x repo n.1) (some ⟨1, .tree n.2⟩)) := by
  refine ⟨fun k v hk hv => ?_, fun n' hn' => ?_⟩
  · by_cases heq : k = nodeKey x repo n.1
    · subst heq
      rw [World.value, World.cell_setCell_self] at hv
      exact ⟨n, hn, rfl, (Option.some.inj hv).symm⟩
    · rw [World.value, World.cell_setCell_of_ne heq] at hv
      exact h.sound k v hk hv
  · by_cases heq : nodeKey x repo n'.1 = nodeKey x repo n.1
    · rw [World.value, heq, World.cell_setCell_self]
      rfl
    · rw [World.value, World.cell_setCell_of_ne heq]
      exact h.complete n' hn'

/-- What is shown after a node has been written last. -/
theorem shown_setCell (hin : InRange x repo dir n.1) :
    ((w.setCell (nodeKey x repo n.1) (some ⟨1, .tree n.2⟩)).shown x repo dir).Perm
      ((treeSkName (treeSortKey n.1), n.2) :: ((w.childRange x repo dir).filter
        fun e => e.1 ≠ treeSortKey n.1).filterMap named) := by
  have hperm : ((w.setCell (nodeKey x repo n.1) (some ⟨1, .tree n.2⟩)).childRange x repo dir).Perm
      ((treeSortKey n.1, .tree n.2) :: (w.childRange x repo dir).filter
        fun e => e.1 ≠ treeSortKey n.1) := by
    have hrest : ((w.childRange x repo dir).filter fun e => e.1 ≠ treeSortKey n.1).Nodup :=
      (childRange_nodup w x repo dir).of_map.filter _
    refine (perm_ext_iff_of_nodup (childRange_nodup _ x repo dir).of_map
      (nodup_cons.mpr ⟨fun h => ?_, hrest⟩)).mpr fun e => ?_
    · exact of_decide_eq_true (mem_filter.mp h).2 rfl
    · rw [mem_childRange, mem_cons, mem_filter, mem_childRange, World.value,
        World.cell_setCell, inRange_key hin]
      by_cases heq : e.1 = treeSortKey n.1
      · have hkey : rangeKey x repo dir e.1 = rangeKey x repo dir (treeSortKey n.1) := by rw [heq]
        have hpre : hasPrefix (treeChildrenSkPrefix dir) e.1 = true := by
          rw [heq]
          exact hin.2
        rw [if_pos hkey]
        constructor
        · rintro ⟨hv, -⟩
          exact .inl (Prod.ext heq (Option.some.inj hv).symm)
        · rintro (rfl | ⟨-, hne⟩)
          · exact ⟨rfl, hpre⟩
          · exact absurd heq (of_decide_eq_true hne)
      · have hkey : rangeKey x repo dir e.1 ≠ rangeKey x repo dir (treeSortKey n.1) :=
          fun h => heq (congrArg Key.sk h)
        rw [if_neg hkey]
        constructor
        · exact fun he => .inr ⟨he, decide_eq_true heq⟩
        · rintro (rfl | ⟨he, -⟩)
          · exact absurd rfl heq
          · exact he
  exact hperm.filterMap named

section

variable {dir : String} (h : ListsExactly x repo t dir)

include h

/-- Nodes with one key in the range cannot be told apart. -/
theorem ListsExactly.entries_agree {n' : String × TreeEntry} (hn : n ∈ t.all)
    (hn' : n' ∈ t.all) (hin : InRange x repo (trimEndSlashes dir) n.1)
    (hk : nodeKey x repo n.1 = nodeKey x repo n'.1) : n.2 = n'.2 := by
  obtain ⟨w, hw⟩ := exists_treeOf x repo t
  have hin' : InRange x repo (trimEndSlashes dir) n'.1 := by
    unfold InRange
    rw [← hk]
    exact hin
  have hsk : treeSortKey n.1 = treeSortKey n'.1 := congrArg Key.sk hk
  have hshown := (shown_setCell (w := w) hin).symm.trans (listsExactly_iff.mp h _ (hw.setCell hn))
  have hshown' := (shown_setCell (w := w) hin').symm.trans
    (listsExactly_iff.mp h _ (hw.setCell hn'))
  rw [← hsk] at hshown'
  have hboth := Multiset.coe_eq_coe.mpr (hshown.trans hshown'.symm)
  rw [← Multiset.cons_coe, ← Multiset.cons_coe, Multiset.cons_inj_left] at hboth
  exact (Prod.mk.inj hboth).2

theorem ListsExactly.names (c : String × TreeEntry) (hc : c ∈ t.all)
    (hchild : IsChild (trimEndSlashes dir) c.1) : NulFree (treeName c.1) := by
  obtain ⟨w, hw⟩ := exists_treeOf x repo t
  have hin : (treeName c.1, c.2) ∈ childrenAmong (trimEndSlashes dir) t.all :=
    mem_map_of_mem (mem_filter.mpr ⟨hc, decide_eq_true hchild⟩)
  obtain ⟨e, -, he⟩ := mem_filterMap.mp ((listsExactly_iff.mp h w hw).mem_iff.mpr hin)
  obtain ⟨te, -, heq⟩ := Option.map_eq_some_iff.mp he
  rw [← (Prod.mk.inj heq).1, NulFree, treeSkName, String.toList_ofList]
  intro hnul
  have hne := mem_rtakeWhile_imp hnul
  simp at hne

theorem ListsExactly.kinds (f : String × TreeEntry) (hf : f ∈ t.files)
    (hchild : IsChild (trimEndSlashes dir) f.1) (d : String × TreeEntry)
    (hd : d ∈ t.dirs) : f.1 ≠ d.1 := by
  intro heq
  have hsame := h.entries_agree (mem_append_left _ hf) (mem_append_right _ hd)
    (child_inRange hchild) (by rw [heq])
  have hfile := (t.files_kind f hf).1
  rw [hsame, t.dirs_kind d hd] at hfile
  cases hfile

theorem ListsExactly.range (hn : (arts.map fun e => normalizePath e.1).Nodup)
    (n : String × TreeEntry) (hnode : n ∈ t.all)
    (hin : InRange x repo (trimEndSlashes dir) n.1) :
    ∃ c ∈ t.all, IsChild (trimEndSlashes dir) c.1 ∧
      nodeKey x repo c.1 = nodeKey x repo n.1 ∧ c.2 = n.2 := by
  obtain ⟨w, hw⟩ := exists_treeOf x repo t
  have hval : ∀ c ∈ t.all, InRange x repo (trimEndSlashes dir) c.1 →
      treeSortKey c.1 ∈ (w.childRange x repo (trimEndSlashes dir)).map Prod.fst := by
    intro c hc hrange
    obtain ⟨v, hv⟩ := Option.isSome_iff_exists.mp (hw.complete c hc)
    rw [inRange_key hrange] at hv
    exact mem_map.mpr ⟨(treeSortKey c.1, v), mem_childRange.mpr ⟨hv, hrange.2⟩, rfl⟩
  -- There are as many entries in the range as there are children.
  have hlen : (w.childRange x repo (trimEndSlashes dir)).length =
      (childEntries t (trimEndSlashes dir)).length := by
    have hshown := (listsExactly_iff.mp h w hw).length_eq
    have hall : ∀ e ∈ w.childRange x repo (trimEndSlashes dir), (named e).isSome = true := by
      intro e he
      obtain ⟨n, -, -, hv⟩ := hw.range_tree he
      rw [named, hv]
      rfl
    rw [World.shown, length_filterMap_eq_countP, countP_eq_length.mpr hall,
      childrenAmong, length_map] at hshown
    rw [childEntries, length_map, hshown]
  have hsub : (childEntries t (trimEndSlashes dir)).map Prod.fst ⊆
      (w.childRange x repo (trimEndSlashes dir)).map Prod.fst := by
    intro sk hsk
    obtain ⟨e, he, rfl⟩ := mem_map.mp hsk
    obtain ⟨c, hc, hchild, hk, -⟩ := mem_childEntries.mp he
    rw [← hk]
    exact hval c hc (child_inRange hchild)
  have hperm := (Nodup.subperm (childEntries_nodup hn h.kinds) hsub).perm_of_length_le (by
    rw [length_map, length_map, hlen])
  obtain ⟨e, he, hsk⟩ := mem_map.mp (hperm.mem_iff.mpr (hval n hnode hin))
  obtain ⟨c, hc, hchild, hk, -⟩ := mem_childEntries.mp he
  have hkey : nodeKey x repo c.1 = nodeKey x repo n.1 := by
    rw [child_key hchild, inRange_key hin, hk, hsk]
  exact ⟨c, hc, hchild, hkey, h.entries_agree hc hnode (child_inRange hchild) hkey⟩

end

/-- **Main theorem.** For every set of normalised paths, every entries of their nodes and every
    directory: the listing is exact if and only if the children's names have no zero byte, no
    child is both a file and a directory, and the range that is read holds nothing but the
    children. -/
theorem list_children_exact (x : Ext) (repo : String) (t : TreeNodes arts) (dir : String)
    (h : (arts.map fun e => normalizePath e.1).Nodup) :
    ListsExactly x repo t dir ↔ ListsApart x repo t (trimEndSlashes dir) :=
  ⟨fun he => ⟨he.names, he.kinds, he.range h⟩, fun ha => ha.exact h⟩

/-- A repository with the artifacts `a` and `a/b`. -/
def fileAndDir : List (String × ArtifactRecord) :=
  let record : ArtifactRecord :=
    ⟨1, "text/plain", 0, 0, 0, "", .raw, false, some "b", some "h", none⟩
  [("a", record), ("a/b", record)]

/-- The nodes that a rebuild makes. -/
def scannedTree (arts : List (String × ArtifactRecord)) : TreeNodes arts where
  files := treeFiles arts
  dirs := scannedDirs arts
  files_paths := rfl
  dirs_paths := by
    rw [scannedDirs, treeDirs, map_map, map_map]
    rfl
  files_kind n hn := by
    obtain ⟨e, -, rfl⟩ := mem_map.mp hn
    exact ⟨rfl, rfl⟩
  dirs_kind n hn := by
    obtain ⟨d, -, rfl⟩ := mem_map.mp hn
    rfl

/-- The root lists `a` once, as a file or as a directory. -/
theorem file_and_dir_not_listed : ¬ ListsExactly Ext.sample "r" (scannedTree fileAndDir) "" := by
  intro h
  have hfile : ∃ f ∈ (scannedTree fileAndDir).files, IsChild (trimEndSlashes "") f.1 ∧
      ∃ d ∈ (scannedTree fileAndDir).dirs, f.1 = d.1 := by decide +kernel
  obtain ⟨f, hf, hchild, d, hd, heq⟩ := hfile
  exact h.kinds f hf hchild d hd heq

theorem list_children_exact_sub : ListsExactly Ext.sample "r" (scannedTree fileAndDir) "a/" :=
  (list_children_exact Ext.sample "r" (scannedTree fileAndDir) "a/" (by decide +kernel)).mpr
    ⟨by decide +kernel, by decide +kernel, by decide +kernel⟩

/-! ## Rebuilt tables -/

/-- A rebuild leaves a table in which every node has an entry. -/
theorem rebuilt_treeOf {o : ScanOrder} {w' : World} {updates count bytes : ℕ}
    (h : fullScanRepo x o w repo = .ok (w', updates, count, bytes)) :
    TreeOf x repo (scannedTree (w.artifactsOf repo)) w' := by
  have hd : w.ArtifactsDecode repo := by
    by_contra hd
    obtain ⟨err, herr⟩ := scanArtifacts_fails hd o
    rw [fullScanRepo, herr] at h
    cases h
  obtain ⟨expected, he, hok⟩ := fullScanRepo_ok (x := x) hd o
  rw [h] at hok
  obtain rfl := (Prod.mk.inj (Except.ok.inj hok)).1
  have hr := batches_rebuilt (o := o) (w := w) he.inTree
  refine ⟨fun k v hk hv => ?_, fun n hn => ?_⟩
  · rw [hr.tree k hk] at hv
    obtain ⟨e, hl, rfl⟩ := Option.map_eq_some_iff.mp hv
    obtain ⟨n, hn, heq⟩ := mem_map.mp (he.sound k e hl)
    obtain ⟨rfl, rfl⟩ := Prod.mk.inj heq
    exact ⟨n, hn, rfl, rfl⟩
  · rw [hr.tree _ (nodeKey_inTree x repo n.1), Option.isSome_map]
    exact he.complete n hn

/-- Without zero bytes in the paths, only two things are listed wrongly: a name that is both
    a file and a directory, and the scope of the root entry, which lists the root. -/
theorem listsApart_iff (hnul : ∀ e ∈ arts, NulFree (normalizePath e.1)) :
    ListsApart x repo t dir ↔
      (∀ f ∈ t.files, IsChild dir f.1 → ∀ d ∈ t.dirs, f.1 ≠ d.1) ∧
        (dir = rootParent → arts = []) := by
  have hfree : ∀ n ∈ t.all, NulFree n.1 := fun n hn =>
    nulFree_node hnul (t.paths ▸ mem_map_of_mem hn)
  have hclean : ∀ n ∈ t.all, CleanPath n.1 := fun n hn =>
    t.clean hn
  constructor
  · refine fun h => ⟨h.kinds, fun hroot => ?_⟩
    by_contra hne
    obtain ⟨e, he⟩ := exists_mem_of_ne_nil arts hne
    have hpath : "" ∈ t.dirs.map Prod.fst := by
      rw [t.dirs_paths]
      exact mem_treeDirs_path.mpr ⟨e, he, .inl rfl⟩
    obtain ⟨n, hn, hempty⟩ := mem_map.mp hpath
    have hnode : n ∈ t.all := mem_append_right _ hn
    have hin : InRange x repo dir n.1 := by
      have hpre : hasPrefix (treeChildrenSkPrefix rootParent) (treeSortKey "") = true := by
        decide
      rw [hempty, hroot]
      exact ⟨rfl, hpre⟩
    obtain ⟨c, hc, hchild, hk, -⟩ := h.range n hnode hin
    have hsame := treeSortKey_inj (hclean c hc) (hclean n hnode) (hfree c hc) (congrArg Key.sk hk)
    exact hchild.1 (hsame.trans hempty)
  · rintro ⟨hk, hroot⟩
    refine ⟨fun c hc _ => nulFree_treeName (hfree c hc), hk, fun n hn hin => ?_⟩
    have hparent : treeParent n.1 = dir := by
      obtain ⟨rest, hrest⟩ := of_decide_eq_true hin.2
      rw [treeChildrenSkPrefix, String.toList_append, String.toList_singleton,
        append_assoc, singleton_append] at hrest
      have hsplit : (treeParent n.1).toList ++ treeSkSep :: (treeName n.1).toList =
          dir.toList ++ treeSkSep :: rest := by
        rw [← toList_treeSortKey, hrest]
        rfl
      rw [append_cons_inj_of_notMem (nulFree_treeParent (hfree n hn))
        (nulFree_treeName (hfree n hn))] at hsplit
      exact String.toList_inj.mp hsplit.1
    by_cases hne : n.1 = ""
    · have hdirroot : dir = rootParent := by rw [← hparent, hne]; rfl
      have hpath := mem_map_of_mem (f := Prod.fst) hn
      have harts := hroot hdirroot
      subst harts
      rw [t.paths] at hpath
      cases hpath
    · exact ⟨n, hn, ⟨hne, hparent⟩, rfl, rfl⟩

/-- **Main theorem.** After a rebuild, whatever the table was before, the listing of every
    directory is that of the artifacts: if no path has a zero byte, no two are the same, and
    none lies below another. -/
theorem listed_after_rebuild {o : ScanOrder} {w' : World} {updates count bytes : ℕ}
    (h : fullScanRepo x o w repo = .ok (w', updates, count, bytes))
    (hnul : ∀ e ∈ w.artifactsOf repo, NulFree (normalizePath e.1))
    (hnodup : ((w.artifactsOf repo).map fun e => normalizePath e.1).Nodup)
    (hbelow : ∀ e ∈ w.artifactsOf repo, ∀ e' ∈ w.artifactsOf repo,
      ¬ Below (normalizePath e.1) (normalizePath e'.1))
    (hroot : trimEndSlashes dir ≠ rootParent) :
    ∃ dirs files, listChildren x w' repo dir = .ok (dirs, files) ∧
      dirs.Perm (dirsOf (childrenAmong (trimEndSlashes dir) (scannedDirs (w.artifactsOf repo)))) ∧
      files.Perm (childrenAmong (trimEndSlashes dir) (treeFiles (w.artifactsOf repo))) := by
  have hapart : ListsApart x repo (scannedTree (w.artifactsOf repo)) (trimEndSlashes dir) := by
    refine (listsApart_iff hnul).mpr ⟨fun f hf _ d hd heq => ?_, fun h => absurd h hroot⟩
    obtain ⟨e, he, hfile⟩ := mem_treeFiles_path.mp (mem_map_of_mem (f := Prod.fst) hf)
    have hpath := mem_map_of_mem (f := Prod.fst) hd
    rw [(scannedTree _).dirs_paths] at hpath
    obtain ⟨e', he', hb⟩ := mem_treeDirs_path.mp hpath
    exact hbelow e he e' he' (by rwa [hfile, heq])
  exact hapart.exact hnodup w' (rebuilt_treeOf h)

/-- A repository with three artifacts. -/
def threeFiles : World :=
  let w := fun (w : World) path => w.setCell (artifactKey Ext.sample.shardOf "r" path)
    (some ⟨1, .artifact ⟨1, "text/plain", 0, 0, 0, "", .raw, false, some "b", some "h", none⟩⟩)
  w (w (w { now := 0 } "a/b") "a/c/d") "a/c/e"

/-- A file and a directory with two files. -/
theorem listed_after_rebuild_three : ∃ w' updates count bytes,
    fullScanRepo Ext.sample .ascending threeFiles "r" = .ok (w', updates, count, bytes) ∧
      ∃ dirs files, listChildren Ext.sample w' "r" "a/" = .ok (dirs, files) ∧
        dirs.map (fun d => (d.1, d.2.artifactCount, d.2.totalBytes)) = [("c", 2, 2)] ∧
        files.map Prod.fst = ["b"] := by
  have hw : threeFiles.ArtifactsStored Ext.sample "r" :=
    (((artifactsStored_empty Ext.sample "r").write "r" "a/b" 1 _).write "r" "a/c/d" 1 _).write
      "r" "a/c/e" 1 _
  obtain ⟨expected, -, hok⟩ := fullScanRepo_ok (x := Ext.sample) (w := threeFiles)
    (fun shard hs sk v hv => (hw shard hs sk v hv).2) .ascending
  obtain ⟨dirs, files, hlist, hdirs, hfiles⟩ := listed_after_rebuild hok (by decide +kernel)
    (by decide +kernel) (by decide +kernel) (by decide +kernel : trimEndSlashes "a/" ≠ rootParent)
  refine ⟨_, _, _, _, hok, dirs, files, hlist, perm_singleton.mp ?_, perm_singleton.mp ?_⟩
  · refine (hdirs.map _).trans (perm_singleton.mpr ?_)
    decide +kernel
  · refine (hfiles.map _).trans (perm_singleton.mpr ?_)
    decide +kernel

end

end Depot
