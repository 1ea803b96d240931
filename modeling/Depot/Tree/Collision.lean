import Depot.Tree.Children
import Depot.Worker.Balance

/-!
# A file over a directory

A file and a directory of one path have one tree key (`core/src/store/keys.rs`, lines
181–212). `put_artifact` writes the file entry there, `delete_artifact` removes what is
there, and `apply_dir_delta` skips an entry that is a file. The puts and deletes of two
artifacts, one below the other, run together with an update worker.

Results:
* `not_keepsTree`: from every state in which both are stored and the deltas for the directory
  between them are applied, deleting the upper one takes that directory away.
* `exists_collision`: such a state is reached, whatever the two paths are.
* `collisions_damage`: so no two such paths are safe.
* `directory_erased`: the damage is still there when every delta is applied.

**The tree never has both.** While an artifact is stored at the path of a directory, its file
takes the place of the directory's entry, and the delete that removes the file leaves nothing.
-/

namespace Depot

open Lib List

/-! ## Puts and deletes -/

/-- A put or a delete of an artifact, or an event of the update workers. -/
inductive TreeOp where
  | put (path : String) (record : ArtifactRecord)
  | delete (path : String) (now : DateTime)
  | work (e : UpdateEvent)

section

variable (x : Ext) (repo : String)

/-- What an operation does: `put_artifact` and `delete_artifact` change the record and the
    tree entry, and their callers send the delta. -/
def TreeOp.events (w : World) : TreeOp → List UpdateEvent
  | .put path record =>
      let delta := putDelta record.size ((w.artifact x repo path).map ArtifactRecord.size)
      [.other (artifactKey x.shardOf repo path) (.put (.artifact record)),
        .other (treeEntryKey x.shardOf repo path) (.put (.tree (treeFileEntry record))),
        .send 0 repo path delta.1 delta.2 record.updatedAt]
  | .delete path now =>
      match w.artifact x repo path with
      | some record =>
          [.other (artifactKey x.shardOf repo path) .remove,
            .other (treeEntryKey x.shardOf repo path) .remove,
            .send 0 repo path (-1) (-record.size) now]
      | none => []
  | .work e => [e]

/-- Operations, one after the other. -/
def UpdateState.operate (s : UpdateState) : List TreeOp → Option UpdateState
  | [] => some s
  | op :: ops => (s.run x (fun _ _ => true) (op.events x repo s.world)).bind fun s' =>
      s'.operate ops

/-- A put or a delete of one of two artifacts, or an event of a worker. -/
def TreeOp.concerns (p q : String) : TreeOp → Bool
  | .put path _ => decide (path = p ∨ path = q)
  | .delete path _ => decide (path = p ∨ path = q)
  | .work (.send ..) => false
  | .work (.other ..) => false
  | .work _ => true

/-- The entry at a path of the tree. -/
def World.treeAt (w : World) (path : String) : Option TreeEntry :=
  (w.value (treeEntryKey x.shardOf repo path)).bind Value.tree?

/-- Each of the artifacts `p` and `q` has a file in the tree exactly while it is stored; and
    each directory above one that is stored, unless it is the path of an artifact itself, has the
    true count and bytes once the deltas for it and below are applied. -/
structure NoDamage (s : UpdateState) (p q : String) : Prop where
  files : ∀ path, path = p ∨ path = q →
    ((∃ te, s.world.treeAt x repo path = some te ∧ te.asFile? = some te) ↔
      (s.world.artifact x repo path).isSome = true)
  counters : ∀ d path, path = p ∨ path = q → (s.world.artifact x repo path).isSome = true →
    Below d path → s.world.artifact x repo d = none → deltasBelow repo d s.pending = [] →
    ∃ te, s.world.treeAt x repo d = some te ∧
      te.kind = .dir (recordsBelow (s.world.artifactsOf repo) d).length
        ((recordsBelow (s.world.artifactsOf repo) d).map (·.size)).sum

/-- Every order of puts and deletes of the two keeps the tree. -/
def KeepsTree (s : UpdateState) (p q : String) : Prop :=
  ∀ ops, ops.all (TreeOp.concerns p q) = true → ∀ s', s.operate x repo ops = some s' →
    NoDamage x repo s' p q

/-- Both artifacts are stored, and no delta for the directory at `p` or below is pending. -/
structure Collision (s : UpdateState) (p q : String) : Prop where
  upper : (s.world.artifact x repo p).isSome = true
  lower : (s.world.artifact x repo q).isSome = true
  applied : deltasBelow repo p s.pending = []
  worker : s.workers ≠ []

end

variable {x : Ext} {repo p q : String} {s : UpdateState}

/-! ## Keys -/

theorem treeEntryKey_clean (h : CleanPath p) : treeEntryKey x.shardOf repo p = dirKey x repo p := by
  rw [treeEntryKey, normalizePath_clean h, dirKey]

theorem artifactKey_clean (h : CleanPath p) :
    artifactKey x.shardOf repo p = ⟨artifactShardPk repo (x.shardOf p), p⟩ := by
  rw [artifactKey, normalizePath_clean h]

theorem dirKey_ne_artifactKey (repo repo' path d : String) :
    dirKey x repo' d ≠ artifactKey x.shardOf repo path := fun h =>
  absurd (congrArg (fun k => k.part.table) h) (show Table.dirEntries ≠ .artifacts by decide)

/-- What lies below a directory is longer. -/
theorem length_of_below (hne : p ≠ "") (h : Below p q) : p.toList.length < q.toList.length := by
  obtain ⟨rest, hrest⟩ := h.resolve_left hne
  rw [hrest]
  simp

/-- An update for an artifact goes to directories with shorter paths. -/
theorem notMem_ancestors_parentDir (hne : p ≠ "") (hle : p.toList.length ≤ q.toList.length) :
    q ∉ ancestors (parentDir p) := fun h => by
  have hlt := length_parentDir hne
  have hup := length_of_mem_ancestors h
  omega

theorem artifact_setCell {w : World} {k : Key} {c : Option (Versioned Value)}
    (hk : k ≠ ⟨artifactShardPk repo (x.shardOf p), p⟩) :
    (w.setCell k c).artifact x repo p = w.artifact x repo p := by
  rw [World.artifact, World.artifact, World.value, World.value, World.cell_setCell_of_ne hk.symm]

/-! ## The damage -/

section

variable {wk : Worker} {workers : List Worker}

theorem pending_send (hworkers : s.workers = wk :: workers) (delta : DirDelta) (d : String) :
    deltasBelow repo d ({ s.setWorker 0 { wk with queue := wk.queue ++ [delta] } with
      received := s.received ++ [delta] } : UpdateState).pending = [] ↔
      deltasBelow repo d s.pending = [] ∧ deltasBelow repo d [delta] = [] := by
  simp only [UpdateState.pending, UpdateState.setWorker, hworkers, set_cons_zero, flatMap_cons,
    Worker.pending, deltasBelow, filter_append, append_eq_nil_iff]
  tauto

/-- The delta of an artifact is not for the directory of the same path. -/
theorem deltasBelow_changed (hp : CleanPath p) (hne : p ≠ "") (c n : ℤ) (t : DateTime) :
    deltasBelow repo p [.changed repo p c n t] = [] := by
  have hnot := notMem_ancestors_parentDir hne le_rfl
  rw [← normalizePath_clean hp] at hnot
  simpa [deltasBelow, DirDelta.changed, normalizePath_clean hp] using hnot

/-- The upper artifact is deleted: the lower one is below a directory that the tree does not
    have. -/
theorem not_keepsTree (hp : CleanPath p) (hne : p ≠ "") (hb : Below p q)
    (h : Collision x repo s p q) : ¬ KeepsTree x repo s p q := by
  intro hkeeps
  obtain ⟨record, hrecord⟩ := Option.isSome_iff_exists.mp h.upper
  obtain ⟨wk, workers, hworkers⟩ := exists_cons_of_ne_nil h.worker
  have hlt := length_of_below hne hb
  have hkp : artifactKey x.shardOf repo p ≠ ⟨artifactShardPk repo (x.shardOf q), q⟩ := by
    rw [artifactKey_clean hp]
    intro heq
    rw [show p = q from congrArg Key.sk heq] at hlt
    exact absurd hlt (lt_irrefl _)
  have htree : ∀ path, treeEntryKey x.shardOf repo p ≠
      ⟨artifactShardPk repo (x.shardOf path), path⟩ := fun path heq =>
    absurd (congrArg (fun k => k.part.table) heq) (show Table.dirEntries ≠ .artifacts by decide)
  set w := (s.world.setCell (artifactKey x.shardOf repo p) none).setCell
    (treeEntryKey x.shardOf repo p) none with hw
  set delta := DirDelta.changed repo p (-1) (-record.size) 0 with hdelta
  have hrun : s.operate x repo [.delete p 0] = some
      { world := w
        workers := { wk with queue := wk.queue ++ [delta] } :: workers
        received := s.received ++ [delta] } := by
    simp [UpdateState.operate, TreeOp.events, hrecord, UpdateState.run, UpdateState.step,
      UpdateState.setWorker, hworkers, CellOp.apply_remove, hw, hdelta]
  have hnone : w.artifact x repo p = none := by
    rw [hw, artifact_setCell (htree p), World.artifact, World.value, ← artifactKey_clean hp,
      World.cell_setCell_self]
    rfl
  have hlower : (w.artifact x repo q).isSome = true := by
    rw [hw, artifact_setCell (htree q), artifact_setCell hkp]
    exact h.lower
  have hsettled := (pending_send (s := s) hworkers delta p).mpr
    ⟨h.applied, deltasBelow_changed hp hne _ _ _⟩
  simp only [UpdateState.setWorker, hworkers, set_cons_zero] at hsettled
  obtain ⟨te, hte, -⟩ := (hkeeps _ (by simp [TreeOp.concerns]) _ hrun).counters p q (.inr rfl)
    hlower hb hnone hsettled
  rw [World.treeAt, World.value, hw, World.cell_setCell_self] at hte
  cases hte

end

/-! ## A state with the two artifacts -/

theorem operate_work (es : List UpdateEvent) :
    s.operate x repo (es.map .work) = s.run x (fun _ _ => true) es := by
  induction es generalizing s with
  | nil => rfl
  | cons e es ih =>
    rw [map_cons, UpdateState.operate, TreeOp.events, UpdateState.run, UpdateState.run,
      if_pos rfl, if_pos rfl]
    cases s.step x e with
    | none => rfl
    | some s' => exact ih

theorem operate_append {s' : UpdateState} {ops ops' : List TreeOp}
    (h : s.operate x repo ops = some s') :
    s.operate x repo (ops ++ ops') = s'.operate x repo ops' := by
  induction ops generalizing s with
  | nil =>
    obtain rfl := Option.some_inj.mp h
    rfl
  | cons op ops ih =>
    rw [UpdateState.operate] at h
    obtain ⟨s₁, hs₁, hrest⟩ := Option.bind_eq_some_iff.mp h
    rw [cons_append, UpdateState.operate, hs₁, Option.bind_some]
    exact ih hrest

/-- An iteration of the inner loop with one delta. -/
def oneRound : List UpdateEvent := [.begin 0, .read 0 0 true, .write 0 0 true, .finish 0]

variable {wk : Worker} {delta : DirDelta}

/-- The one pending delta makes an entry and goes on to the parent. -/
theorem run_oneRound (hworkers : s.workers = [wk]) (hphase : wk.phase = .working)
    (hone : wk.coalesced = [delta])
    (hnone : s.world.cell (dirKey x delta.repo delta.dirPath) = none)
    (hcount : 0 < delta.countDelta) :
    ∃ c, s.run x (fun _ _ => true) oneRound = some
      { s with
        world := s.world.setCell (dirKey x delta.repo delta.dirPath) c
        workers := [{ propagationBuf := if delta.dirPath = "" then [] else [delta.parent] }] } := by
  obtain ⟨te, hplan⟩ : ∃ te, planDirDelta delta none = .ok (some (.putIf (.tree te) none)) :=
    ⟨_, by rw [planDirDelta, if_neg (not_le.mpr hcount)]⟩
  refine ⟨CellOp.apply (.putIf (.tree te) none) none, ?_⟩
  have hbegin : s.step x (.begin 0) = some
      { s with workers := [{ phase := .batch [⟨delta, none⟩] {} }] } := by
    simp [UpdateState.step, hworkers, UpdateState.beginBatch, hphase, hone, UpdateState.setWorker]
  have hread : ({ s with workers := [{ phase := .batch [⟨delta, none⟩] {} }] } : UpdateState).step x
      (.read 0 0 true) = some { s with
        workers := [{ phase := .batch [⟨delta, some (.putIf (.tree te) none)⟩] {} }] } := by
    simp [UpdateState.step, UpdateState.readEntry, Worker.flight, hnone, hplan, Worker.plan,
      UpdateState.setWorker]
  simp only [oneRound, UpdateState.run, hbegin, hread, if_true, Option.bind_some]
  by_cases hroot : delta.dirPath = ""
  · rw [hroot] at hnone
    simp [UpdateState.step, UpdateState.writeEntry, Worker.flight, hnone, CellOp.enabled,
      UpdateState.setWorker, Worker.finishCall, DirBatchResult.add, UpdateState.finishBatch,
      mergeAll, hroot]
  · simp [UpdateState.step, UpdateState.writeEntry, Worker.flight, hnone, CellOp.enabled,
      UpdateState.setWorker, Worker.finishCall, DirBatchResult.add, UpdateState.finishBatch,
      mergeAll, mergeDirDelta, hroot]

/-- The delta of a first artifact reaches the root, where no directory has an entry. -/
theorem exists_settled (hworkers : s.workers = [wk]) (hphase : wk.phase = .working)
    (hone : wk.coalesced = [delta]) (hcount : 0 < delta.countDelta)
    (hclean : CleanPath delta.dirPath) (hnul : NulFree delta.dirPath)
    (hnone : ∀ d ∈ ancestors delta.dirPath, s.world.cell (dirKey x delta.repo d) = none) :
    ∃ es s', (es.map .work).all (TreeOp.concerns p q) = true ∧
      s.run x (fun _ _ => true) es = some s' ∧ s'.workers = [{}] ∧
      ∀ k, (∀ d, k ≠ dirKey x delta.repo d) → s'.world.cell k = s.world.cell k := by
  -- the directories above, up to the root
  induction hn : delta.dirPath.toList.length using Nat.strongRecOn generalizing s wk delta with
  | ind n ih =>
    obtain ⟨c, hrun⟩ := run_oneRound hworkers hphase hone (hnone _ (self_mem_ancestors _)) hcount
    by_cases hroot : delta.dirPath = ""
    · rw [if_pos hroot] at hrun
      exact ⟨oneRound, _, rfl, hrun, rfl, fun k hk => World.cell_setCell_of_ne (hk _) c⟩
    · rw [if_neg hroot] at hrun
      have hlt := length_parentDir hroot
      have hup : ∀ d ∈ ancestors (parentDir delta.dirPath), d ∈ ancestors delta.dirPath := by
        intro d hd
        rw [ancestors_of_ne hroot]
        exact mem_cons_of_mem _ hd
      obtain ⟨hclean', hnul'⟩ := clean_ancestors hclean hnul (hup _ (self_mem_ancestors _))
      have hnone' : ∀ d ∈ ancestors delta.parent.dirPath,
          (s.world.setCell (dirKey x delta.repo delta.dirPath) c).cell
            (dirKey x delta.parent.repo d) = none := by
        intro d hd
        have hle : d.toList.length ≤ (parentDir delta.dirPath).toList.length :=
          length_of_mem_ancestors hd
        obtain ⟨hcleand, hnuld⟩ := clean_ancestors hclean hnul (hup d hd)
        have hne : dirKey x delta.repo d ≠ dirKey x delta.repo delta.dirPath := by
          intro heq
          rw [(dirKey_inj hcleand hclean hnuld heq).2] at hle
          exact absurd hlt (not_lt.mpr hle)
        exact (World.cell_setCell_of_ne hne c).trans (hnone d (hup d hd))
      obtain ⟨es, s', hes, hrest, hworkers', hsame⟩ := @ih _ (hn ▸ hlt)
        { s with
          world := s.world.setCell (dirKey x delta.repo delta.dirPath) c
          workers := [{ propagationBuf := [delta.parent] }] }
        _ delta.parent rfl rfl rfl hcount hclean' hnul' hnone' rfl
      refine ⟨oneRound ++ es, s', ?_, (UpdateState.run_append hrun).trans hrest, hworkers', ?_⟩
      · rw [map_append, all_append, hes]
        rfl
      · exact fun k hk => (hsame k hk).trans (World.cell_setCell_of_ne (hk _) c)

/-- The store after a put. -/
def World.withArtifact (w : World) (x : Ext) (repo path : String) (record : ArtifactRecord) :
    World :=
  let w' := w.setCell (artifactKey x.shardOf repo path)
    (CellOp.apply (.put (.artifact record)) (w.cell (artifactKey x.shardOf repo path)))
  w'.setCell (treeEntryKey x.shardOf repo path)
    (CellOp.apply (.put (.tree (treeFileEntry record))) (w'.cell (treeEntryKey x.shardOf repo path)))

theorem operate_put {workers : List Worker} (hworkers : s.workers = wk :: workers) (path : String)
    (record : ArtifactRecord) {d : ℤ × ℤ}
    (hd : d = putDelta record.size ((s.world.artifact x repo path).map ArtifactRecord.size)) :
    s.operate x repo [.put path record] = some
      { world := s.world.withArtifact x repo path record
        workers := { wk with queue := wk.queue ++ [.changed repo path d.1 d.2 record.updatedAt] } ::
          workers
        received := s.received ++ [.changed repo path d.1 d.2 record.updatedAt] } := by
  simp [UpdateState.operate, TreeOp.events, UpdateState.run, UpdateState.step,
    UpdateState.setWorker, hworkers, World.withArtifact, ← hd]

theorem treeEntryKey_ne (path path' : String) :
    treeEntryKey x.shardOf repo path ≠ ⟨artifactShardPk repo (x.shardOf path'), path'⟩ := fun h =>
  absurd (congrArg (fun k => k.part.table) h) (show Table.dirEntries ≠ .artifacts by decide)

/-- An artifact that is put is stored. -/
theorem artifact_withArtifact (hp : CleanPath p) (w : World) (record : ArtifactRecord) :
    (w.withArtifact x repo p record).artifact x repo p = some record := by
  rw [World.withArtifact, artifact_setCell (treeEntryKey_ne p p), World.artifact, World.value,
    ← artifactKey_clean hp, World.cell_setCell_self]
  rfl

theorem artifact_withArtifact_of_ne (hp : CleanPath p) (h : p ≠ q) (w : World)
    (record : ArtifactRecord) :
    (w.withArtifact x repo p record).artifact x repo q = w.artifact x repo q := by
  have hkey : artifactKey x.shardOf repo p ≠ ⟨artifactShardPk repo (x.shardOf q), q⟩ := by
    rw [artifactKey_clean hp]
    exact fun heq => h (congrArg Key.sk heq)
  rw [World.withArtifact, artifact_setCell (treeEntryKey_ne p q), artifact_setCell hkey]

/-- One artifact. -/
def oneByte : ArtifactRecord :=
  ⟨1, "text/plain", 0, 0, 0, "", .raw, false, some "b", some "h", none⟩

/-- The lower artifact is put, its delta is taken up to the root, then the upper one is put. -/
theorem exists_collision (x : Ext) (repo : String) (hp : CleanPath p) (hq : CleanPath q)
    (hnul : NulFree q) (hne : p ≠ "") (hb : Below p q) :
    ∃ ops s, ops.all (TreeOp.concerns p q) = true ∧
      (UpdateState.fresh { now := 0 } 1).operate x repo ops = some s ∧ Collision x repo s p q := by
  have hlt := length_of_below hne hb
  have hneq : q ≠ "" := by
    rintro rfl
    exact absurd hlt (Nat.not_lt_zero _)
  have hpq : p ≠ q := by
    rintro rfl
    exact absurd hlt (lt_irrefl _)
  set w := World.withArtifact { now := 0 } x repo q oneByte with hw
  set delta := DirDelta.changed repo q 1 oneByte.size oneByte.updatedAt with hdelta
  have hdir : delta.dirPath = parentDir q := by
    rw [hdelta, DirDelta.changed, normalizePath_clean hq]
  have hput : (UpdateState.fresh { now := 0 } 1).operate x repo [.put q oneByte] = some
      { world := w, workers := [{ queue := [delta] }], received := [delta] } :=
    @operate_put x repo (UpdateState.fresh { now := 0 } 1) {} [] rfl q oneByte _ rfl
  have hparent : parentDir q ∈ ancestors q := by
    rw [ancestors_of_ne hneq]
    exact mem_cons_of_mem _ (self_mem_ancestors _)
  obtain ⟨hclean', hnul'⟩ := clean_ancestors hq hnul hparent
  rw [← hdir] at hclean' hnul'
  have hnone : ∀ d ∈ ancestors delta.dirPath, w.cell (dirKey x delta.repo d) = none := by
    intro d hd
    obtain ⟨hcleand, hnuld⟩ := clean_ancestors hclean' hnul' hd
    have htree : dirKey x delta.repo d ≠ treeEntryKey x.shardOf repo q := by
      rw [treeEntryKey_clean hq]
      intro heq
      rw [hdir] at hd
      rw [(dirKey_inj hcleand hq hnuld heq).2] at hd
      exact notMem_ancestors_parentDir hneq le_rfl hd
    rw [hw, World.withArtifact, World.cell_setCell_of_ne htree,
      World.cell_setCell_of_ne (dirKey_ne_artifactKey _ _ _ _)]
    rfl
  obtain ⟨es, s, hes, hrun, hworkers, hsame⟩ := @exists_settled x p q
    { world := w, workers := [{ queue := [delta] }], received := [delta] } _ delta rfl rfl rfl
    Int.one_pos hclean' hnul' hnone
  have hlower : s.world.artifact x repo q = some oneByte := by
    rw [World.artifact, World.value, ← artifactKey_clean hq,
      hsame _ fun d => (dirKey_ne_artifactKey _ _ _ _).symm, artifactKey_clean hq]
    exact artifact_withArtifact hq { now := 0 } oneByte
  have hlast := @operate_put x repo s _ [] hworkers p oneByte _ rfl
  have hdrained := (@operate_work x repo _ es).trans hrun
  have hwork := (operate_append hdrained).trans hlast
  refine ⟨.put q oneByte :: (es.map .work ++ [.put p oneByte]), _, ?_,
    (operate_append hput).trans hwork, ?_, ?_, ?_, cons_ne_nil _ _⟩
  · rw [all_cons, all_append, hes]
    simp [TreeOp.concerns]
  · rw [artifact_withArtifact hp]
    rfl
  · rw [artifact_withArtifact_of_ne hp hpq, hlower]
    rfl
  · exact deltasBelow_changed hp hne _ _ _

/-- **Main theorem.** Of two artifacts, one below the other, the tree is never safe: they can be
    stored with all deltas applied, and from every such state a delete of the upper one leaves
    the lower one below a directory that the tree does not have. -/
theorem collisions_damage (x : Ext) (repo p q : String) (hp : CleanPath p) (hq : CleanPath q)
    (hnul : NulFree q) (hne : p ≠ "") (hb : Below p q) :
    (∃ ops s, ops.all (TreeOp.concerns p q) = true ∧
      (UpdateState.fresh { now := 0 } 1).operate x repo ops = some s ∧ Collision x repo s p q) ∧
    ∀ s, Collision x repo s p q → ¬ KeepsTree x repo s p q :=
  ⟨exists_collision x repo hp hq hnul hne hb, fun _ => not_keepsTree hp hne hb⟩

theorem collisions_damage_sample : ∃ ops s, ops.all (TreeOp.concerns "a" "a/b") = true ∧
    (UpdateState.fresh { now := 0 } 1).operate Ext.sample "r" ops = some s ∧
    ¬ KeepsTree Ext.sample "r" s "a" "a/b" := by
  obtain ⟨hstart, hdamage⟩ := collisions_damage Ext.sample "r" "a" "a/b" (clean_name (by decide))
    ⟨by decide, by decide, by decide⟩ (by decide) (by decide) (by decide)
  obtain ⟨ops, s, hops, hrun, hs⟩ := hstart
  exact ⟨ops, s, hops, hrun, hdamage s hs⟩

/-! ## When all deltas are applied -/

/-- A worker takes the deltas that it holds to the root and finds nothing more to do. -/
def settle (rounds : ℕ) : List TreeOp :=
  ((replicate rounds oneRound).flatten ++ [UpdateEvent.begin 0]).map .work

/-- `a/b` is put and its delta applied, then `a` is put, and its delta applied. -/
def putBoth : List TreeOp :=
  .put "a/b" oneByte :: settle 2 ++ [.put "a" oneByte, .work (.wake 0)] ++ settle 1

/-- `a` is deleted again. -/
def deleteUpper : List TreeOp := [.delete "a" 0, .work (.wake 0)] ++ settle 1

/-- With both artifacts stored nothing is pending. After `a` is deleted and that delta is
    applied, `a/b` is below a directory that the tree does not have. -/
theorem directory_erased : ∃ s s', (UpdateState.fresh { now := 0 } 1).operate Ext.sample "r" putBoth =
      some s ∧ s.operate Ext.sample "r" deleteUpper = some s' ∧
    (putBoth ++ deleteUpper).all (TreeOp.concerns "a" "a/b") = true ∧
    s.pending = [] ∧ s'.pending = [] ∧
    (s.world.artifact Ext.sample "r" "a").isSome = true ∧
    (s.world.artifact Ext.sample "r" "a/b").isSome = true ∧
    ¬ NoDamage Ext.sample "r" s' "a" "a/b" := by
  have hrun : ((UpdateState.fresh { now := 0 } 1).operate Ext.sample "r" putBoth).any
      (fun s => (s.operate Ext.sample "r" deleteUpper).any fun s' =>
        decide (s.pending = [] ∧ s'.pending = [] ∧
          (s.world.artifact Ext.sample "r" "a").isSome = true ∧
          (s.world.artifact Ext.sample "r" "a/b").isSome = true ∧
          (s'.world.artifact Ext.sample "r" "a/b").isSome = true ∧
          s'.world.artifact Ext.sample "r" "a" = none ∧
          s'.world.treeAt Ext.sample "r" "a" = none)) = true := by
    decide +kernel
  obtain ⟨s, hs, hrun⟩ := (Option.any_eq_true _ _).mp hrun
  obtain ⟨s', hs', hall⟩ := (Option.any_eq_true _ _).mp hrun
  obtain ⟨hpending, hpending', hupper, hlower, hlower', hdeleted, hnone⟩ := of_decide_eq_true hall
  refine ⟨s, s', hs, hs', by decide, hpending, hpending', hupper, hlower, fun h => ?_⟩
  obtain ⟨te, hte, -⟩ := h.counters "a" "a/b" (.inr rfl) hlower' (by decide) hdeleted
    (by rw [hpending']; rfl)
  rw [hnone] at hte
  cases hte

end Depot
