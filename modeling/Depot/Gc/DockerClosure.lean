import Depot.Gc.DockerExact

/-!
# Every pass that succeeds deletes the same records

A pass of the Docker collector that returns a count has deleted every record that it does not
spare (`server/src/server/worker/blob_reaper/docker_gc.rs`, lines 40–287). If all manifests can be
read, what it spares is a closure: the manifests that tags reach through indexes.

Results:
* `ends_dockerGc_gone`: what a pass that succeeds deletes.
* `leadsTo_eq`: in whatever order the shards end, the search follows the references of the indexes.
* `dockerGc_collects`: one pass leaves the closure, and among the blob references those that pass
  the Bloom filter.
-/

namespace Depot

open Lib List

variable {n fuel : ℕ}

section Deleting

variable {x : Ext} {readable : BlobId → Bool} {w w' : World}

/-! ## Deleting -/

theorem removes_kvDelete {k : Key} {hit : Bool} (h : Ends x readable (kvDelete k) w (.ok hit) w') :
    Removes [k] w w' := by
  obtain ⟨b, a, -, hx, ⟨c, hc, -⟩ | ⟨-, e, he⟩⟩ := yields_attempt h
  · cases b with
    | false =>
      obtain ⟨-, rfl⟩ := some_mk_inj hx
      cases hc
    | true =>
      obtain ⟨rfl, -⟩ := some_mk_inj hx
      refine ⟨?_, ?_, rfl⟩
      · intro k' hk'
        rw [mem_singleton.mp hk']
        simp [CellOp.apply_remove]
      · intro k' hk'
        exact World.cell_setCell_of_ne (fun h => hk' (mem_singleton.mpr h)) _
  · cases he

theorem removes_kvDeleteBatch {ks : List Key} {hits : List Bool}
    (h : Ends x readable (kvDeleteBatch ks) w (.ok hits) w') : Removes ks w w' := by
  suffices ∀ acc, Ends x readable (Fallible.fold (fun hits k => do
      let hit ← kvDelete k
      pure (hits ++ [hit])) ks acc) w (.ok hits) w' → Removes ks w w' from this [] h
  clear h
  intro acc h
  induction ks generalizing w acc with
  | nil =>
    obtain ⟨-, rfl⟩ := yields_pure h
    exact ⟨nofun, fun _ _ => rfl, rfl⟩
  | cons k ks ih =>
    obtain ⟨acc', w1, hround, hrest⟩ := yields_bind_ok h
    obtain ⟨hit, w2, hdel, hpure⟩ := yields_bind_ok hround
    obtain ⟨-, rfl⟩ := yields_pure hpure
    exact (removes_kvDelete hdel).cons (ih acc' hrest)

variable {repo : String}

theorem drops_deleteBatch {paths : List String} (hne : paths ≠ [])
    (h : Ends x readable (deleteArtifactsPairedBatch x repo paths) w (.ok ()) w') :
    Drops (paths.map (artifactKey x.shardOf repo)) w w' := by
  unfold deleteArtifactsPairedBatch at h
  rw [if_neg hne] at h
  obtain ⟨hits, w1, hdel, hgo⟩ := yields_bind_ok h
  obtain ⟨-, r1, htree⟩ := yields_ignore hgo
  have hone := removes_kvDeleteBatch hdel
  have hother : ∀ k : Key, k.part.table = .artifacts → Leaves k w1 w' := by
    intro k hk
    refine leaves_kvDeleteBatch (fun hmem => ?_) htree
    obtain ⟨path, -, rfl⟩ := mem_map.mp hmem
    cases hk
  refine ⟨?_, ?_, ?_⟩
  · intro k hk ht
    rw [(hother k ht).cell, hone.gone k hk]
  · intro k ht
    rw [(hother k ht).cell]
    by_cases hk : k ∈ paths.map (artifactKey x.shardOf repo)
    · exact .inl (hone.gone k hk)
    · exact .inr (hone.kept k hk)
  · have hkey : (artifactKey x.shardOf repo "").part.table = .artifacts := rfl
    exact (hother _ hkey).files.trans hone.files

theorem leaves_recordsRemoved {deleted : List (String × ℕ)}
    {r : Except DepotError Unit} (h : Ends x readable (recordsRemoved repo deleted) w r w')
    (k : Key) : Leaves k w w' :=
  yields_fold (Leaves.refl k) (fun _ _ _ => Leaves.trans) (fun _ _ _ _ _ _ => leaves_dirChanged) h

theorem Drops.refl (w : World) : Drops [] w w := ⟨nofun, fun _ _ => .inr rfl, rfl⟩

theorem Drops.leaves {ks : List Key} {w'' : World} (h : Drops ks w w')
    (h' : ∀ k, Leaves k w' w'') : Drops ks w w'' := by
  refine ⟨?_, ?_, (h' ⟨⟨.artifacts, .single⟩, ""⟩).files.trans h.files⟩
  · intro k hk ht
    rw [(h' k).cell, h.gone k hk ht]
  · intro k ht
    rw [(h' k).cell]
    exact h.kept k ht

theorem drops_deleteRecords {deletions : List (String × ℕ)}
    (h : Ends x readable (deleteDockerRecords x repo false deletions) w (.ok n) w') :
    Drops ((deletions.map Prod.fst).map (artifactKey x.shardOf repo)) w w' := by
  unfold deleteDockerRecords at h
  by_cases hne : deletions = []
  · rw [if_neg fun h => h.1 hne] at h
    obtain ⟨-, rfl⟩ := yields_pure h
    rw [hne]
    exact .refl _
  · rw [if_pos ⟨hne, rfl⟩] at h
    obtain ⟨u, w1, hdel, hgo⟩ := yields_bind_ok h
    obtain ⟨u', w2, hsend, hpure⟩ := yields_bind_ok hgo
    obtain ⟨-, rfl⟩ := yields_pure hpure
    exact (drops_deleteBatch (by simpa using hne) hdel).leaves fun k => leaves_recordsRemoved hsend k

end Deleting

variable {path : String}

section Pass

variable {x : Ext} {parse : Bytes → Option Json} {readable : BlobId → Bool} {w w' : World}
variable {repo : RepoConfig} {order : List ℕ}

/-! ## The phases -/

theorem drops_layerPhase (h : Ends x readable (layerPhase x parse repo false w.graceCutoff
      (w.resolveStore repo) (w.dockerRecords repo order)) w (.ok n) w') :
    Drops (((w.pickedBlobs x parse readable repo order).map Prod.fst).map
      (artifactKey x.shardOf repo.name)) w w' := by
  obtain ⟨seed, w1, hseed, hgo⟩ := yields_bind_ok h
  obtain ⟨b, a, -, hx, ha⟩ := yields_issue hseed
  obtain ⟨rfl, rfl⟩ := some_mk_inj hx
  obtain rfl := Except.ok.inj ha
  obtain ⟨filter, w2, hfold, hdel⟩ := yields_bind_ok hgo
  obtain ⟨rfl, hf⟩ := ends_layerFilter hfold
  obtain rfl := Except.ok.inj hf
  have hdrops := drops_deleteRecords hdel
  exact ⟨hdrops.gone, hdrops.kept, hdrops.files⟩

theorem drops_manifestPhase {v : World} (hv : v.files = w.files)
    (hclean : repo.cleanupUntaggedManifests = true)
    (h : Ends x readable (manifestPhase x parse fuel repo false w.graceCutoff
      (w.resolveStore repo) (w.dockerRecords repo order)) v (.ok n) w') :
    ∃ reachable, search (w.listChildren parse readable repo order).next fuel
        (w.dockerRecords repo order).tagDigests.reverse [] = some reachable ∧
      Drops (((manifestDeletions w.graceCutoff reachable
        (w.manifestsIn repo order)).map Prod.fst).map (artifactKey x.shardOf repo.name))
        v w' := by
  unfold manifestPhase at h
  rw [if_pos hclean] at h
  obtain ⟨childrenOf, v1, hfold, hgo⟩ := yields_bind_ok h
  obtain ⟨rfl, hc⟩ := ends_listChildren hv hfold
  obtain rfl := Except.ok.inj hc
  obtain ⟨reachable, v2, hsearch, hdel⟩ := yields_bind_ok hgo
  cases hfound : search (w.listChildren parse readable repo order).next fuel
      (w.dockerRecords repo order).tagDigests.reverse [] with
  | none =>
    rw [hfound] at hsearch
    obtain ⟨e, -, -, -⟩ := yields_bind_ok hsearch
    exact nomatch e
  | some found =>
    rw [hfound] at hsearch
    obtain ⟨hr, rfl⟩ := yields_pure hsearch
    obtain rfl := Except.ok.inj hr
    exact ⟨_, rfl, drops_deleteRecords hdel⟩

/-- A pass that succeeds deletes every record that one like it does not leave. -/
theorem ends_dockerGc_gone (h : w.ArtifactsPlaced x repo.name)
    (horder : order.Perm (List.range numShards))
    (hclean : repo.cleanupUntaggedManifests = true)
    (hrun : Ends x readable (dockerGc x parse fuel order repo false) w (.ok n) w')
    {record : ArtifactRecord} (hrec : w.recordAt x repo.name path = some record)
    (hnot : ¬w.Left x parse readable repo order path record) :
    w'.recordAt x repo.name path = none := by
  obtain ⟨now, w1, hnow, hrun⟩ := yields_bind_ok hrun
  obtain ⟨rfl, hn⟩ := ends_utcNow hnow
  obtain rfl := Except.ok.inj hn
  obtain ⟨rs, w2, hscan, hrun⟩ := yields_bind_ok hrun
  obtain ⟨rfl, hfound⟩ := ends_shards hscan
  dsimp only at hrun
  rw [hfound] at hrun
  obtain ⟨registered, w3, hreg, hrun⟩ := yields_bind_ok hrun
  obtain ⟨rfl, hr⟩ := ends_storesGet hreg
  obtain rfl := Except.ok.inj hr
  obtain ⟨deleted, w4, hlayers, hrun⟩ := yields_bind_ok hrun
  obtain ⟨deleted', w5, hphase, hpure⟩ := yields_bind_ok hrun
  obtain ⟨-, rfl⟩ := yields_pure hpure
  have hdropsA := drops_layerPhase hlayers
  obtain ⟨reachable, hsearch, hdropsB⟩ := drops_manifestPhase hdropsA.files hclean hphase
  have hkey : artifactKey x.shardOf repo.name path =
      ⟨artifactShardPk repo.name (x.shardOf path), path⟩ := by
    rw [artifactKey, clean_recordAt h hrec]
  have hgone : w'.cell (artifactKey x.shardOf repo.name path) = none →
      w'.recordAt x repo.name path = none := by
    intro hnone
    rw [hkey] at hnone
    rw [World.recordAt, World.value, hnone]
    rfl
  rw [left_iff h horder hrec fun _ _ => mem_reachable h horder hsearch] at hnot
  by_cases hpick : path ∈ (w3.pickedBlobs x parse readable repo order).map Prod.fst
  · exact hgone (hdropsA.after hdropsB _ (mem_map_of_mem hpick) rfl)
  · have hpick' : path ∈ (manifestDeletions w3.graceCutoff reachable
        (w3.manifestsIn repo order)).map Prod.fst := by
      by_contra hout
      exact hnot ⟨hpick, fun _ => hout⟩
    exact hgone (hdropsB.gone _ (mem_map_of_mem hpick') rfl)

end Pass

/-! ## The closure -/

/-- The path of a manifest with this digest, in either layout. -/
def ManifestAt (path digest : String) : Prop :=
  inDockerDir blobsDir path = false ∧ inDockerDir manifestsDir path = true ∧
    digestOf manifestsDir path = some digest

/-- The path of a blob reference with this digest, in either layout. -/
def BlobRefAt (path digest : String) : Prop :=
  inDockerDir blobsDir path = true ∧ digestOf blobsDir path = some digest

namespace World

variable (x : Ext) (parse : Bytes → Option Json) (w : World) (repo : RepoConfig)

/-- The bytes of a manifest, in the blob store of the repository. -/
def manifestBytes (record : ArtifactRecord) : Option Bytes :=
  record.blobId.bind fun b => (w.file repo.store b).map BlobFile.content

/-- A stored list or index with this digest refers to another digest. -/
def Refers (digest child : String) : Prop :=
  ∃ path record json, w.recordAt x repo.name path = some record ∧ ManifestAt path digest ∧
    isManifestList record.contentType = true ∧
    w.manifestJson parse repo.store record = some json ∧ json.Mentions child

/-- Some stored manifest refers to the digest. -/
def Referenced (child : String) : Prop :=
  ∃ path record json, w.recordAt x repo.name path = some record ∧
    inDockerDir blobsDir path = false ∧ inDockerDir manifestsDir path = true ∧
    w.manifestJson parse repo.store record = some json ∧ json.Mentions child

/-- A digest that can be reached from a tag through any chain of indexes. -/
def TagReached (digest : String) : Prop :=
  ∃ tag, w.TagPoints x repo tag ∧ Relation.ReflTransGen (w.Refers x parse repo) tag digest

/-- A repository whose manifests can all be read. Every manifest is stored under the digest of
    its content (`store.rs`, line 492), so that copies under several image names agree. -/
structure ManifestsReadable (readable : BlobId → Bool) : Prop where
  placed : w.ArtifactsPlaced x repo.name
  reads : ∀ path record, w.recordAt x repo.name path = some record →
    inDockerDir blobsDir path = false → inDockerDir manifestsDir path = true →
    (w.readOutcome readable repo record).isSome
  addressed : ∀ path record path' record' digest, w.recordAt x repo.name path = some record →
    w.recordAt x repo.name path' = some record' → ManifestAt path digest →
    ManifestAt path' digest → w.manifestBytes repo record = w.manifestBytes repo record'

end World

section Closure

variable {x : Ext} {parse : Bytes → Option Json} {readable : BlobId → Bool} {w : World}
variable {repo : RepoConfig} {order : List ℕ} {digest : String} {record : ArtifactRecord}

/-- What is read of a manifest is its content. -/
theorem manifestBytes_of_read {bytes : Bytes}
    (h : w.readOutcome readable repo record = some bytes) :
    w.manifestBytes repo record = some bytes := by
  unfold World.readOutcome World.readOutcomeFrom World.resolveStore at h
  unfold World.manifestBytes
  split at h
  · rename_i store blobId hstore hblob
    split_ifs at hstore
    obtain rfl := Option.some.inj hstore
    split_ifs at h
    rw [hblob]
    exact h
  · cases h

theorem manifestJson_eq : w.manifestJson parse repo.store record =
    (w.manifestBytes repo record).bind parse := by
  unfold World.manifestJson World.manifestBytes
  cases record.blobId with
  | none => rfl
  | some b => cases h : w.file repo.store b <;> simp [h]

/-- The last element of a list with a property. -/
theorem exists_last {α : Type} {P : α → Prop} {l : List α} {a : α} (ha : a ∈ l) (h : P a) :
    ∃ before b after, l = before ++ b :: after ∧ P b ∧ ∀ c ∈ after, ¬P c := by
  induction l using List.reverseRecOn with
  | nil => cases ha
  | append_singleton l c ih =>
    by_cases hc : P c
    · exact ⟨l, c, [], rfl, hc, nofun⟩
    · have hl : a ∈ l := by
        refine (mem_append.mp ha).resolve_right fun hmem => hc ?_
        rwa [← mem_singleton.mp hmem]
      obtain ⟨before, b, after, rfl, hb, hafter⟩ := ih hl
      refine ⟨before, b, after ++ [c], by simp, hb, fun d hd => ?_⟩
      rcases mem_append.mp hd with hd | hd
      · exact hafter d hd
      · rwa [mem_singleton.mp hd]

variable (h : w.ManifestsReadable x repo readable)

include h

/-- Of a manifest that can be read, the JSON is known. -/
theorem readable_json {json : Json} (hrec : w.recordAt x repo.name path = some record)
    (hblob : inDockerDir blobsDir path = false) (hman : inDockerDir manifestsDir path = true)
    (hjson : w.manifestJson parse repo.store record = some json) :
    ∃ bytes, w.readOutcome readable repo record = some bytes ∧ parse bytes = some json := by
  obtain ⟨bytes, hread⟩ := Option.isSome_iff_exists.mp (h.reads path record hrec hblob hman)
  rw [manifestJson_eq, manifestBytes_of_read hread] at hjson
  exact ⟨bytes, hread, hjson⟩

theorem readMentions_eq : w.ReadMentions x parse readable repo = w.Referenced x parse repo := by
  funext d
  refine propext ⟨?_, ?_⟩
  · rintro ⟨path, record, bytes, json, hrec, hblob, hman, hread, hjson, hd⟩
    refine ⟨path, record, json, hrec, hblob, hman, ?_, hd⟩
    rw [manifestJson_eq, manifestBytes_of_read hread]
    exact hjson
  · rintro ⟨path, record, json, hrec, hblob, hman, hjson, hd⟩
    obtain ⟨bytes, hread, hparse⟩ := readable_json h hrec hblob hman hjson
    exact ⟨path, record, bytes, json, hrec, hblob, hman, hread, hparse, hd⟩

/-- The list that is found last refers to what all lists with its digest refer to. -/
theorem leadsTo_eq (horder : order.Perm (List.range numShards)) :
    w.LeadsTo parse readable repo order = w.Refers x parse repo := by
  funext d child
  refine propext ⟨?_, ?_⟩
  · rintro ⟨bytes, json, ⟨before, ⟨path, record⟩, after, heq, ⟨hlist, hd, hread⟩, -⟩, hjson, hc⟩
    have hmem : (path, record) ∈ w.manifestsIn repo order := by simp [heq]
    obtain ⟨hblob, hman, hrec⟩ := (mem_manifests h.placed horder).mp hmem
    refine ⟨path, record, json, hrec, ⟨hblob, hman, hd⟩, hlist, ?_, hc⟩
    rw [manifestJson_eq, manifestBytes_of_read hread]
    exact hjson
  · rintro ⟨path, record, json, hrec, hat, hlist, hjson, hc⟩
    obtain ⟨bytes, hread, hparse⟩ := readable_json h hrec hat.1 hat.2.1 hjson
    have hmem := (mem_manifests h.placed horder).mpr ⟨hat.1, hat.2.1, hrec⟩
    obtain ⟨before, ⟨path', record'⟩, after, heq, ⟨bytes', hlast⟩, hafter⟩ :=
      exists_last (P := fun m => ∃ bytes, w.IsList readable repo d bytes m) hmem
        ⟨bytes, hlist, hat.2.2, hread⟩
    have hmem' : (path', record') ∈ w.manifestsIn repo order := by simp [heq]
    obtain ⟨hblob', hman', hrec'⟩ := (mem_manifests h.placed horder).mp hmem'
    -- Copies under several names have the same content.
    have hsame := h.addressed path record path' record' d hrec hrec' hat
      ⟨hblob', hman', hlast.2.1⟩
    rw [manifestBytes_of_read hread, manifestBytes_of_read hlast.2.2] at hsame
    obtain rfl := Option.some.inj hsame
    exact ⟨bytes, json, ⟨before, _, after, heq, hlast, fun m hm bytes' hlist' =>
      hafter m hm ⟨bytes', hlist'⟩⟩, hparse, hc⟩

end Closure

/-! ## The property -/

section Property

variable (x : Ext) (parse : Bytes → Option Json) (readable : BlobId → Bool) (w : World)
variable (repo : RepoConfig)

/-- In whatever order the shards end: with enough rounds every pass comes to an end, whatever fails,
    and one in which nothing fails succeeds; and each pass that succeeds deletes exactly the old
    manifests that no tag reaches and the old blob references whose digests are not `kept`. -/
structure Collects (kept : String → Prop) : Prop where
  ends : ∀ order : List ℕ, order.Perm (List.range numShards) → ∃ rounds, ∀ fuel, rounds ≤ fuel →
    AlwaysEnds x readable (dockerGc x parse fuel order repo false) w ∧
      ∃ n w', Ends x readable (dockerGc x parse fuel order repo false) w (.ok n) w'
  manifests : ∀ order : List ℕ, order.Perm (List.range numShards) → ∀ fuel n w',
    Ends x readable (dockerGc x parse fuel order repo false) w (.ok n) w' →
    ∀ path record digest, w.recordAt x repo.name path = some record → ManifestAt path digest →
      (w'.recordAt x repo.name path = none ↔
        ¬w.graceCutoff < record.createdAt ∧ ¬w.TagReached x parse repo digest)
  blobs : ∀ order : List ℕ, order.Perm (List.range numShards) → ∀ fuel n w',
    Ends x readable (dockerGc x parse fuel order repo false) w (.ok n) w' →
    ∀ path record digest, w.recordAt x repo.name path = some record → BlobRefAt path digest →
      (w'.recordAt x repo.name path = none ↔ ¬w.graceCutoff < record.createdAt ∧ ¬kept digest)
  others : ∀ order : List ℕ, order.Perm (List.range numShards) → ∀ fuel n w',
    Ends x readable (dockerGc x parse fuel order repo false) w (.ok n) w' →
    ∀ path record, w.recordAt x repo.name path = some record →
      w'.recordAt x repo.name path = some record ∨ w'.recordAt x repo.name path = none ∧
        ∃ digest, ManifestAt path digest ∨ BlobRefAt path digest

/-- The digests that pass a Bloom filter, with the seed that the pass draws, which holds exactly the
    digests that stored manifests refer to. -/
def PassesFilter (digest : String) : Prop :=
  w.SharesPositions x repo w.drawn (w.Referenced x parse repo) digest

variable {x parse readable w repo}

variable {record : ArtifactRecord} {order : List ℕ}

/-- A record is gone after a pass that succeeds exactly if it is not left. -/
theorem gone_iff (h : w.ArtifactsPlaced x repo.name) (horder : order.Perm (List.range numShards))
    (hclean : repo.cleanupUntaggedManifests = true)
    {w' : World} (hrun : Ends x readable (dockerGc x parse fuel order repo false) w (.ok n) w')
    (hrec : w.recordAt x repo.name path = some record) :
    (w'.recordAt x repo.name path = none ↔ ¬w.Left x parse readable repo order path record) ∧
      (w.Left x parse readable repo order path record →
        w'.recordAt x repo.name path = some record) := by
  have hleft : w.Left x parse readable repo order path record →
      w'.recordAt x repo.name path = some record := by
    intro hleft
    have hcell : w'.cell ⟨artifactShardPk repo.name (x.shardOf path), path⟩ =
        w.cell ⟨artifactShardPk repo.name (x.shardOf path), path⟩ :=
      (ends_dockerGc h horder hrun hrec fun _ => hleft).cell
    rw [World.recordAt, World.value, hcell]
    exact hrec
  refine ⟨⟨fun hgone hl => ?_, ends_dockerGc_gone h horder hclean hrun hrec⟩, hleft⟩
  rw [hleft hl] at hgone
  cases hgone

theorem not_left_manifest (h : w.ManifestsReadable x repo readable)
    (horder : order.Perm (List.range numShards))
    (hclean : repo.cleanupUntaggedManifests = true) {digest : String}
    (hat : ManifestAt path digest) : ¬w.Left x parse readable repo order path record ↔
      ¬w.graceCutoff < record.createdAt ∧ ¬w.TagReached x parse repo digest := by
  unfold World.Left World.ListsReach World.TagReached
  rw [if_neg (by simp [hat.1]), if_pos hat.2.1, not_or, hat.2.2, leadsTo_eq h horder]
  simp [hclean]

theorem not_left_blob (h : w.ManifestsReadable x repo readable) {digest : String}
    (hat : BlobRefAt path digest) : ¬w.Left x parse readable repo order path record ↔
      ¬w.graceCutoff < record.createdAt ∧ ¬PassesFilter x parse w repo digest := by
  unfold World.Left PassesFilter
  rw [if_pos hat.1, not_or, hat.2, readMentions_eq h]
  simp

/-- **Main theorem.** If all manifests can be read, a pass with clean-up of untagged manifests
    ends, and deletes exactly the old manifests that no tag reaches and the old blob references
    that do not pass the filter; what a stored manifest refers to passes it. -/
theorem dockerGc_collects (h : w.ManifestsReadable x repo readable)
    (hclean : repo.cleanupUntaggedManifests = true) :
    Collects x parse readable w repo (PassesFilter x parse w repo) ∧
      ∀ digest, w.Referenced x parse repo digest → PassesFilter x parse w repo digest := by
  refine ⟨⟨?_, ?_, ?_, ?_⟩, fun digest hd => World.sharesPositions hd⟩
  · intro order horder
    obtain ⟨rounds, hflows⟩ := @flows_dockerGc x parse readable w repo order false horder
    obtain ⟨rounds', hsolo⟩ := @solo_dockerGc x parse readable w repo order h.placed horder
    refine ⟨max rounds rounds', fun fuel hfuel => ⟨hflows fuel (by omega), ?_⟩⟩
    obtain ⟨n, w', hrun, -⟩ := hsolo fuel (by omega)
    exact ⟨n, w', hrun.ends⟩
  · intro order horder fuel n w' hrun path record digest hrec hat
    exact (gone_iff h.placed horder hclean hrun hrec).1.trans
      (not_left_manifest h horder hclean hat)
  · intro order horder fuel n w' hrun path record digest hrec hat
    exact (gone_iff h.placed horder hclean hrun hrec).1.trans (not_left_blob h hat)
  · intro order horder fuel n w' hrun path record hrec
    obtain ⟨hgone, hleft⟩ := gone_iff h.placed horder hclean hrun hrec
    by_cases hl : w.Left x parse readable repo order path record
    · exact .inl (hleft hl)
    · refine .inr ⟨hgone.mpr hl, ?_⟩
      unfold World.Left at hl
      split_ifs at hl with hblob hman
      · cases hd : digestOf blobsDir path with
        | none => exact absurd (.inr (by simp [hd])) hl
        | some digest => exact ⟨digest, .inr ⟨hblob, hd⟩⟩
      · cases hd : digestOf manifestsDir path with
        | none => exact absurd (.inr (.inr (by simp [hd]))) hl
        | some digest => exact ⟨digest, .inl ⟨by simpa using hblob, hman, hd⟩⟩
      · exact absurd (.inr trivial) hl

end Property

/-! ## A false positive -/

/-- Clean-up of untagged manifests is on. -/
def tidyDockerRepo : RepoConfig := { sampleDockerRepo with cleanupUntaggedManifests := true }

/-- The byte `1` stands for a manifest with another config, whose digest sets the same bit. -/
def collidingParse (data : Bytes) : Option Json :=
  if data = [1] then some (.object [("config", .object [("digest", .string "sha256:22d813")])])
  else none

theorem sampleDocker_manifestAt {record : ArtifactRecord}
    (hrec : sampleDockerWorld.recordAt Ext.sample tidyDockerRepo.name path = some record)
    (hblob : inDockerDir blobsDir path = false) :
    path = "_manifests/sha256:m" ∧ record = sampleManifest := by
  refine (sampleDocker_recordAt.mp hrec).resolve_right ?_
  rintro ⟨rfl, -⟩
  revert hblob
  decide +kernel

theorem tidyDocker_readable :
    sampleDockerWorld.ManifestsReadable Ext.sample tidyDockerRepo fun _ => true where
  placed := sampleDocker_placed
  reads path record hrec hblob _ := by
    rw [(sampleDocker_manifestAt hrec hblob).2, sampleManifest_read rfl]
    rfl
  addressed path record path' record' digest hrec hrec' hat hat' := by
    rw [(sampleDocker_manifestAt hrec hat.1).2, (sampleDocker_manifestAt hrec' hat'.1).2]

/-- The digest of the blob passes the filter, since it has the position of another digest. -/
theorem sampleLayer_passes :
    PassesFilter Ext.sample collidingParse sampleDockerWorld tidyDockerRepo "sha256:c" := by
  have hother : sampleDockerWorld.Referenced Ext.sample collidingParse tidyDockerRepo
      "sha256:22d813" := by
    refine ⟨"_manifests/sha256:m", sampleManifest,
      .object [("config", .object [("digest", .string "sha256:22d813")])],
      sampleDocker_recordAt.mpr (.inl ⟨rfl, rfl⟩), by decide +kernel, by decide +kernel, ?_,
      .inl (.config rfl rfl)⟩
    rw [manifestJson_eq, manifestBytes_of_read (sampleManifest_read rfl)]
    rfl
  have hbits : Ext.sample.bloomBits 0 0 "sha256:c" = Ext.sample.bloomBits 0 0 "sha256:22d813" := by
    decide +kernel
  intro i hi
  refine ⟨_, hother, ?_⟩
  have hi' : i ∈ Ext.sample.bloomBits 0 0 "sha256:c" := hi
  rw [hbits] at hi'
  exact hi'

/-- **Counterexample.** No manifest refers to the old blob reference, but its digest passes the
    filter: every pass leaves it. -/
theorem unreferenced_blob_stays :
    sampleDockerWorld.ManifestsReadable Ext.sample tidyDockerRepo (fun _ => true) ∧
      ¬Collects Ext.sample collidingParse (fun _ => true) sampleDockerWorld tidyDockerRepo
        (sampleDockerWorld.Referenced Ext.sample collidingParse tidyDockerRepo) := by
  refine ⟨tidyDocker_readable, fun h => ?_⟩
  have hrec : sampleDockerWorld.recordAt Ext.sample tidyDockerRepo.name "_blobs/sha256:c" =
      some sampleLayer := sampleDocker_recordAt.mpr (.inr ⟨rfl, rfl⟩)
  have hat : BlobRefAt "_blobs/sha256:c" "sha256:c" := ⟨by decide +kernel, by decide +kernel⟩
  have hunreferenced :
      ¬sampleDockerWorld.Referenced Ext.sample collidingParse tidyDockerRepo "sha256:c" := by
    rintro ⟨path, record, json, hrec, hblob, -, hjson, hc⟩
    rw [(sampleDocker_manifestAt hrec hblob).2, manifestJson_eq,
      manifestBytes_of_read (sampleManifest_read rfl)] at hjson
    have hrefs : "sha256:c" ∈ extractManifestRefs collidingParse [1] :=
      mem_extractManifestRefs.mpr ⟨json, hjson, hc⟩
    revert hrefs
    decide +kernel
  obtain ⟨rounds, hends⟩ := h.ends _ (.refl _)
  obtain ⟨-, n, w', hrun⟩ := hends rounds le_rfl
  have hgone := (h.blobs _ (.refl _) rounds n w' hrun _ _ _ hrec hat).mpr
    ⟨sampleLayer_old, hunreferenced⟩
  have hleft : sampleDockerWorld.Left Ext.sample collidingParse (fun _ => true) tidyDockerRepo
      (List.range numShards) "_blobs/sha256:c" sampleLayer := by
    by_contra hnot
    exact ((not_left_blob tidyDocker_readable hat).mp hnot).2 sampleLayer_passes
  rw [(gone_iff sampleDocker_placed (.refl _) rfl hrun hrec).2 hleft] at hgone
  cases hgone

/-- The pass over this repository. -/
theorem dockerGc_collects_tidy :
    Collects Ext.sample sampleParse (fun _ => true) sampleDockerWorld tidyDockerRepo
        (PassesFilter Ext.sample sampleParse sampleDockerWorld tidyDockerRepo) ∧
      ∀ digest, sampleDockerWorld.Referenced Ext.sample sampleParse tidyDockerRepo digest →
        PassesFilter Ext.sample sampleParse sampleDockerWorld tidyDockerRepo digest :=
  dockerGc_collects tidyDocker_readable rfl

end Depot
