import Depot.Core.Paths
import Depot.Gc.Docker
import Depot.Lib.Runs

/-!
# What the Docker collector spares

A record is needed if it is a config or a layer of a stored manifest, or a
manifest that a tag reaches. The collector learns about this from the manifests
that it can read; of the others it does not know what they need.

Results:
* `mem_extractManifestRefs`: the digests that the collector takes out of a manifest.
* `ends_dockerGc`: a pass leaves, whatever fails, the records that it spares: each
  that is young, or mentioned by a manifest that can be read, or reached through
  lists that can be read.
-/

namespace Depot

open Lib List
open Except (ok.inj)
open Fallible (Uses uses_issue uses_pure uses_throw)
open Option (bind_eq_some_iff bind_some)

/-! ## What manifests mention -/

namespace Json

variable (v : Json)

/-- The digest is that of the config or of a layer. -/
inductive NamesLayer : String → Prop where
  | config {config : Json} {digest : String} (hc : v.get "config" = some config)
      (hd : config.get "digest" = some (.string digest)) : NamesLayer digest
  | layer {layers : List Json} {layer : Json} {digest : String}
      (hl : v.get "layers" = some (.array layers)) (hm : layer ∈ layers)
      (hd : layer.get "digest" = some (.string digest)) : NamesLayer digest

/-- The digest is that of a child manifest. -/
def NamesChild (digest : String) : Prop :=
  ∃ children child, v.get "manifests" = some (.array children) ∧ child ∈ children ∧
    child.get "digest" = some (.string digest)

/-- The manifest names the digest. -/
def Mentions (digest : String) : Prop := v.NamesLayer digest ∨ v.NamesChild digest

variable {v} {key d : String}

theorem digest_eq_some : v.digest = some d ↔ v.get "digest" = some (.string d) := by
  unfold digest
  cases v.get "digest" with
  | none => simp
  | some e => cases e <;> simp [asStr]

theorem mem_digestsAt : d ∈ v.digestsAt key ↔ ∃ items item, v.get key = some (.array items) ∧
    item ∈ items ∧ item.get "digest" = some (.string d) := by
  unfold digestsAt
  rw [mem_filterMap]
  constructor
  · rintro ⟨item, hitem, hd⟩
    cases hk : v.get key with
    | none => simp [hk] at hitem
    | some e =>
      cases e with
      | array items =>
        refine ⟨items, item, rfl, ?_, digest_eq_some.mp hd⟩
        simpa [hk, asArray] using hitem
      | _ => simp [hk, asArray] at hitem
  · rintro ⟨items, item, hk, hitem, hd⟩
    exact ⟨item, by simpa [hk, asArray] using hitem, digest_eq_some.mpr hd⟩

theorem mem_layers : d ∈ v.layers ↔ v.NamesLayer d := by
  unfold layers
  rw [mem_append, Option.mem_toList, mem_digestsAt]
  constructor
  · rintro (hconfig | ⟨items, item, hk, hitem, hd⟩)
    · obtain ⟨config, hc, hd⟩ := bind_eq_some_iff.mp hconfig
      exact .config hc (digest_eq_some.mp hd)
    · exact .layer hk hitem hd
  · rintro (⟨hc, hd⟩ | ⟨hl, hm, hd⟩)
    · exact .inl (bind_eq_some_iff.mpr ⟨_, hc, digest_eq_some.mpr hd⟩)
    · exact .inr ⟨_, _, hl, hm, hd⟩

end Json

variable {parse : Bytes → Option Json}

/-- What the collector takes out of a manifest is what it mentions. -/
theorem mem_extractManifestRefs {json : Bytes} {d : String} :
    d ∈ extractManifestRefs parse json ↔ ∃ v, parse json = some v ∧ v.Mentions d := by
  unfold extractManifestRefs
  cases parse json with
  | none => simp
  | some v =>
    rw [mem_append, Json.mem_layers, Json.children, Json.mem_digestsAt]
    exact ⟨fun h => ⟨v, rfl, h⟩, fun ⟨v', hv, h⟩ => Option.some.inj hv ▸ h⟩

/-! ## The records that are needed -/

/-- The records of a repository are kept where their paths say. -/
def World.ArtifactsPlaced (w : World) (x : Ext) (repo : String) : Prop :=
  ∀ shard < numShards, ∀ sk v, w.value ⟨artifactShardPk repo shard, sk⟩ = some v →
    x.shardOf sk = shard ∧ normalizePath sk = sk

/-- The record at a path as it is kept. -/
def World.recordAt (w : World) (x : Ext) (repo path : String) : Option ArtifactRecord :=
  (w.value ⟨artifactShardPk repo (x.shardOf path), path⟩).bind Value.artifact?

/-- The JSON of a manifest, as it is in the blob store of its repository. -/
def World.manifestJson (w : World) (parse : Bytes → Option Json) (store : String)
    (record : ArtifactRecord) : Option Json :=
  record.blobId.bind fun b => (w.file store b).bind fun f => parse f.content

section Needed

variable (x : Ext) (parse : Bytes → Option Json) (w : World) (repo : RepoConfig)

/-- A manifest of the repository, by its digest, and its JSON. -/
def World.HasManifest (digest : String) (json : Json) : Prop :=
  ∃ path record, w.recordAt x repo.name path = some record ∧
    record.kind = .dockerManifest digest ∧ w.manifestJson parse repo.store record = some json

/-- A tag of the repository points at the digest. -/
def World.Tagged (digest : String) : Prop :=
  ∃ path record tag, w.recordAt x repo.name path = some record ∧ record.kind = .dockerTag digest tag

/-- A digest that a tag reaches through any chain of lists and indexes. -/
inductive World.TagReaches : String → Prop where
  | tag {digest : String} (h : w.Tagged x repo digest) : TagReaches digest
  | child {digest child : String} {json : Json} (h : TagReaches digest)
      (hm : w.HasManifest x parse repo digest json) (hc : json.NamesChild child) : TagReaches child

/-- The record is a config or a layer of a stored manifest, or a manifest that a tag
    reaches. -/
def World.Needed (record : ArtifactRecord) : Prop :=
  (∃ layer digest json, record.kind = .dockerBlob layer ∧
      w.HasManifest x parse repo digest json ∧ json.NamesLayer layer) ∨
    ∃ digest, record.kind = .dockerManifest digest ∧ w.TagReaches x parse repo digest

end Needed

/-! ## What the collector finds -/

/-- The blob reference in an entry. -/
def blobRefOf (e : String × Value) : Option (String × DateTime × ℕ) :=
  e.2.artifact?.bind fun record =>
    if inDockerDir blobsDir e.1 then some (e.1, record.createdAt, record.size) else none

/-- The manifest in an entry. -/
def manifestOf (e : String × Value) : Option (String × ArtifactRecord) :=
  e.2.artifact?.bind fun record =>
    if inDockerDir blobsDir e.1 then none
    else if inDockerDir manifestsDir e.1 then some (e.1, record) else none

/-- The digest of the tag in an entry. -/
def tagOf (e : String × Value) : Option String :=
  e.2.artifact?.bind fun record =>
    if inDockerDir blobsDir e.1 then none
    else if inDockerDir manifestsDir e.1 then none
    else if inDockerDir tagsDir e.1 then
      match record.kind with
      | .dockerTag digest _ => some digest
      | _ => none
    else none

section Found

variable (x : Ext) (parse : Bytes → Option Json) (readable : BlobId → Bool) (w : World)
variable (repo : RepoConfig) (order : List ℕ)

/-- The records of a shard. -/
def World.dockerEntries (shard : ℕ) : List (String × Value) :=
  w.entriesFrom (artifactShardPk repo.name shard) "" none

/-- The manifests, shard after shard and by their paths. -/
def World.manifestsIn : List (String × ArtifactRecord) :=
  order.flatMap fun shard => (w.dockerEntries repo shard).filterMap manifestOf

/-- What the shards find. -/
def World.dockerRecords : ShardResult where
  manifests := w.manifestsIn repo order
  blobRefs := order.flatMap fun shard => (w.dockerEntries repo shard).filterMap blobRefOf
  tagDigests := order.flatMap fun shard => (w.dockerEntries repo shard).filterMap tagOf

/-- The blob store, if it is registered. -/
def World.resolveStore : Option String :=
  if decide (repo.store ∈ w.stores) then some repo.store else none

/-- What reading a manifest returns, if the blobs `readable` can be read. -/
def World.readOutcomeFrom (blobs : Option String) (record : ArtifactRecord) : Option Bytes :=
  match blobs, record.blobId with
  | some store, some blobId =>
      if blobId = "" then none
      else if readable blobId then (w.file store blobId).map BlobFile.content else none
  | _, _ => none

/-- What reading a manifest of the repository returns. -/
def World.readOutcome (record : ArtifactRecord) : Option Bytes :=
  w.readOutcomeFrom readable (w.resolveStore repo) record

/-- The filter of the digests that the manifests mention. -/
def World.layerFilter : Bloom :=
  (w.manifestsIn repo order).foldl (fun filter m =>
    match w.readOutcome readable repo m.2 with
    | some json => (extractManifestRefs parse json).foldl (Bloom.set x) filter
    | none => filter) ⟨layerCapacity (w.manifestsIn repo order), w.drawn, 0⟩

def World.listChildren : ChildrenOf :=
  (w.manifestsIn repo order).foldl (fun m e =>
    if isManifestList e.2.contentType then
      match digestOf manifestsDir e.1, w.readOutcome readable repo e.2 with
      | some digest, some json => (digest, extractManifestRefs parse json) :: m
      | _, _ => m
    else m) []

/-- The end of the grace period. -/
def World.graceCutoff : DateTime := w.now - dockerGcGraceSecs * secondNs

/-! ## What can be read -/

/-- A manifest that can be read mentions the digest. -/
def World.ReadMentions (digest : String) : Prop :=
  ∃ path record bytes json, w.recordAt x repo.name path = some record ∧
    inDockerDir blobsDir path = false ∧ inDockerDir manifestsDir path = true ∧
    w.readOutcome readable repo record = some bytes ∧ parse bytes = some json ∧ json.Mentions digest

/-- Under a seed of the Bloom filter, each position of the digest is also one of a digest with the
    property: if the filter holds these, it reports the digest as well. -/
def World.SharesPositions (seed : ℕ) (P : String → Prop) (digest : String) : Prop :=
  ∀ i ∈ x.bloomBits (layerCapacity (w.manifestsIn repo (List.range numShards))) seed digest,
    ∃ d, P d ∧ i ∈ x.bloomBits (layerCapacity (w.manifestsIn repo (List.range numShards))) seed d

/-- The manifest is a list or an index with this digest, and it can be read. -/
def World.IsList (digest : String) (bytes : Bytes) (m : String × ArtifactRecord) : Prop :=
  isManifestList m.2.contentType = true ∧ digestOf manifestsDir m.1 = some digest ∧
    w.readOutcome readable repo m.2 = some bytes

/-- Of the lists with this digest, the one that is found last. -/
def World.LastList (digest : String) (bytes : Bytes) : Prop :=
  ∃ before m after, w.manifestsIn repo order = before ++ m :: after ∧
    w.IsList readable repo digest bytes m ∧
    ∀ m' ∈ after, ∀ bytes', ¬w.IsList readable repo digest bytes' m'

/-- The list that is found last mentions another digest. -/
def World.LeadsTo (digest child : String) : Prop :=
  ∃ bytes json, w.LastList readable repo order digest bytes ∧ parse bytes = some json ∧
    json.Mentions child

/-- A tag points at the digest. -/
def World.TagPoints (digest : String) : Prop :=
  ∃ path record tag, w.recordAt x repo.name path = some record ∧
    inDockerDir blobsDir path = false ∧ inDockerDir manifestsDir path = false ∧
    inDockerDir tagsDir path = true ∧ record.kind = .dockerTag digest tag

/-- A tag reaches the digest through the lists that can be read. -/
def World.ListsReach (digest : String) : Prop :=
  ∃ tag, w.TagPoints x repo tag ∧
    Relation.ReflTransGen (w.LeadsTo parse readable repo order) tag digest

/-- A pass, with the seed that it draws and the order in which its shards end, leaves the record. -/
def World.Left (path : String) (record : ArtifactRecord) : Prop :=
  w.graceCutoff < record.createdAt ∨
    if inDockerDir blobsDir path then
      ∀ digest ∈ digestOf blobsDir path,
        w.SharesPositions x repo w.drawn (w.ReadMentions x parse readable repo) digest
    else if inDockerDir manifestsDir path then
      repo.cleanupUntaggedManifests = false ∨
        ∀ digest ∈ digestOf manifestsDir path, w.ListsReach x parse readable repo order digest
    else True

/-- The record is young, or it is among the blob references and a manifest that can be read mentions
    its digest (or shares each of its positions, whatever the seed), or it is among the manifests
    and a tag reaches it through lists that can be read. -/
def World.Spared (path : String) (record : ArtifactRecord) : Prop :=
  w.graceCutoff < record.createdAt ∨
    if inDockerDir blobsDir path then
      ∀ digest ∈ digestOf blobsDir path, w.ReadMentions x parse readable repo digest ∨
        ∀ seed, w.SharesPositions x repo seed (w.ReadMentions x parse readable repo) digest
    else if inDockerDir manifestsDir path then
      repo.cleanupUntaggedManifests = false ∨ ∀ digest ∈ digestOf manifestsDir path,
        ∀ order : List ℕ, order.Perm (List.range numShards) →
          w.ListsReach x parse readable repo order digest
    else True

end Found

/-! ### Entries -/

theorem add_lists (sr : ShardResult) (e : String × Value) :
    (sr.add e).blobRefs = sr.blobRefs ++ (blobRefOf e).toList ∧
      (sr.add e).manifests = sr.manifests ++ (manifestOf e).toList ∧
      (sr.add e).tagDigests = sr.tagDigests ++ (tagOf e).toList := by
  unfold ShardResult.add blobRefOf manifestOf tagOf
  cases e.2.artifact? with
  | none => simp
  | some record =>
    dsimp only [bind_some]
    split_ifs
    · simp
    · simp
    · cases record.kind <;> simp
    · simp

theorem foldl_add_lists (es : List (String × Value)) (sr : ShardResult) :
    (es.foldl ShardResult.add sr).blobRefs = sr.blobRefs ++ es.filterMap blobRefOf ∧
      (es.foldl ShardResult.add sr).manifests = sr.manifests ++ es.filterMap manifestOf ∧
      (es.foldl ShardResult.add sr).tagDigests = sr.tagDigests ++ es.filterMap tagOf := by
  induction es generalizing sr with
  | nil => simp
  | cons e es ih =>
    obtain ⟨h1, h2, h3⟩ := ih (sr.add e)
    obtain ⟨h4, h5, h6⟩ := add_lists sr e
    rw [foldl_cons, h1, h2, h3, h4, h5, h6, append_assoc, append_assoc, append_assoc]
    refine ⟨?_, ?_, ?_⟩
    · cases hb : blobRefOf e <;> simp [hb]
    · cases hm : manifestOf e <;> simp [hm]
    · cases ht : tagOf e <;> simp [ht]

section Members

variable {x : Ext} {w : World} {repo : RepoConfig} {order : List ℕ}

/-- The results of the shards, put together. -/
theorem concat_shards : ShardResult.concat (order.map fun shard =>
    (w.dockerEntries repo shard).foldl ShardResult.add {}) = w.dockerRecords repo order := by
  unfold World.dockerRecords ShardResult.concat World.manifestsIn
  simp only [flatMap_map, (foldl_add_lists _ _).1, (foldl_add_lists _ _).2.1,
    (foldl_add_lists _ _).2.2, nil_append]

variable (h : w.ArtifactsPlaced x repo.name) (horder : order.Perm (List.range numShards))

include h horder

/-- The entries of all shards are the entries at the keys of their paths. -/
theorem mem_dockerEntries {β : Type} {f : String × Value → Option β} {b : β} :
    b ∈ order.flatMap (fun shard => (w.dockerEntries repo shard).filterMap f) ↔
      ∃ e : String × Value, w.value ⟨artifactShardPk repo.name (x.shardOf e.1), e.1⟩ = some e.2 ∧
        f e = some b := by
  simp only [mem_flatMap, horder.mem_iff, List.mem_range, mem_filterMap]
  constructor
  · rintro ⟨shard, hshard, e, he, hf⟩
    have hv := (World.mem_entriesFrom.mp he).1
    obtain ⟨rfl, -⟩ := h shard hshard e.1 e.2 hv
    exact ⟨e, hv, hf⟩
  · rintro ⟨e, hv, hf⟩
    refine ⟨x.shardOf e.1, x.shardOf_lt e.1, e, ?_, hf⟩
    exact World.mem_entriesFrom.mpr ⟨hv, le_of_hasPrefix nil_prefix, nofun⟩

theorem mem_blobRefs {path : String} {created : DateTime} {size : ℕ} :
    (path, created, size) ∈ (w.dockerRecords repo order).blobRefs ↔
      inDockerDir blobsDir path = true ∧ ∃ record, w.recordAt x repo.name path = some record ∧
        created = record.createdAt ∧ size = record.size := by
  rw [World.dockerRecords, mem_dockerEntries h horder]
  constructor
  · rintro ⟨e, hv, hf⟩
    obtain ⟨record, hr, hf⟩ := bind_eq_some_iff.mp hf
    split_ifs at hf with hdir
    cases hf
    refine ⟨hdir, record, ?_, rfl, rfl⟩
    rw [World.recordAt, hv, bind_some, hr]
  · rintro ⟨hdir, record, hrec, rfl, rfl⟩
    obtain ⟨v, hv, hr⟩ := bind_eq_some_iff.mp hrec
    refine ⟨(path, v), hv, ?_⟩
    rw [blobRefOf, hr, bind_some, if_pos hdir]

theorem mem_manifests {path : String} {record : ArtifactRecord} :
    (path, record) ∈ w.manifestsIn repo order ↔
      inDockerDir blobsDir path = false ∧ inDockerDir manifestsDir path = true ∧
        w.recordAt x repo.name path = some record := by
  rw [World.manifestsIn, mem_dockerEntries h horder]
  constructor
  · rintro ⟨e, hv, hf⟩
    obtain ⟨record', hr, hf⟩ := bind_eq_some_iff.mp hf
    split_ifs at hf with hblob hdir
    cases hf
    refine ⟨by simpa using hblob, hdir, ?_⟩
    rw [World.recordAt, hv, bind_some, hr]
  · rintro ⟨hblob, hdir, hrec⟩
    obtain ⟨v, hv, hr⟩ := bind_eq_some_iff.mp hrec
    refine ⟨(path, v), hv, ?_⟩
    rw [manifestOf, hr, bind_some, if_neg (by simp [hblob]), if_pos hdir]

theorem mem_tagDigests {digest : String} :
    digest ∈ (w.dockerRecords repo order).tagDigests ↔ w.TagPoints x repo digest := by
  rw [World.dockerRecords, mem_dockerEntries h horder]
  constructor
  · rintro ⟨e, hv, hf⟩
    obtain ⟨record, hr, hf⟩ := bind_eq_some_iff.mp hf
    split_ifs at hf with hblob hman htag
    cases hk : record.kind with
    | dockerTag d tag =>
      rw [hk] at hf
      obtain rfl := Option.some.inj hf
      refine ⟨e.1, record, tag, ?_, by simpa using hblob, by simpa using hman, htag, hk⟩
      rw [World.recordAt, hv, bind_some, hr]
    | _ =>
      rw [hk] at hf
      cases hf
  · rintro ⟨path, record, tag, hrec, hblob, hman, htag, hk⟩
    obtain ⟨v, hv, hr⟩ := bind_eq_some_iff.mp hrec
    refine ⟨(path, v), hv, ?_⟩
    rw [tagOf, hr, bind_some, if_neg (by simp [hblob]), if_neg (by simp [hman]), if_pos htag, hk]

end Members

/-! ### The filter -/

section Filter

variable {x : Ext} {readable : BlobId → Bool} {w : World} {repo : RepoConfig} {order : List ℕ}

theorem testBit_foldl_or (is : List ℕ) (bits j : ℕ) :
    (is.foldl (fun bits i => bits ||| 2 ^ i) bits).testBit j = (bits.testBit j || decide (j ∈ is)) := by
  induction is generalizing bits with
  | nil => simp
  | cons i is ih =>
    rw [foldl_cons, ih, Nat.testBit_or, Nat.testBit_two_pow, Bool.or_assoc]
    simp [eq_comm]

/-- The positions that are set in a filter. -/
theorem foldl_set (items : List String) (filter : Bloom) :
    (items.foldl (Bloom.set x) filter).items = filter.items ∧
      (items.foldl (Bloom.set x) filter).seed = filter.seed ∧
      ∀ j, (items.foldl (Bloom.set x) filter).bits.testBit j = true ↔
        filter.bits.testBit j = true ∨ ∃ d ∈ items, j ∈ x.bloomBits filter.items filter.seed d := by
  induction items generalizing filter with
  | nil => simp
  | cons d items ih =>
    obtain ⟨hitems, hseed, hbits⟩ := ih (filter.set x d)
    refine ⟨hitems, hseed, fun j => ?_⟩
    rw [foldl_cons, hbits]
    simp only [Bloom.set, testBit_foldl_or, Bool.or_eq_true, decide_eq_true_eq, mem_cons,
      exists_eq_or_imp, or_assoc]

/-- The digests that a manifest adds to the filter. -/
def readRefs (parse : Bytes → Option Json) (readable : BlobId → Bool) (w : World)
    (repo : RepoConfig) (m : String × ArtifactRecord) : List String :=
  ((w.readOutcome readable repo m.2).map (extractManifestRefs parse)).getD []

theorem layerFilter_eq : w.layerFilter x parse readable repo order =
    ((w.manifestsIn repo order).flatMap (readRefs parse readable w repo)).foldl (Bloom.set x)
      ⟨layerCapacity (w.manifestsIn repo order), w.drawn, 0⟩ := by
  unfold World.layerFilter
  generalize (⟨layerCapacity _, _, _⟩ : Bloom) = filter
  induction w.manifestsIn repo order generalizing filter with
  | nil => rfl
  | cons m ms ih =>
    rw [foldl_cons, ih, flatMap_cons, List.foldl_append, readRefs]
    cases w.readOutcome readable repo m.2 <;> rfl

variable (h : w.ArtifactsPlaced x repo.name) (horder : order.Perm (List.range numShards))

include h horder

theorem mem_readRefs {d : String} :
    d ∈ (w.manifestsIn repo order).flatMap (readRefs parse readable w repo) ↔
      w.ReadMentions x parse readable repo d := by
  rw [mem_flatMap]
  constructor
  · rintro ⟨⟨path, record⟩, hm, hd⟩
    obtain ⟨hblob, hdir, hrec⟩ := (mem_manifests h horder).mp hm
    cases hread : w.readOutcome readable repo record with
    | none => simp [readRefs, hread] at hd
    | some bytes =>
      rw [readRefs, hread, Option.map_some, Option.getD_some] at hd
      obtain ⟨json, hjson, hd⟩ := mem_extractManifestRefs.mp hd
      exact ⟨path, record, bytes, json, hrec, hblob, hdir, hread, hjson, hd⟩
  · rintro ⟨path, record, bytes, json, hrec, hblob, hdir, hread, hjson, hd⟩
    refine ⟨(path, record), (mem_manifests h horder).mpr ⟨hblob, hdir, hrec⟩, ?_⟩
    rw [readRefs, hread, Option.map_some, Option.getD_some]
    exact mem_extractManifestRefs.mpr ⟨json, hjson, hd⟩

/-- The digests that pass the filter. -/
theorem layerFilter_check {digest : String} :
    (w.layerFilter x parse readable repo order).check x digest = true ↔
      w.SharesPositions x repo w.drawn (w.ReadMentions x parse readable repo) digest := by
  have hcapacity : layerCapacity (w.manifestsIn repo order) =
      layerCapacity (w.manifestsIn repo (List.range numShards)) := by
    unfold layerCapacity World.manifestsIn
    rw [(horder.flatMap_right _).length_eq]
  obtain ⟨hitems, hseed, hbits⟩ := @foldl_set x
    ((w.manifestsIn repo order).flatMap (readRefs parse readable w repo))
    ⟨layerCapacity (w.manifestsIn repo order), w.drawn, 0⟩
  unfold Bloom.check World.SharesPositions
  rw [layerFilter_eq, hitems, hseed, all_eq_true, hcapacity]
  rw [hcapacity] at hbits
  refine forall₂_congr fun i _ => ?_
  rw [hbits, Nat.zero_testBit]
  simp only [Bool.false_eq_true, false_or, mem_readRefs h horder]

end Filter

/-! ### The lists -/

section Lists

variable {x : Ext} {readable : BlobId → Bool} {w : World} {repo : RepoConfig} {order : List ℕ}

/-- The last element of a list with an image that satisfies a predicate. -/
theorem find?_reverse_filterMap {α β : Type} {f : α → Option β} {p : β → Bool} {l : List α}
    {b : β} : (l.filterMap f).reverse.find? p = some b ↔
      ∃ before a after, l = before ++ a :: after ∧ f a = some b ∧ p b = true ∧
        ∀ a' ∈ after, ∀ b', f a' = some b' → p b' = false := by
  rw [find?_eq_some_iff_append]
  constructor
  · rintro ⟨hp, xs, ys, heq, hxs⟩
    have hsplit : l.filterMap f = ys.reverse ++ b :: xs.reverse := by
      rw [← reverse_reverse (l.filterMap f), heq]
      simp
    obtain ⟨before, rest, rfl, -, hrest⟩ := filterMap_eq_append_iff.mp hsplit
    obtain ⟨skip, a, after, rfl, hskip, ha, hafter⟩ := filterMap_eq_cons_iff.mp hrest
    refine ⟨before ++ skip, a, after, by simp, ha, hp, fun a' ha' b' hb' => ?_⟩
    have hmem : b' ∈ xs := by
      rw [← mem_reverse, ← hafter]
      exact mem_filterMap.mpr ⟨a', ha', hb'⟩
    simpa using hxs b' hmem
  · rintro ⟨before, a, after, rfl, ha, hp, hafter⟩
    refine ⟨hp, (after.filterMap f).reverse, (before.filterMap f).reverse, ?_, fun b' hb' => ?_⟩
    · rw [filterMap_append, filterMap_cons, ha]
      simp
    · obtain ⟨a', ha', hb'⟩ := mem_filterMap.mp (mem_reverse.mp hb')
      simpa using hafter a' ha' b' hb'

/-- The children that a manifest contributes to the map. -/
def childEntry (parse : Bytes → Option Json) (readable : BlobId → Bool) (w : World)
    (repo : RepoConfig) (m : String × ArtifactRecord) : Option (String × List String) :=
  if isManifestList m.2.contentType then
    match digestOf manifestsDir m.1, w.readOutcome readable repo m.2 with
    | some digest, some json => some (digest, extractManifestRefs parse json)
    | _, _ => none
  else none

theorem childEntry_eq_some {m : String × ArtifactRecord} {digest : String}
    {children : List String} : childEntry parse readable w repo m = some (digest, children) ↔
      ∃ bytes, w.IsList readable repo digest bytes m ∧
        children = extractManifestRefs parse bytes := by
  unfold childEntry World.IsList
  cases isManifestList m.2.contentType with
  | false => simp
  | true =>
    cases digestOf manifestsDir m.1 <;> cases w.readOutcome readable repo m.2 <;> simp [eq_comm]

theorem manifestChildren_eq : w.listChildren parse readable repo order =
    ((w.manifestsIn repo order).filterMap (childEntry parse readable w repo)).reverse := by
  have hfold : ∀ (ms : List (String × ArtifactRecord)) (acc : ChildrenOf), ms.foldl (fun m e =>
      if isManifestList e.2.contentType then
        match digestOf manifestsDir e.1, w.readOutcome readable repo e.2 with
        | some digest, some json => (digest, extractManifestRefs parse json) :: m
        | _, _ => m
      else m) acc = (ms.filterMap (childEntry parse readable w repo)).reverse ++ acc := by
    intro ms
    induction ms with
    | nil => exact fun _ => rfl
    | cons e ms ih =>
      intro acc
      rw [foldl_cons, ih]
      unfold childEntry
      split_ifs with hlist
      · cases hd : digestOf manifestsDir e.1 with
        | none => simp [hlist, hd]
        | some digest =>
          cases hj : w.readOutcome readable repo e.2 with
          | none => simp [hlist, hd, hj]
          | some json => simp [hlist, hd, hj]
      · simp [hlist]
  exact (hfold _ []).trans (append_nil _)

/-- The children of a digest in the map are what its last list mentions. -/
theorem mem_next {digest child : String} :
    child ∈ (w.listChildren parse readable repo order).next digest ↔
      w.LeadsTo parse readable repo order digest child := by
  have hlast : ∀ e, (w.listChildren parse readable repo order).find?
      (fun e => decide (e.1 = digest)) = some e ↔
        ∃ bytes, w.LastList readable repo order digest bytes ∧
          e = (digest, extractManifestRefs parse bytes) := by
    rintro ⟨d, children⟩
    rw [manifestChildren_eq, find?_reverse_filterMap]
    constructor
    · rintro ⟨before, m, after, heq, hm, hd, hafter⟩
      obtain rfl : d = digest := of_decide_eq_true hd
      obtain ⟨bytes, hlist, rfl⟩ := childEntry_eq_some.mp hm
      refine ⟨bytes, ⟨before, m, after, heq, hlist, fun m' hm' bytes' hlist' => ?_⟩, rfl⟩
      exact of_decide_eq_false (hafter m' hm' _ (childEntry_eq_some.mpr ⟨bytes', hlist', rfl⟩)) rfl
    · rintro ⟨bytes, ⟨before, m, after, heq, hlist, hafter⟩, he⟩
      obtain ⟨rfl, rfl⟩ := (Prod.mk.injEq ..).mp he
      refine ⟨before, m, after, heq, childEntry_eq_some.mpr ⟨bytes, hlist, rfl⟩,
        decide_eq_true rfl, fun m' hm' e' he' => decide_eq_false fun hd => ?_⟩
      obtain ⟨bytes', hlist', -⟩ := childEntry_eq_some.mp (show _ = some (e'.1, e'.2) from he')
      exact hafter m' hm' bytes' (hd ▸ hlist')
  unfold ChildrenOf.next World.LeadsTo
  constructor
  · intro hc
    cases hfind : (w.listChildren parse readable repo order).find?
        (fun e => decide (e.1 = digest)) with
    | none => simp [hfind] at hc
    | some e =>
      rw [hfind] at hc
      obtain ⟨bytes, htaken, rfl⟩ := (hlast e).mp hfind
      obtain ⟨json, hjson, hc⟩ := mem_extractManifestRefs.mp hc
      exact ⟨bytes, json, htaken, hjson, hc⟩
  · rintro ⟨bytes, json, htaken, hjson, hc⟩
    rw [(hlast _).mpr ⟨bytes, htaken, rfl⟩]
    exact mem_extractManifestRefs.mpr ⟨json, hjson, hc⟩

/-- What the search enters is what tags reach through lists. -/
theorem mem_reachable (h : w.ArtifactsPlaced x repo.name)
    (horder : order.Perm (List.range numShards)) {fuel : ℕ} {reachable : List String}
    (hsearch : search (w.listChildren parse readable repo order).next fuel
      (w.dockerRecords repo order).tagDigests.reverse [] = some reachable) {digest : String} :
    digest ∈ reachable ↔ w.ListsReach x parse readable repo order digest := by
  have hnext : (fun d c => c ∈ (w.listChildren parse readable repo order).next d) =
      w.LeadsTo parse readable repo order := by
    funext d c
    exact propext mem_next
  rw [mem_search hsearch]
  simp only [mem_reverse, mem_tagDigests h horder, World.ListsReach, CanReach, hnext]

end Lists

variable {cutoff : DateTime} {reachable paths : List String}

/-! ## What a pass deletes -/

section Pass

variable {x : Ext} {parse : Bytes → Option Json} {readable : BlobId → Bool} {w : World}
variable {repo : RepoConfig} {order : List ℕ}

/-- The blob references that a pass deletes. -/
def World.pickedBlobs (x : Ext) (parse : Bytes → Option Json) (readable : BlobId → Bool)
    (w : World) (repo : RepoConfig) (order : List ℕ) : List (String × ℕ) :=
  blobDeletions x w.graceCutoff (w.layerFilter x parse readable repo order)
    (w.dockerRecords repo order).blobRefs

variable {path : String}

theorem mem_blobDeletions {filter : Bloom} {refs : List (String × DateTime × ℕ)} :
    path ∈ (blobDeletions x cutoff filter refs).map Prod.fst ↔
      ∃ created size digest, (path, created, size) ∈ refs ∧ ¬cutoff < created ∧
        digestOf blobsDir path = some digest ∧ filter.check x digest = false := by
  simp only [blobDeletions, mem_map, mem_filterMap]
  constructor
  · rintro ⟨⟨path', size⟩, ⟨⟨p, created, size'⟩, hmem, hpick⟩, rfl⟩
    split_ifs at hpick with hyoung
    cases hd : digestOf blobsDir p with
    | none =>
      rw [hd] at hpick
      cases hpick
    | some digest =>
      rw [hd] at hpick
      dsimp only at hpick
      split_ifs at hpick with hcheck
      cases hpick
      exact ⟨created, size, digest, hmem, hyoung, hd, by simpa using hcheck⟩
  · rintro ⟨created, size, digest, hmem, hyoung, hd, hcheck⟩
    refine ⟨(path, size), ⟨(path, created, size), hmem, ?_⟩, rfl⟩
    rw [if_neg hyoung, hd]
    dsimp only
    rw [if_neg (by simp [hcheck])]

theorem mem_manifestDeletions {manifests : List (String × ArtifactRecord)} :
    path ∈ (manifestDeletions cutoff reachable manifests).map Prod.fst ↔
      ∃ record digest, (path, record) ∈ manifests ∧ ¬cutoff < record.createdAt ∧
        digestOf manifestsDir path = some digest ∧ digest ∉ reachable := by
  simp only [manifestDeletions, mem_map, mem_filterMap]
  constructor
  · rintro ⟨⟨path', size⟩, ⟨⟨p, record⟩, hmem, hpick⟩, rfl⟩
    split_ifs at hpick with hyoung
    cases hd : digestOf manifestsDir p with
    | none =>
      rw [hd] at hpick
      cases hpick
    | some digest =>
      rw [hd] at hpick
      dsimp only at hpick
      split_ifs at hpick with hreach
      cases hpick
      exact ⟨record, digest, hmem, hyoung, hd, hreach⟩
  · rintro ⟨record, digest, hmem, hyoung, hd, hreach⟩
    refine ⟨(path, record.size), ⟨(path, record), hmem, ?_⟩, rfl⟩
    rw [if_neg hyoung, hd]
    dsimp only
    rw [if_neg hreach]

/-- A record is left if it is in neither list. -/
theorem left_iff (h : w.ArtifactsPlaced x repo.name) (horder : order.Perm (List.range numShards))
    {record : ArtifactRecord} (hrec : w.recordAt x repo.name path = some record)
    (hreach : repo.cleanupUntaggedManifests = true → ∀ digest, digest ∈ reachable ↔
      w.ListsReach x parse readable repo order digest) :
    w.Left x parse readable repo order path record ↔
      path ∉ (w.pickedBlobs x parse readable repo order).map Prod.fst ∧
        (repo.cleanupUntaggedManifests = true → path ∉ (manifestDeletions w.graceCutoff reachable
          (w.manifestsIn repo order)).map Prod.fst) := by
  have hblob : path ∈ (w.pickedBlobs x parse readable repo order).map Prod.fst ↔
      inDockerDir blobsDir path = true ∧ ¬w.graceCutoff < record.createdAt ∧
        ∃ digest ∈ digestOf blobsDir path,
          ¬w.SharesPositions x repo w.drawn (w.ReadMentions x parse readable repo) digest := by
    rw [World.pickedBlobs, mem_blobDeletions]
    simp only [← layerFilter_check h horder, Bool.not_eq_true]
    constructor
    · rintro ⟨created, size, digest, hmem, hold, hd, hcheck⟩
      obtain ⟨hdir, record', hrec', rfl, -⟩ := (mem_blobRefs h horder).mp hmem
      obtain rfl := Option.some.inj (hrec.symm.trans hrec')
      exact ⟨hdir, hold, digest, hd, hcheck⟩
    · rintro ⟨hdir, hold, digest, hd, hcheck⟩
      exact ⟨_, _, digest, (mem_blobRefs h horder).mpr ⟨hdir, record, hrec, rfl, rfl⟩, hold, hd,
        hcheck⟩
  have hmanifest : path ∈ (manifestDeletions w.graceCutoff reachable
      (w.manifestsIn repo order)).map Prod.fst ↔
      inDockerDir blobsDir path = false ∧ inDockerDir manifestsDir path = true ∧
        ¬w.graceCutoff < record.createdAt ∧
          ∃ digest ∈ digestOf manifestsDir path, digest ∉ reachable := by
    rw [mem_manifestDeletions]
    constructor
    · rintro ⟨record', digest, hmem, hold, hd, hnot⟩
      obtain ⟨hnb, hdir, hrec'⟩ := (mem_manifests h horder).mp hmem
      obtain rfl := Option.some.inj (hrec.symm.trans hrec')
      exact ⟨hnb, hdir, hold, digest, hd, hnot⟩
    · rintro ⟨hnb, hdir, hold, digest, hd, hnot⟩
      exact ⟨record, digest, (mem_manifests h horder).mpr ⟨hnb, hdir, hrec⟩, hold, hd, hnot⟩
  rw [hblob, hmanifest, World.Left]
  by_cases hyoung : w.graceCutoff < record.createdAt
  · simp [hyoung]
  · cases hb : inDockerDir blobsDir path with
    | true => simp [hyoung]
    | false =>
      cases hm : inDockerDir manifestsDir path with
      | false => simp
      | true =>
        cases hc : repo.cleanupUntaggedManifests with
        | false => simp
        | true => simp [hyoung, hreach hc]

end Pass

variable {k : Key}

/-! ## Runs -/

section Runs

variable {x : Ext} {parse : Bytes → Option Json} {readable : BlobId → Bool}

/-- Any operation may fail; reading a blob fails unless it is `readable`. -/
def Outcomes (readable : BlobId → Bool) (_ : World) (o : Op) (b : Bool) : Prop :=
  match o with
  | .blob _ (.read blobId) => b = readable blobId
  | _ => True

/-- What a function of the program can do by itself. -/
abbrev Ends (x : Ext) (readable : BlobId → Bool) {α : Type} (p : Async α) (w : World)
    (r : Except DepotError α) (w' : World) : Prop :=
  Yields (World.exec x) (Outcomes readable) p w r w'

theorem ends_utcNow {w w' : World} {r : Except DepotError DateTime}
    (h : Ends x readable utcNow w r w') : w' = w ∧ r = .ok w.now := by
  obtain ⟨b, a, -, hx, rfl⟩ := yields_issue h
  cases hx
  exact ⟨rfl, rfl⟩

theorem ends_storesGet {name : String} {w w' : World} {r : Except DepotError Bool}
    (h : Ends x readable (storesGet name) w r w') : w' = w ∧ r = .ok (decide (name ∈ w.stores)) := by
  obtain ⟨b, a, -, hx, rfl⟩ := yields_issue h
  cases hx
  exact ⟨rfl, rfl⟩

/-! ### Scanning -/

theorem still_poll : StillOp (World.exec x) (Outcomes readable) .poll := by
  intro w b w' r _ hx
  cases hx
  rfl

theorem still_scan (part : Part) (start : String) (stop : Option String) (limit : ℕ) :
    StillOp (World.exec x) (Outcomes readable) (.scan part start stop limit) := by
  intro w b w' r _ hx
  cases hx
  rfl

theorem still_stop : StillOp (World.exec x) (Outcomes readable) .stop := by
  intro w b w' r _ hx
  cases hx

theorem uses_checkCancelled {P : Op → Prop} (hpoll : P .poll) (msg : String) :
    Uses P (checkCancelled msg) :=
  (uses_issue hpoll).bind fun cancelled => by
    cases (cancelled : Bool)
    · exact uses_pure _
    · exact uses_throw _

theorem scan_still (part : Part) (fuel : ℕ) (cursor : Option String) (sr : ShardResult) :
    Uses (StillOp (World.exec x) (Outcomes readable)) (scanDockerShard part fuel cursor sr) := by
  induction fuel generalizing cursor sr with
  | zero => exact (uses_issue still_stop).bind fun e => nomatch e
  | succ fuel ih =>
    refine (uses_checkCancelled still_poll _).bind fun _ =>
      (Fallible.uses_attempt (still_scan _ _ _ _)).bind fun result => ?_
    dsimp only
    split_ifs
    · exact uses_pure _
    · cases result.items.getLast? with
      | some e => exact ih _ _
      | none => exact uses_pure _

theorem ends_scanRange {part : Part} {start : String} {stop : Option String} {limit : ℕ}
    {w w' : World} {result : ScanResult}
    (h : Ends x readable (kvScanRange part start stop limit) w (.ok result) w') :
    w' = w ∧ result = w.scanRange part start stop limit := by
  obtain ⟨b, a, -, hx, ⟨c, hc, hr⟩ | ⟨-, e, he⟩⟩ := yields_attempt h
  · cases hx
    obtain rfl := ok.inj hr
    cases b
    · cases hc
    · cases hc
      exact ⟨rfl, rfl⟩
  · cases he

variable {fuel : ℕ}

/-- A shard that is read to its end is read as a whole. -/
theorem ends_scan {part : Part} {cursor : Option String} {sr sr' : ShardResult}
    {w w' : World} (h : Ends x readable (scanDockerShard part fuel cursor sr) w (.ok sr') w') :
    sr' = (w.entriesFrom part (cursor.getD "") none).foldl ShardResult.add sr := by
  induction fuel generalizing cursor sr with
  | zero =>
    rcases yields_bind h with ⟨e, he, -⟩ | ⟨a, -, -, -⟩
    · cases he
    · exact nomatch a
  | succ fuel ih =>
    rcases yields_bind h with ⟨e, he, -⟩ | ⟨_, w1, hpoll, hrest⟩
    · cases he
    obtain rfl : w1 = w := yields_still (uses_checkCancelled still_poll _) hpoll
    rcases yields_bind hrest with ⟨e, he, -⟩ | ⟨result, w2, hscan, hgo⟩
    · cases he
    obtain ⟨rfl, rfl⟩ := ends_scanRange hscan
    dsimp only at hgo
    rw [World.scanRange_items, World.scanRange_done] at hgo
    split_ifs at hgo with hdone
    · obtain ⟨hr, -⟩ := yields_pure hgo
      obtain rfl := ok.inj hr
      rw [take_of_length_le (of_decide_eq_true hdone)]
    · cases hlast : ((w2.entriesFrom part (cursor.getD "") none).take 1000).getLast? with
      | some e =>
        rw [hlast] at hgo
        rw [ih hgo, Option.getD_some, World.entriesFrom_cursorAfter hlast, ← List.foldl_append,
          take_append_drop]
      | none =>
        have hnil := getLast?_eq_none_iff.mp hlast
        have hlen := congrArg List.length hnil
        rw [length_take, length_nil] at hlen
        have hmore : ¬(w2.entriesFrom part (cursor.getD "") none).length ≤ 1000 := by
          simpa using hdone
        omega

/-! ### Reading manifests -/

theorem ends_blobRead {store : String} {blobId : BlobId} {w w' : World}
    {r : Except DepotError (Option Bytes)} (h : Ends x readable (blobRead store blobId) w r w') :
    w' = w ∧ ((readable blobId = true ∧ r = .ok ((w.file store blobId).map BlobFile.content)) ∨
      readable blobId = false ∧ ∃ e, r = .error e) := by
  obtain ⟨b, a, hok, hx, hr⟩ := yields_attempt h
  obtain rfl : b = readable blobId := hok
  rw [World.exec] at hx
  cases hread : readable blobId with
  | true =>
    rw [hread, if_pos rfl] at hx
    cases hx
    rcases hr with ⟨c, hc, rfl⟩ | ⟨hc, -⟩
    · cases hc
      exact ⟨rfl, .inl ⟨rfl, rfl⟩⟩
    · cases hc
  | false =>
    rw [hread, if_neg Bool.false_ne_true] at hx
    cases hx
    rcases hr with ⟨c, hc, -⟩ | ⟨-, hr⟩
    · cases hc
    · exact ⟨rfl, .inr ⟨rfl, hr⟩⟩

variable {record : ArtifactRecord} {blobs : Option String}

theorem ends_readManifest {w w' : World}
    {r : Except DepotError (Option Bytes)} (h : Ends x readable (readManifest blobs record) w r w') :
    w' = w ∧ r = .ok (w.readOutcomeFrom readable blobs record) := by
  unfold World.readOutcomeFrom
  unfold readManifest at h
  cases blobs with
  | none =>
    obtain ⟨rfl, rfl⟩ := yields_pure h
    exact ⟨rfl, rfl⟩
  | some store =>
    cases hb : record.blobId with
    | none =>
      rw [hb] at h
      obtain ⟨rfl, rfl⟩ := yields_pure h
      exact ⟨rfl, rfl⟩
    | some blobId =>
      rw [hb] at h
      dsimp only at h ⊢
      split_ifs at h with hempty
      · obtain ⟨rfl, rfl⟩ := yields_pure h
        rw [if_pos hempty]
        exact ⟨rfl, rfl⟩
      · rw [if_neg hempty]
        rcases yields_bind h with ⟨e, -, hcap⟩ | ⟨r1, w1, hcap, hgo⟩
        · obtain ⟨r1, he, -⟩ := yields_capture hcap
          cases he
        · obtain ⟨r2, he, hread⟩ := yields_capture hcap
          obtain rfl := ok.inj he
          obtain ⟨rfl, ⟨hok, rfl⟩ | ⟨hok, e, rfl⟩⟩ := ends_blobRead hread
          · obtain ⟨rfl, rfl⟩ := yields_pure hgo
            rw [if_pos hok]
            exact ⟨rfl, rfl⟩
          · obtain ⟨rfl, rfl⟩ := yields_pure hgo
            rw [if_neg (by simp [hok])]
            exact ⟨rfl, rfl⟩

variable {m : String × ArtifactRecord}

theorem ends_addLayers {filter : Bloom} {w w' : World} {r : Except DepotError Bloom}
    (h : Ends x readable (addLayers x parse blobs filter m) w r w') :
    w' = w ∧ r = .ok (match w.readOutcomeFrom readable blobs m.2 with
      | some json => (extractManifestRefs parse json).foldl (Bloom.set x) filter
      | none => filter) := by
  rcases yields_bind h with ⟨e, -, hread⟩ | ⟨json, w1, hread, hgo⟩
  · obtain ⟨-, he⟩ := ends_readManifest hread
    cases he
  · obtain ⟨rfl, hj⟩ := ends_readManifest hread
    obtain rfl := ok.inj hj
    cases hjson : w1.readOutcomeFrom readable blobs m.2 with
    | some json =>
      rw [hjson] at hgo
      exact (yields_pure hgo).symm
    | none =>
      rw [hjson] at hgo
      exact (yields_pure hgo).symm

theorem ends_addChildren {c : ChildrenOf} {w w' : World} {r : Except DepotError ChildrenOf}
    (h : Ends x readable (addChildren parse blobs c m) w r w') :
    w' = w ∧ r = .ok (if isManifestList m.2.contentType then
      match digestOf manifestsDir m.1, w.readOutcomeFrom readable blobs m.2 with
      | some digest, some json => (digest, extractManifestRefs parse json) :: c
      | _, _ => c
    else c) := by
  unfold addChildren at h
  split_ifs at h ⊢ with hlist
  · rcases yields_bind h with ⟨e, -, hread⟩ | ⟨json, w1, hread, hgo⟩
    · obtain ⟨-, he⟩ := ends_readManifest hread
      cases he
    · obtain ⟨rfl, hj⟩ := ends_readManifest hread
      obtain rfl := ok.inj hj
      cases hdig : digestOf manifestsDir m.1 with
      | none =>
        rw [hdig] at hgo
        exact (yields_pure hgo).symm
      | some digest =>
        cases hjson : w1.readOutcomeFrom readable blobs m.2 with
        | none =>
          rw [hdig, hjson] at hgo
          exact (yields_pure hgo).symm
        | some json =>
          rw [hdig, hjson] at hgo
          exact (yields_pure hgo).symm
  · exact (yields_pure h).symm

/-! ### Deleting -/

/-- One record of the table of artifacts stays, and the blob files. -/
structure Leaves (k : Key) (w w' : World) : Prop where
  cell : w'.cell k = w.cell k
  files : w'.files = w.files

theorem Leaves.refl (k : Key) (w : World) : Leaves k w w := ⟨rfl, rfl⟩

theorem Leaves.trans {w w' w'' : World} (h : Leaves k w w') (h' : Leaves k w' w'') :
    Leaves k w w'' := ⟨h'.cell.trans h.cell, h'.files.trans h.files⟩

theorem leaves_kvDelete {k' : Key} (hne : k ≠ k') {w w' : World} {r : Except DepotError Bool}
    (h : Ends x readable (kvDelete k') w r w') : Leaves k w w' := by
  obtain ⟨b, a, -, hx, -⟩ := yields_attempt h
  cases b with
  | false =>
    cases hx
    exact .refl k w
  | true =>
    cases hx
    exact ⟨World.cell_setCell_of_ne hne _, rfl⟩

theorem leaves_kvDeleteBatch {ks : List Key} (hks : k ∉ ks) {w w' : World}
    {r : Except DepotError (List Bool)} (h : Ends x readable (kvDeleteBatch ks) w r w') :
    Leaves k w w' := by
  refine yields_fold (Leaves.refl k) (fun _ _ _ => Leaves.trans) (fun k' hk' t w r w' hrun => ?_) h
  have hne : k ≠ k' := fun heq => hks (heq ▸ hk')
  rcases yields_bind hrun with ⟨e, -, hdel⟩ | ⟨hit, w1, hdel, hpure⟩
  · exact leaves_kvDelete hne hdel
  · obtain ⟨-, rfl⟩ := yields_pure hpure
    exact leaves_kvDelete hne hdel

theorem leaves_deleteBatch {repo : String}
    (hk : k.part.table = .artifacts) (hpaths : k ∉ paths.map (artifactKey x.shardOf repo))
    {w w' : World} {r : Except DepotError Unit}
    (h : Ends x readable (deleteArtifactsPairedBatch x repo paths) w r w') : Leaves k w w' := by
  have htree : k ∉ paths.map (treeEntryKey x.shardOf repo) := by
    intro hmem
    obtain ⟨path, -, rfl⟩ := mem_map.mp hmem
    cases hk
  unfold deleteArtifactsPairedBatch at h
  split_ifs at h
  · obtain ⟨-, rfl⟩ := yields_pure h
    exact .refl k _
  · rcases yields_bind h with ⟨e, -, hdel⟩ | ⟨hits, w1, hdel, hgo⟩
    · exact leaves_kvDeleteBatch hpaths hdel
    · obtain ⟨-, r1, htreedel⟩ := yields_ignore hgo
      exact (leaves_kvDeleteBatch hpaths hdel).trans (leaves_kvDeleteBatch htree htreedel)

theorem leaves_dirChanged {repo path : String} {c b : ℤ} {w w' : World}
    {r : Except DepotError Unit} (h : Ends x readable (dirChanged repo path c b) w r w') :
    Leaves k w w' := by
  obtain ⟨b, a, -, hx, -⟩ := yields_issue h
  cases hx
  exact ⟨rfl, rfl⟩

variable {r : Except DepotError ℕ} {dryRun : Bool}

theorem leaves_deleteRecords {repo : String} {deletions : List (String × ℕ)}
    (hk : k.part.table = .artifacts)
    (hpaths : dryRun = false → k ∉ (deletions.map Prod.fst).map (artifactKey x.shardOf repo))
    {w w' : World}
    (h : Ends x readable (deleteDockerRecords x repo dryRun deletions) w r w') : Leaves k w w' := by
  unfold deleteDockerRecords at h
  split_ifs at h with hgo
  · rcases yields_bind h with ⟨e, -, hdel⟩ | ⟨_, w1, hdel, hrest⟩
    · exact leaves_deleteBatch hk (hpaths hgo.2) hdel
    · refine (leaves_deleteBatch hk (hpaths hgo.2) hdel).trans ?_
      have hsent : ∀ {r : Except DepotError Unit} {w2 : World},
          Ends x readable (recordsRemoved repo deletions) w1 r w2 → Leaves k w1 w2 :=
        yields_fold (Leaves.refl k) (fun _ _ _ => Leaves.trans) fun _ _ _ _ _ _ => leaves_dirChanged
      rcases yields_bind hrest with ⟨e, -, hsend⟩ | ⟨_, w2, hsend, hpure⟩
      · exact hsent hsend
      · obtain ⟨-, rfl⟩ := yields_pure hpure
        exact hsent hsend
  · obtain ⟨-, rfl⟩ := yields_pure h
    exact .refl k _

/-! ### The pass -/

variable {w : World} {repo : RepoConfig} {order : List ℕ}

/-- The key of a record. -/
def recordKey (x : Ext) (repo path : String) : Key := ⟨artifactShardPk repo (x.shardOf path), path⟩

theorem recordKey_notMem {repo path : String}
    (hclean : ∀ p ∈ paths, normalizePath p = p) (h : path ∉ paths) :
    recordKey x repo path ∉ paths.map (artifactKey x.shardOf repo) := by
  intro hmem
  obtain ⟨p, hp, hkey⟩ := mem_map.mp hmem
  have hsk : normalizePath p = path := congrArg Key.sk hkey
  rw [hclean p hp] at hsk
  exact h (hsk ▸ hp)

variable {path : String}

theorem clean_recordAt (h : w.ArtifactsPlaced x repo.name)
    (hrec : w.recordAt x repo.name path = some record) : normalizePath path = path := by
  obtain ⟨v, hv, -⟩ := bind_eq_some_iff.mp hrec
  exact (h _ (x.shardOf_lt path) path v hv).2

theorem clean_pickedBlobs (h : w.ArtifactsPlaced x repo.name)
    (horder : order.Perm (List.range numShards)) :
    ∀ p ∈ (w.pickedBlobs x parse readable repo order).map Prod.fst, normalizePath p = p := by
  intro p hp
  obtain ⟨created, size, digest, hmem, -⟩ := mem_blobDeletions.mp hp
  obtain ⟨-, record, hrec, -⟩ := (mem_blobRefs h horder).mp hmem
  exact clean_recordAt h hrec

theorem clean_manifestDeletions (h : w.ArtifactsPlaced x repo.name)
    (horder : order.Perm (List.range numShards)) :
    ∀ p ∈ (manifestDeletions cutoff reachable (w.manifestsIn repo order)).map Prod.fst,
      normalizePath p = p := by
  intro p hp
  obtain ⟨record, digest, hmem, -⟩ := mem_manifestDeletions.mp hp
  exact clean_recordAt h ((mem_manifests h horder).mp hmem).2.2

theorem readOutcomeFrom_files {w' : World} (h : w'.files = w.files) (blobs : Option String)
    (record : ArtifactRecord) :
    w'.readOutcomeFrom readable blobs record = w.readOutcomeFrom readable blobs record := by
  unfold World.readOutcomeFrom World.file
  rw [h]

variable {w' : World}

/-- The shards find what there is. -/
theorem ends_shards {rs : List ShardResult}
    (h : Ends x readable (Fallible.join (order.map fun shard =>
      scanDockerShard (artifactShardPk repo.name shard) fuel none {})) w (.ok rs) w') :
    w' = w ∧ ShardResult.concat rs = w.dockerRecords repo order := by
  obtain ⟨rfl, hall⟩ := yields_join_still (fun shard _ => scan_still _ fuel none {}) h
  refine ⟨rfl, Eq.trans (congrArg ShardResult.concat ?_) concat_shards⟩
  have heach := (hall rs rfl).imp fun _ _ hscan => ends_scan hscan
  have heq := forall₂_map_right_iff.mpr heach.flip
  rw [forall₂_eq_eq_eq] at heq
  exact heq

theorem ends_layerFilter {r : Except DepotError Bloom}
    (h : Ends x readable (Fallible.fold (addLayers x parse (w.resolveStore repo))
      (w.manifestsIn repo order)
      ⟨layerCapacity (w.manifestsIn repo order), w.drawn, 0⟩)
      { w with drawn := w.drawn + 1 } r w') :
    w' = { w with drawn := w.drawn + 1 } ∧ r = .ok (w.layerFilter x parse readable repo order) :=
  yields_fold_pure (fun _ _ _ _ _ hone => ends_addLayers hone) h

theorem ends_listChildren {v v' : World} (hv : v.files = w.files) {r : Except DepotError ChildrenOf}
    (h : Ends x readable (Fallible.fold (addChildren parse (w.resolveStore repo))
      (w.manifestsIn repo order) []) v r v') :
    v' = v ∧ r = .ok (w.listChildren parse readable repo order) := by
  refine yields_fold_pure (fun m _ c r w' hone => ?_) h
  obtain ⟨hw, hr⟩ := ends_addChildren hone
  rw [readOutcomeFrom_files hv] at hr
  exact ⟨hw, hr⟩

/-- Phase A leaves what it does not pick. -/
theorem ends_layerPhase (h : w.ArtifactsPlaced x repo.name)
    (horder : order.Perm (List.range numShards))
    (hpath : dryRun = false → path ∉ (w.pickedBlobs x parse readable repo order).map Prod.fst)
    (hrun : Ends x readable (layerPhase x parse repo dryRun w.graceCutoff (w.resolveStore repo)
      (w.dockerRecords repo order)) w r w') : Leaves (recordKey x repo.name path) w w' := by
  rcases yields_bind hrun with ⟨e, -, hseed⟩ | ⟨seed, w1, hseed, hgo⟩
  · obtain ⟨b, a, -, hx, -⟩ := yields_issue hseed
    cases hx
    exact ⟨rfl, rfl⟩
  obtain ⟨b, a, -, hx, ha⟩ := yields_issue hseed
  cases hx
  obtain rfl := ok.inj ha
  have hdrawn : Leaves (recordKey x repo.name path) w { w with drawn := w.drawn + 1 } := ⟨rfl, rfl⟩
  rcases yields_bind hgo with ⟨e, -, hfold⟩ | ⟨filter, w2, hfold, hdel⟩
  · rw [(ends_layerFilter hfold).1]
    exact hdrawn
  obtain ⟨rfl, hf⟩ := ends_layerFilter hfold
  obtain rfl := ok.inj hf
  exact hdrawn.trans (leaves_deleteRecords rfl
    (fun hdry => recordKey_notMem (clean_pickedBlobs h horder) (hpath hdry)) hdel)

/-- No blob file is touched. -/
theorem files_layerPhase {cutoff : DateTime} (hrun : Ends x readable (layerPhase x parse repo dryRun
      cutoff (w.resolveStore repo) (w.dockerRecords repo order)) w r w') : w'.files = w.files := by
  rcases yields_bind hrun with ⟨e, -, hseed⟩ | ⟨seed, w1, hseed, hgo⟩
  · obtain ⟨b, a, -, hx, -⟩ := yields_issue hseed
    cases hx
    rfl
  obtain ⟨b, a, -, hx, ha⟩ := yields_issue hseed
  cases hx
  obtain rfl := ok.inj ha
  rcases yields_bind hgo with ⟨e, -, hfold⟩ | ⟨filter, w2, hfold, hdel⟩
  · rw [(ends_layerFilter hfold).1]
  obtain ⟨rfl, -⟩ := ends_layerFilter hfold
  -- A key that is no artifact's.
  refine (leaves_deleteRecords (k := ⟨⟨.artifacts, .single⟩, ""⟩) rfl (fun _ hmem => ?_) hdel).files
  obtain ⟨path, -, hkey⟩ := mem_map.mp hmem
  cases hkey

/-- Phase B leaves what it does not pick, also after phase A. -/
theorem ends_manifestPhase (h : w.ArtifactsPlaced x repo.name)
    (horder : order.Perm (List.range numShards))
    {v : World} (hv : v.files = w.files)
    (hpath : dryRun = false → repo.cleanupUntaggedManifests = true → ∀ reachable,
      search (w.listChildren parse readable repo order).next fuel
        (w.dockerRecords repo order).tagDigests.reverse [] = some reachable →
      path ∉ (manifestDeletions w.graceCutoff reachable (w.manifestsIn repo order)).map
        Prod.fst)
    (hrun : Ends x readable (manifestPhase x parse fuel repo dryRun w.graceCutoff
      (w.resolveStore repo) (w.dockerRecords repo order)) v r w') :
    Leaves (recordKey x repo.name path) v w' := by
  unfold manifestPhase at hrun
  split_ifs at hrun with hclean
  · rcases yields_bind hrun with ⟨e, -, hfold⟩ | ⟨childrenOf, v1, hfold, hgo⟩
    · rw [(ends_listChildren hv hfold).1]
      exact .refl _ _
    obtain ⟨rfl, hc⟩ := ends_listChildren hv hfold
    obtain rfl := ok.inj hc
    cases hsearch : search (w.listChildren parse readable repo order).next fuel
        (w.dockerRecords repo order).tagDigests.reverse [] with
    | none =>
      rw [hsearch] at hgo
      rcases yields_bind hgo with ⟨e, -, hstop⟩ | ⟨a, v2, hstop, -⟩ <;>
      · rcases yields_bind hstop with ⟨e, -, hissue⟩ | ⟨a, -, -, -⟩
        · obtain ⟨-, a, -⟩ := yields_issue hissue
          exact nomatch a
        · exact nomatch a
    | some reachable =>
      rw [hsearch] at hgo
      rcases yields_bind hgo with ⟨e, -, hpure⟩ | ⟨a, v2, hpure, hdel⟩
      · cases (yields_pure hpure).1
      obtain ⟨ha, rfl⟩ := yields_pure hpure
      obtain rfl := ok.inj ha
      exact leaves_deleteRecords rfl (fun hdry => recordKey_notMem
        (clean_manifestDeletions h horder) (hpath hdry hclean _ hsearch)) hdel
  · obtain ⟨-, rfl⟩ := yields_pure hrun
    exact .refl _ _

/-- A pass leaves, whatever fails, the records that one like it leaves. -/
theorem ends_dockerGc (h : w.ArtifactsPlaced x repo.name)
    (horder : order.Perm (List.range numShards))
    (hrun : Ends x readable (dockerGc x parse fuel order repo dryRun) w r w')
    (hrec : w.recordAt x repo.name path = some record)
    (hleft : dryRun = false → w.Left x parse readable repo order path record) :
    Leaves (recordKey x repo.name path) w w' := by
  have hblobs : dryRun = false →
      path ∉ (w.pickedBlobs x parse readable repo order).map Prod.fst := by
    intro hdry hmem
    have hs := hleft hdry
    obtain ⟨created, size, digest, hin, hold, hd, hcheck⟩ := mem_blobDeletions.mp hmem
    obtain ⟨hdir, record', hrec', rfl, -⟩ := (mem_blobRefs h horder).mp hin
    obtain rfl := Option.some.inj (hrec.symm.trans hrec')
    rw [World.Left, if_pos hdir] at hs
    rw [(layerFilter_check h horder).mpr ((hs.resolve_left hold) digest hd)] at hcheck
    cases hcheck
  have hmanifests : dryRun = false → repo.cleanupUntaggedManifests = true → ∀ reachable,
      search (w.listChildren parse readable repo order).next fuel
        (w.dockerRecords repo order).tagDigests.reverse [] = some reachable →
      path ∉ (manifestDeletions w.graceCutoff reachable (w.manifestsIn repo order)).map
        Prod.fst := by
    intro hdry hclean reachable hsearch
    exact ((left_iff h horder hrec fun _ _ => mem_reachable h horder hsearch).mp
      (hleft hdry)).2 hclean
  rcases yields_bind hrun with ⟨e, -, hnow⟩ | ⟨now, w1, hnow, hrun⟩
  · rw [(ends_utcNow hnow).1]
    exact .refl _ _
  obtain ⟨rfl, hn⟩ := ends_utcNow hnow
  obtain rfl := ok.inj hn
  rcases yields_bind hrun with ⟨e, -, hscan⟩ | ⟨rs, w2, hscan, hrun⟩
  · rw [(yields_join_still (fun shard _ => scan_still _ fuel none {}) hscan).1]
    exact .refl _ _
  obtain ⟨rfl, hfound⟩ := ends_shards hscan
  dsimp only at hrun
  rw [hfound] at hrun
  rcases yields_bind hrun with ⟨e, -, hreg⟩ | ⟨registered, w3, hreg, hrun⟩
  · rw [(ends_storesGet hreg).1]
    exact .refl _ _
  obtain ⟨rfl, hr⟩ := ends_storesGet hreg
  obtain rfl := ok.inj hr
  rcases yields_bind hrun with ⟨e, -, hlayers⟩ | ⟨deleted, w4, hlayers, hrun⟩
  · exact ends_layerPhase h horder hblobs hlayers
  have hkept := ends_layerPhase h horder hblobs hlayers
  refine hkept.trans ?_
  rcases yields_bind hrun with ⟨e, -, hphase⟩ | ⟨deleted', w5, hphase, hpure⟩
  · exact ends_manifestPhase h horder hkept.files hmanifests hphase
  obtain ⟨-, rfl⟩ := yields_pure hpure
  exact ends_manifestPhase h horder hkept.files hmanifests hphase

end Runs

end Depot
