import Depot.Npm.Publish

/-!
# The dist-tags of a package

Any number of publishes of a package in any interleaving. When all of them have succeeded,
every dist-tag that one of them names is one that one of them has given, and the others are as
they were, provided that no other tag has changed between the time when a publish reads the
tags and the time when it puts them.

Results:
* `publishLogic_sound`: every publish keeps what the others rely on.
* `dist_tags_merged`: the tags after all publishes.
* `dist_tag_lost`: two publishes at once, and the tag of one of them is lost.
-/

namespace Depot

open Lib List
open Option (some.inj)
open Fallible (Uses attempt uses_attempt uses_issue)
open Function (update update_of_ne update_self)

/-! ## The condition on a run -/

section

variable (x : NpmExt) (norm : String)

/-- The versions of a publish. -/
def Publish.versions {x : NpmExt} {norm : String} (p : Publish x norm) : List String :=
  p.payload.versions.map Prod.fst

/-- The tags of a publish. -/
def Publish.distTags {x : NpmExt} {norm : String} (p : Publish x norm) : Tags :=
  p.payload.distTags

/-- The condition on a run. When a publish puts its tags on those it has read, the result is
    what it would be on those that are stored. -/
def publishRules : Rules NpmOp NpmState (Publish x norm) ℕ where
  op i _ s o b :=
    match o with
    | .putTags sk _ own => !b || decide (((s.tags sk).overlay own.entries).entries =
        ((s.seen i).overlay own.entries).entries)
    | _ => true
  spawn _ _ _ := true
  env _ _ _ := true

end

/-! ## The invariant -/

section

variable (norm : String) (s s' : NpmState)

/-- The stored tags. -/
def NpmState.distTags : Tags := s.tags (tagsSk norm)

/-- A version is stored. -/
def NpmState.Stored (version : String) : Prop := (s.record (versionSk norm version)).isSome = true

/-- The tag is one that a publish has put. -/
def NpmState.Given (tag : String) : Prop :=
  ∃ i own, s.given i = some own ∧ (own.get tag).isSome = true ∧
    (s.distTags norm).get tag = own.get tag

/-- What any operation does to the records: the tags that change are given, and no record is
    lost. -/
structure TagStep : Prop where
  given : ∀ i own, s.given i = some own → s'.given i = some own
  tags : ∀ tag, (s'.distTags norm).get tag = (s.distTags norm).get tag ∨ s'.Given norm tag
  stored : ∀ sk, (s.record sk).isSome = true → (s'.record sk).isSome = true

/-- What task `i` relies on. -/
structure TagRely (i : ℕ) : Prop extends TagStep norm s s' where
  seen : s'.seen i = s.seen i
  answered : s'.answered i = s.answered i

end

/-- What a proof sees of the publishes of a package. -/
abbrev PublishView (x : NpmExt) (norm : String) : Type := View NpmState (Publish x norm) Unit

/-- Every tag is as it was at first, or given by a publish; and what a publish has put is what
    its body says. -/
structure TagInv {x : NpmExt} {norm : String} (s0 : NpmState) (w : PublishView x norm) :
    Prop where
  origin : ∀ tag, (w.shared.distTags norm).get tag = (s0.distTags norm).get tag ∨
    w.shared.Given norm tag
  kept : ∀ sk, (s0.record sk).isSome = true → (w.shared.record sk).isSome = true
  jobs : ∀ i own, w.shared.given i = some own →
    i < w.jobs.length ∧ ∀ p, w.jobs[i]? = some (some p) → p.distTags = own

section

variable {x : NpmExt} {norm : String} {s s' s'' : NpmState} {i : ℕ} {tag : String}

theorem NpmState.Given.congr (h : s.Given norm tag)
    (hgiven : ∀ i own, s.given i = some own → s'.given i = some own)
    (htag : (s'.distTags norm).get tag = (s.distTags norm).get tag) : s'.Given norm tag := by
  obtain ⟨i, own, hi, hsome, heq⟩ := h
  exact ⟨i, own, hgiven i own hi, hsome, htag.trans heq⟩

theorem NpmState.Given.step (h : s.Given norm tag) (hs : TagStep norm s s') :
    s'.Given norm tag := by
  rcases hs.tags tag with htag | hg
  · exact h.congr hs.given htag
  · exact hg

theorem TagStep.refl : TagStep norm s s := ⟨fun _ _ h => h, fun _ => .inl rfl, fun _ h => h⟩

theorem TagStep.trans (h : TagStep norm s s') (h' : TagStep norm s' s'') :
    TagStep norm s s'' where
  given i own hi := h'.given i own (h.given i own hi)
  tags tag := by
    rcases h'.tags tag with heq | hg
    · rcases h.tags tag with heq' | hg
      · exact .inl (heq.trans heq')
      · exact .inr (hg.step h')
    · exact .inr hg
  stored sk hsk := h'.stored sk (h.stored sk hsk)

theorem TagRely.refl : TagRely norm s s i := ⟨TagStep.refl, rfl, rfl⟩

theorem TagRely.trans (h : TagRely norm s s' i) (h' : TagRely norm s' s'' i) :
    TagRely norm s s'' i :=
  ⟨h.toTagStep.trans h'.toTagStep, h'.seen.trans h.seen, h'.answered.trans h.answered⟩

/-- An operation that leaves the records and what was given as they are. -/
theorem TagStep.still (hart : s'.artifacts = s.artifacts) (hgiven : s'.given = s.given) :
    TagStep norm s s' := by
  have hrec : ∀ sk, s'.record sk = s.record sk := fun sk => by
    unfold NpmState.record
    rw [hart]
  refine ⟨fun i own h => ?_, fun tag => .inl ?_, fun sk h => ?_⟩
  · rw [hgiven]
    exact h
  · unfold NpmState.distTags NpmState.tags
    rw [hrec]
  · rw [hrec]
    exact h

/-- A record is put under another key than that of the tags. -/
theorem TagStep.put {sk : String} (hsk : tagsSk norm ≠ sk) (r : NpmRecord) :
    TagStep norm s (s.setRecord sk r) := by
  refine ⟨fun _ _ h => h, fun tag => .inl ?_, fun sk' h => ?_⟩
  · unfold NpmState.distTags
    rw [NpmState.tags_setRecord, if_neg hsk]
  · rw [NpmState.record_setRecord]
    split_ifs
    · rfl
    · exact h

theorem TagStep.putTags {own : Tags} {r : NpmRecord}
    (hown : ∀ own', s.given i = some own' → own' = own)
    (hr : r.tags = (s.distTags norm).overlay own.entries) : TagStep norm s
      { s.setRecord (tagsSk norm) r with given := update s.given i (some own) } := by
  have htags : ∀ tag, (({ s.setRecord (tagsSk norm) r with
      given := update s.given i (some own) } : NpmState).distTags norm).get tag =
        (own.get tag).or ((s.distTags norm).get tag) := by
    intro tag
    show ((s.setRecord (tagsSk norm) r).tags (tagsSk norm)).get tag = _
    rw [NpmState.tags_setRecord, if_pos rfl, hr, Tags.get_overlay, Tags.overlay_entries]
  refine ⟨fun k own' hk => ?_, fun tag => ?_, fun sk h => ?_⟩
  · show update s.given i (some own) k = some own'
    by_cases hki : k = i
    · subst hki
      rw [update_self, hown own' hk]
    · rw [update_of_ne hki, hk]
  · rw [htags]
    cases hget : own.get tag with
    | none => exact .inl rfl
    | some v =>
      refine .inr ⟨i, own, update_self .., ?_, ?_⟩
      · rw [hget]
        rfl
      · rw [htags, hget]
        rfl
  · show ((s.setRecord (tagsSk norm) r).record sk).isSome = true
    rw [NpmState.record_setRecord]
    split_ifs
    · rfl
    · exact h

end

/-! ## The outline -/

section

variable {x : NpmExt} {norm : String}

/-- What task `i` has done once the versions `done` are published. -/
structure PublishedTags (i : ℕ) (own : Tags) (done : List String) (w : PublishView x norm) :
    Prop where
  stored : ∀ v ∈ done, w.shared.Stored norm v
  tags : done ≠ [] → ∀ tag, (own.get tag).isSome = true → w.shared.Given norm tag

/-- A publish that has succeeded has published its versions. -/
def PublishPost (i : ℕ) (p : Publish x norm) (w : PublishView x norm) : Prop :=
  w.shared.answered i = some true → PublishedTags i p.distTags p.versions w

variable (x norm)

/-- The proof outline. -/
def publishLogic (s0 : NpmState) : Logic NpmState (Publish x norm) Unit where
  inv w := TagInv s0 w
  rely i w w' := TagRely norm w.shared w'.shared i
  guar i w w' := TagStep norm w.shared w'.shared ∧
    ∀ k ≠ i, w'.shared.seen k = w.shared.seen k ∧ w'.shared.answered k = w.shared.answered k
  post := PublishPost
  rely_refl _ _ := TagRely.refl
  rely_trans := TagRely.trans

variable {x norm} {s0 : NpmState} {i : ℕ} {j : Publish x norm}

/-- The contract of a publish. -/
abbrev publishContract (s0 : NpmState) (i : ℕ) (j : Publish x norm) :
    Contract NpmState (Publish x norm) Unit :=
  (publishLogic x norm s0).contract i j

/-- What a function does in a run that meets the condition. -/
abbrev PublishTriple {α : Type} (s0 : NpmState) (i : ℕ) (j : Publish x norm)
    (pre : PublishView x norm → Prop) (p : NpmTask α) (post : α → PublishView x norm → Prop) :
    Prop :=
  FTriple (publishSystem x norm) (publishRules x norm) i j (publishContract s0 i j) pre p post
    fun _ => True

theorem PublishedTags.step {own : Tags} {done : List String} {w w' : PublishView x norm}
    (h : PublishedTags i own done w) (hs : TagStep norm w.shared w'.shared) :
    PublishedTags i own done w' where
  stored v hv := hs.stored _ (h.stored v hv)
  tags hne tag htag := (h.tags hne tag htag).step hs

theorem PublishedTags.stable {own : Tags} {done : List String} :
    (publishContract s0 i j).Stable (PublishedTags i own done) :=
  fun _ _ _ _ hr h => h.step hr.toTagStep

theorem stable_err : (publishContract s0 i j).Stable fun _ => True := fun _ _ _ _ _ _ => trivial

/-- What every operation of a publish has to show. -/
theorem TagStep.keeps {w : PublishView x norm} {s : NpmState}
    (hi : (publishContract s0 i j).inv w) (hs : TagStep norm w.shared s)
    (hgiven : ∀ k ≠ i, s.given k = w.shared.given k)
    (hown : ∀ own, s.given i = some own → j.distTags = own)
    (hother : ∀ k ≠ i, s.seen k = w.shared.seen k ∧ s.answered k = w.shared.answered k) :
    (publishContract s0 i j).inv ⟨s, w.jobs, ()⟩ ∧
      (publishContract s0 i j).guar w ⟨s, w.jobs, ()⟩ := by
  obtain ⟨hinv, hjob⟩ := hi
  refine ⟨⟨⟨fun tag => ?_, fun sk h0 => hs.stored sk (hinv.kept sk h0), fun k own hk => ?_⟩,
    hjob⟩, hs, hother⟩
  · rcases hs.tags tag with htag | hg
    · rcases hinv.origin tag with h0 | hg
      · exact .inl (htag.trans h0)
      · exact .inr (hg.step hs)
    · exact .inr hg
  · by_cases hki : k = i
    · subst hki
      refine ⟨(List.getElem?_eq_some_iff.mp hjob).1, fun p hp => ?_⟩
      obtain rfl := some.inj (some.inj (hjob.symm.trans hp))
      exact hown own hk
    · refine hinv.jobs k own ?_
      rw [← hgiven k hki]
      exact hk

/-- What a task has put is what its body says. -/
theorem TagInv.own {w : PublishView x norm} (hi : (publishContract s0 i j).inv w) {own : Tags}
    (h : w.shared.given i = some own) : j.distTags = own :=
  (hi.1.jobs i own h).2 j hi.2

/-! ### Operations that are not about the tags -/

/-- Operations that leave the tags, and what was read of them, as they are. -/
def QuietOp (norm : String) : NpmOp → Prop
  | .nowUtc => True
  | .storeBlob => True
  | .putArtifact sk _ => tagsSk norm ≠ sk
  | .putIfAbsent sk _ => tagsSk norm ≠ sk
  | _ => False

theorem quiet_exec {o : NpmOp} (ho : QuietOp norm o) {b : Bool} {s s' : NpmState} {r : o.Reply}
    (hx : s.exec i o b = some (s', r)) : TagStep norm s s' ∧ s'.given = s.given ∧
      s'.seen = s.seen ∧ s'.answered = s.answered := by
  cases o with
  | nowUtc =>
    obtain ⟨rfl, -⟩ := some_mk_inj hx
    exact ⟨TagStep.refl, rfl, rfl, rfl⟩
  | storeBlob =>
    obtain ⟨rfl, -⟩ := some_mk_inj hx
    exact ⟨TagStep.refl, rfl, rfl, rfl⟩
  | readTags sk => exact ho.elim
  | putTags sk r own => exact ho.elim
  | respond ok => exact ho.elim
  | putArtifact sk record =>
    cases b with
    | false =>
      obtain ⟨rfl, -⟩ := some_mk_inj hx
      exact ⟨TagStep.refl, rfl, rfl, rfl⟩
    | true =>
      obtain ⟨rfl, -⟩ := some_mk_inj hx
      exact ⟨TagStep.put ho record, rfl, rfl, rfl⟩
  | putIfAbsent sk record =>
    have hput : TagStep norm s (if (s.record sk).isSome then s else s.setRecord sk record) := by
      split_ifs
      · exact TagStep.refl
      · exact TagStep.put ho record
    cases b with
    | false =>
      obtain ⟨rfl, -⟩ := some_mk_inj hx
      exact ⟨TagStep.refl, rfl, rfl, rfl⟩
    | true =>
      obtain ⟨rfl, -⟩ := some_mk_inj hx
      refine ⟨hput, ?_⟩
      split_ifs <;> exact ⟨rfl, rfl, rfl⟩

/-- What is said of the records, of the tags that were given and of those that task `i` has
    read. -/
def Lasting (i : ℕ) (I : PublishView x norm → Prop) : Prop :=
  ∀ w w', TagStep norm w.shared w'.shared → w'.shared.seen i = w.shared.seen i → I w → I w'

theorem Lasting.stable {I : PublishView x norm → Prop} (h : Lasting i I) :
    (publishContract s0 i j).Stable I :=
  fun w w' _ _ hr hw => h w w' hr.toTagStep hr.seen hw

variable {I : PublishView x norm → Prop}

theorem quiet_keeps {α : Type} {p : NpmTask α} (hp : Uses (QuietOp norm) p) (hI : Lasting i I) :
    FTriple (publishSystem x norm) (publishRules x norm) i j (publishContract s0 i j) I p
      (fun _ => I) I := by
  refine FTriple.uses hI.stable (fun o w b s r ho hi hw _ hx => ?_) hp
  obtain ⟨hs, hgiven, hseen, hans⟩ := quiet_exec ho hx
  obtain ⟨hinv, hg⟩ := hs.keeps hi (fun _ _ => congrFun hgiven _)
    (fun own hown => TagInv.own hi (by rwa [hgiven] at hown))
    fun k _ => ⟨congrFun hseen k, congrFun hans k⟩
  exact ⟨(), hinv, hg, hI w _ hs (congrFun hseen i) hw⟩

theorem quiet_publish {α : Type} {p : NpmTask α} (hp : Uses (QuietOp norm) p)
    (hI : Lasting i I) : PublishTriple s0 i j I p fun _ => I :=
  (quiet_keeps hp hI).consequence (fun _ _ hw => hw) (fun _ _ _ hw => hw) fun _ _ _ => trivial

variable {done : List String}

theorem PublishedTags.lasting {own : Tags} :
    Lasting i (PublishedTags i own done : PublishView x norm → Prop) := fun _ _ hs _ hw => hw.step hs

/-! ### Publishing a version -/

theorem npmBlob_quiet : Uses (QuietOp norm) npmBlob :=
  (uses_attempt trivial).bind fun _ => uses_attempt trivial

/-- The keys of the tarballs, the documents and the flag are not that of the tags. -/
theorem tagsSk_ne {p a r : String} (hp : p = a ++ "/" ++ r) (ha : '/' ∉ a.toList) (ha0 : a ≠ "")
    (hne : "_dist-tags" ≠ a) : tagsSk norm ≠ normalizePath p := by
  have hkey : "_dist-tags/" ++ norm = "_dist-tags" ++ "/" ++ norm := by
    rw [show "_dist-tags/" = "_dist-tags" ++ "/" by decide]
  exact kind_ne hkey hp (by decide) ha (by decide) ha0 hne

theorem tagsSk_ne_tarball (name version filename : String) :
    tagsSk norm ≠ normalizePath (tarballPath x name version filename) := by
  refine tagsSk_ne (a := "_tarballs") (r := normalizeName x name ++ "/" ++ version ++ "/" ++
    filename) ?_ (by decide) (by decide) (by decide)
  unfold tarballPath
  rw [show "_tarballs/" = "_tarballs" ++ "/" by decide]
  simp only [String.append_assoc]

theorem tagsSk_ne_version (version : String) : tagsSk norm ≠ versionSk norm version := by
  refine tagsSk_ne (a := "_versions") (r := norm ++ "/" ++ version) ?_ (by decide)
    (by decide) (by decide)
  rw [show "_versions/" = "_versions" ++ "/" by decide]
  simp only [String.append_assoc]

theorem tagsSk_ne_stale : tagsSk norm ≠ normalizePath npmStalePath :=
  tagsSk_ne (a := "_npm") (r := "metadata_stale") (by decide) (by decide)
    (by decide) (by decide)

/-- The tags are read; those that cannot be read are none. -/
theorem getDistTags_triple {own : Tags} : PublishTriple s0 i j (PublishedTags i own done)
      (Fallible.capture (getDistTags x j.package))
      fun r w => PublishedTags i own done w ∧ w.shared.seen i = r.toOption.getD .empty := by
  have hstable : ∀ tags : Tags, (publishContract s0 i j).Stable fun w =>
      PublishedTags i own done w ∧ w.shared.seen i = tags :=
    fun tags => Lasting.stable fun w w' hs hseen hw =>
      ⟨PublishedTags.lasting w w' hs hseen hw.1, hseen.trans hw.2⟩
  refine FTriple.capture (fun r => hstable _) ?_
  refine FTriple.attempt PublishedTags.stable (fun tags => hstable tags)
    (fun w w' hi hi' hr hw e => hstable _ w w' hi hi' hr (hw e)) fun w b s r hi hw _ hx => ?_
  obtain ⟨rfl, rfl⟩ := some_mk_inj hx
  have hs : ∀ tags : Tags, TagStep norm w.shared
      { w.shared with seen := update w.shared.seen i tags } := fun _ =>
    TagStep.still rfl rfl
  obtain ⟨hinv, hg⟩ := (hs _).keeps hi (fun _ _ => rfl) (fun _ hown => TagInv.own hi hown)
    fun k hk => ⟨update_of_ne hk _ _, rfl⟩
  refine ⟨(), hinv, hg, fun tags htags => ⟨hw.step (hs _), ?_⟩, fun hnone e => ⟨hw.step (hs _), ?_⟩⟩
  · show update w.shared.seen i _ i = tags
    rw [update_self]
    cases b with
    | true => exact some.inj htags
    | false => cases htags
  · show update w.shared.seen i _ i = _
    rw [update_self]
    cases b with
    | true => cases hnone
    | false => rfl

/-- What a publish has done, and has read, before it puts the tags. -/
structure Overlaying (i : ℕ) (own : Tags) (done : List String) (version : String) (tags : Tags)
    (w : PublishView x norm) : Prop where
  published : PublishedTags i own done w
  seen : w.shared.seen i = tags
  version : w.shared.Stored norm version

theorem Overlaying.stable {own tags : Tags} {done : List String} {version : String} :
    (publishContract s0 i j).Stable (Overlaying i own done version tags) :=
  Lasting.stable fun _ _ hs hseen hw =>
    ⟨hw.published.step hs, hseen.trans hw.seen, hs.stored _ hw.version⟩

theorem putTags_triple {version : String} {tags : Tags} {now : DateTime} :
    PublishTriple s0 i j (Overlaying i j.distTags done version tags)
      (attempt .storage (NpmOp.putTags (normalizePath (distTagsPath x j.package))
        (documentRecord x now (tagsJson (tags.overlay j.distTags.entries))) j.distTags) id)
      fun _ => PublishedTags i j.distTags (done ++ [version]) := by
  refine FTriple.attempt Overlaying.stable (fun _ => PublishedTags.stable) stable_err
    fun w b s r hi hw hrule hx => ?_
  have hsk : normalizePath (distTagsPath x j.package) = tagsSk norm := by
    unfold distTagsPath tagsSk
    rw [j.isPackage]
  cases b with
  | false =>
    obtain ⟨rfl, rfl⟩ := some_mk_inj hx
    obtain ⟨hinv, hg⟩ := (@TagStep.refl norm w.shared).keeps hi (fun _ _ => rfl)
      (fun _ hown => TagInv.own hi hown) fun _ _ => ⟨rfl, rfl⟩
    exact ⟨(), hinv, hg, nofun, fun _ => trivial⟩
  | true =>
    obtain ⟨rfl, rfl⟩ := some_mk_inj hx
    have hsame : ((w.shared.tags (normalizePath (distTagsPath x j.package))).overlay
        j.distTags.entries).entries =
        ((w.shared.seen i).overlay j.distTags.entries).entries := of_decide_eq_true hrule
    rw [hsk] at hsame ⊢
    rw [hw.seen] at hsame
    have hr : (documentRecord x now (tagsJson (tags.overlay j.distTags.entries))).tags =
        (w.shared.distTags norm).overlay j.distTags.entries := by
      show (tagsJson _).tags = _
      rw [tags_tagsJson]
      exact (SortedMap.ext_entries hsame).symm
    have hs := TagStep.putTags (s := w.shared) (i := i)
      (fun own' hown => (TagInv.own hi hown).symm) hr
    obtain ⟨hinv, hg⟩ := hs.keeps hi (fun k hk => update_of_ne hk _ _)
      (fun own hown => by
        have hupd : update w.shared.given i (some j.distTags) i = some own := hown
        rw [update_self] at hupd
        exact some.inj hupd) fun _ _ => ⟨rfl, rfl⟩
    refine ⟨(), hinv, hg, fun _ _ => ⟨fun v hv => ?_, fun _ tag htag => ?_⟩, nofun⟩
    · rcases mem_append.mp hv with hv | hv
      · exact hs.stored _ (hw.published.stored v hv)
      · obtain rfl := mem_singleton.mp hv
        exact hs.stored _ hw.version
    · refine ⟨i, j.distTags, update_self .., htag, ?_⟩
      show ((w.shared.setRecord (tagsSk norm) _).tags (tagsSk norm)).get tag = _
      rw [NpmState.tags_setRecord, if_pos rfl, hr, Tags.get_overlay, Tags.overlay_entries]
      obtain ⟨v, hv⟩ := Option.isSome_iff_exists.mp htag
      rw [hv, Option.some_or]

theorem putVersion_triple {own tags : Tags} {version : String} {record : NpmRecord} :
    PublishTriple s0 i j (fun w => PublishedTags i own done w ∧ w.shared.seen i = tags)
      (attempt .storage
        (NpmOp.putArtifact (normalizePath (versionPath x j.package version)) record) id)
      fun _ => Overlaying i own done version tags := by
  have hlast : Lasting i fun w : PublishView x norm =>
      PublishedTags i own done w ∧ w.shared.seen i = tags :=
    fun _ _ hs hseen hw => ⟨hw.1.step hs, hseen.trans hw.2⟩
  have hsk : normalizePath (versionPath x j.package version) = versionSk norm version := by
    unfold versionPath versionSk
    rw [j.isPackage]
  refine FTriple.attempt hlast.stable (fun _ => Overlaying.stable) stable_err
    fun w b s r hi hw _ hx => ?_
  have hquiet : QuietOp norm
      (.putArtifact (normalizePath (versionPath x j.package version)) record) := by
    show tagsSk norm ≠ _
    rw [hsk]
    exact tagsSk_ne_version version
  obtain ⟨hs, hgiven, hseen, hans⟩ := quiet_exec (i := i) hquiet hx
  obtain ⟨hinv, hg⟩ := hs.keeps hi (fun _ _ => congrFun hgiven _)
    (fun own hown => TagInv.own hi (by rwa [hgiven] at hown))
    fun k _ => ⟨congrFun hseen k, congrFun hans k⟩
  refine ⟨(), hinv, hg, fun _ hok => ⟨hw.1.step hs, ?_, ?_⟩, fun _ => trivial⟩
  · exact (congrFun hseen i).trans hw.2
  · cases b with
    | false =>
      obtain ⟨-, rfl⟩ := some_mk_inj hx
      cases hok
    | true =>
      obtain ⟨rfl, -⟩ := some_mk_inj hx
      show ((w.shared.setRecord _ record).record (versionSk norm version)).isSome = true
      rw [NpmState.record_setRecord, if_pos hsk.symm]
      rfl

theorem publishVersion_triple {attachments : List (String × Json)} {e : String × Json} :
    PublishTriple s0 i j (PublishedTags i j.distTags done)
      (publishVersion x j.package attachments j.distTags e)
      fun _ => PublishedTags i j.distTags (done ++ [e.1]) := by
  have hblob : ∀ {I : PublishView x norm → Prop}, Lasting i I →
      PublishTriple s0 i j I npmBlob fun _ => I := quiet_publish npmBlob_quiet
  refine FTriple.bind stable_err (M := fun _ => PublishedTags i j.distTags done)
    (quiet_publish (Fallible.uses_ofExcept _) PublishedTags.lasting) fun data => ?_
  have hnow : Uses (QuietOp norm) npmNow :=
    uses_issue (P := QuietOp norm) (o := NpmOp.nowUtc) trivial
  refine FTriple.bind stable_err (quiet_publish hnow PublishedTags.lasting) fun now => ?_
  refine FTriple.bind stable_err (hblob PublishedTags.lasting) fun _ => ?_
  refine FTriple.bind stable_err (hblob PublishedTags.lasting) fun _ => ?_
  refine FTriple.bind stable_err getDistTags_triple fun existing => ?_
  have hlast : Lasting i fun w : PublishView x norm => PublishedTags i j.distTags done w ∧
      w.shared.seen i = existing.toOption.getD .empty :=
    fun _ _ hs hseen hw => ⟨hw.1.step hs, hseen.trans hw.2⟩
  refine FTriple.bind stable_err (hblob hlast) fun _ => ?_
  have htarball : ∀ record, QuietOp norm (.putArtifact (normalizePath
      (tarballPath x j.package e.1 (storedFilename x j.package e.1))) record) :=
    fun _ => tagsSk_ne_tarball _ _ _
  refine FTriple.bind stable_err (quiet_publish (uses_attempt (htarball _)) hlast) fun _ => ?_
  exact FTriple.bind stable_err putVersion_triple fun _ => putTags_triple

/-- A publish that succeeds has published its versions and its tags. -/
theorem publishInner_triple : PublishTriple s0 i j (PublishedTags i j.distTags [])
      (publishInner x j.package j.payload) fun _ => PublishedTags i j.distTags j.versions := by
  have hfield : ∀ (o : Option (List (String × Json))) (e : DepotError),
      PublishTriple s0 i j (PublishedTags i j.distTags [])
        (Fallible.ofExcept (o.elim (.error e) .ok))
        fun fields w => PublishedTags i j.distTags [] w ∧ o = some fields := by
    intro o e w hi hw u hu hi'
    cases o with
    | none => trivial
    | some fields => exact ⟨PublishedTags.stable w u hi hi' hu hw, rfl⟩
  unfold publishInner
  refine FTriple.bind stable_err (hfield _ _) fun versions => FTriple.assume fun hversions => ?_
  refine FTriple.bind stable_err (hfield _ _) fun attachments => FTriple.assume fun _ => ?_
  have hall : j.versions = versions.map Prod.fst := by
    unfold Publish.versions Json.versions
    rw [hversions]
    rfl
  have heach : PublishTriple s0 i j (PublishedTags i j.distTags [])
      (Fallible.each (publishVersion x j.package attachments j.distTags) versions)
      fun _ => PublishedTags i j.distTags j.versions := by
    rw [hall]
    refine FTriple.each (I := fun done => PublishedTags i j.distTags (done.map Prod.fst))
      PublishedTags.stable stable_err fun done e rest _ => ?_
    rw [map_append]
    exact publishVersion_triple
  refine FTriple.bind stable_err heach fun _ => ?_
  refine FTriple.ignore PublishedTags.stable ?_
  have hflag : ∀ record, QuietOp norm (.putIfAbsent (normalizePath npmStalePath) record) :=
    fun _ => tagsSk_ne_stale
  exact quiet_keeps (Uses.bind
    (uses_issue (P := QuietOp norm) (o := NpmOp.nowUtc) trivial)
    fun now => uses_attempt (hflag _)) PublishedTags.lasting

theorem PublishPost.stable : (publishContract s0 i j).Stable (PublishPost i j) := by
  intro w w' _ _ hr hw hans
  rw [hr.answered] at hans
  exact (hw hans).step hr.toTagStep

/-- A publish that answers with success has published its versions and its tags. -/
theorem publishCode_triple :
    Triple (publishSystem x norm) (publishRules x norm) i j (publishContract s0 i j)
      (PublishedTags i j.distTags []) ((publishSystem x norm).code j) fun _ => PublishPost i j := by
  have hstable : ∀ r : Except DepotError Unit, (publishContract s0 i j).Stable fun w =>
      r.toOption.isSome = true → PublishedTags i j.distTags j.versions w :=
    fun r w w' hi hi' hr hw hok => PublishedTags.stable w w' hi hi' hr (hw hok)
  have hcode : FTriple (publishSystem x norm) (publishRules x norm) i j
      (publishContract s0 i j) (PublishedTags i j.distTags []) (j.code x norm)
      (fun _ => PublishPost i j) (PublishPost i j) := by
    refine FTriple.bind (M := fun r w =>
      r.toOption.isSome = true → PublishedTags i j.distTags j.versions w) PublishPost.stable
      (FTriple.capture hstable (publishInner_triple.consequence (fun _ _ hw => hw)
        (fun _ _ _ hw _ => hw) fun _ _ _ e he => absurd he Bool.false_ne_true)) fun result => ?_
    refine FTriple.issue (hstable result) (fun _ => PublishPost.stable) fun w b s r hi hw _ hx => ?_
    obtain ⟨rfl, rfl⟩ := some_mk_inj hx
    have hs : TagStep norm w.shared { w.shared with
        answered := update w.shared.answered i (some result.toOption.isSome) } :=
      TagStep.still rfl rfl
    obtain ⟨hinv, hg⟩ := hs.keeps hi (fun _ _ => rfl) (fun _ hown => TagInv.own hi hown)
      fun k hk => ⟨rfl, update_of_ne hk _ _⟩
    refine ⟨(), hinv, hg, fun hans => ?_⟩
    have hupd : update w.shared.answered i (some result.toOption.isSome) i = some true := hans
    rw [update_self] at hupd
    exact (hw (some.inj hupd)).step hs
  refine Triple.bind (M := fun _ => PublishPost i j) (Triple.weaken_post hcode
    fun r w _ hw => ?_) fun r w hi hw u hu hi' => PublishPost.stable w u hi hi' hu hw
  cases r with
  | ok a => exact hw
  | error e => exact hw

/-! ## All runs -/

/-- **Soundness.** Every publish keeps what the others rely on. -/
theorem publishLogic_sound (x : NpmExt) (norm : String) (s0 : NpmState) :
    (publishLogic x norm s0).Sound (publishSystem x norm) (publishRules x norm) where
  guar_rely hik _ _ hg := ⟨hg.1, (hg.2 _ hik).1, (hg.2 _ hik).2⟩
  spawn w p hi _ := by
    have hlen : (w.jobs ++ [some p]).length = w.jobs.length + 1 := by simp
    have hinv : (publishLogic x norm s0).inv ⟨w.shared, w.jobs ++ [some p], ()⟩ := by
      refine ⟨hi.origin, hi.kept, fun k own hk => ?_⟩
      obtain ⟨hlt, hjob⟩ := hi.jobs k own hk
      refine ⟨?_, fun q hq => hjob q ?_⟩
      · show k < (w.jobs ++ [some p]).length
        omega
      · have hq' : (w.jobs ++ [some p])[k]? = some (some q) := hq
        rwa [getElem?_append_left hlt] at hq'
    have hjob : (w.jobs ++ [some p])[w.jobs.length]? = some (some p) := by
      rw [getElem?_append_right le_rfl, Nat.sub_self]
      rfl
    refine ⟨(), hinv, fun i => TagRely.refl, ?_⟩
    exact publishCode_triple _ ⟨hinv, hjob⟩
      ⟨fun v hv => absurd hv not_mem_nil, fun hne => absurd rfl hne⟩
  leave w i p hi _ := by
    refine ⟨(), ⟨hi.origin, hi.kept, fun k own hk => ?_⟩, fun k _ => TagRely.refl⟩
    obtain ⟨hlt, hjob⟩ := hi.jobs k own hk
    refine ⟨by rwa [length_set], fun q hq => hjob q ?_⟩
    have hq' : (w.jobs.set i none)[k]? = some (some q) := hq
    rw [getElem?_set] at hq'
    split_ifs at hq' with h1 h2
    · cases hq'
    · exact hq'
  env w d s hi _ hs := by
    obtain rfl := some.inj hs
    have hstep : TagStep norm w.shared { w.shared with now := w.shared.now + d } :=
      TagStep.still rfl rfl
    refine ⟨(), ⟨fun tag => ?_, hi.kept, hi.jobs⟩, fun k => ⟨hstep, rfl, rfl⟩⟩
    rcases hi.origin tag with horigin | hg
    · exact .inl horigin
    · exact .inr (hg.step hstep)

end

/-! ## The tags after all publishes -/

section

variable {x : NpmExt} {norm : String}

/-- No publish has begun, and every tag points to a version that is stored. -/
structure NpmState.AtRest (norm : String) (s : NpmState) : Prop where
  given : ∀ i, s.given i = none
  answered : ∀ i, s.answered i = none
  stored : ∀ tag v, (s.distTags norm).get tag = some v → s.Stored norm v

/-- The publishes of a run. -/
def publishes (p : Pool NpmOp NpmOp.Reply NpmState (Publish x norm)) : List (Publish x norm) :=
  p.jobs.filterMap id

/-- Every publish has returned, and its response is a success. -/
def AllPublished (p : Pool NpmOp NpmOp.Reply NpmState (Publish x norm)) : Prop :=
  ∀ i < p.threads.length, (p.returned i).isSome = true ∧ p.shared.answered i = some true

instance (p : Pool NpmOp NpmOp.Reply NpmState (Publish x norm)) : Decidable (AllPublished p) :=
  inferInstanceAs (Decidable (∀ i < p.threads.length, _))

/-- The body of a publish has a version if it has dist-tags, and its tags name versions that are
    stored or published. -/
structure Publish.WellFormed (s0 : NpmState) (ps : List (Publish x norm)) (q : Publish x norm) :
    Prop where
  versions : q.versions = [] → ∀ tag, q.distTags.get tag = none
  tags : ∀ tag v, q.distTags.get tag = some v →
    s0.Stored norm v ∨ ∃ q' ∈ ps, v ∈ q'.versions

/-- No update of the dist-tags is lost. -/
structure TagsMerged (s0 s : NpmState) (ps : List (Publish x norm)) : Prop where
  named : ∀ p ∈ ps, ∀ tag, (p.distTags.get tag).isSome = true →
    ∃ q ∈ ps, (q.distTags.get tag).isSome = true ∧
      (s.distTags norm).get tag = q.distTags.get tag
  unnamed : ∀ tag, (∀ p ∈ ps, p.distTags.get tag = none) →
    (s.distTags norm).get tag = (s0.distTags norm).get tag
  stored : ∀ tag v, (s.distTags norm).get tag = some v → s.Stored norm v

theorem mem_publishes {p : Pool NpmOp NpmOp.Reply NpmState (Publish x norm)}
    {q : Publish x norm} : q ∈ publishes p ↔ ∃ i : ℕ, p.jobs[i]? = some (some q) := by
  unfold publishes
  rw [mem_filterMap]
  constructor
  · rintro ⟨o, ho, hq⟩
    obtain rfl : o = some q := hq
    exact mem_iff_getElem?.mp ho
  · rintro ⟨i, hi⟩
    exact ⟨some q, mem_of_getElem? hi, rfl⟩

theorem AllPublished.returned {p : Pool NpmOp NpmOp.Reply NpmState (Publish x norm)}
    (hall : AllPublished p) {i : ℕ} (hi : i < p.jobs.length) :
    ∃ q, p.returned i = some q ∧ p.jobs[i]? = some (some q) := by
  have hlt : i < p.threads.length := by rwa [Pool.jobs, length_map] at hi
  obtain ⟨q, hq⟩ := Option.isSome_iff_exists.mp (hall i hlt).1
  obtain ⟨a, ha⟩ := Pool.returned_eq_some.mp hq
  refine ⟨q, hq, ?_⟩
  rw [Pool.jobs, getElem?_map, ha]
  rfl

/-- **Main theorem.** When every publish has succeeded, each dist-tag that one of them names
    is one that one of them has given, the others are as they were before, and every tag points
    to a version that is stored. -/
theorem dist_tags_merged {s0 : NpmState} (h0 : s0.AtRest norm)
    {es : List (Event (Publish x norm) ℕ)} {p : Pool NpmOp NpmOp.Reply NpmState (Publish x norm)}
    (h : (Pool.init s0).run (publishSystem x norm) (publishRules x norm) es = some p)
    (hall : AllPublished p) (hbody : ∀ q ∈ publishes p, q.WellFormed s0 (publishes p)) :
    TagsMerged s0 p.shared (publishes p) := by
  have hinv0 : (publishLogic x norm s0).inv ⟨s0, [], ()⟩ :=
    ⟨fun _ => .inl rfl, fun _ hsk => hsk, fun i own hi => by
      rw [show s0.given i = none from h0.given i] at hi
      cases hi⟩
  obtain ⟨_, hinv⟩ := (publishLogic_sound x norm s0).run_inv hinv0 h
  -- what each publish has done, now that it has answered
  have hdone : ∀ q ∈ publishes p, (∀ v ∈ q.versions, p.shared.Stored norm v) ∧
      (q.versions ≠ [] → ∀ tag, (q.distTags.get tag).isSome = true →
        p.shared.Given norm tag) := by
    intro q hq
    obtain ⟨i, hi⟩ := mem_publishes.mp hq
    obtain ⟨q', hret, hjob⟩ := hall.returned (List.getElem?_eq_some_iff.mp hi).1
    obtain rfl := some.inj (some.inj (hi.symm.trans hjob))
    obtain ⟨_, hpost⟩ := (publishLogic_sound x norm s0).run_post hinv0 h hret
    have hlt : i < p.threads.length := by
      have hlt' := (List.getElem?_eq_some_iff.mp hi).1
      rwa [Pool.jobs, length_map] at hlt'
    have hpub := hpost (hall i hlt).2
    exact ⟨hpub.stored, hpub.tags⟩
  have hgiven : ∀ tag, p.shared.Given norm tag → ∃ q ∈ publishes p,
      (q.distTags.get tag).isSome = true ∧
        (p.shared.distTags norm).get tag = q.distTags.get tag := by
    rintro tag ⟨i, own, hi, hsome, heq⟩
    obtain ⟨hlt, hown⟩ := hinv.jobs i own hi
    obtain ⟨q, -, hjob⟩ := hall.returned hlt
    obtain rfl := hown q hjob
    exact ⟨q, mem_publishes.mpr ⟨i, hjob⟩, hsome, heq⟩
  refine ⟨fun q hq tag htag => ?_, fun tag hnone => ?_, fun tag v hv => ?_⟩
  · refine hgiven tag ((hdone q hq).2 (fun hnil => ?_) tag htag)
    rw [(hbody q hq).versions hnil tag] at htag
    cases htag
  · rcases hinv.origin tag with hsame | hg
    · exact hsame
    · obtain ⟨q, hq, hsome, -⟩ := hgiven tag hg
      rw [hnone q hq] at hsome
      cases hsome
  · have hkept : s0.Stored norm v → p.shared.Stored norm v := hinv.kept _
    rcases hinv.origin tag with hsame | hg
    · exact hkept (h0.stored tag v (hsame.symm.trans hv))
    · obtain ⟨q, hq, -, heq⟩ := hgiven tag hg
      rcases (hbody q hq).tags tag v (heq.symm.trans hv) with hs | ⟨q', hq', hv'⟩
      · exact hkept hs
      · exact (hdone q' hq').1 v hv'

/-! ## A tag that is lost -/

/-- Simple functions of the other crates. -/
def NpmExt.sample : NpmExt where
  toLowercase name := String.ofList (name.toList.map Char.toLower)
  sha1 _ := String.ofList (replicate 40 '0')
  sha512 _ := String.ofList (replicate 86 'A')
  blake3 _ := String.ofList (replicate 64 '0')
  length
    | .tarball data => data.length
    | .document _ => 2
  decode text := if text = "AQ==" then some [1] else none

/-- The publish of a version under a tag. -/
def taggedPublish (version tag : String) : Publish .sample "app" where
  package := "app"
  payload := .object
    [("_attachments", .object [("app-" ++ version ++ ".tgz", .object [("data", .string "AQ==")])]),
      ("dist-tags", .object [("latest", .string version), (tag, .string version)]),
      ("versions", .object [(version, .object [("name", .string "app"),
        ("version", .string version)])])]
  isPackage := by decide +kernel

def moves (i n : ℕ) : List (Event (Publish .sample "app") ℕ) := replicate n (.step i true)

/-- Both publishes read the tags before one of them puts its own. -/
def overlapping : List (Event (Publish .sample "app") ℕ) :=
  [.spawn (taggedPublish "1.0.0" "old"), .spawn (taggedPublish "2.0.0" "new")] ++
    moves 0 6 ++ moves 1 14 ++ moves 0 8

/-- One publish after the other. -/
def oneByOne : List (Event (Publish .sample "app") ℕ) :=
  [.spawn (taggedPublish "1.0.0" "old"), .spawn (taggedPublish "2.0.0" "new")] ++
    moves 0 14 ++ moves 1 14

/-- The bodies of a run are well formed if each has a version and names those of the run. -/
def wellFormed (ps : List (Publish x norm)) : Bool :=
  ps.all fun q => !q.versions.isEmpty && q.distTags.entries.all fun e =>
    ps.any fun q' => q'.versions.contains e.2

theorem Publish.WellFormed.of_check {s0 : NpmState} {ps : List (Publish x norm)}
    (h : wellFormed ps = true) {q : Publish x norm} (hq : q ∈ ps) : q.WellFormed s0 ps := by
  obtain ⟨hne, hall⟩ := Bool.and_eq_true_iff.mp (all_eq_true.mp h q hq)
  refine ⟨fun hnil => ?_, fun tag v hv => .inr ?_⟩
  · rw [hnil] at hne
    cases hne
  · obtain ⟨q', hq', hmem⟩ := any_eq_true.mp
      (all_eq_true.mp hall (tag, v) (SortedMap.mem_entries_iff.mpr hv))
    exact ⟨q', hq', contains_iff_mem.mp hmem⟩

theorem atRest_noRecords : ({} : NpmState).AtRest norm where
  given _ := rfl
  answered _ := rfl
  stored tag v hv := by
    have hnone : SortedMap.get SortedMap.empty tag = some v := hv
    rw [SortedMap.get_empty] at hnone
    cases hnone

/-- Both publishes succeed, and the tag of the second one is lost. -/
theorem dist_tag_lost : ∃ es p, (Pool.init {}).run (publishSystem .sample "app") .free es = some p ∧
    ({} : NpmState).AtRest "app" ∧ AllPublished p ∧
      (∀ q ∈ publishes p, q.WellFormed {} (publishes p)) ∧
        ¬ TagsMerged {} p.shared (publishes p) := by
  have hrun : ((Pool.init {}).run (publishSystem .sample "app") .free overlapping).any (fun p =>
      decide (AllPublished p) && wellFormed (publishes p) &&
        decide ((p.shared.distTags "app").get "new" = none) &&
        (publishes p).any fun q => (q.distTags.get "new").isSome) = true := by decide +kernel
  obtain ⟨p, hp, hcheck⟩ := (Option.any_eq_true _ _).mp hrun
  simp only [Bool.and_eq_true, decide_eq_true_eq, any_eq_true] at hcheck
  obtain ⟨⟨⟨hall, hbody⟩, hlost⟩, q, hq, hnamed⟩ := hcheck
  refine ⟨overlapping, p, hp, atRest_noRecords, hall, fun _ => .of_check hbody, fun hmerged => ?_⟩
  obtain ⟨q', -, hsome, heq⟩ := hmerged.named q hq "new" hnamed
  rw [← heq, hlost] at hsome
  cases hsome

/-- One publish after the other loses no tag. -/
theorem dist_tags_merged_one_by_one : ∃ es p,
    (Pool.init {}).run (publishSystem .sample "app") (publishRules .sample "app") es = some p ∧
      TagsMerged {} p.shared (publishes p) ∧
        (p.shared.distTags "app").get "new" = some "2.0.0" := by
  have hrun : ((Pool.init {}).run (publishSystem .sample "app") (publishRules .sample "app")
      oneByOne).any (fun p => decide (AllPublished p) && wellFormed (publishes p) &&
        decide ((p.shared.distTags "app").get "new" = some "2.0.0")) = true := by decide +kernel
  obtain ⟨p, hp, hcheck⟩ := (Option.any_eq_true _ _).mp hrun
  simp only [Bool.and_eq_true, decide_eq_true_eq] at hcheck
  obtain ⟨⟨hall, hbody⟩, hnew⟩ := hcheck
  exact ⟨oneByOne, p, hp, dist_tags_merged atRest_noRecords hp hall fun _ => .of_check hbody, hnew⟩

end

end Depot
