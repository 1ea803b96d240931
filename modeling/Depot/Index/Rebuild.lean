import Depot.Index.Fresh

/-!
# A rebuild among other requests

What a rebuild knows about the packages while it scans them and about the files while it
writes them, whatever other uploads and rebuilds do meanwhile.

Results:
* `page_prefix`: what a page of a shard says about the records with a prefix.
* `foldArtifacts_triple`, `storeIndexFile_triple`: the scan and the files.
* `rebuildIndex_triple`: a rebuild leaves an index that describes what it has found.
-/

namespace Depot

open Lib List
open Function (update_of_ne update_self)
open FTriple (attempt)
open Triple (weaken_pre)

/-! ## Pages -/

variable {skPrefix start sk : String}

/-- A page read from a key on: up to the first key without the prefix it holds what is there,
    and it misses nothing up to its last key, or nothing at all if the scan ends with it. -/
theorem page_prefix {ν : Type} {m : SortedMap String ν} {limit : ℕ}
    (h : skPrefix ≤ start) (hpos : 0 < limit) {items own : List (String × ν)} {more : Bool}
    (hpage : m.page start (prefixEnd skPrefix) limit = (items, more))
    (hown : own = items.takeWhile fun e => hasPrefix skPrefix e.1) :
    (∀ e ∈ own, m.get e.1 = some e.2 ∧ start ≤ e.1 ∧ hasPrefix skPrefix e.1 = true) ∧
      own.Pairwise (fun a b => a.1 < b.1) ∧
      (own.length ≠ items.length ∨ more = true → ∀ e, m.get e.1 = some e.2 → start ≤ e.1 →
        hasPrefix skPrefix e.1 = true → e ∈ own) ∧
      (¬(own.length ≠ items.length ∨ more = true) → ∃ last, items.getLast? = some last ∧
        start ≤ last.1 ∧ (∀ e ∈ own, e.1 ≤ last.1) ∧
        ∀ e, m.get e.1 = some e.2 → start ≤ e.1 → e.1 ≤ last.1 → e ∈ own) := by
  set range := m.range start (prefixEnd skPrefix)
  have hitems : items = range.take limit := (congrArg Prod.fst hpage).symm
  have hmore : more = decide (range.length ≤ limit) :=
    (congrArg Prod.snd hpage).symm
  have hsub : ∀ e ∈ own, e ∈ items := fun e he => by
    rw [hown] at he
    exact (List.takeWhile_prefix _).subset he
  have hget : ∀ e ∈ items, m.get e.1 = some e.2 ∧ start ≤ e.1 := fun e he => by
    have hin : e ∈ (m.page start (prefixEnd skPrefix) limit).1 := by
      rw [hpage]
      exact he
    exact SortedMap.page_subset hin
  have hsorted : items.Pairwise fun a b => a.1 < b.1 := by
    have hs := m.page_sorted start (prefixEnd skPrefix) limit
    rw [hpage] at hs
    exact hs
  refine ⟨fun e he => ⟨(hget e (hsub e he)).1, (hget e (hsub e he)).2, ?_⟩, ?_, ?_, ?_⟩
  · rw [hown] at he
    exact mem_takeWhile_imp (p := fun e : String × ν => hasPrefix skPrefix e.1) he
  · rw [hown]
    exact hsorted.sublist (takeWhile_sublist _)
  · -- The keys with the prefix come first.
    intro hend e he hs hp
    have hrange : e ∈ range :=
      SortedMap.mem_range.mpr ⟨SortedMap.mem_entries_iff.mpr he, hs,
        fun stop hstop => lt_prefixEnd hstop (of_decide_eq_true hp)⟩
    have hmem : e ∈ range.filter fun e => hasPrefix skPrefix e.1 := mem_filter.mpr ⟨hrange, hp⟩
    have hfirst : range.filter (fun e => hasPrefix skPrefix e.1) =
        range.takeWhile fun e => hasPrefix skPrefix e.1 := by
      refine filter_eq_takeWhile ((m.range_sorted start _).imp_of_mem fun {a b} ha _ hab hb => ?_)
      have hpa : skPrefix ≤ a.1 := h.trans (SortedMap.mem_range.mp ha).2.1
      rw [String.le_iff_toList_le] at hpa
      exact decide_eq_true (prefix_of_between hpa (String.lt_iff_toList_lt.mp hab).le
        (of_decide_eq_true hb))
    have hsplit := @takeWhile_append _ (fun e : String × ν => hasPrefix skPrefix e.1)
      (range.take limit) (range.drop limit)
    rw [take_append_drop, ← hitems, ← hown] at hsplit
    rw [hfirst, hsplit] at hmem
    rcases hend with hne | hdone
    · rw [if_neg hne] at hmem
      exact hmem
    · rw [hmore] at hdone
      have hdrop : range.drop limit = [] :=
        drop_eq_nil_of_le (of_decide_eq_true hdone)
      rw [hdrop, takeWhile_nil, append_nil] at hmem
      split_ifs at hmem with hlen
      · have hall := (List.takeWhile_prefix (fun e : String × ν => hasPrefix skPrefix e.1)
          (l := items)).eq_of_length (by rw [← hown]; exact hlen)
        rw [hown, hall]
        exact hmem
      · exact hmem
  · intro hgo
    have hlen : own.length = items.length := by
      by_contra hne
      exact hgo (.inl hne)
    have hmore' : more = false := by
      cases more with
      | true => exact absurd (.inr rfl) hgo
      | false => rfl
    have hall : own = items := by
      rw [hown] at hlen ⊢
      exact (List.takeWhile_prefix _).eq_of_length hlen
    have hmorePage : (m.page start (prefixEnd skPrefix) limit).2 = false := by
      rw [hpage]
      exact hmore'
    obtain ⟨last, hlast⟩ := SortedMap.page_getLast hpos hmorePage
    have hlast' : items.getLast? = some last := by
      rw [hpage] at hlast
      exact hlast
    refine ⟨last, hlast', (hget last (mem_of_getLast? hlast')).2, fun e he => ?_, ?_⟩
    · obtain ⟨front, hfront⟩ := getLast?_eq_some_iff.mp hlast'
      rw [hall, hfront] at he
      rw [hfront, pairwise_append] at hsorted
      rcases mem_append.mp he with he | he
      · exact (hsorted.2.2 e he last (mem_singleton_self _)).le
      · rw [mem_singleton.mp he]
    · intro e he hs hle
      have hin := SortedMap.mem_page_of_le hlast he hs hle
      rw [hpage] at hin
      rw [hall]
      exact hin

/-! ## The condition on a run -/

section

variable (f : IndexFormat)

/-- The condition on a run. A package is only written over one of the same index, and where
    rebuilds look for packages; a flag or a file of an index is not put over a package, and a
    file under its hash not over other content. Once an upload has put its record, or a
    rebuild has cleared the flag, none of its operations fails. And no rebuild publishes its
    index after one that has cleared the flag later. -/
def indexRules : Rules IndexOp IndexState (IndexJob f) ℕ where
  op i j s o b :=
    match o with
    | .storeBlob => j.isUpload || b
    | .putPackage key sk _ =>
        !b || ((s.record sk).all (f.lists key) && f.prefixes.any (hasPrefix · sk))
    | .setFlag .. => b
    | .clearFlag _ sk => !b || (s.record sk).all fun r => decide (f.keyOf r.packageMeta = none)
    | .page .. => b
    | .putFile sk r => b && (s.record sk).all fun r' => decide (r'.file? = r.file?)
    | .publish key sk _ =>
        b && ((s.record sk).all fun r => decide (f.keyOf r.packageMeta = none)) &&
          decide ((s.rebuilds key).published ≤ (s.rebuilds key).ticket i)
    | _ => true
  spawn _ _ j := f.named j.key
  env _ _ _ := true

/-! ## What a task knows -/

/-- What the others see of a repository. -/
abbrev IndexView := View IndexState (IndexJob f) Unit

variable {f}

/-- Task `i` owes no flag and no index. -/
def Resting (i : ℕ) (w : IndexView f) : Prop :=
  w.shared.unflagged i = none ∧
    ∀ key, (w.shared.rebuilds key).ticket i ≤ (w.shared.rebuilds key).finished

/-- Task `i` has written a package and owes the flag. -/
def OwesFlag (i : ℕ) (key : String) (w : IndexView f) : Prop :=
  w.shared.unflagged i = some key ∧
    ∀ key, (w.shared.rebuilds key).ticket i ≤ (w.shared.rebuilds key).finished

/-- Task `i` has cleared the flag and owes the index. -/
structure Rebuilding (i : ℕ) (key : String) (w : IndexView f) : Prop where
  unflagged : w.shared.unflagged i = none
  others : ∀ key' ≠ key, (w.shared.rebuilds key').ticket i ≤ (w.shared.rebuilds key').finished
  begun : (w.shared.rebuilds key).ticket i ≠ 0
  running : (w.shared.rebuilds key).finished ≠ (w.shared.rebuilds key).ticket i

/-- Nothing was cleared or written since task `i` has cleared the flag. -/
def Latest (i : ℕ) (key : String) (s : IndexState) : Prop :=
  (s.rebuilds key).drawn = (s.rebuilds key).ticket i ∧ s.changed key = false

variable (f)

/-- The proof outline: every task keeps the invariant and leaves to the others what is
    theirs; once it has returned it owes nothing. -/
def indexLogic : Logic IndexState (IndexJob f) Unit where
  inv w := IndexInv f w.shared ∧ ∀ i, w.jobs.length ≤ i →
    w.shared.unflagged i = none ∧ ∀ key, (w.shared.rebuilds key).ticket i = 0
  rely i w w' := IndexRely f i w.shared w'.shared
  guar i w w' := ∀ k ≠ i, IndexRely f k w.shared w'.shared
  post i _ w := Resting i w
  rely_refl _ _ := IndexRely.refl _ _
  rely_trans h h' := h.trans h'

end

variable {found : List (String × StoredRecord)} {result : List (String × StoredRecord) × Bool}
variable {prefixes : List String} {done rest : List IndexWrite} {v : IndexWrite}

section

variable {x : IndexExt} {f : IndexFormat} {fuel i : ℕ} {j : IndexJob f} {key : String}

theorem Resting.stable : ((indexLogic f).contract i j).Stable (Resting i) := by
  intro w w' _ _ hr ⟨hun, hdone⟩
  refine ⟨hr.unflagged.trans hun, fun key => ?_⟩
  have hreb := hr.rebuilds key
  rw [hreb.ticket]
  exact (hdone key).trans hreb.finished

theorem OwesFlag.stable : ((indexLogic f).contract i j).Stable (OwesFlag i key) := by
  intro w w' _ _ hr ⟨hun, hdone⟩
  refine ⟨hr.unflagged.trans hun, fun key => ?_⟩
  have hreb := hr.rebuilds key
  rw [hreb.ticket]
  exact (hdone key).trans hreb.finished

theorem Rebuilding.stable : ((indexLogic f).contract i j).Stable (Rebuilding i key) := by
  intro w w' _ _ hr hw
  have hreb := hr.rebuilds key
  refine ⟨hr.unflagged.trans hw.unflagged, fun key' hne => ?_, ?_, ?_⟩
  · rw [(hr.rebuilds key').ticket]
    exact (hw.others key' hne).trans (hr.rebuilds key').finished
  · rw [hreb.ticket]
    exact hw.begun
  · rw [hreb.ticket]
    exact fun heq => hw.running (hreb.ended hw.begun heq)

/-- What is the latest was the latest, with the same packages. -/
theorem Latest.back {s s' : IndexState} (h : Latest i key s') (hi : IndexInv f s)
    (hr : IndexRely f i s s') (hn : f.named key = true) :
    Latest i key s ∧ SamePackages f key s s' := by
  obtain ⟨hd, hc⟩ := h
  have hreb := hr.rebuilds key
  have hle := (hi.rebuilds key).ticket_le i
  have hle' := hreb.drawn
  have hticket := hreb.ticket
  obtain ⟨hc', hsame⟩ := hr.unchanged key hn (by omega) hc
  exact ⟨⟨by omega, hc'⟩, hsame⟩

variable {w : IndexView f} {s : IndexState}

/-- A step keeps what the contract of its task asks for. -/
theorem IndexStep.keeps (hi : ((indexLogic f).contract i j).inv w) (h : IndexStep f i w.shared s) :
    ((indexLogic f).contract i j).inv ⟨s, w.jobs, ()⟩ ∧
      ((indexLogic f).contract i j).guar w ⟨s, w.jobs, ()⟩ := by
  obtain ⟨⟨-, hfresh⟩, hjob⟩ := hi
  refine ⟨⟨⟨h.1, fun k hk => ?_⟩, hjob⟩, h.2⟩
  have hlt := (List.getElem?_eq_some_iff.mp hjob).1
  have hr := h.2 k (by rintro rfl; exact absurd hlt (Nat.not_lt.mpr hk))
  obtain ⟨hun, hticket⟩ := hfresh k hk
  refine ⟨hr.unflagged.trans hun, fun key => ?_⟩
  rw [(hr.rebuilds key).ticket, hticket]

/-- What a function of a request does. -/
abbrev IndexTriple (x : IndexExt) (f : IndexFormat) (fuel i : ℕ) (j : IndexJob f) {α : Type}
    (pre : IndexView f → Prop) (p : IndexTask α) (post : α → IndexView f → Prop)
    (err : IndexView f → Prop) : Prop :=
  FTriple (indexSystem x f fuel) (indexRules f) i j ((indexLogic f).contract i j) pre p post err

/-! ## Operations that change nothing -/

section

variable {P err : IndexView f → Prop} (hP : ((indexLogic f).contract i j).Stable P)

include hP

theorem indexNow_triple : IndexTriple x f fuel i j P indexNow (fun _ => P) err := by
  refine FTriple.issue hP (fun _ => hP) fun w b s r hi hw _ hx => ?_
  obtain ⟨rfl, -⟩ := some_mk_inj hx
  obtain ⟨hinv, hg⟩ := (IndexStep.refl hi.1.1 i).keeps hi
  exact ⟨(), hinv, hg, hw⟩

theorem releaseDate_triple (now : DateTime) :
    IndexTriple x f fuel i j P (releaseDate f now) (fun _ => P) err := by
  unfold releaseDate
  split_ifs
  · exact indexNow_triple hP
  · exact fun w hi hw => FTriple.pure hP w hi hw

/-- Storing a blob, which does not fail in a rebuild. -/
theorem storeBlob_triple
    (herr : ((indexLogic f).contract i j).Stable err) (h : j.isUpload = true → ∀ w, P w → err w) :
    IndexTriple x f fuel i j P storeBlob (fun _ => P) err := by
  refine attempt hP (fun _ => hP) herr fun w b s r hi hw hrule hx => ?_
  obtain ⟨rfl, rfl⟩ := some_mk_inj hx
  obtain ⟨hinv, hg⟩ := (IndexStep.refl hi.1.1 i).keeps hi
  refine ⟨(), hinv, hg, fun _ _ => hw, fun hnone => ?_⟩
  have hb : (j.isUpload || b) = true := hrule
  cases b with
  | true => cases hnone
  | false =>
    rw [Bool.or_false] at hb
    exact h hb w hw

theorem lookup_triple
    (herr : ((indexLogic f).contract i j).Stable err) (h : ∀ w, P w → err w) (path : String) :
    IndexTriple x f fuel i j P (readRecord path) (fun _ => P) err := by
  refine attempt hP (fun _ => hP) herr fun w b s r hi hw _ hx => ?_
  obtain ⟨rfl, -⟩ := some_mk_inj hx
  obtain ⟨hinv, hg⟩ := (IndexStep.refl hi.1.1 i).keeps hi
  exact ⟨(), hinv, hg, fun _ _ => hw, fun _ => h w hw⟩

end

/-! ## The scan -/

/-- What a scan of the shards `xs` has found of the keys with a prefix that satisfy `P`. -/
structure FoundIn (x : IndexExt) (i : ℕ) (key : String) (xs : List ℕ) (skPrefix : String)
    (P : String → Prop) (found : List (String × StoredRecord)) (w : IndexView f) : Prop where
  rebuilding : Rebuilding i key w
  nodup : (found.map Prod.fst).Nodup
  own : ∀ e ∈ found, x.shardOf e.1 ∈ xs ∧ hasPrefix skPrefix e.1 = true ∧ P e.1
  there : ∀ e ∈ found, (w.shared.package f key e.1).isSome
  sound : Latest i key w.shared → ∀ e ∈ found, w.shared.package f key e.1 = some e.2
  complete : Latest i key w.shared → ∀ e, w.shared.package f key e.1 = some e.2 →
    x.shardOf e.1 ∈ xs → hasPrefix skPrefix e.1 = true → P e.1 → e ∈ found

theorem FoundIn.stable (hn : f.named key = true) {xs : List ℕ} {P : String → Prop} :
    ((indexLogic f).contract i j).Stable (FoundIn x i key xs skPrefix P found) := by
  intro w w' hi hi' hr hw
  refine ⟨Rebuilding.stable w w' hi hi' hr hw.rebuilding, hw.nodup, hw.own, ?_, ?_, ?_⟩
  · exact fun e he => hr.stays key hn e.1 (hw.there e he)
  · intro hl e he
    obtain ⟨hl', hsame⟩ := hl.back hi.1.1 hr hn
    rw [hsame]
    exact hw.sound hl' e he
  · intro hl e he
    obtain ⟨hl', hsame⟩ := hl.back hi.1.1 hr hn
    rw [hsame] at he
    exact hw.complete hl' e he

/-- Nothing lies before the first key with a prefix. -/
theorem FoundIn.nil (h : Rebuilding i key w) (xs : List ℕ) (skPrefix : String) :
    FoundIn x i key xs skPrefix (· < skPrefix) [] w where
  rebuilding := h
  nodup := nodup_nil
  own _ he := absurd he not_mem_nil
  there _ he := absurd he not_mem_nil
  sound _ _ he := absurd he not_mem_nil
  complete _ _ _ _ hp hlt := absurd (le_of_hasPrefix (of_decide_eq_true hp)) (not_le.mpr hlt)

variable {shard : ℕ}

/-- A page goes on from where the scan was. -/
theorem FoundIn.page {P : String → Prop} {own : List (String × StoredRecord)}
    (h : FoundIn x i key [shard] skPrefix (· < start) found w)
    (hown : ∀ e ∈ own, x.shardOf e.1 = shard ∧ w.shared.record e.1 = some e.2 ∧ start ≤ e.1 ∧
      hasPrefix skPrefix e.1 = true ∧ P e.1)
    (hsorted : own.Pairwise fun a b => a.1 < b.1) (hP : ∀ sk, sk < start → P sk)
    (hall : ∀ e, x.shardOf e.1 = shard → w.shared.record e.1 = some e.2 → start ≤ e.1 →
      hasPrefix skPrefix e.1 = true → P e.1 → e ∈ own) :
    FoundIn x i key [shard] skPrefix P (found ++ own.filter fun e => f.lists key e.2) w := by
  have hmem : ∀ e ∈ own.filter (fun e => f.lists key e.2),
      e ∈ own ∧ w.shared.package f key e.1 = some e.2 := by
    intro e he
    obtain ⟨hin, hlist⟩ := mem_filter.mp he
    refine ⟨hin, package_eq_some.mpr ⟨(hown e hin).2.1, of_decide_eq_true hlist⟩⟩
  refine ⟨h.rebuilding, ?_, fun e he => ?_, fun e he => ?_, fun hl e he => ?_, ?_⟩
  · rw [map_append, nodup_append]
    refine ⟨h.nodup, nodup_keys_of_sorted (hsorted.filter _), ?_⟩
    intro sk hsk sk' hsk' heq
    obtain ⟨e, he, rfl⟩ := mem_map.mp hsk
    obtain ⟨e', he', rfl⟩ := mem_map.mp hsk'
    have hlt := (h.own e he).2.2
    have hle := (hown e' (hmem e' he').1).2.2.1
    rw [heq] at hlt
    exact absurd hle (not_le.mpr hlt)
  · rcases mem_append.mp he with he | he
    · obtain ⟨hsh, hp, hlt⟩ := h.own e he
      exact ⟨hsh, hp, hP e.1 hlt⟩
    · obtain ⟨hsh, -, -, hp, hPe⟩ := hown e (hmem e he).1
      exact ⟨mem_singleton.mpr hsh, hp, hPe⟩
  · rcases mem_append.mp he with he | he
    · exact h.there e he
    · rw [(hmem e he).2]
      rfl
  · rcases mem_append.mp he with he | he
    · exact h.sound hl e he
    · exact (hmem e he).2
  · intro hl e he hsh hp hPe
    by_cases hlt : e.1 < start
    · exact mem_append_left _ (h.complete hl e he hsh hp hlt)
    · obtain ⟨hrec, hkey⟩ := package_eq_some.mp he
      refine mem_append_right _ (mem_filter.mpr ⟨?_, decide_eq_true hkey⟩)
      exact hall e (mem_singleton.mp hsh) hrec (not_lt.mp hlt) hp hPe

/-- Steps that change nothing. -/
def stillContract (A : Contract IndexState (IndexJob f) Unit) :
    Contract IndexState (IndexJob f) Unit :=
  { A with guar := fun w w' => w = w' }

theorem still_part : (stillContract ((indexLogic f).contract i j)).Part
    ((indexLogic f).contract i j) := by
  refine ⟨fun _ => Iff.rfl, fun _ _ hr => hr, fun u u' hg => ?_⟩
  obtain rfl : u = u' := hg
  exact fun k _ => IndexRely.refl k u.shared

theorem still_tolerates : (stillContract ((indexLogic f).contract i j)).Tolerates
    (stillContract ((indexLogic f).contract i j)) := by
  intro u u' _ _ hg
  obtain rfl : u = u' := hg
  exact IndexRely.refl i u.shared

/-- A page of a scan, whether it is the last one or not. -/
def PageSeen (x : IndexExt) (f : IndexFormat) (i : ℕ) (key : String) (shard : ℕ)
    (skPrefix : String) (found : List (String × StoredRecord))
    (result : List (String × StoredRecord) × Bool) (w : IndexView f) : Prop :=
  let own := result.1.takeWhile fun e => hasPrefix skPrefix e.1
  (own.length ≠ result.1.length ∨ result.2 = true →
    FoundIn x i key [shard] skPrefix (fun _ => True)
      (found ++ own.filter fun e => f.lists key e.2) w) ∧
  (¬(own.length ≠ result.1.length ∨ result.2 = true) →
    ∃ last, result.1.getLast? = some last ∧ skPrefix ≤ cursorAfter last.1 ∧
      FoundIn x i key [shard] skPrefix (· < cursorAfter last.1)
        (found ++ own.filter fun e => f.lists key e.2) w)

theorem PageSeen.stable (hn : f.named key = true) :
    ((indexLogic f).contract i j).Stable (PageSeen x f i key shard skPrefix found result) := by
  intro w w' hi hi' hr hw
  refine ⟨fun hend => FoundIn.stable hn w w' hi hi' hr (hw.1 hend), fun hgo => ?_⟩
  obtain ⟨last, hlast, hle, hseen⟩ := hw.2 hgo
  exact ⟨last, hlast, hle, FoundIn.stable hn w w' hi hi' hr hseen⟩

theorem get_shard {r : StoredRecord} :
    (s.artifacts.restrict fun sk => x.shardOf sk = shard).get sk = some r ↔
      x.shardOf sk = shard ∧ s.record sk = some r := by
  rw [SortedMap.get_restrict]
  constructor
  · intro h
    split_ifs at h with hsh
    exact ⟨of_decide_eq_true hsh, h⟩
  · rintro ⟨hsh, hr⟩
    rw [if_pos (decide_eq_true hsh)]
    exact hr

theorem pageSeen
    (hstart : skPrefix ≤ start) (h : FoundIn x i key [shard] skPrefix (· < start) found w)
    (hpage : (w.shared.artifacts.restrict fun sk => x.shardOf sk = shard).page start
      (prefixEnd skPrefix) scanBatchSize = result) :
    PageSeen x f i key shard skPrefix found result w := by
  have hpos : 0 < scanBatchSize := by decide
  obtain ⟨hget, hsorted, hend, hgo⟩ := page_prefix hstart hpos hpage rfl
  refine ⟨fun hlast => ?_, fun hnot => ?_⟩
  · refine h.page (fun e he => ?_) hsorted (fun _ _ => trivial) fun e hsh hrec hs hp _ => ?_
    · obtain ⟨hrec, hs, hp⟩ := hget e he
      obtain ⟨hsh, hrec⟩ := get_shard.mp hrec
      exact ⟨hsh, hrec, hs, hp, trivial⟩
    · exact hend hlast e (get_shard.mpr ⟨hsh, hrec⟩) hs hp
  · obtain ⟨last, hlast, hle, hbound, hall⟩ := hgo hnot
    have hlt : ∀ sk, sk ≤ last.1 ↔ sk < cursorAfter last.1 := fun sk => by
      have hnot := not_congr (@cursorAfter_le_iff last.1 sk)
      rw [not_le, not_lt] at hnot
      exact hnot.symm
    refine ⟨last, hlast, hstart.trans (hle.trans (cursorAfter_le_iff.mp le_rfl).le), ?_⟩
    refine h.page (fun e he => ?_) hsorted (fun sk hsk => ?_) fun e hsh hrec hs _ hP => ?_
    · obtain ⟨hrec, hs, hp⟩ := hget e he
      obtain ⟨hsh, hrec⟩ := get_shard.mp hrec
      exact ⟨hsh, hrec, hs, hp, (hlt e.1).mp (hbound e he)⟩
    · exact (hlt sk).mp (hsk.le.trans hle)
    · exact hall e (get_shard.mpr ⟨hsh, hrec⟩) hs ((hlt e.1).mpr hP)

variable {err : IndexView f → Prop}

/-- One shard, page by page. -/
theorem scanShard_triple (hn : f.named key = true) (n : ℕ)
    (hstart : skPrefix ≤ start) (found : List (String × StoredRecord))
    (herr : ((indexLogic f).contract i j).Stable err) :
    FTriple (indexSystem x f fuel) (indexRules f) i j (stillContract ((indexLogic f).contract i j))
      (FoundIn x i key [shard] skPrefix (· < start) found)
      (scanShard (f.lists key) shard skPrefix n start found)
      (FoundIn x i key [shard] skPrefix fun _ => True) err := by
  induction n generalizing start found with
  | zero =>
    refine FTriple.bind (M := fun _ _ => True) herr (FTriple.issue ?_ ?_ ?_) fun e => nomatch e
    · exact FoundIn.stable hn
    · exact fun _ _ _ _ _ _ _ => trivial
    · intro w b s r _ _ _ hx
      cases hx
  | succ n ih =>
    refine FTriple.bind (M := PageSeen x f i key shard skPrefix found) herr ?_ fun result => ?_
    · refine attempt (FoundIn.stable hn) (fun _ => PageSeen.stable hn) herr
        fun w b s r hi hw hrule hx => ?_
      obtain rfl : b = true := hrule
      obtain ⟨rfl, rfl⟩ := some_mk_inj hx
      refine ⟨(), hi, rfl, fun result hresult => ?_, nofun⟩
      exact pageSeen hstart hw (Option.some.inj hresult)
    · dsimp only
      split_ifs with hend
      · exact weaken_pre (FTriple.pure (FoundIn.stable hn)) fun w _ hw => hw.1 hend
      · cases hlast : result.1.getLast? with
        | none =>
          refine fun w _ hw => ?_
          obtain ⟨last, hlast', -⟩ := hw.2 hend
          rw [hlast] at hlast'
          cases hlast'
        | some last =>
          by_cases hle : skPrefix ≤ cursorAfter last.1
          · refine weaken_pre (ih hle _) fun w _ hw => ?_
            obtain ⟨last', hlast', -, hseen⟩ := hw.2 hend
            rw [hlast] at hlast'
            obtain rfl := Option.some.inj hlast'
            exact hseen
          · refine fun w _ hw => ?_
            obtain ⟨last', hlast', hle', -⟩ := hw.2 hend
            rw [hlast] at hlast'
            obtain rfl := Option.some.inj hlast'
            exact absurd hle' hle

/-- The shards together. -/
theorem FoundIn.flatten {xs : List ℕ}
    {parts : List (List (String × StoredRecord))} (hxs : xs.Nodup) (hw : Rebuilding i key w)
    (h : Forall₂ (fun shard part => FoundIn x i key [shard] skPrefix (fun _ => True) part w)
      xs parts) : FoundIn x i key xs skPrefix (fun _ => True) parts.flatten w := by
  induction h with
  | nil =>
    refine ⟨hw, nodup_nil, fun _ he => ?_, fun _ he => ?_, fun _ _ he => ?_, ?_⟩
    · exact absurd he not_mem_nil
    · exact absurd he not_mem_nil
    · exact absurd he not_mem_nil
    · exact fun _ _ _ hsh => absurd hsh not_mem_nil
  | @cons shard part xs parts hhead _ ih =>
    obtain ⟨hnot, hnodup⟩ := nodup_cons.mp hxs
    have htail := ih hnodup
    rw [flatten_cons]
    refine ⟨hw, ?_, fun e he => ?_, fun e he => ?_, fun hl e he => ?_, ?_⟩
    · rw [map_append, nodup_append]
      refine ⟨hhead.nodup, htail.nodup, ?_⟩
      intro sk hsk sk' hsk' heq
      obtain ⟨e, he, rfl⟩ := mem_map.mp hsk
      obtain ⟨e', he', rfl⟩ := mem_map.mp hsk'
      have hsh := mem_singleton.mp (hhead.own e he).1
      have hin := (htail.own e' he').1
      rw [← heq, hsh] at hin
      exact hnot hin
    · rcases mem_append.mp he with he | he
      · obtain ⟨hsh, hrest⟩ := hhead.own e he
        exact ⟨mem_cons.mpr (.inl (mem_singleton.mp hsh)), hrest⟩
      · obtain ⟨hsh, hrest⟩ := htail.own e he
        exact ⟨mem_cons_of_mem _ hsh, hrest⟩
    · exact (mem_append.mp he).elim (hhead.there e) (htail.there e)
    · exact (mem_append.mp he).elim (hhead.sound hl e) (htail.sound hl e)
    · intro hl e he hsh hp hP
      rcases mem_cons.mp hsh with hsh | hsh
      · exact mem_append_left _ (hhead.complete hl e he (mem_singleton.mpr hsh) hp hP)
      · exact mem_append_right _ (htail.complete hl e he hsh hp hP)

theorem foldArtifacts_triple (hn : f.named key = true) (n : ℕ) (skPrefix : String)
    (herr : ((indexLogic f).contract i j).Stable err) :
    FTriple (indexSystem x f fuel) (indexRules f) i j
      (stillContract ((indexLogic f).contract i j)) (Rebuilding i key)
      (foldArtifacts n (f.lists key) skPrefix)
      (FoundIn x i key (List.range numShards) skPrefix fun _ => True) err := by
  have hjoin : FTriple (indexSystem x f fuel) (indexRules f) i j
      (stillContract ((indexLogic f).contract i j)) (Rebuilding i key)
      (Fallible.join ((List.range numShards).map fun shard =>
        scanShard (f.lists key) shard skPrefix n skPrefix []))
      (fun parts w => Forall₂
        (fun shard part => FoundIn x i key [shard] skPrefix (fun _ => True) part w)
        (List.range numShards) parts)
      (fun w => ∃ shard ∈ List.range numShards, err w) := by
    refine FTriple.join (Contract.Parts.same still_tolerates _)
      (fun shard part => FoundIn.stable hn) (fun _ => herr) fun shard _ => ?_
    refine weaken_pre (scanShard_triple hn n le_rfl [] herr) fun w _ hw => ?_
    exact FoundIn.nil hw [shard] skPrefix
  refine FTriple.bind herr (hjoin.consequence (fun _ _ hw => hw) (fun _ _ _ hw => hw)
    fun w _ ⟨_, _, hw⟩ => hw) fun parts => ?_
  refine weaken_pre (FTriple.pure (FoundIn.stable hn)) fun w _ hw => ?_
  have hrange : List.range numShards = 0 :: (List.range 255).map Nat.succ := range_succ_eq_map
  have hfirst : Rebuilding i key w := by
    rw [hrange] at hw
    cases hw with
    | cons h _ => exact h.rebuilding
  exact FoundIn.flatten nodup_range hfirst hw

/-- The packages that the scans of some prefixes have found. -/
structure Collected (i : ℕ) (key : String) (prefixes : List String)
    (pkgs : List (String × StoredRecord)) (w : IndexView f) : Prop where
  rebuilding : Rebuilding i key w
  nodup : (pkgs.map Prod.fst).Nodup
  own : ∀ e ∈ pkgs, ∃ p ∈ prefixes, hasPrefix p e.1 = true
  there : ∀ e ∈ pkgs, (w.shared.package f key e.1).isSome
  sound : Latest i key w.shared → ∀ e ∈ pkgs, w.shared.package f key e.1 = some e.2
  complete : Latest i key w.shared → ∀ e, w.shared.package f key e.1 = some e.2 →
    (∃ p ∈ prefixes, hasPrefix p e.1 = true) → e ∈ pkgs

theorem Collected.stable (hn : f.named key = true) {pkgs : List (String × StoredRecord)} :
    ((indexLogic f).contract i j).Stable (Collected i key prefixes pkgs) := by
  intro w w' hi hi' hr hw
  refine ⟨Rebuilding.stable w w' hi hi' hr hw.rebuilding, hw.nodup, hw.own, ?_, ?_, ?_⟩
  · exact fun e he => hr.stays key hn e.1 (hw.there e he)
  · intro hl e he
    obtain ⟨hl', hsame⟩ := hl.back hi.1.1 hr hn
    rw [hsame]
    exact hw.sound hl' e he
  · intro hl e he
    obtain ⟨hl', hsame⟩ := hl.back hi.1.1 hr hn
    rw [hsame] at he
    exact hw.complete hl' e he

variable {pkgs : List (String × StoredRecord)}

/-- A step of the task itself that leaves the packages and the numbers of the rebuilds. -/
theorem Collected.keep (h : Collected i key prefixes pkgs w)
    (hun : s.unflagged i = w.shared.unflagged i) (hch : s.changed = w.shared.changed)
    (hreb : ∀ key', (s.rebuilds key').drawn = (w.shared.rebuilds key').drawn ∧
      (s.rebuilds key').ticket i = (w.shared.rebuilds key').ticket i ∧
      (s.rebuilds key').finished = (w.shared.rebuilds key').finished)
    (hpkg : SamePackages f key w.shared s) : Collected i key prefixes pkgs ⟨s, w.jobs, ()⟩ := by
  obtain ⟨hd, ht, hf⟩ := hreb key
  have hlatest : Latest i key s → Latest i key w.shared := fun ⟨hl, hc⟩ => by
    rw [hd, ht] at hl
    rw [hch] at hc
    exact ⟨hl, hc⟩
  refine ⟨⟨hun.trans h.rebuilding.unflagged, fun key' hne => ?_, ?_, ?_⟩, h.nodup, h.own,
    fun e he => ?_, fun hl e he => ?_, fun hl e he => ?_⟩
  · obtain ⟨-, ht', hf'⟩ := hreb key'
    show (s.rebuilds key').ticket i ≤ (s.rebuilds key').finished
    rw [ht', hf']
    exact h.rebuilding.others key' hne
  · show (s.rebuilds key).ticket i ≠ 0
    rw [ht]
    exact h.rebuilding.begun
  · show (s.rebuilds key).finished ≠ (s.rebuilds key).ticket i
    rw [ht, hf]
    exact h.rebuilding.running
  · show (s.package f key e.1).isSome
    rw [hpkg]
    exact h.there e he
  · show s.package f key e.1 = some e.2
    rw [hpkg]
    exact h.sound (hlatest hl) e he
  · rw [show s.package f key e.1 = _ from hpkg e.1] at he
    exact h.complete (hlatest hl) e he

/-- The next prefix. -/
theorem Collected.append {part : List (String × StoredRecord)} (h : Collected i key prefixes pkgs w)
    (hpart : FoundIn x i key (List.range numShards) skPrefix (fun _ => True) part w)
    (hapart : ∀ p ∈ prefixes, ∀ sk, hasPrefix p sk = true → hasPrefix skPrefix sk = false) :
    Collected i key (prefixes ++ [skPrefix]) (pkgs ++ part) w := by
  refine ⟨h.rebuilding, ?_, fun e he => ?_, fun e he => ?_, fun hl e he => ?_, ?_⟩
  · rw [map_append, nodup_append]
    refine ⟨h.nodup, hpart.nodup, ?_⟩
    intro sk hsk sk' hsk' heq
    obtain ⟨e, he, rfl⟩ := mem_map.mp hsk
    obtain ⟨e', he', rfl⟩ := mem_map.mp hsk'
    obtain ⟨p, hp, hpre⟩ := h.own e he
    have hnot := hapart p hp e.1 hpre
    rw [heq, (hpart.own e' he').2.1] at hnot
    cases hnot
  · rcases mem_append.mp he with he | he
    · obtain ⟨p, hp, hpre⟩ := h.own e he
      exact ⟨p, mem_append_left _ hp, hpre⟩
    · exact ⟨skPrefix, mem_append_right _ (mem_singleton_self _), (hpart.own e he).2.1⟩
  · exact (mem_append.mp he).elim (h.there e) (hpart.there e)
  · exact (mem_append.mp he).elim (h.sound hl e) (hpart.sound hl e)
  · rintro hl e he ⟨p, hp, hpre⟩
    rcases mem_append.mp hp with hp | hp
    · exact mem_append_left _ (h.complete hl e he ⟨p, hp, hpre⟩)
    · rw [mem_singleton.mp hp] at hpre
      exact mem_append_right _ (hpart.complete hl e he
        (List.mem_range.mpr (x.shardOf_lt e.1)) hpre trivial)

/-- The scans of all prefixes. -/
theorem collect_triple (hn : f.named key = true) (n : ℕ)
    (herr : ((indexLogic f).contract i j).Stable err) :
    IndexTriple x f fuel i j (Rebuilding i key)
      (Fallible.fold (fun found skPrefix => do
        let part ← foldArtifacts n (f.lists key) skPrefix
        pure (found ++ part)) f.prefixes [])
      (Collected i key f.prefixes) err := by
  refine weaken_pre (FTriple.fold (I := fun done pkgs w => Collected i key done pkgs w)
    (fun _ => Collected.stable hn) herr fun done skPrefix rest pkgs hsplit => ?_) fun w _ hw => ?_
  · have hapart : ∀ p ∈ done, ∀ sk, hasPrefix p sk = true → hasPrefix skPrefix sk = false := by
      have hpair := f.prefixes_apart
      rw [hsplit, pairwise_append] at hpair
      exact fun p hp => hpair.2.2 p hp skPrefix mem_cons_self
    have hframe : ∀ w w' : IndexView f, w = w' → Collected i key done pkgs w →
        Collected i key done pkgs w' := by
      rintro w _ rfl hw
      exact hw
    have hscan : FTriple (indexSystem x f fuel) (indexRules f) i j
        (stillContract ((indexLogic f).contract i j))
        (fun w => Collected i key done pkgs w ∧ Rebuilding i key w)
        (foldArtifacts n (f.lists key) skPrefix)
        (fun part w => Collected i key done pkgs w ∧
          FoundIn x i key (List.range numShards) skPrefix (fun _ => True) part w) err :=
      FTriple.frame (A := stillContract ((indexLogic f).contract i j))
        (Collected.stable (j := j) hn) (fun w w' _ _ hg hw => hframe w w' hg hw)
        (foldArtifacts_triple hn n skPrefix herr)
    refine FTriple.bind (M := fun part w => Collected i key done pkgs w ∧
      FoundIn x i key (List.range numShards) skPrefix (fun _ => True) part w) herr
      (weaken_pre (FTriple.part still_part hscan) fun w _ hw => ⟨hw, hw.rebuilding⟩)
      fun part => ?_
    refine weaken_pre (FTriple.pure (Collected.stable hn)) fun w _ hw => ?_
    exact hw.1.append hw.2 hapart
  · refine ⟨hw, nodup_nil, fun _ he => ?_, fun _ he => ?_, fun _ _ he => ?_, ?_⟩
    · exact absurd he not_mem_nil
    · exact absurd he not_mem_nil
    · exact absurd he not_mem_nil
    · exact fun _ _ _ ⟨_, hp, _⟩ => absurd hp not_mem_nil

/-! ## The files -/

/-- The files `done` of an index are written. -/
structure Writing (i : ℕ) (key : String) (pkgs : List (String × StoredRecord))
    (done : List IndexWrite) (w : IndexView f) : Prop where
  collected : Collected i key f.prefixes pkgs w
  hashed : ∀ w' ∈ done, w'.commit = false → w.shared.file w'.sk = some w'.data
  commits : ∀ w' ∈ done, w'.commit = true →
    (w.shared.rebuilds key).drawn = (w.shared.rebuilds key).ticket i →
    (w.shared.rebuilds key).published = (w.shared.rebuilds key).ticket i ∧
      w.shared.file w'.sk = some w'.data

theorem Writing.stable (hn : f.named key = true) (now : DateTime)
    (hdone : ∀ w ∈ done, w ∈ f.plan key now pkgs) :
    ((indexLogic f).contract i j).Stable (Writing i key pkgs done) := by
  intro w w' hi hi' hr hw
  refine ⟨Collected.stable hn w w' hi hi' hr hw.collected, fun v hv hc => ?_, fun v hv hc hd => ?_⟩
  · exact hr.hashed key hn now pkgs v (hdone v hv) hc (hw.hashed v hv hc)
  · have hreb := hr.rebuilds key
    have hticket := hreb.ticket
    have hle := (hi.1.1.rebuilds key).ticket_le i
    have hle' := hreb.drawn
    obtain ⟨hpub, hfile⟩ := hw.commits v hv hc (by omega)
    obtain ⟨hpub', hkeep⟩ := hr.held key hn hw.collected.rebuilding.begun (by omega) (by omega) hpub
    exact ⟨hpub'.trans hticket.symm, hkeep now pkgs v (hdone v hv) hfile⟩

/-- The content of an index file. -/
theorem file_fileRecord (x : IndexExt) (f : IndexFormat) (now : DateTime) (w : IndexWrite) :
    (f.fileRecord x now w).file? = some w.data := rfl

theorem keyOf_fileRecord (x : IndexExt) (f : IndexFormat) (now : DateTime) (w : IndexWrite) :
    f.keyOf (f.fileRecord x now w).packageMeta = none := f.keyOf_other

/-- What a rule says about the record at a key. -/
theorem noPackage_of_all
    (h : ((s.record sk).all fun r => decide (f.keyOf r.packageMeta = none)) = true) :
    NoPackage f s sk := by
  intro r hr
  rw [hr] at h
  exact of_decide_eq_true h

/-- The files that are written and the next one are files of the index. -/
theorem mem_plan_of_append {now : DateTime} (hplan : f.plan key now pkgs = done ++ v :: rest) :
    v ∈ f.plan key now pkgs ∧ ∀ u ∈ done, u ∈ f.plan key now pkgs := by
  rw [hplan]
  exact ⟨mem_append_right _ mem_cons_self, fun u hu => mem_append_left _ hu⟩

/-- After the file that publishes the index. -/
theorem Writing.publish {now time : DateTime} (h : Writing i key pkgs done w)
    (hn : f.named key = true) (hplan : f.plan key now pkgs = done ++ v :: rest)
    (hc : v.commit = true) (hclean : ∀ e ∈ pkgs, CleanPath e.1) (hold : NoPackage f w.shared v.sk)
    (hlast : (w.shared.rebuilds key).published ≤ (w.shared.rebuilds key).ticket i) :
    Writing i key pkgs (done ++ [v])
      ⟨(w.shared.setRecord v.sk (some (f.fileRecord x time v))).noteRebuild key
        (Generations.publish i), w.jobs, ()⟩ := by
  obtain ⟨hv, hdone⟩ := mem_plan_of_append hplan
  obtain ⟨s', hs'⟩ : ∃ s', s' = (w.shared.setRecord v.sk (some (f.fileRecord x time v))).noteRebuild
    key (Generations.publish i) := ⟨_, rfl⟩
  have hsame : ∀ sk ≠ v.sk, s'.record sk = w.shared.record sk := fun sk hne => by
    rw [hs']
    exact record_setRecord_ne w.shared _ hne
  have hself : s'.file v.sk = some v.data := by
    rw [hs']
    show ((w.shared.setRecord v.sk (some (f.fileRecord x time v))).record v.sk).bind _ = _
    rw [record_setRecord_self]
    exact file_fileRecord x f time v
  have hnew : NoPackage f s' v.sk := by
    rw [hs']
    exact noPackage_setRecord (s := w.shared) (keyOf_fileRecord x f time v)
  obtain ⟨hpkg, -, hhashed⟩ := keeps_publish hn hv hc hsame hold hnew key hn
  have hmine : s'.rebuilds key = (w.shared.rebuilds key).publish i := by
    rw [hs']
    exact update_self ..
  have hother : ∀ key' ≠ key, s'.rebuilds key' = w.shared.rebuilds key' := fun key' hk => by
    rw [hs']
    exact update_of_ne hk _ _
  have hreb : ∀ key', (s'.rebuilds key').drawn = (w.shared.rebuilds key').drawn ∧
      (s'.rebuilds key').ticket i = (w.shared.rebuilds key').ticket i ∧
      (s'.rebuilds key').finished = (w.shared.rebuilds key').finished := by
    intro key'
    by_cases hk : key' = key
    · rw [hk, hmine]
      exact ⟨rfl, rfl, rfl⟩
    · rw [hother key' hk]
      exact ⟨rfl, rfl, rfl⟩
  have hpub : (s'.rebuilds key).published = (s'.rebuilds key).ticket i := by
    rw [hmine]
    exact max_eq_right hlast
  rw [← hs']
  refine ⟨h.collected.keep (by rw [hs']; rfl) (by rw [hs']; rfl) hreb hpkg, ?_, ?_⟩
  · intro u hu hcu
    rcases mem_append.mp hu with hu | hu
    · exact hhashed now pkgs u (hdone u hu) hcu (h.hashed u hu hcu)
    · rw [mem_singleton.mp hu, hc] at hcu
      cases hcu
  · intro u hu hcu hd
    refine ⟨hpub, ?_⟩
    rcases mem_append.mp hu with hu | hu
    · by_cases hsk : u.sk = v.sk
      · obtain rfl := f.commit_once hclean (hdone u hu) hv hcu hc hsk
        exact hself
      · have hd' : (w.shared.rebuilds key).drawn = (w.shared.rebuilds key).ticket i := by
          rw [← (hreb key).1, ← (hreb key).2.1]
          exact hd
        exact (file_congr (hsame u.sk hsk)).trans (h.commits u hu hcu hd').2
    · rw [mem_singleton.mp hu]
      exact hself

variable {now time : DateTime}

/-- After a file under its hash. -/
theorem Writing.putFile
    (h : Writing i key pkgs done w)
    (hplan : f.plan key now pkgs = done ++ v :: rest) (hc : v.commit = false)
    (hsame : ((w.shared.record v.sk).all fun r' =>
      decide (r'.file? = (f.fileRecord x time v).file?)) = true) :
    Writing i key pkgs (done ++ [v])
      ⟨if (w.shared.record v.sk).isSome then w.shared
        else w.shared.setRecord v.sk (some (f.fileRecord x time v)), w.jobs, ()⟩ := by
  obtain ⟨hv, hdone⟩ := mem_plan_of_append hplan
  obtain ⟨hpkg, hfiles⟩ :=
    keeps_putAbsent (s := w.shared) hv hc (keyOf_fileRecord x f time v) key
  obtain ⟨hreb, hch, hun⟩ := putAbsent_ghosts (s := w.shared) v.sk (f.fileRecord x time v)
  have hself : (if (w.shared.record v.sk).isSome then w.shared
      else w.shared.setRecord v.sk (some (f.fileRecord x time v))).file v.sk = some v.data := by
    cases hrec : w.shared.record v.sk with
    | none =>
      rw [if_neg (by simp), IndexState.file, record_setRecord_self]
      exact file_fileRecord x f time v
    | some r' =>
      rw [hrec] at hsame
      rw [if_pos (show (some r').isSome = true from rfl), IndexState.file, hrec]
      exact (of_decide_eq_true hsame).trans (file_fileRecord x f time v)
  generalize hs' : (if (w.shared.record v.sk).isSome then w.shared
    else w.shared.setRecord v.sk (some (f.fileRecord x time v))) = s' at *
  refine ⟨h.collected.keep (congrFun hun i) hch (fun key' => ?_) hpkg, ?_, ?_⟩
  · rw [hreb]
    exact ⟨rfl, rfl, rfl⟩
  · intro u hu hcu
    rcases mem_append.mp hu with hu | hu
    · exact hfiles.file now pkgs u (hdone u hu) (h.hashed u hu hcu)
    · rw [mem_singleton.mp hu]
      exact hself
  · intro u hu hcu hd
    rcases mem_append.mp hu with hu | hu
    · have hd' : (w.shared.rebuilds key).drawn = (w.shared.rebuilds key).ticket i := by
        rw [← hreb]
        exact hd
      obtain ⟨hpub, hfile⟩ := h.commits u hu hcu hd'
      refine ⟨?_, hfiles.file now pkgs u (hdone u hu) hfile⟩
      rw [show (s'.rebuilds key) = _ from congrFun hreb key]
      exact hpub
    · rw [mem_singleton.mp hu, hc] at hcu
      cases hcu

theorem storeIndexFile_triple (hn : f.named key = true) (hj : j.isUpload = false)
    (hplan : f.plan key now pkgs = done ++ v :: rest)
    (herr : ((indexLogic f).contract i j).Stable err) :
    IndexTriple x f fuel i j (Writing i key pkgs done) (storeIndexFile x f key time v)
      (fun _ => Writing i key pkgs (done ++ [v])) err := by
  obtain ⟨hv, hdone⟩ := mem_plan_of_append hplan
  have hdone' : ∀ u ∈ done ++ [v], u ∈ f.plan key now pkgs := by
    intro u hu
    rcases mem_append.mp hu with hu | hu
    · exact hdone u hu
    · rw [mem_singleton.mp hu]
      exact hv
  refine FTriple.bind herr (storeBlob_triple (Writing.stable hn now hdone) herr fun hup => ?_)
    fun _ => ?_
  · rw [hj] at hup
    cases hup
  split_ifs with hc
  · refine attempt (Writing.stable hn now hdone)
      (fun _ => Writing.stable hn now hdone') herr fun w b s r hi hw hrule hx => ?_
    have hrule' : (b && ((w.shared.record v.sk).all fun r =>
        decide (f.keyOf r.packageMeta = none)) &&
        decide ((w.shared.rebuilds key).published ≤ (w.shared.rebuilds key).ticket i)) = true :=
      hrule
    simp only [Bool.and_eq_true, decide_eq_true_eq] at hrule'
    obtain ⟨⟨rfl, hall⟩, hlast⟩ := hrule'
    obtain ⟨rfl, rfl⟩ := some_mk_inj hx
    have hstep := publish_step (i := i) hi.1.1 hn hv hc (keyOf_fileRecord x f time v)
      (noPackage_of_all hall) hw.collected.there hw.collected.rebuilding.running hlast
    obtain ⟨hinv, hg⟩ := hstep.keeps hi
    have hclean : ∀ e ∈ pkgs, CleanPath e.1 := fun e he =>
      (hi.1.1.clean key e.1 (hw.collected.there e he)).1
    exact ⟨(), hinv, hg, fun _ _ => hw.publish hn hplan hc hclean (noPackage_of_all hall) hlast,
      nofun⟩
  · have hcommit : v.commit = false := Bool.eq_false_iff.mpr hc
    refine attempt (Writing.stable hn now hdone)
      (fun _ => Writing.stable hn now hdone') herr fun w b s r hi hw hrule hx => ?_
    have hrule' : (b && (w.shared.record v.sk).all fun r' =>
        decide (r'.file? = (f.fileRecord x time v).file?)) = true := hrule
    rw [Bool.and_eq_true] at hrule'
    obtain ⟨rfl, hsame⟩ := hrule'
    obtain ⟨rfl, rfl⟩ := some_mk_inj hx
    have hstep := putFile_step (i := i) hi.1.1 hv hcommit (keyOf_fileRecord x f time v)
    obtain ⟨hinv, hg⟩ := hstep.keeps hi
    exact ⟨(), hinv, hg, fun _ _ => hw.putFile hplan hcommit hsame, nofun⟩

/-! ## The rebuild -/

theorem clearStaleFlag_triple (hn : f.named key = true) :
    IndexTriple x f fuel i j (Resting i) (clearStaleFlag f key) (fun _ => Rebuilding i key)
      (Resting i) := by
  refine attempt Resting.stable (fun _ => Rebuilding.stable) Resting.stable
    fun w b s r hi hw hrule hx => ?_
  cases b with
  | false =>
    obtain ⟨rfl, rfl⟩ := some_mk_inj hx
    obtain ⟨hinv, hg⟩ := (IndexStep.refl hi.1.1 i).keeps hi
    exact ⟨(), hinv, hg, nofun, fun _ => hw⟩
  | true =>
    obtain ⟨rfl, rfl⟩ := some_mk_inj hx
    have hold : NoPackage f w.shared (f.staleSk key) := noPackage_of_all hrule
    obtain ⟨hinv, hg⟩ := (clearFlag_step (i := i) hi.1.1 hn hold).keeps hi
    set s' := (w.shared.setRecord (f.staleSk key) none).noteClear i key
    have hself : s'.rebuilds key = (w.shared.rebuilds key).draw i := update_self ..
    have hvalid := hi.1.1.rebuilds key
    refine ⟨(), hinv, hg, fun _ _ => ⟨hw.1, fun key' hne => ?_, ?_, ?_⟩, nofun⟩
    · have hother : s'.rebuilds key' = w.shared.rebuilds key' := update_of_ne hne _ _
      show (s'.rebuilds key').ticket i ≤ _
      rw [hother]
      exact hw.2 key'
    · show (s'.rebuilds key).ticket i ≠ 0
      rw [hself, Generations.draw_ticket_self]
      exact Nat.succ_ne_zero _
    · show (s'.rebuilds key).finished ≠ (s'.rebuilds key).ticket i
      have hle := hvalid.finished_le
      have hle' := hvalid.published_le
      rw [hself, Generations.draw_ticket_self, Generations.draw_finished]
      omega

/-- If nothing was written meanwhile, the files describe the packages. -/
theorem Writing.describes (hi : IndexInv f w.shared) (hn : f.named key = true)
    (h : Writing i key pkgs (f.plan key now pkgs) w) (hl : Latest i key w.shared) :
    Describes f w.shared key := by
  have hlists : Lists f w.shared key pkgs := by
    refine ⟨h.collected.nodup, fun e => ⟨h.collected.sound hl e, fun he => ?_⟩⟩
    have hsome : (w.shared.package f key e.1).isSome := by
      rw [he]
      rfl
    obtain ⟨p, hp, hpre⟩ := any_eq_true.mp (hi.clean key e.1 hsome).2
    exact h.collected.complete hl e he ⟨p, hp, hpre⟩
  refine ⟨now, pkgs, hlists, .inr ⟨fun sk hp => ?_, fun v hv => ?_⟩⟩
  · obtain ⟨paths, hsk, hpaths⟩ := hi.published key hn sk hp
    refine f.commits_mono (fun path hpath => ?_) hsk
    obtain ⟨r, hr⟩ := Option.isSome_iff_exists.mp (hpaths path hpath)
    exact mem_map.mpr ⟨(path, r), (hlists.mem (path, r)).mpr hr, rfl⟩
  · cases hc : v.commit with
    | false => exact h.hashed v hv hc
    | true => exact (h.commits v hv hc hl.1).2

/-- A rebuild leaves an index that describes what it has found. -/
theorem rebuildIndex_triple (hn : f.named key = true) (hj : j.isUpload = false) (n : ℕ) :
    IndexTriple x f fuel i j (Resting i) (rebuildIndex x f n key) (fun _ => Resting i)
      (Resting i) := by
  refine FTriple.bind Resting.stable (clearStaleFlag_triple hn) fun _ => ?_
  refine FTriple.bind Resting.stable (collect_triple hn n Resting.stable) fun pkgs => ?_
  refine FTriple.bind Resting.stable (indexNow_triple (Collected.stable hn)) fun time => ?_
  refine FTriple.bind Resting.stable (releaseDate_triple (Collected.stable hn) time) fun now => ?_
  have hfiles : IndexTriple x f fuel i j (Collected i key f.prefixes pkgs)
      (Fallible.each (storeIndexFile x f key time) (f.plan key now pkgs))
      (fun _ => Writing i key pkgs (f.plan key now pkgs)) (Resting i) := by
    refine weaken_pre (FTriple.each (I := Writing i key pkgs)
      (Writing.stable hn now fun _ hw => hw) Resting.stable
      fun done v rest hplan => storeIndexFile_triple hn hj hplan Resting.stable) fun w _ hw => ?_
    exact ⟨hw, fun _ hv => absurd hv not_mem_nil, fun _ hv => absurd hv not_mem_nil⟩
  refine FTriple.bind Resting.stable hfiles fun _ => ?_
  refine FTriple.issue (Writing.stable hn now fun _ hw => hw) (fun _ => Resting.stable)
    fun w b s r hi hw _ hx => ?_
  obtain ⟨rfl, -⟩ := some_mk_inj hx
  obtain ⟨hinv, hg⟩ := (end_step (i := i) hi.1.1 fun hd hc =>
    hw.describes hi.1.1 hn ⟨hd, hc⟩).keeps hi
  refine ⟨(), hinv, hg, hw.collected.rebuilding.unflagged, fun key' => ?_⟩
  set s' := w.shared.noteRebuild key (Generations.finish i)
  show (s'.rebuilds key').ticket i ≤ (s'.rebuilds key').finished
  by_cases hk : key' = key
  · have hself : s'.rebuilds key = (w.shared.rebuilds key).finish i := update_self ..
    rw [hk, hself]
    exact le_max_right _ _
  · have hother : s'.rebuilds key' = w.shared.rebuilds key' := update_of_ne hk _ _
    rw [hother]
    exact hw.collected.rebuilding.others key' hk

end

end Depot
