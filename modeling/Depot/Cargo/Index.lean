import Depot.Cargo.Crates
import Depot.Lib.Split

/-!
# The index of a crate and its files

A sequence of publishes and yanks. The index of a name has one line for each version that was
published under a name with the same normalised form, each with the checksum of the file that
is downloaded for it and with the flag that was set last, provided that the names and the
versions are not empty and have no slash, and that no version is published under two names
with the same normalised form.

Results:
* `crateSk_inj`, `hasPrefix_crateSk`: what the key of a crate says.
* `cargoStep_inv`: every request keeps the invariant.
* `crate_index_exact`: the index after any sequence of requests.
* `crate_index_doubled`: a version that is listed twice.
-/

namespace Depot

open Lib List
open Option (some.inj)
open String (ofList ofList_toList toList toList_append toList_inj toList_ofList)

/-! ## Keys -/

/-- A segment of a path. -/
def plainName (name : String) : Bool := !(name == "") && !(name.toList.contains '/')

theorem plainName_iff {name : String} : plainName name = true ↔ name ≠ "" ∧ '/' ∉ name.toList := by
  simp [plainName]

section

variable {x : CargoExt} {n n' v v' N : String}

theorem plain_normalize (h : plainName n = true) : plainName (normalizeCrateName x n) = true := by
  obtain ⟨hne, hslash⟩ := plainName_iff.mp h
  refine plainName_iff.mpr ⟨fun hnil => ?_, fun hmem => ?_⟩
  · have hlist : (x.toLowercase n).toList = [] := by
      have hl := congrArg toList hnil
      rw [normalizeCrateName, toList_ofList] at hl
      exact map_eq_nil_iff.mp hl
    exact x.toLowercase_ne n hne (toList_inj.mp hlist)
  · rw [normalizeCrateName, toList_ofList] at hmem
    obtain ⟨c, hc, hcs⟩ := mem_map.mp hmem
    have hslash' : c = '/' := by
      split_ifs at hcs with hdash
      · exact absurd hcs (by decide)
      · exact hcs
    exact hslash (x.toLowercase_slash n (hslash' ▸ hc))

theorem toList_cratePath (x : CargoExt) (n v : String) : (cratePath x n v).toList =
    "_crates".toList ++ '/' :: ((normalizeCrateName x n).toList ++ '/' :: (v.toList ++ '/' ::
      (n.toList ++ ("-".toList ++ (v.toList ++ ".crate".toList))))) := by
  have h1 : ("_crates/" : String).toList = "_crates".toList ++ ['/'] := by decide
  have h2 : ("/" : String).toList = ['/'] := by decide
  unfold cratePath
  simp only [toList_append, h1, h2, append_assoc, cons_append, nil_append]

theorem plain_file (hn : plainName n = true) (hv : plainName v = true) :
    CleanChars (n.toList ++ ("-".toList ++ (v.toList ++ ".crate".toList))) ∧
      n.toList ++ ("-".toList ++ (v.toList ++ ".crate".toList)) ≠ [] := by
  have hlit : '/' ∉ ("-" : String).toList ∧ '/' ∉ (".crate" : String).toList := by decide
  have hslash : '/' ∉ (n ++ ("-" ++ (v ++ ".crate"))).toList := by
    simp only [toList_append, mem_append, not_or]
    exact ⟨(plainName_iff.mp hn).2, hlit.1, (plainName_iff.mp hv).2, hlit.2⟩
  have hclean := clean_name hslash
  simp only [toList_append] at hclean
  exact ⟨hclean, fun hnil => toList_ne_nil (plainName_iff.mp hn).1 (append_eq_nil_iff.mp hnil).1⟩

/-- The path of a crate is its key. -/
theorem crateSk_eq (hn : plainName n = true) (hv : plainName v = true) :
    crateSk x n v = cratePath x n v := by
  refine normalizePath_clean ?_
  unfold CleanPath
  obtain ⟨hfile, hfile0⟩ := plain_file hn hv
  obtain ⟨hv0, hvs⟩ := plainName_iff.mp hv
  obtain ⟨hm0, hms⟩ := plainName_iff.mp (plain_normalize (x := x) hn)
  have hdir : CleanChars ("_crates" : String).toList := clean_name (by decide)
  have hdir0 : ("_crates" : String).toList ≠ [] := by decide
  have h1 := clean_append hdir hdir0 (clean_name hms) (toList_ne_nil hm0)
  have h2 := clean_append h1 (by simp) (clean_name hvs) (toList_ne_nil hv0)
  have h3 := clean_append h2 (by simp) hfile hfile0
  rw [toList_cratePath]
  simp only [append_assoc, cons_append] at h3 ⊢
  exact h3

/-- A key belongs to one crate. -/
theorem crateSk_inj (hn : plainName n = true) (hv : plainName v = true)
    (hn' : plainName n' = true) (hv' : plainName v' = true)
    (h : crateSk x n v = crateSk x n' v') : n = n' ∧ v = v' := by
  rw [crateSk_eq hn hv, crateSk_eq hn' hv'] at h
  have hl := congrArg toList h
  rw [toList_cratePath, toList_cratePath] at hl
  have hl1 := (List.cons.inj (append_cancel_left hl)).2
  obtain ⟨-, hl2⟩ := segment_unique (plainName_iff.mp (plain_normalize hn)).2
    (plainName_iff.mp (plain_normalize hn')).2 hl1
  obtain ⟨hvl, hl3⟩ := segment_unique (plainName_iff.mp hv).2 (plainName_iff.mp hv').2 hl2
  obtain rfl := toList_inj.mp hvl
  exact ⟨toList_inj.mp (append_cancel_right hl3), rfl⟩

/-- The keys below a name are those of the crates with its normalised form. -/
theorem hasPrefix_crateSk (hN : plainName N = true) (hn : plainName n = true)
    (hv : plainName v = true) :
    hasPrefix ("_crates/" ++ normalizeCrateName x N ++ "/") (crateSk x n v) = true ↔
      normalizeCrateName x n = normalizeCrateName x N := by
  have h1 : ("_crates/" : String).toList = "_crates".toList ++ ['/'] := by decide
  have h2 : ("/" : String).toList = ['/'] := by decide
  have hNs := (plainName_iff.mp (plain_normalize (x := x) hN)).2
  have hns := (plainName_iff.mp (plain_normalize (x := x) hn)).2
  rw [hasPrefix, decide_eq_true_eq, crateSk_eq hn hv, toList_cratePath]
  simp only [toList_append, h1, h2, append_assoc, cons_append, nil_append]
  rw [prefix_append_right_inj, cons_prefix_cons]
  constructor
  · rintro ⟨-, rest, hrest⟩
    simp only [append_assoc, cons_append, nil_append] at hrest
    exact (toList_inj.mp (segment_unique hNs hns hrest).1).symm
  · intro heq
    rw [heq]
    refine ⟨rfl, v.toList ++ '/' :: (n.toList ++ ("-".toList ++ (v.toList ++ ".crate".toList))), ?_⟩
    simp only [append_assoc, cons_append, nil_append]

end

/-! ## Routes -/

theorem plainName_ofList {cs : List Char} (hne : cs ≠ []) (h : '/' ∉ cs) :
    plainName (ofList cs) = true := by
  refine plainName_iff.mpr ⟨fun hnil => hne ?_, by rwa [toList_ofList]⟩
  have hl := congrArg toList hnil
  rwa [toList_ofList] at hl

/-- The name and the version of a yank are segments. -/
theorem crateRoute_plain {path last : String} {e : String × String}
    (h : crateRoute path last = some e) : plainName e.1 = true ∧ plainName e.2 = true := by
  unfold crateRoute at h
  split at h
  · cases h
  · split at h
    · cases h
    · rename_i rest _
      split at h
      · rename_i name version hsplit
        split_ifs at h with hne
        obtain rfl := some.inj h
        rw [not_or] at hne
        refine ⟨plainName_ofList hne.1 (@Lib.notMem_of_mem_splitOn _ _ '/' rest _ ?_),
          plainName_ofList hne.2 (@Lib.notMem_of_mem_splitOn _ _ '/' rest _ ?_)⟩
        · rw [hsplit]
          exact mem_cons_self
        · rw [hsplit]
          exact mem_cons_of_mem _ mem_cons_self
      · cases h

theorem cargoWrite_plain {r : CargoRequest} {n v : String} {b : Bool}
    (h : cargoWrite r = some (.setYanked n v b)) : plainName n = true ∧ plainName v = true := by
  unfold cargoWrite at h
  split_ifs at h
  · cases h
  · obtain ⟨e, he, heq⟩ := Option.map_eq_some_iff.mp h
    cases heq
    exact crateRoute_plain he
  · obtain ⟨e, he, heq⟩ := Option.map_eq_some_iff.mp h
    cases heq
    exact crateRoute_plain he

theorem isPrefixOf?_append (a b : List Char) : a.isPrefixOf? (a ++ b) = some b := by
  induction a with
  | nil => rfl
  | cons c a ih => simp [isPrefixOf?, ih]

theorem isSuffixOf?_append (a b : List Char) : b.isSuffixOf? (a ++ b) = some a := by
  rw [isSuffixOf?, reverse_append, isPrefixOf?_append, Option.map_some, reverse_reverse]

/-- The path of the index of a name. -/
theorem indexRoute_eq (dir : String) {N : String} (hN : plainName N = true) :
    indexRoute ("index/" ++ dir ++ "/" ++ N) = some N := by
  have hpath : ("index/" ++ dir ++ "/" ++ N).toList =
      "index/".toList ++ (dir.toList ++ '/' :: N.toList) := by
    have h2 : ("/" : String).toList = ['/'] := by decide
    simp only [toList_append, h2, append_assoc, cons_append, nil_append]
  unfold indexRoute
  rw [hpath, isPrefixOf?_append]
  dsimp only
  rw [splitLast_append (plainName_iff.mp hN).2, if_neg (toList_ne_nil (plainName_iff.mp hN).1),
    ofList_toList]

/-- The path of a download. -/
theorem crateFileRoute_eq {n v : String} (hn : plainName n = true) (hv : plainName v = true) :
    crateFileRoute ("api/v1/crates/" ++ n ++ "/" ++ v ++ "/download") = some (n, v) := by
  have hpath : ("api/v1/crates/" ++ n ++ "/" ++ v ++ "/download").toList =
      "api/v1/crates/".toList ++ ((n.toList ++ '/' :: v.toList) ++ "/download".toList) := by
    have h2 : ("/" : String).toList = ['/'] := by decide
    simp only [toList_append, h2, append_assoc, cons_append, nil_append]
  unfold crateFileRoute
  rw [hpath, isPrefixOf?_append]
  dsimp only
  rw [isSuffixOf?_append]
  dsimp only
  rw [splitLast_append (plainName_iff.mp hv).2]
  dsimp only
  rw [if_neg (not_or.mpr ⟨toList_ne_nil (plainName_iff.mp hn).1,
    toList_ne_nil (plainName_iff.mp hv).1⟩), ofList_toList, ofList_toList]

/-- The responses for the index of a name. -/
theorem cargoRead_index (x : CargoExt) (s : CargoRepo) (dir : String) {N : String}
    (hN : plainName N = true) :
    cargoRead x s ("index/" ++ dir ++ "/" ++ N) = some (hostedIndexEntry x s N) := by
  have hne : "index/" ++ dir ++ "/" ++ N ≠ "index/config.json" := by
    intro heq
    have hroute := indexRoute_eq dir hN
    have hl := congrArg toList heq
    have h1 : ("index/config.json" : String).toList = "index/".toList ++ "config.json".toList := by
      decide
    rw [h1, String.append_assoc, String.append_assoc, toList_append] at hl
    have hslash : '/' ∉ ("config.json" : String).toList := by decide
    refine hslash ?_
    rw [← append_cancel_left hl, toList_append, toList_append]
    exact mem_append_right _ (mem_append_left _ (by decide))
  unfold cargoRead
  rw [if_neg hne, indexRoute_eq dir hN]

/-- The responses for the file of a version. -/
theorem cargoRead_file (x : CargoExt) (s : CargoRepo) {n v : String} (hn : plainName n = true)
    (hv : plainName v = true) :
    cargoRead x s ("api/v1/crates/" ++ n ++ "/" ++ v ++ "/download") =
      some (hostedCrate x s n v) := by
  have hhead : ("api/v1/crates/" ++ n ++ "/" ++ v ++ "/download").toList.head? = some 'a' := by
    rw [String.append_assoc, String.append_assoc, String.append_assoc]
    exact head_append (by decide) _
  have hne : "api/v1/crates/" ++ n ++ "/" ++ v ++ "/download" ≠ "index/config.json" := by
    intro heq
    rw [heq] at hhead
    exact absurd hhead (by decide)
  have hroute : indexRoute ("api/v1/crates/" ++ n ++ "/" ++ v ++ "/download") = none := by
    unfold indexRoute
    cases hl : ("api/v1/crates/" ++ n ++ "/" ++ v ++ "/download").toList with
    | nil =>
      rw [hl] at hhead
      cases hhead
    | cons c cs =>
      rw [hl] at hhead
      obtain rfl := some.inj hhead
      have hindex : ("index/" : String).toList = 'i' :: "ndex/".toList := by decide
      rw [hindex, isPrefixOf?, if_neg (by decide)]
  unfold cargoRead
  rw [if_neg hne, hroute]
  dsimp only
  rw [crateFileRoute_eq hn hv, Option.map_some]

/-! ## What has happened -/

/-- The flag of a version that was set last; a publish sets it to `false`. -/
def lastFlag (log : List CrateEvent) (name version : String) : Option Bool :=
  log.foldl (fun last e =>
    match e with
    | .published n v _ => if n = name ∧ v = version then some false else last
    | .flagged n v yanked => if n = name ∧ v = version then some yanked else last) none

/-- The version was published under the name. -/
def WasPublished (log : List CrateEvent) (name version : String) : Prop :=
  ∃ data, CrateEvent.published name version data ∈ log

/-- A sequence of write requests: the repository and what has happened. -/
def cargoRun (x : CargoExt) (st : CargoRepo × List CrateEvent) (rs : List CargoRequest) :
    CargoRepo × List CrateEvent :=
  rs.foldl (fun st r =>
    ((cargoStep x st.1 r).1, st.2 ++ (cargoStep x st.1 r).2.toOption.toList)) st

/-- The index of a name agrees with the files: a line for each version published under the
    normalised form of the name, and for each line the file of its checksum and the flag that
    was set last. -/
structure IndexConsistent (x : CargoExt) (s : CargoRepo) (log : List CrateEvent) (N : String) :
    Prop where
  nodup : ((indexLines x s N).map CrateVersionMeta.vers).Nodup
  versions : ∀ v, v ∈ (indexLines x s N).map CrateVersionMeta.vers ↔
    ∃ n, normalizeCrateName x n = normalizeCrateName x N ∧ WasPublished log n v
  own : ∀ m ∈ indexLines x s N, normalizeCrateName x m.name = normalizeCrateName x N
  file : ∀ m ∈ indexLines x s N, ∃ data,
    cargoRead x s ("api/v1/crates/" ++ m.name ++ "/" ++ m.vers ++ "/download") =
      some (.crateFile data) ∧ x.sha256 data = m.cksum
  yanked : ∀ m ∈ indexLines x s N, lastFlag log m.name m.vers = some m.yanked
  served : ∀ dir, cargoRead x s ("index/" ++ dir ++ "/" ++ N) = some (hostedIndexEntry x s N)

/-! ## The condition on a sequence -/

section

variable (x : CargoExt) (s : CargoRepo)

/-- The name and the version are segments, and the version is not stored under another name
    with the same normalised form. -/
def acceptsCrate (name version : String) : Bool :=
  plainName name && plainName version && s.artifacts.entries.all fun e => e.2.cargo.all fun m =>
    !(m.vers == version && normalizeCrateName x m.name == normalizeCrateName x name) ||
      m.name == name

/-- What is published is accepted. -/
def requestMeets (r : CargoRequest) : Bool :=
  match cargoWrite r with
  | some (.publish body) =>
      match parsePublish x body with
      | .ok (m, _) => !r.stored || acceptsCrate x s m.name m.vers
      | .error _ => true
  | _ => true

end

/-- The condition on a sequence of requests. -/
def cargoMeets (x : CargoExt) (s : CargoRepo) : List CargoRequest → Bool
  | [] => true
  | r :: rs => requestMeets x s r && cargoMeets x (cargoStep x s r).1 rs

/-! ## The invariant -/

/-- A record says what has happened to the version of its key. -/
structure CrateHeld (x : CargoExt) (log : List CrateEvent) (sk : String) (r : CrateRecord)
    (m : CrateVersionMeta) : Prop where
  cargo : r.cargo = some m
  content : ∃ data, r.content = some data ∧ x.sha256 data = m.cksum
  name : plainName m.name = true
  vers : plainName m.vers = true
  key : sk = crateSk x m.name m.vers
  flag : lastFlag log m.name m.vers = some m.yanked
  published : WasPublished log m.name m.vers

/-- The records are those of the versions that were published, and no two of a version have
    names with the same normalised form. -/
structure CargoInv (x : CargoExt) (s : CargoRepo) (log : List CrateEvent) : Prop where
  records : ∀ sk r, s.artifacts.get sk = some r → ∃ m, CrateHeld x log sk r m
  stored : ∀ n v, WasPublished log n v → plainName n = true ∧ plainName v = true ∧
    (s.artifacts.get (crateSk x n v)).isSome = true
  unique : ∀ sk sk' r r' m m', s.artifacts.get sk = some r → s.artifacts.get sk' = some r' →
    r.cargo = some m → r'.cargo = some m' → m.vers = m'.vers →
      normalizeCrateName x m.name = normalizeCrateName x m'.name → m.name = m'.name

variable {m : CrateVersionMeta}

section

variable {x : CargoExt} {s : CargoRepo} {log : List CrateEvent} {n v : String}

theorem lastFlag_published (log : List CrateEvent) (n v n' v' : String) (data : Bytes) :
    lastFlag (log ++ [.published n v data]) n' v' =
      if n = n' ∧ v = v' then some false else lastFlag log n' v' := by
  unfold lastFlag
  rw [List.foldl_append]
  rfl

theorem lastFlag_flagged (log : List CrateEvent) (n v n' v' : String) (yanked : Bool) :
    lastFlag (log ++ [.flagged n v yanked]) n' v' =
      if n = n' ∧ v = v' then some yanked else lastFlag log n' v' := by
  unfold lastFlag
  rw [List.foldl_append]
  rfl

theorem WasPublished.append (h : WasPublished log n v) (more : List CrateEvent) :
    WasPublished (log ++ more) n v := by
  obtain ⟨data, hdata⟩ := h
  exact ⟨data, mem_append_left _ hdata⟩

/-- A record is put for the version of its key. -/
theorem CargoInv.put (h : CargoInv x s log) {more : List CrateEvent} {r : CrateRecord}
    (hr : CrateHeld x (log ++ more) (crateSk x m.name m.vers) r m)
    (hother : ∀ n' v', ¬(m.name = n' ∧ m.vers = v') →
      lastFlag (log ++ more) n' v' = lastFlag log n' v')
    (hnew : ∀ n' v', WasPublished (log ++ more) n' v' →
      WasPublished log n' v' ∨ m.name = n' ∧ m.vers = v')
    (halias : ∀ sk' r' m', s.artifacts.get sk' = some r' → r'.cargo = some m' →
      m'.vers = m.vers → normalizeCrateName x m'.name = normalizeCrateName x m.name →
        m'.name = m.name) :
    CargoInv x { artifacts := s.artifacts.insert (crateSk x m.name m.vers) r } (log ++ more) := by
  have hget : ∀ sk, ({ artifacts := s.artifacts.insert (crateSk x m.name m.vers) r } :
      CargoRepo).artifacts.get sk = if sk = crateSk x m.name m.vers then some r
        else s.artifacts.get sk := fun sk => SortedMap.get_insert _ _ _ _
  refine ⟨fun sk r' hsk => ?_, fun n' v' hpub => ?_, ?_⟩
  · rw [hget] at hsk
    split_ifs at hsk with hkey
    · obtain rfl := some.inj hsk
      exact ⟨m, hkey ▸ hr⟩
    · obtain ⟨m', hm'⟩ := h.records sk r' hsk
      refine ⟨m', { hm' with flag := ?_, published := hm'.published.append more }⟩
      rw [hother m'.name m'.vers, hm'.flag]
      rintro ⟨hn, hv⟩
      exact hkey (by rw [hm'.key, hn, hv])
  · rw [hget]
    rcases hnew n' v' hpub with hold | ⟨rfl, rfl⟩
    · obtain ⟨hn, hv, hsome⟩ := h.stored n' v' hold
      refine ⟨hn, hv, ?_⟩
      split_ifs
      · rfl
      · exact hsome
    · exact ⟨hr.name, hr.vers, by rw [if_pos rfl]; rfl⟩
  · intro sk sk' r1 r2 m1 m2 h1 h2 hm1 hm2 hv hn
    rw [hget] at h1 h2
    split_ifs at h1 with hk1 <;> split_ifs at h2 with hk2
    · obtain rfl := some.inj h1
      obtain rfl := some.inj h2
      rw [some.inj (hm1.symm.trans hm2)]
    · obtain rfl := some.inj h1
      obtain rfl := some.inj (hr.cargo.symm.trans hm1)
      exact (halias sk' r2 m2 h2 hm2 hv.symm hn.symm).symm
    · obtain rfl := some.inj h2
      obtain rfl := some.inj (hr.cargo.symm.trans hm2)
      exact halias sk r1 m1 h1 hm1 hv hn
    · exact h.unique sk sk' r1 r2 m1 m2 h1 h2 hm1 hm2 hv hn

theorem acceptsCrate_iff : acceptsCrate x s n v = true ↔ plainName n = true ∧
    plainName v = true ∧ ∀ sk r m, s.artifacts.get sk = some r → r.cargo = some m →
      m.vers = v → normalizeCrateName x m.name = normalizeCrateName x n → m.name = n := by
  unfold acceptsCrate
  rw [Bool.and_eq_true, Bool.and_eq_true, all_eq_true, and_assoc]
  refine and_congr_right fun _ => and_congr_right fun _ => ⟨fun h sk r m hsk hm hv hn => ?_,
    fun h e he => ?_⟩
  · have hall := h (sk, r) (SortedMap.mem_entries_iff.mpr hsk)
    simp only [hm, Option.all_some] at hall
    simpa [hv, hn] using hall
  · cases hm : e.2.cargo with
    | none => rfl
    | some m =>
      have hname := h e.1 e.2 m (SortedMap.mem_entries_iff.mp he) hm
      rw [Option.all_some]
      by_cases hboth : m.vers = v ∧ normalizeCrateName x m.name = normalizeCrateName x n
      · simp [hname hboth.1 hboth.2]
      · by_cases hv : m.vers = v
        · have hn : ¬normalizeCrateName x m.name = normalizeCrateName x n := fun hn =>
            hboth ⟨hv, hn⟩
          simp [hn]
        · simp [hv]

/-- A publish keeps the invariant. -/
theorem handlePublish_inv (h : CargoInv x s log) (now : DateTime) (body : Bytes) (stored : Bool)
    (hok : ∀ m data, parsePublish x body = .ok (m, data) → stored = true →
      acceptsCrate x s m.name m.vers = true) :
    CargoInv x (handlePublish x s now body stored).1
      (log ++ (handlePublish x s now body stored).2.toOption.toList) := by
  unfold handlePublish
  split
  · rw [Except.toOption, Option.toList_none, append_nil]
    exact h
  · rename_i m data hparse
    cases stored with
    | false =>
      rw [if_neg Bool.false_ne_true, Except.toOption, Option.toList_none, append_nil]
      exact h
    | true =>
      obtain ⟨hn, hv, halias⟩ := acceptsCrate_iff.mp (hok m data hparse rfl)
      rw [if_pos rfl]
      show CargoInv x _ (log ++ [.published m.name m.vers data])
      refine h.put (m := m.versionMeta x data) ⟨rfl, ⟨data, rfl, rfl⟩, hn, hv, rfl, ?_, ?_⟩
        (fun n' v' hne => ?_) (fun n' v' hpub => ?_) halias
      · rw [lastFlag_published]
        exact if_pos ⟨rfl, rfl⟩
      · exact ⟨data, mem_append_right _ mem_cons_self⟩
      · rw [lastFlag_published]
        exact if_neg hne
      · obtain ⟨data', hdata'⟩ := hpub
        rcases mem_append.mp hdata' with hold | hlast
        · exact .inl ⟨data', hold⟩
        · obtain ⟨rfl, rfl, -⟩ := CrateEvent.published.inj (mem_singleton.mp hlast)
          exact .inr ⟨rfl, rfl⟩

theorem setYanked_eq_none {now : DateTime} {yanked : Bool}
    (h : s.artifacts.get (crateSk x n v) = none) : setYanked x s now n v yanked = none := by
  unfold setYanked
  simp only [h]

theorem setYanked_eq_some {now : DateTime} {yanked : Bool} {r : CrateRecord}
    (h : s.artifacts.get (crateSk x n v) = some r)
    (hm : r.cargo = some m) : setYanked x s now n v yanked =
      some { artifacts := s.artifacts.insert (crateSk x n v) (r.flagged now m yanked) } := by
  unfold setYanked
  simp only [h, hm]
  rfl

/-- A yank keeps the invariant. -/
theorem handleSetYanked_inv (h : CargoInv x s log) (now : DateTime) (hn : plainName n = true)
    (hv : plainName v = true) (yanked stored : Bool) :
    CargoInv x (handleSetYanked x s now n v yanked stored).1
      (log ++ (handleSetYanked x s now n v yanked stored).2.toOption.toList) := by
  have hsame : CargoInv x s (log ++ []) := by
    rw [append_nil]
    exact h
  unfold handleSetYanked
  cases stored with
  | false => exact hsame
  | true =>
    rw [if_pos rfl]
    cases hget : s.artifacts.get (crateSk x n v) with
    | none =>
      rw [setYanked_eq_none hget]
      exact hsame
    | some r =>
      obtain ⟨m, hm⟩ := h.records _ r hget
      rw [setYanked_eq_some hget hm.cargo]
      obtain ⟨hname, hvers⟩ := crateSk_inj hn hv hm.name hm.vers hm.key
      obtain rfl := hname
      obtain rfl := hvers
      show CargoInv x _ (log ++ [.flagged m.name m.vers yanked])
      refine h.put (m := { m with yanked := yanked }) ⟨rfl, hm.content, hm.name, hm.vers, rfl, ?_,
        hm.published.append _⟩ (fun n' v' hne => ?_) (fun n' v' hpub => ?_)
        fun sk' r' m' hsk' hm' hv' hn' => h.unique _ _ r' r m' m hsk' hget hm' hm.cargo hv' hn'
      · rw [lastFlag_flagged]
        exact if_pos ⟨rfl, rfl⟩
      · rw [lastFlag_flagged]
        exact if_neg hne
      · obtain ⟨data', hdata'⟩ := hpub
        rcases mem_append.mp hdata' with hold | hlast
        · exact .inl ⟨data', hold⟩
        · cases mem_singleton.mp hlast

/-- **Step lemma.** A request that meets the condition keeps the invariant. -/
theorem cargoStep_inv (h : CargoInv x s log) {r : CargoRequest} (hok : requestMeets x s r = true) :
    CargoInv x (cargoStep x s r).1 (log ++ (cargoStep x s r).2.toOption.toList) := by
  unfold requestMeets at hok
  unfold cargoStep
  cases hw : cargoWrite r with
  | none =>
    show CargoInv x s (log ++ [])
    rw [append_nil]
    exact h
  | some w =>
    cases w with
    | publish body =>
      refine handlePublish_inv h r.now body r.stored fun m data hparse hstored => ?_
      rw [hw] at hok
      simpa [hparse, hstored] using hok
    | setYanked name version yanked =>
      obtain ⟨hn, hv⟩ := cargoWrite_plain hw
      exact handleSetYanked_inv h r.now hn hv yanked r.stored

/-- **Run lemma.** -/
theorem cargoRun_inv (h : CargoInv x s log) {rs : List CargoRequest}
    (hok : cargoMeets x s rs = true) :
    CargoInv x (cargoRun x (s, log) rs).1 (cargoRun x (s, log) rs).2 := by
  induction rs generalizing s log with
  | nil => exact h
  | cons r rs ih =>
    rw [cargoMeets, Bool.and_eq_true] at hok
    exact ih (cargoStep_inv h hok.1) hok.2

theorem cargoInv_empty (x : CargoExt) : CargoInv x {} [] where
  records sk r hsk := by
    rw [show SortedMap.get (ν := CrateRecord) SortedMap.empty sk = none from
      SortedMap.get_empty sk] at hsk
    cases hsk
  stored n v hpub := by
    obtain ⟨data, hdata⟩ := hpub
    cases hdata
  unique sk sk' r r' m m' hsk := by
    rw [show SortedMap.get (ν := CrateRecord) SortedMap.empty sk = none from
      SortedMap.get_empty sk] at hsk
    cases hsk

end

/-! ## The index -/

section

variable {x : CargoExt} {s : CargoRepo} {log : List CrateEvent} {N : String}

theorem mem_foldAll {skPrefix : String} {e : String × CrateRecord} : e ∈ s.foldAll x skPrefix ↔
      s.artifacts.get e.1 = some e.2 ∧ hasPrefix skPrefix e.1 = true := by
  unfold CargoRepo.foldAll
  rw [mem_flatMap]
  constructor
  · rintro ⟨shard, -, he⟩
    obtain ⟨hmem, hp⟩ := mem_filter.mp he
    exact ⟨SortedMap.mem_entries_iff.mp hmem, (Bool.and_eq_true_iff.mp hp).1⟩
  · rintro ⟨hget, hp⟩
    refine ⟨x.shardOf e.1, List.mem_range.mpr (x.shardOf_lt e.1), mem_filter.mpr
      ⟨SortedMap.mem_entries_iff.mpr hget, ?_⟩⟩
    rw [hp, beq_self_eq_true]
    rfl

/-- Each key is visited once. -/
theorem foldAll_pairwise (x : CargoExt) (s : CargoRepo) (skPrefix : String) :
    (s.foldAll x skPrefix).Pairwise fun a b => a.1 ≠ b.1 := by
  unfold CargoRepo.foldAll
  rw [pairwise_flatMap]
  refine ⟨fun shard _ => (s.artifacts.sorted.filter _).imp fun hlt => hlt.ne, ?_⟩
  refine nodup_range.imp fun hne a ha b hb heq => hne ?_
  have hshard : ∀ {shard : ℕ} {e : String × CrateRecord},
      e ∈ s.artifacts.entries.filter (fun e => hasPrefix skPrefix e.1 && x.shardOf e.1 == shard) →
        x.shardOf e.1 = shard := fun he =>
    eq_of_beq (Bool.and_eq_true_iff.mp (mem_filter.mp he).2).2
  rw [← hshard ha, ← hshard hb, heq]

/-- The lines of an index are those of the records below its name. -/
theorem CargoInv.mem_indexLines (h : CargoInv x s log) (hN : plainName N = true)
    : m ∈ indexLines x s N ↔ ∃ sk r, s.artifacts.get sk = some r ∧
      CrateHeld x log sk r m ∧ normalizeCrateName x m.name = normalizeCrateName x N := by
  unfold indexLines
  rw [mem_filterMap]
  constructor
  · rintro ⟨⟨sk, r⟩, he, hm⟩
    obtain ⟨hget, hp⟩ := mem_foldAll.mp he
    obtain ⟨m', hm'⟩ := h.records sk r hget
    obtain rfl := some.inj (hm'.cargo.symm.trans hm)
    refine ⟨sk, r, hget, hm', (hasPrefix_crateSk hN hm'.name hm'.vers).mp ?_⟩
    rw [← hm'.key]
    exact hp
  · rintro ⟨sk, r, hget, hm, hnorm⟩
    refine ⟨(sk, r), mem_foldAll.mpr ⟨hget, ?_⟩, hm.cargo⟩
    rw [hm.key]
    exact (hasPrefix_crateSk hN hm.name hm.vers).mpr hnorm

theorem CargoInv.consistent (h : CargoInv x s log) (hN : plainName N = true) :
    IndexConsistent x s log N := by
  refine ⟨?_, fun v => ⟨fun hv => ?_, ?_⟩, fun m hm => ?_, fun m hm => ?_, fun m hm => ?_,
    fun dir => ?_⟩
  · -- two lines of a version would be two records of one name, hence of one key
    unfold indexLines
    rw [Nodup, pairwise_map, pairwise_filterMap]
    refine (foldAll_pairwise x s _).imp_of_mem fun {a b} ha hb hne m hm m' hm' hv => hne ?_
    obtain ⟨ha, hpa⟩ := mem_foldAll.mp ha
    obtain ⟨hb, hpb⟩ := mem_foldAll.mp hb
    obtain ⟨ma, hma⟩ := h.records _ _ ha
    obtain ⟨mb, hmb⟩ := h.records _ _ hb
    obtain rfl := some.inj (hma.cargo.symm.trans hm)
    obtain rfl := some.inj (hmb.cargo.symm.trans hm')
    rw [hma.key, hasPrefix_crateSk hN hma.name hma.vers] at hpa
    rw [hmb.key, hasPrefix_crateSk hN hmb.name hmb.vers] at hpb
    have hname := h.unique _ _ _ _ _ _ ha hb hma.cargo hmb.cargo hv (hpa.trans hpb.symm)
    rw [hma.key, hmb.key, hname, hv]
  · obtain ⟨m, hm, rfl⟩ := mem_map.mp hv
    obtain ⟨sk, r, -, hr, hnorm⟩ := (h.mem_indexLines hN).mp hm
    exact ⟨m.name, hnorm, hr.published⟩
  · rintro ⟨n, hnorm, hpub⟩
    obtain ⟨hn, hv, hsome⟩ := h.stored n v hpub
    obtain ⟨r, hget⟩ := Option.isSome_iff_exists.mp hsome
    obtain ⟨m, hm⟩ := h.records _ r hget
    obtain ⟨rfl, rfl⟩ := crateSk_inj hn hv hm.name hm.vers hm.key
    exact mem_map.mpr ⟨m, (h.mem_indexLines hN).mpr ⟨_, r, hget, hm, hnorm⟩, rfl⟩
  · obtain ⟨sk, r, -, -, hnorm⟩ := (h.mem_indexLines hN).mp hm
    exact hnorm
  · obtain ⟨sk, r, hget, hr, -⟩ := (h.mem_indexLines hN).mp hm
    obtain ⟨data, hdata, hsum⟩ := hr.content
    refine ⟨data, ?_, hsum⟩
    rw [cargoRead_file x s hr.name hr.vers]
    unfold hostedCrate
    rw [← hr.key, hget, Option.bind_some, hdata]
  · obtain ⟨sk, r, -, hr, -⟩ := (h.mem_indexLines hN).mp hm
    exact hr.flag
  · exact cargoRead_index x s dir hN

/-- **Main theorem.** After any sequence of publishes and yanks that meets the condition, the
    index of every name agrees with the files. -/
theorem crate_index_exact (x : CargoExt) {rs : List CargoRequest}
    (hok : cargoMeets x {} rs = true) {N : String} (hN : plainName N = true) :
    IndexConsistent x (cargoRun x ({}, []) rs).1 (cargoRun x ({}, []) rs).2 N :=
  (cargoRun_inv (cargoInv_empty x) hok).consistent hN

end

/-! ## A version that is listed twice -/

/-- The metadata of a publish as JSON text. -/
def publishText (name version : String) : String :=
  "\x7b\"name\":\"" ++ name ++ "\",\"vers\":\"" ++ version ++ "\"\x7d"

/-- Simple functions of the other packages. -/
def CargoExt.sample : CargoExt where
  toLowercase name := name
  toLowercase_ne _ h := h
  toLowercase_slash _ h := h
  sha256 _ := ofList (replicate 64 '0')
  blake3 _ := ofList (replicate 64 '0')
  shardOf sk := sk.length % numShards
  shardOf_lt := Ext.sample.shardOf_lt
  decode data := [{ name := "foo-bar", vers := "1.0.0" }, { name := "foo_bar", vers := "1.0.0" }].find?
    fun m : PublishMeta => utf8 (publishText m.name m.vers) = data
  toText
    | .null => "null"
    | _ => "\x7b\x7d"
  parse text := if text = "null" then some .null else some (.object [])

def publishRequest (name version : String) (data : Bytes) : CargoRequest where
  now := 0
  method := "PUT"
  path := "api/v1/crates/new"
  body := Redb.leBytes 4 (utf8 (publishText name version)).length ++
    utf8 (publishText name version) ++ Redb.leBytes 4 data.length ++ data
  stored := true

def yankRequest (name version : String) : CargoRequest where
  now := 1
  method := "DELETE"
  path := "api/v1/crates/" ++ name ++ "/" ++ version ++ "/yank"
  body := []
  stored := true

/-- A version that is published under two names with the same normalised form has two lines. -/
theorem crate_index_doubled : ∃ rs, ¬ IndexConsistent .sample (cargoRun .sample ({}, []) rs).1
    (cargoRun .sample ({}, []) rs).2 "foo_bar" := by
  refine ⟨[publishRequest "foo-bar" "1.0.0" [1], publishRequest "foo_bar" "1.0.0" [2]], fun h => ?_⟩
  have hlines : (indexLines .sample (cargoRun .sample ({}, [])
      [publishRequest "foo-bar" "1.0.0" [1], publishRequest "foo_bar" "1.0.0" [2]]).1
        "foo_bar").map CrateVersionMeta.vers = ["1.0.0", "1.0.0"] := by decide +kernel
  have hnodup := h.nodup
  rw [hlines] at hnodup
  exact absurd hnodup (by decide)

/-- A version that is published and yanked has one line. -/
theorem crate_index_exact_yanked :
    let st := cargoRun .sample ({}, [])
      [publishRequest "foo-bar" "1.0.0" [1], yankRequest "foo-bar" "1.0.0"]
    IndexConsistent .sample st.1 st.2 "foo_bar" ∧
      (indexLines .sample st.1 "foo_bar").map (fun m => (m.name, m.vers, m.yanked)) =
        [("foo-bar", "1.0.0", true)] :=
  ⟨crate_index_exact .sample (by decide +kernel) (by decide +kernel), by decide +kernel⟩

end Depot
