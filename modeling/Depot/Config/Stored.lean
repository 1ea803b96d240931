import Depot.Config.Start

/-!
# Stored configurations

The repositories and stores that administrators create, change, delete and restore, one request
after another (`api/repositories.rs`, `api/stores.rs`, `api/backup.rs`, `config/init.rs`).

Results:
* `Valid.putRepo`: when a record that is written keeps what is stored valid.
* `Change.keeps`, `stored_valid`: what one change keeps, and any number of them.

**An update is checked less than a creation.** It may leave a proxy without members, or with a
`write_member` that is none of them. No request looks at the proxies that have the repository as a
member, a restore checks nothing, and a store is deleted although a repository that is being
drained is in it.
-/

namespace Depot.Config

open Lib Accounts
open Option (any_eq_true bind_eq_some_iff filter_eq_some_iff map_eq_some_iff some.inj)

/-- The records of the stores and of the repositories. -/
structure StoredConfigs where
  stores : SortedMap String StoreRecord := .empty
  repos : SortedMap String RepoConfig := .empty

/-- `UpdateRepoRequest` (`api/repositories.rs`, lines 500–525). -/
structure UpdateRepoRequest where
  upstreamUrl : Option String := none
  cacheTtlSecs : Option UInt64 := none
  upstreamAuth : Option (Option UpstreamAuth) := none
  members : Option (List String) := none
  writeMember : Option String := none
  listen : Option String := none
  cleanupUntaggedManifests : Option Bool := none
  cleanupMaxAgeDays : Option (Option UInt64) := none
  cleanupMaxUnaccessedDays : Option (Option UInt64) := none
  contentDisposition : Option ContentDisposition := none
  repodataDepth : Option UInt32 := none

/-- The kind of a repository after an update (lines 575–611). -/
def UpdateRepoRequest.kind (req : UpdateRepoRequest) : RepoKind → RepoKind
  | .hosted => .hosted
  | .cache upstreamUrl cacheTtlSecs upstreamAuth =>
      let auth := match req.upstreamAuth with
        | none => upstreamAuth
        | some none => none
        | some (some auth) =>
            if auth.password = some "********" then
              some { auth with password := upstreamAuth.bind UpstreamAuth.password }
            else some auth
      .cache (req.upstreamUrl.getD upstreamUrl) (req.cacheTtlSecs.getD cacheTtlSecs) auth
  | .proxy members writeMember =>
      .proxy (req.members.getD members) (req.writeMember.or writeMember)

/-- Its format (lines 625–663). -/
def UpdateRepoRequest.formatConfig (req : UpdateRepoRequest) : FormatConfig → FormatConfig
  | .docker listen untagged =>
      .docker (req.listen.or listen) (req.cleanupUntaggedManifests.or untagged)
  | .raw disposition => .raw (req.contentDisposition.or disposition)
  | .yum depth => .yum (req.repodataDepth.or depth)
  | other => other

/-- The record after an update (lines 575–671). -/
def UpdateRepoRequest.updated (req : UpdateRepoRequest) (c : RepoConfig) : RepoConfig :=
  { c with
    kind := req.kind c.kind
    formatConfig := req.formatConfig c.formatConfig
    cleanupMaxAgeDays := req.cleanupMaxAgeDays.getD c.cleanupMaxAgeDays
    cleanupMaxUnaccessedDays := req.cleanupMaxUnaccessedDays.getD c.cleanupMaxUnaccessedDays }

/-- The record of a request (`api/repositories.rs`, lines 324–334; `init.rs`, lines 188–198). -/
def CreateRepoRequest.record (req : CreateRepoRequest) (kind : RepoKind)
    (formatConfig : FormatConfig) (now : DateTime) : RepoConfig where
  name := req.name
  kind := kind
  formatConfig := formatConfig
  store := req.store
  createdAt := now
  cleanupMaxUnaccessedDays := req.cleanupMaxUnaccessedDays
  cleanupMaxAgeDays := req.cleanupMaxAgeDays

namespace StoredConfigs

variable (s : StoredConfigs)

/-- `get_repo`. -/
def getRepo (name : String) : Option RepoConfig := (s.repos.get name).filter fun c => !c.deleting

/-- `list_repos`. -/
def listRepos : List RepoConfig :=
  ((s.repos.entries.take UserTable.adminEntityCap).map Prod.snd).filter fun c => !c.deleting

/-- `put_repo`. -/
def putRepo (c : RepoConfig) : StoredConfigs := { s with repos := s.repos.insert c.name c }

/-- The depth of a member, if it is a Yum repository. -/
def yumDepth (name : String) : Option UInt32 :=
  (s.getRepo name).bind fun c =>
    if c.formatConfig.artifactFormat = .yum then some c.formatConfig.repodataDepth else none

/-- `validate_yum_proxy_member_depth` (`api/conversions.rs`, lines 180–205). -/
def depthError (c : RepoConfig) : Option String :=
  memberDepthError ((yumMembers c).filterMap fun m => (s.yumDepth m).map fun d => (m, d))

/-- A record for a request, when it passes the checks that a creation and the initialization share
    (lines 282–319; `init.rs`, lines 164–187). -/
def checkedRecord (req : CreateRepoRequest) (now : DateTime) : Option RepoConfig :=
  match buildRepoKindAndFormat req with
  | .error _ => none
  | .ok (kind, formatConfig) =>
      let c := req.record kind formatConfig now
      if (s.stores.get req.store).isSome ∧ s.depthError c = none then some c else none

end StoredConfigs

/-- A request, or one write of an initialization, of a restore, or of the cleanup worker. -/
inductive Change where
  | putStore (record : StoreRecord)
  | deleteStore (name : String) (blobs : ℕ)
  | createRepo (req : CreateRepoRequest) (keyFits : Bool) (now : DateTime)
  | initRepo (req : CreateRepoRequest) (now : DateTime)
  | updateRepo (name : String) (req : UpdateRepoRequest)
  | cloneRepo (name newName : String) (now : DateTime)
  | deleteRepo (name : String)
  | drained (name : String)
  | restoreRepo (c : RepoConfig)

/-- What a change leaves; `none` when it fails: `create_repo` (lines 270–346), `update_repo`
    (lines 542–676), `clone_repo` (`service/repo.rs`, lines 199–207), `delete_repo` (lines
    150–171), `delete_store` (`api/stores.rs`, lines 624–670), `post_restore` (`api/backup.rs`,
    lines 151–197). `keyFits` says whether a signing key is one, for an Apt repository. -/
def Change.apply (s : StoredConfigs) : Change → Option StoredConfigs
  | .putStore record => some { s with stores := s.stores.insert record.name record }
  | .deleteStore name blobs =>
      if (s.stores.get name).isNone ∨ (s.listRepos.any fun c => c.store = name) ∨ 0 < blobs then none
      else some { s with stores := s.stores.erase name }
  | .createRepo req keyFits now =>
      if req.name = "" ∨ !keyFits ∨ (s.getRepo req.name).isSome then none
      else (s.checkedRecord req now).map s.putRepo
  | .initRepo req now => (s.checkedRecord req now).map s.putRepo
  | .updateRepo name req =>
      if (req.repodataDepth.any fun d => 5 < d) ∨ req.cleanupMaxAgeDays = some (some 0) ∨
          req.cleanupMaxUnaccessedDays = some (some 0) then none
      else
        (s.getRepo name).bind fun c =>
          if (s.depthError { c with kind := req.kind c.kind }).isSome then none
          else some (s.putRepo (req.updated c))
  | .cloneRepo name newName now =>
      if newName = "" ∨ newName = name ∨ (s.repos.get newName).isSome then none
      else (s.getRepo name).map fun c => s.putRepo { c with name := newName, createdAt := now }
  | .deleteRepo name => (s.repos.get name).map fun c => s.putRepo { c with deleting := true }
  | .drained name => some { s with repos := s.repos.erase name }
  | .restoreRepo c => some (s.putRepo c)

/-- Changes that all succeed, in order. -/
def runChanges : StoredConfigs → List Change → Option StoredConfigs
  | s, [] => some s
  | s, change :: changes => (change.apply s).bind fun s' => runChanges s' changes

/-! ## The rules -/

/-- The rules of a creation. -/
structure Ruled (s : StoredConfigs) (c : RepoConfig) : Prop where
  proxy : ∀ members writeMember, c.kind = .proxy members writeMember →
    members ≠ [] ∧ ∀ m, writeMember = some m → m ∈ members
  age : c.cleanupMaxAgeDays ≠ some 0
  unaccessed : c.cleanupMaxUnaccessedDays ≠ some 0
  depth : ∀ m ∈ yumMembers c, ∀ m' ∈ yumMembers c, ∀ d d',
    s.yumDepth m = some d → s.yumDepth m' = some d' → d = d'
  store : (s.stores.get c.store).isSome = true

/-- Every record is under its name and satisfies the rules. -/
def Valid (s : StoredConfigs) : Prop :=
  ∀ name c, s.repos.get name = some c → c.name = name ∧ Ruled s c

/-- In the Yum proxies that have the repository as a member, the others have its depth. -/
def Fits (s : StoredConfigs) (c : RepoConfig) : Prop :=
  c.deleting = false → c.formatConfig.artifactFormat = .yum → ∀ p,
    p = c ∨ (p.name ≠ c.name ∧ s.repos.get p.name = some p) → c.name ∈ yumMembers p →
      ∀ m ∈ yumMembers p, m ≠ c.name → ∀ d, s.yumDepth m = some d →
        d = c.formatConfig.repodataDepth

/-- The condition on a change: a new or changed repository fits into the proxies that have it as a
    member, an update leaves a proxy its members, a record that is restored satisfies the rules,
    and the repositories in a store that is deleted are listed. -/
def Change.Careful (s : StoredConfigs) : Change → Prop
  | .deleteStore name _ => ∀ key c, s.repos.get key = some c → c.store = name → c ∈ s.listRepos
  | .createRepo req _ now | .initRepo req now => ∀ c, s.checkedRecord req now = some c → Fits s c
  | .updateRepo name req => ∀ c, s.getRepo name = some c → Fits s (req.updated c) ∧
      ∀ members writeMember, c.kind = .proxy members writeMember → req.members ≠ some [] ∧
        ∀ m, req.writeMember.or writeMember = some m → m ∈ req.members.getD members
  | .cloneRepo name newName now => ∀ c, s.getRepo name = some c →
      Fits s { c with name := newName, createdAt := now }
  | .restoreRepo c => Ruled s c ∧ Fits s c
  | _ => True

/-- The condition on a run. -/
def CarefulRun : StoredConfigs → List Change → Prop
  | _, [] => True
  | s, change :: changes =>
      change.Careful s ∧ ∀ s', change.apply s = some s' → CarefulRun s' changes

/-! ## What the changes keep -/

variable {s s' : StoredConfigs}

variable {c : RepoConfig}

theorem yumDepth_putRepo {m : String} {d : UInt32} (h : (s.putRepo c).yumDepth m = some d) :
    (m ≠ c.name ∧ s.yumDepth m = some d) ∨ (m = c.name ∧ c.deleting = false ∧
      c.formatConfig.artifactFormat = .yum ∧ d = c.formatConfig.repodataDepth) := by
  unfold StoredConfigs.yumDepth StoredConfigs.getRepo StoredConfigs.putRepo at h
  rw [SortedMap.get_insert] at h
  split_ifs at h with hm
  · rw [bind_eq_some_iff] at h
    obtain ⟨c', hc', hd⟩ := h
    rw [filter_eq_some_iff] at hc'
    obtain ⟨hsome, hdel⟩ := hc'
    obtain rfl := some.inj hsome
    split_ifs at hd with hyum
    exact .inr ⟨hm, by simpa using hdel, hyum, (some.inj hd).symm⟩
  · exact .inl ⟨hm, h⟩

/-- A record that satisfies the rules and fits into the proxies keeps what is stored valid. -/
theorem Valid.putRepo (hs : Valid s) (hc : Ruled s c) (hfits : Fits s c) : Valid (s.putRepo c) := by
  have hdepth : ∀ p, p = c ∨ (p.name ≠ c.name ∧ s.repos.get p.name = some p) → Ruled s p →
      ∀ m ∈ yumMembers p, ∀ m' ∈ yumMembers p, ∀ d d', (s.putRepo c).yumDepth m = some d →
        (s.putRepo c).yumDepth m' = some d' → d = d' := by
    intro p hp hruled m hm m' hm' d d' hd hd'
    rcases yumDepth_putRepo hd with ⟨hne, hd⟩ | ⟨rfl, hdel, hyum, rfl⟩
    · rcases yumDepth_putRepo hd' with ⟨hne', hd'⟩ | ⟨rfl, hdel, hyum, rfl⟩
      · exact hruled.depth m hm m' hm' d d' hd hd'
      · exact hfits hdel hyum p hp hm' m hm hne d hd
    · rcases yumDepth_putRepo hd' with ⟨hne', hd'⟩ | ⟨-, -, -, rfl⟩
      · exact (hfits hdel hyum p hp hm m' hm' hne' d' hd').symm
      · rfl
  intro name p hp
  rw [StoredConfigs.putRepo, SortedMap.get_insert] at hp
  split_ifs at hp with hname
  · obtain rfl := some.inj hp
    exact ⟨hname.symm, { hc with depth := hdepth c (.inl rfl) hc, store := hc.store }⟩
  · obtain ⟨rfl, hruled⟩ := hs name p hp
    exact ⟨rfl, { hruled with depth := hdepth p (.inr ⟨hname, hp⟩) hruled, store := hruled.store }⟩

theorem eq_of_memberDepthError {ms : List (String × UInt32)} (h : memberDepthError ms = none)
    {a b : String × UInt32} (ha : a ∈ ms) (hb : b ∈ ms) : a.2 = b.2 := by
  cases ms with
  | nil => cases ha
  | cons first rest =>
    rw [memberDepthError, Option.map_eq_none_iff, List.find?_eq_none] at h
    have hfirst : ∀ c ∈ first :: rest, c.2 = first.2 := by
      intro c hc
      rcases List.mem_cons.mp hc with rfl | hc
      · rfl
      · simpa using h c hc
    rw [hfirst a ha, hfirst b hb]

theorem depths_agree (h : s.depthError c = none) :
    ∀ m ∈ yumMembers c, ∀ m' ∈ yumMembers c, ∀ d d', s.yumDepth m = some d →
      s.yumDepth m' = some d' → d = d' := by
  intro m hm m' hm' d d' hd hd'
  have hmem : ∀ m ∈ yumMembers c, ∀ d, s.yumDepth m = some d →
      (m, d) ∈ (yumMembers c).filterMap fun m => (s.yumDepth m).map fun d => (m, d) := by
    intro m hm d hd
    exact List.mem_filterMap.mpr ⟨m, hm, by rw [hd, Option.map_some]⟩
  exact eq_of_memberDepthError h (hmem m hm d hd) (hmem m' hm' d' hd')

/-- What passes the checks of a creation satisfies the rules. -/
theorem ruled_checkedRecord {req : CreateRepoRequest} {now : DateTime}
    (h : s.checkedRecord req now = some c) : Ruled s c := by
  unfold StoredConfigs.checkedRecord at h
  cases hbuild : buildRepoKindAndFormat req with
  | error e =>
    rw [hbuild] at h
    cases h
  | ok built =>
    obtain ⟨kind, formatConfig⟩ := built
    rw [hbuild] at h
    dsimp only at h
    split_ifs at h with hchecks
    obtain rfl := some.inj h
    unfold buildRepoKindAndFormat at hbuild
    split_ifs at hbuild with hage hunaccessed
    refine ⟨fun members writeMember hkind => ?_, hage, hunaccessed, depths_agree hchecks.2, hchecks.1⟩
    obtain rfl : kind = .proxy members writeMember := hkind
    cases hdepth : repodataDepthError req with
    | some e =>
      rw [hdepth] at hbuild
      cases hbuild
    | none =>
      rw [hdepth] at hbuild
      cases hkind : repoKindOf req with
      | error e =>
        rw [hkind] at hbuild
        cases hbuild
      | ok kind =>
        rw [hkind] at hbuild
        obtain ⟨rfl, -⟩ := Prod.mk.inj (Except.ok.inj hbuild)
        unfold repoKindOf at hkind
        split at hkind
        · cases hkind
        · split at hkind <;> cases hkind
        · split at hkind
          · cases hkind
          · split_ifs at hkind with hempty hwrite
            obtain ⟨rfl, rfl⟩ := RepoKind.proxy.inj (Except.ok.inj hkind)
            refine ⟨by simpa using hempty, fun m hm => ?_⟩
            rw [hm] at hwrite
            simpa using hwrite

/-- A repository after a careful update satisfies the rules. -/
theorem ruled_updated {req : UpdateRepoRequest} (hc : Ruled s c)
    (hage : req.cleanupMaxAgeDays ≠ some (some 0))
    (hunaccessed : req.cleanupMaxUnaccessedDays ≠ some (some 0))
    (hdepth : s.depthError { c with kind := req.kind c.kind } = none)
    (hproxy : ∀ members writeMember, c.kind = .proxy members writeMember →
      req.members ≠ some [] ∧
        ∀ m, req.writeMember.or writeMember = some m → m ∈ req.members.getD members) :
    Ruled s (req.updated c) where
  proxy members writeMember hkind := by
    change req.kind c.kind = _ at hkind
    cases hold : c.kind with
    | hosted =>
      rw [hold] at hkind
      cases hkind
    | cache url ttl auth =>
      rw [hold] at hkind
      cases hkind
    | proxy old oldWrite =>
      rw [hold] at hkind
      obtain ⟨rfl, rfl⟩ := RepoKind.proxy.inj hkind
      refine ⟨?_, (hproxy old oldWrite hold).2⟩
      cases hmembers : req.members with
      | none => exact (hc.proxy old oldWrite hold).1
      | some members =>
        rintro rfl
        exact (hproxy old oldWrite hold).1 hmembers
  age := by
    change req.cleanupMaxAgeDays.getD c.cleanupMaxAgeDays ≠ some 0
    cases hreq : req.cleanupMaxAgeDays with
    | none => exact hc.age
    | some v =>
      rintro rfl
      exact hage hreq
  unaccessed := by
    change req.cleanupMaxUnaccessedDays.getD c.cleanupMaxUnaccessedDays ≠ some 0
    cases hreq : req.cleanupMaxUnaccessedDays with
    | none => exact hc.unaccessed
    | some v =>
      rintro rfl
      exact hunaccessed hreq
  depth := by
    have hmembers : yumMembers (req.updated c) =
        yumMembers { c with kind := req.kind c.kind } := by
      have hformat : (req.formatConfig c.formatConfig).artifactFormat =
          c.formatConfig.artifactFormat := by
        cases c.formatConfig <;> rfl
      rw [yumMembers, yumMembers, UpdateRepoRequest.updated, hformat]
    rw [hmembers]
    exact depths_agree hdepth
  store := hc.store

/-- A careful change keeps what is stored valid. -/
theorem Change.keeps {change : Change} (hs : Valid s) (hcareful : change.Careful s)
    (h : change.apply s = some s') : Valid s' := by
  cases change with
  | putStore record =>
    obtain rfl := some.inj h
    intro name c hc
    obtain ⟨hname, hruled⟩ := hs name c hc
    refine ⟨hname, { hruled with depth := hruled.depth, store := ?_ }⟩
    rw [SortedMap.get_insert]
    split_ifs
    · rfl
    · exact hruled.store
  | deleteStore name blobs =>
    simp only [Change.apply] at h
    split_ifs at h with hchecks
    rw [not_or, not_or] at hchecks
    obtain rfl := some.inj h
    intro key c hc
    obtain ⟨hname, hruled⟩ := hs key c hc
    refine ⟨hname, { hruled with depth := hruled.depth, store := ?_ }⟩
    have hother : c.store ≠ name := fun hstore =>
      hchecks.2.1 (List.any_eq_true.mpr ⟨c, hcareful key c hc hstore, decide_eq_true hstore⟩)
    rw [SortedMap.get_erase, if_neg hother]
    exact hruled.store
  | createRepo req keyFits now =>
    simp only [Change.apply] at h
    split_ifs at h
    obtain ⟨c, hc, rfl⟩ := map_eq_some_iff.mp h
    exact hs.putRepo (ruled_checkedRecord hc) (hcareful c hc)
  | initRepo req now =>
    obtain ⟨c, hc, rfl⟩ := map_eq_some_iff.mp h
    exact hs.putRepo (ruled_checkedRecord hc) (hcareful c hc)
  | updateRepo name req =>
    simp only [Change.apply] at h
    split_ifs at h with hchecks
    rw [not_or, not_or] at hchecks
    obtain ⟨c, hc, hput⟩ := bind_eq_some_iff.mp h
    split_ifs at hput with hdepth
    obtain rfl := some.inj hput
    have hruled := (hs name c (filter_eq_some_iff.mp hc).1).2
    obtain ⟨hfits, hproxy⟩ := hcareful c hc
    exact hs.putRepo (ruled_updated hruled hchecks.2.1 hchecks.2.2
      (Option.not_isSome_iff_eq_none.mp hdepth) hproxy) hfits
  | cloneRepo name newName now =>
    simp only [Change.apply] at h
    split_ifs at h
    obtain ⟨c, hc, rfl⟩ := map_eq_some_iff.mp h
    have hruled := (hs name c (filter_eq_some_iff.mp hc).1).2
    exact hs.putRepo ⟨hruled.proxy, hruled.age, hruled.unaccessed, hruled.depth, hruled.store⟩
      (hcareful c hc)
  | deleteRepo name =>
    obtain ⟨c, hc, rfl⟩ := map_eq_some_iff.mp h
    have hruled := (hs name c hc).2
    exact hs.putRepo ⟨hruled.proxy, hruled.age, hruled.unaccessed, hruled.depth, hruled.store⟩
      (fun hdel => absurd hdel (by simp))
  | drained name =>
    obtain rfl := some.inj h
    have hold : ∀ key c, (s.repos.erase name).get key = some c → s.repos.get key = some c := by
      intro key c hc
      rw [SortedMap.get_erase] at hc
      split_ifs at hc
      exact hc
    intro key c hc
    obtain ⟨hname, hruled⟩ := hs key c (hold key c hc)
    have hdepth : ∀ m d, ({ s with repos := s.repos.erase name } : StoredConfigs).yumDepth m =
        some d → s.yumDepth m = some d := by
      intro m d hd
      obtain ⟨c', hc', hd⟩ := bind_eq_some_iff.mp hd
      obtain ⟨hget, hdel⟩ := filter_eq_some_iff.mp hc'
      exact bind_eq_some_iff.mpr ⟨c', filter_eq_some_iff.mpr ⟨hold m c' hget, hdel⟩, hd⟩
    exact ⟨hname, { hruled with
      depth := fun m hm m' hm' d d' hd hd' =>
        hruled.depth m hm m' hm' d d' (hdepth m d hd) (hdepth m' d' hd')
      store := hruled.store }⟩
  | restoreRepo c =>
    obtain rfl := some.inj h
    exact hs.putRepo hcareful.1 hcareful.2

/-- **Main theorem.** Careful changes leave every repository valid. -/
theorem stored_valid {changes : List Change} (hs : Valid s) (hcareful : CarefulRun s changes)
    (h : runChanges s changes = some s') : Valid s' := by
  induction changes generalizing s with
  | nil =>
    obtain rfl := some.inj h
    exact hs
  | cons change changes ih =>
    obtain ⟨s₁, hstep, hrest⟩ := bind_eq_some_iff.mp h
    exact ih (change.keeps hs hcareful.1 hstep) (hcareful.2 s₁ hstep) hrest

/-! ## A proxy that loses its members -/

/-- A repository of raw files in a store. -/
def rawRequest : CreateRepoRequest where
  name := "raw"
  repoType := .hosted
  format := .raw
  store := "disk"

/-- A store and a repository in it. -/
def firstChanges : List Change :=
  [.putStore { name := "disk", kind := .file "/data" true 1024 false },
    .createRepo rawRequest true 0]

theorem valid_empty : Valid {} := fun name c hc => by cases hc

/-- What is said of the members of a proxy. -/
def OfProxy (P : List String → Option String → Prop) : RepoKind → Prop
  | .proxy members writeMember => P members writeMember
  | _ => True

theorem ofProxy_iff {P : List String → Option String → Prop} {kind : RepoKind} :
    OfProxy P kind ↔
      ∀ members writeMember, kind = .proxy members writeMember → P members writeMember := by
  constructor
  · rintro h members writeMember rfl
    exact h
  · intro h
    cases kind with
    | proxy members writeMember => exact h members writeMember rfl
    | _ => trivial

instance decidableOfProxy {P : List String → Option String → Prop}
    [∀ members writeMember, Decidable (P members writeMember)] :
    (kind : RepoKind) → Decidable (OfProxy P kind)
  | .proxy members writeMember => inferInstanceAs (Decidable (P members writeMember))
  | .hosted | .cache .. => .isTrue trivial

/-- Only the depth that is there is looked at, not every `u32`. -/
instance decidableForallDepth {depth : Option UInt32} {P : UInt32 → Prop} [DecidablePred P] :
    Decidable (∀ d ∈ depth, P d) :=
  Option.decidableForallMem depth

instance decidableRuled : Decidable (Ruled s c) :=
  decidable_of_iff (OfProxy (fun members writeMember => members ≠ [] ∧ ∀ m ∈ writeMember,
        m ∈ members) c.kind ∧ c.cleanupMaxAgeDays ≠ some 0 ∧
      c.cleanupMaxUnaccessedDays ≠ some 0 ∧
      (∀ m ∈ yumMembers c, ∀ m' ∈ yumMembers c, ∀ d ∈ s.yumDepth m, ∀ d' ∈ s.yumDepth m',
        d = d') ∧ (s.stores.get c.store).isSome = true)
    ⟨fun ⟨hproxy, hage, hunaccessed, hdepth, hstore⟩ => ⟨ofProxy_iff.mp hproxy, hage, hunaccessed,
      fun m hm m' hm' d d' hd hd' => hdepth m hm m' hm' d hd d' hd', hstore⟩,
    fun h => ⟨ofProxy_iff.mpr h.proxy, h.age, h.unaccessed,
      fun m hm m' hm' d hd d' hd' => h.depth m hm m' hm' d d' hd hd', h.store⟩⟩

instance decidableFits : Decidable (Fits s c) :=
  if h : c.deleting = false ∧ c.formatConfig.artifactFormat = .yum then
    decidable_of_iff (∀ p ∈ c :: s.repos.entries.map Prod.snd,
        p = c ∨ (p.name ≠ c.name ∧ s.repos.get p.name = some p) → c.name ∈ yumMembers p →
          ∀ m ∈ yumMembers p, m ≠ c.name → ∀ d ∈ s.yumDepth m, d = c.formatConfig.repodataDepth)
      ⟨fun hall _ _ p hp => hall p (List.mem_cons.mpr (hp.imp id fun ⟨_, hget⟩ =>
        List.mem_map.mpr ⟨(p.name, p), SortedMap.mem_entries_iff.mpr hget, rfl⟩)) hp,
      fun hall p _ => hall h.1 h.2 p⟩
  else .isTrue fun hdel hyum => absurd ⟨hdel, hyum⟩ h

instance decidableCareful (s : StoredConfigs) : (change : Change) → Decidable (change.Careful s)
  | .deleteStore name _ =>
      decidable_of_iff (∀ e ∈ s.repos.entries, e.2.store = name → e.2 ∈ s.listRepos)
        ⟨fun h key c hc => h (key, c) (SortedMap.mem_entries_iff.mpr hc),
          fun h e he => h e.1 e.2 (SortedMap.mem_entries_iff.mp he)⟩
  | .createRepo req _ now | .initRepo req now =>
      inferInstanceAs (Decidable (∀ c ∈ s.checkedRecord req now, Fits s c))
  | .updateRepo name req =>
      decidable_of_iff (∀ c ∈ s.getRepo name, Fits s (req.updated c) ∧
          OfProxy (fun members writeMember => req.members ≠ some [] ∧
            ∀ m ∈ req.writeMember.or writeMember, m ∈ req.members.getD members) c.kind)
        (forall₂_congr fun _ _ => and_congr_right fun _ => ofProxy_iff)
  | .cloneRepo name newName now => inferInstanceAs (Decidable (∀ c ∈ s.getRepo name,
      Fits s { c with name := newName, createdAt := now }))
  | .restoreRepo c => inferInstanceAs (Decidable (Ruled s c ∧ Fits s c))
  | .putStore _ | .deleteRepo _ | .drained _ => .isTrue trivial

instance decidableCarefulRun : (s : StoredConfigs) → (changes : List Change) →
    Decidable (CarefulRun s changes)
  | _, [] => .isTrue trivial
  | s, change :: changes =>
      have (s' : StoredConfigs) := decidableCarefulRun s' changes
      inferInstanceAs (Decidable (change.Careful s ∧
        ∀ s' ∈ change.apply s, CarefulRun s' changes))

/-- A Yum repository with metadata at depth 1, and a clean-up limit. -/
def yumRequest (name : String) : CreateRepoRequest where
  name := name
  repoType := .hosted
  format := .yum
  store := "disk"
  cleanupMaxAgeDays := some 30
  repodataDepth := some 1

/-- A Yum proxy over two repositories of one depth: it gets other members and another write member,
    a member is cloned, updated, deleted and drained, a repository is restored, and the first store
    is deleted once nothing is in it. -/
def yumChanges : List Change :=
  [.putStore { name := "old", kind := .file "/old" true 1024 false },
    .putStore { name := "disk", kind := .file "/data" true 1024 false },
    .createRepo (yumRequest "base") true 0, .initRepo (yumRequest "extras") 0,
    .createRepo { yumRequest "all" with
      repoType := .proxy, members := some ["base"], writeMember := some "base"
      repodataDepth := none } true 0,
    .updateRepo "all" { members := some ["extras", "base"], writeMember := some "extras" },
    .cloneRepo "base" "updates" 1,
    .updateRepo "updates" { repodataDepth := some 2, cleanupMaxAgeDays := some none },
    .restoreRepo { name := "base", formatConfig := .yum (some 1), store := "disk" },
    .deleteRepo "updates", .drained "updates", .deleteStore "old" 0]

/-- All of this succeeds and leaves every repository valid. -/
theorem stored_valid_yum : ∃ s', runChanges {} yumChanges = some s' ∧ Valid s' := by
  have hrun : (runChanges {} yumChanges).isSome = true := by decide +kernel
  obtain ⟨s', hs'⟩ := Option.isSome_iff_exists.mp hrun
  exact ⟨s', hs', stored_valid valid_empty (by decide +kernel) hs'⟩

/-- An update takes the members of a proxy away. -/
theorem members_taken : ¬∀ (changes : List Change) (s' : StoredConfigs),
    runChanges {} changes = some s' → Valid s' := by
  intro hall
  have hrun : ((runChanges {} (firstChanges ++
      [.createRepo { rawRequest with name := "all", repoType := .proxy, members := some ["raw"] }
        true 0, .updateRepo "all" { members := some [] }])).any fun s' =>
        (s'.repos.get "all").any fun c => c.kind = .proxy [] none) = true := by decide +kernel
  obtain ⟨s', hs', hrepo⟩ := (any_eq_true _ _).mp hrun
  obtain ⟨c, hc, hkind⟩ := (any_eq_true _ _).mp hrepo
  exact ((hall _ s' hs' "all" c hc).2.proxy [] none (of_decide_eq_true hkind)).1 rfl

end Depot.Config
