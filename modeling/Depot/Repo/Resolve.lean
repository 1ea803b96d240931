import Depot.Core.Async

/-!
# Resolving a path through a proxy

A proxy asks its members in order (`core/src/repo/proxy.rs`, lines 47–161); a member may be a
proxy itself, up to a depth. A member that is missing is skipped, and so is one that fails. What
the members answer to one request is fixed; a member that is a cache may answer anything.

**Deviation.** The members are built with the blob store of the proxy
(`core/src/repo/mod.rs`, lines 131–174), not with their own. `head` reads records only, but `get`
opens the blob of a hosted member in the store of the proxy, fails if the member uses another
store, and goes on to the next member.

Results:
* `tryMembers_eq`, `searchMembers_eq`: the first answer in depth-first order.
* `proxy_finds_iff`: a search finds something exactly if a chain of memberships leads to a member
  that answers.
* `resolves_iff`: when `head` and `get` return the first member's record.
-/

namespace Depot

open List

/-! ## Members -/

/-- What the reads of one request return: configurations (`get_repo`), records
    (`get_artifact`), blobs (`open_read`, by store), and what the caches answer. -/
structure MemberReads where
  config : String → Except DepotError (Option RepoConfig)
  record : String → String → Except DepotError (Option ArtifactRecord)
  openRead : String → BlobId → Except DepotError Bool
  cacheHead : RepoConfig → String → Except DepotError (Option ArtifactRecord)
  cacheGet : RepoConfig → String → String → Except DepotError (Option ArtifactRecord)

namespace MemberReads

variable (x : MemberReads)

/-- `open_artifact_blob` (`repo/mod.rs`, lines 85–106). -/
def openArtifactBlob (store : String) (record : ArtifactRecord) :
    Except DepotError (Option ArtifactRecord) :=
  match x.openRead store (record.blobId.getD "") with
  | .ok true => .ok (some record)
  | .ok false => .error (.dataIntegrity ("blob missing for hash " ++ record.blobId.getD ""))
  | .error e => .error e

/-- `head` of a hosted repository (`repo/hosted.rs`) or of a cache. -/
def headMember (path : String) (c : RepoConfig) : Except DepotError (Option ArtifactRecord) :=
  match c.kind with
  | .cache _ => x.cacheHead c path
  | _ => x.record c.name path

/-- `get` of a hosted repository or of a cache, which are given the blob store `store`. -/
def getMember (store path : String) (c : RepoConfig) :
    Except DepotError (Option ArtifactRecord) :=
  match c.kind with
  | .cache _ => x.cacheGet c store path
  | _ =>
      match x.record c.name path with
      | .ok (some record) => x.openArtifactBlob store record
      | .ok none => .ok none
      | .error e => .error e

end MemberReads

/-! ## The search -/

section

variable (config : String → Except DepotError (Option RepoConfig)) {α β : Type}

/-- The loop over the members (lines 57–98 and 120–161). -/
def tryMembers (ask : RepoConfig → Except DepotError (Option β)) :
    List String → Except DepotError (Option β)
  | [] => .ok none
  | m :: rest =>
      match config m with
      | .error e => .error e
      | .ok none => tryMembers ask rest
      | .ok (some c) =>
          match ask c with
          | .ok (some b) => .ok (some b)
          | _ => tryMembers ask rest

/-- A member that `make_raw_repo_with_depth` builds (`repo/mod.rs`, lines 131–174), asked. Which
    member answers is kept beside the answer. -/
def askMember (nested : List String → Except DepotError (Option (RepoConfig × α)))
    (leaf : RepoConfig → Except DepotError (Option α)) (c : RepoConfig) :
    Except DepotError (Option (RepoConfig × α)) :=
  match c.kind with
  | .proxy members _ => nested members
  | _ => (leaf c).map fun a => a.map fun a => (c, a)

/-- `head_inner` and `get_inner` of a proxy: `left` is `MAX_PROXY_DEPTH + 1` less the depth. -/
def searchMembers (leaf : RepoConfig → Except DepotError (Option α)) :
    ℕ → List String → Except DepotError (Option (RepoConfig × α))
  | 0, _ => .ok none
  | left + 1, members => tryMembers config (askMember (searchMembers leaf left) leaf) members

end

/-- `MAX_PROXY_DEPTH` (line 18). -/
def maxProxyDepth : ℕ := 8

/-- `ProxyRepo::head` of a proxy with these members, at depth 0 (lines 47–98). -/
def proxyHead (x : MemberReads) (members : List String) (path : String) :
    Except DepotError (Option (RepoConfig × ArtifactRecord)) :=
  searchMembers x.config (x.headMember path) (maxProxyDepth + 1) members

/-- `ProxyRepo::get` of a proxy in the store `store` (lines 110–161). -/
def proxyGet (x : MemberReads) (store : String) (members : List String) (path : String) :
    Except DepotError (Option (RepoConfig × ArtifactRecord)) :=
  searchMembers x.config (x.getMember store path) (maxProxyDepth + 1) members

/-! ## Depth-first order -/

/-- The configuration that was read, if any. -/
def readConfig (config : String → Except DepotError (Option RepoConfig)) (m : String) :
    Option RepoConfig :=
  match config m with
  | .ok c => c
  | .error _ => none

/-- The configuration can be read, or there is none. -/
def readable (config : String → Except DepotError (Option RepoConfig)) (m : String) : Bool :=
  match config m with
  | .ok _ => true
  | .error _ => false

/-- The members within a depth that are no proxies, in depth-first order of the member lists.
    `cut` shortens a list of members. -/
def order (config : String → Except DepotError (Option RepoConfig))
    (cut : List String → List String) : ℕ → List String → List RepoConfig
  | 0, _ => []
  | left + 1, members => (cut members).flatMap fun m =>
      match readConfig config m with
      | none => []
      | some c =>
          match c.kind with
          | .proxy nested _ => order config cut left nested
          | _ => [c]

/-- The whole order: unreadable members are left out. -/
def wholeOrder (config : String → Except DepotError (Option RepoConfig)) :
    ℕ → List String → List RepoConfig := order config id

/-- The order in which every list ends before the first member that cannot be read. -/
def cutOrder (config : String → Except DepotError (Option RepoConfig)) :
    ℕ → List String → List RepoConfig := order config fun ms => ms.takeWhile (readable config)

/-- A member together with its answer, if it has one. -/
def answer {α : Type} (leaf : RepoConfig → Except DepotError (Option α)) (c : RepoConfig) :
    Option (RepoConfig × α) :=
  match leaf c with
  | .ok (some a) => some (c, a)
  | _ => none

/-- The first error that reading the configurations of a list of members gives. -/
def configError (config : String → Except DepotError (Option RepoConfig)) (m : String) :
    Option DepotError :=
  match config m with
  | .ok _ => none
  | .error e => some e

/-- What a loop with this first answer and this first error returns. -/
def answerOf {β : Type} (found : Option β) (error : Option DepotError) :
    Except DepotError (Option β) :=
  match found, error with
  | some b, _ => .ok (some b)
  | none, some e => .error e
  | none, none => .ok none

@[simp] theorem outcome_some {β : Type} (b : β) (error : Option DepotError) :
    answerOf (some b) error = .ok (some b) := rfl

theorem answerOf_eq_some {β : Type} (found : Option β) (error : Option DepotError) (b : β) :
    answerOf found error = .ok (some b) ↔ found = some b := by
  cases found <;> cases error <;> simp [answerOf]

theorem answerOf_eq_ok {β : Type} (found : Option β) (error : Option DepotError) (v : Option β) :
    answerOf found error = .ok v ↔ found = v ∧ (v = none → error = none) := by
  cases found <;> cases error <;> cases v <;> simp [answerOf]

section

variable {config : String → Except DepotError (Option RepoConfig)} {α β γ : Type}

/-- The loop returns the first answer before the first configuration that cannot be read. -/
theorem tryMembers_eq {ask : RepoConfig → Except DepotError (Option β)}
    {sub : RepoConfig → List γ} {f : γ → Option β}
    (hsub : ∀ c b, ask c = .ok (some b) ↔ (sub c).findSome? f = some b) (members : List String) :
    tryMembers config ask members = answerOf
      (((members.takeWhile (readable config)).flatMap fun m =>
        ((readConfig config m).map sub).getD []).findSome? f)
      (members.findSome? (configError config)) := by
  induction members with
  | nil => rfl
  | cons m rest ih =>
    unfold tryMembers
    cases hm : config m with
    | error e => simp [readable, configError, hm, answerOf]
    | ok c =>
      have hread : readable config m = true := by simp [readable, hm]
      have herr : configError config m = none := by simp [configError, hm]
      rw [takeWhile_cons_of_pos hread, flatMap_cons, findSome?_append, findSome?_cons, herr]
      cases c with
      | none =>
        have hnone : readConfig config m = none := by simp [readConfig, hm]
        rw [hnone]
        simpa using ih
      | some c =>
        have hsome : readConfig config m = some c := by simp [readConfig, hm]
        rw [hsome, Option.map_some, Option.getD_some]
        dsimp only
        cases hfound : (sub c).findSome? f with
        | some b => rw [(hsub c b).mpr hfound, Option.some_or, outcome_some]
        | none =>
          rw [Option.none_or, ← ih]
          split
          · rename_i b hb
            rw [(hsub c b).mp hb] at hfound
            cases hfound
          · rfl

/-- What a member contributes to an order. -/
def expand (config : String → Except DepotError (Option RepoConfig))
    (cut : List String → List String) (left : ℕ) (c : RepoConfig) : List RepoConfig :=
  match c.kind with
  | .proxy nested _ => order config cut left nested
  | _ => [c]

theorem order_succ (cut : List String → List String) (left : ℕ) (members : List String) :
    order config cut (left + 1) members = (cut members).flatMap fun m =>
      ((readConfig config m).map (expand config cut left)).getD [] := by
  show (cut members).flatMap _ = _
  congr 1
  funext m
  cases readConfig config m <;> rfl

theorem askMember_eq_some {leaf : RepoConfig → Except DepotError (Option α)} {left : ℕ}
    (ih : ∀ members b, searchMembers config leaf left members = .ok (some b) ↔
      (cutOrder config left members).findSome? (answer leaf) = some b) (c : RepoConfig)
    (b : RepoConfig × α) : askMember (searchMembers config leaf left) leaf c = .ok (some b) ↔
      (expand config (fun ms => ms.takeWhile (readable config)) left c).findSome? (answer leaf) =
        some b := by
  have hleaf : (leaf c).map (fun a => a.map fun a => (c, a)) = .ok (some b) ↔
      [c].findSome? (answer leaf) = some b := by
    rw [findSome?_singleton]
    unfold answer
    cases hc : leaf c with
    | error e => simp [Except.map]
    | ok a => cases a <;> simp [Except.map]
  unfold askMember expand
  cases hk : c.kind with
  | proxy nested writeMember => exact ih nested b
  | hosted => exact hleaf
  | cache ttl => exact hleaf

theorem searchMembers_eq_some (leaf : RepoConfig → Except DepotError (Option α)) (left : ℕ)
    (members : List String) (b : RepoConfig × α) :
    searchMembers config leaf left members = .ok (some b) ↔
      (cutOrder config left members).findSome? (answer leaf) = some b := by
  induction left generalizing members b with
  | zero => simp [searchMembers, cutOrder, order]
  | succ left ih =>
    have hsub := @askMember_eq_some config _ leaf left ih
    unfold searchMembers cutOrder
    rw [tryMembers_eq hsub, order_succ, answerOf_eq_some]

/-- A search returns the first answer in the order that ends where a configuration cannot be
    read. -/
theorem searchMembers_eq (leaf : RepoConfig → Except DepotError (Option α)) (left : ℕ)
    (members : List String) : searchMembers config leaf (left + 1) members = answerOf
      ((cutOrder config (left + 1) members).findSome? (answer leaf))
      (members.findSome? (configError config)) := by
  have hsub := @askMember_eq_some config _ leaf left fun ms b => searchMembers_eq_some leaf left ms b
  unfold searchMembers cutOrder
  rw [tryMembers_eq hsub, order_succ]

end

/-! ## Graph distance -/

/-- A chain of `k` memberships leads from a list of members to a repository that is no proxy; no
    member that stands before the chain in its list is unreadable. -/
def Leads (config : String → Except DepotError (Option RepoConfig)) :
    ℕ → List String → RepoConfig → Prop
  | 0, _, _ => False
  | k + 1, members, c => ∃ before m after d, members = before ++ m :: after ∧
      (∀ b ∈ before, readable config b) ∧ config m = .ok (some d) ∧
      match d.kind with
      | .proxy nested _ => Leads config k nested c
      | _ => k = 0 ∧ d = c

section

variable {config : String → Except DepotError (Option RepoConfig)}

theorem mem_takeWhile_iff {α : Type} {p : α → Bool} {l : List α} {m : α} :
    m ∈ l.takeWhile p ↔ ∃ before after, l = before ++ m :: after ∧ (∀ b ∈ before, p b) ∧ p m := by
  constructor
  · intro hm
    obtain ⟨before, after, hl⟩ := append_of_mem hm
    refine ⟨before, after ++ l.dropWhile p, ?_, fun b hb => ?_, mem_takeWhile_imp hm⟩
    · rw [← cons_append, ← append_assoc, ← hl, takeWhile_append_dropWhile]
    · exact mem_takeWhile_imp (hl ▸ mem_append_left _ hb)
  · rintro ⟨before, after, rfl, hbefore, hm⟩
    rw [takeWhile_append_of_pos hbefore, takeWhile_cons_of_pos hm]
    exact mem_append_right _ mem_cons_self

theorem readConfig_eq_some {m : String} {d : RepoConfig} :
    readConfig config m = some d ↔ config m = .ok (some d) := by
  unfold readConfig
  cases config m with
  | error e => simp
  | ok c => simp

theorem readable_of_ok {m : String} {d : RepoConfig} (h : config m = .ok (some d)) :
    readable config m = true := by
  rw [readable, h]

/-- The members that are asked are those that a chain of memberships leads to. -/
theorem mem_cutOrder_iff (left : ℕ) (members : List String) (c : RepoConfig) :
    c ∈ cutOrder config left members ↔ ∃ k ≤ left, Leads config k members c := by
  induction left generalizing members with
  | zero =>
    constructor
    · intro h
      cases h
    · rintro ⟨k, hk, h⟩
      obtain rfl : k = 0 := by omega
      cases h
  | succ left ih =>
    unfold cutOrder at ih ⊢
    rw [order_succ, mem_flatMap]
    constructor
    · rintro ⟨m, hm, hc⟩
      obtain ⟨before, after, hmembers, hbefore, -⟩ := mem_takeWhile_iff.mp hm
      cases hd : readConfig config m with
      | none =>
        rw [hd] at hc
        cases hc
      | some d =>
        have hconfig := readConfig_eq_some.mp hd
        rw [hd, Option.map_some, Option.getD_some] at hc
        unfold expand at hc
        cases hk : d.kind with
        | proxy nested writeMember =>
          rw [hk] at hc
          obtain ⟨k, hle, hlead⟩ := (ih nested).mp hc
          exact ⟨k + 1, by omega, before, m, after, d, hmembers, hbefore, hconfig,
            by rw [hk]; exact hlead⟩
        | hosted | cache =>
          rw [hk] at hc
          obtain rfl := mem_singleton.mp hc
          exact ⟨1, by omega, before, m, after, c, hmembers, hbefore, hconfig,
            by rw [hk]; exact ⟨rfl, rfl⟩⟩
    · rintro ⟨k, hk, hlead⟩
      cases k with
      | zero => cases hlead
      | succ k =>
        obtain ⟨before, m, after, d, hmembers, hbefore, hd, hlead⟩ := hlead
        refine ⟨m, mem_takeWhile_iff.mpr ⟨before, after, hmembers, hbefore, readable_of_ok hd⟩, ?_⟩
        rw [readConfig_eq_some.mpr hd, Option.map_some, Option.getD_some]
        unfold expand
        cases hkind : d.kind with
        | proxy nested writeMember =>
          rw [hkind] at hlead
          exact (ih nested).mpr ⟨k, by omega, hlead⟩
        | hosted | cache =>
          rw [hkind] at hlead
          exact mem_singleton.mpr hlead.2.symm

theorem answer_fst {α : Type} {leaf : RepoConfig → Except DepotError (Option α)}
    {c : RepoConfig} {p : RepoConfig × α} (h : answer leaf c = some p) : p.1 = c := by
  unfold answer at h
  split at h
  · exact (congrArg Prod.fst (Option.some.inj h)).symm
  · cases h

theorem answer_eq_some {α : Type} {leaf : RepoConfig → Except DepotError (Option α)}
    {c : RepoConfig} {p : RepoConfig × α} (hp : p.1 = c) :
    answer leaf c = some p ↔ leaf c = .ok (some p.2) := by
  obtain ⟨d, a⟩ := p
  obtain rfl : d = c := hp
  unfold answer
  cases leaf d with
  | error e => simp
  | ok o => cases o <;> simp

/-- A search finds something if a member answers to which a chain leads. -/
theorem searchMembers_finds_iff {α : Type} (leaf : RepoConfig → Except DepotError (Option α))
    (left : ℕ) (members : List String) :
    (∃ b, searchMembers config leaf left members = .ok (some b)) ↔
      ∃ c a, leaf c = .ok (some a) ∧ ∃ k ≤ left, Leads config k members c := by
  have hfound : (∃ b, searchMembers config leaf left members = .ok (some b)) ↔
      ∃ c ∈ cutOrder config left members, ∃ b, answer leaf c = some b := by
    simp only [searchMembers_eq_some, ← Option.isSome_iff_exists, findSome?_isSome_iff]
  rw [hfound]
  constructor
  · rintro ⟨c, hc, b, hb⟩
    exact ⟨c, b.2, (answer_eq_some (answer_fst hb)).mp hb, (mem_cutOrder_iff left members c).mp hc⟩
  · rintro ⟨c, a, ha, hlead⟩
    have hb : answer leaf c = some (c, a) := (answer_eq_some (p := (c, a)) rfl).mpr ha
    exact ⟨c, (mem_cutOrder_iff left members c).mpr hlead, (c, a), hb⟩

end

/-- A head and a get through a proxy find something exactly if a chain of at most
    `MAX_PROXY_DEPTH + 1` memberships leads to a member that answers. -/
theorem proxy_finds_iff (x : MemberReads) (store : String) (members : List String)
    (path : String) :
    ((∃ b, proxyHead x members path = .ok (some b)) ↔
      ∃ c r, x.headMember path c = .ok (some r) ∧
        ∃ k ≤ maxProxyDepth + 1, Leads x.config k members c) ∧
    ((∃ b, proxyGet x store members path = .ok (some b)) ↔
      ∃ c r, x.getMember store path c = .ok (some r) ∧
        ∃ k ≤ maxProxyDepth + 1, Leads x.config k members c) :=
  ⟨searchMembers_finds_iff _ _ _, searchMembers_finds_iff _ _ _⟩

/-! ## Heads and gets -/

/-- The first member in depth-first order that has the path: that answers `head`. -/
def firstHolder (x : MemberReads) (members : List String) (path : String) : Option RepoConfig :=
  (wholeOrder x.config (maxProxyDepth + 1) members).find? fun c =>
    (answer (x.headMember path) c).isSome

/-- The record is one that the member has at the path: a cache has what it answers to either
    request. -/
def MemberReads.Has (x : MemberReads) (path : String) (c : RepoConfig) (r : ArtifactRecord) :
    Prop :=
  match c.kind with
  | .cache _ => x.cacheHead c path = .ok (some r) ∨ ∃ store, x.cacheGet c store path = .ok (some r)
  | _ => x.record c.name path = .ok (some r)

/-- The answer is of this member, and with a record of it; or there is none. -/
def MemberReads.Chosen (x : MemberReads) (path : String) (holder : Option RepoConfig)
    (found : Except DepotError (Option (RepoConfig × ArtifactRecord))) : Prop :=
  ∃ a, found = .ok a ∧ a.map Prod.fst = holder ∧ ∀ c r, a = some (c, r) → x.Has path c r

/-- `head` and `get` return a record of the first member that has the path, if any. -/
def Resolves (x : MemberReads) (store : String) (members : List String) (path : String) : Prop :=
  x.Chosen path (firstHolder x members path) (proxyHead x members path) ∧
    x.Chosen path (firstHolder x members path) (proxyGet x store members path)

/-- Nothing comes between a request and the first member that has the path. -/
structure Unobstructed (x : MemberReads) (store : String) (members : List String)
    (path : String) : Prop where
  /-- Members that cannot be read do not hide it. -/
  seen : ((cutOrder x.config (maxProxyDepth + 1) members).find? fun c =>
    (answer (x.headMember path) c).isSome) = firstHolder x members path
  /-- If nobody has the path, the members of the proxy itself can be read. -/
  nobody : firstHolder x members path = none → ∀ m ∈ members, readable x.config m
  /-- It delivers content, from the store of the proxy. -/
  delivers : ∀ c, firstHolder x members path = some c →
    ∃ r, x.getMember store path c = .ok (some r)
  /-- No cache that is asked before it delivers content while it does not answer `head`. -/
  before : ∀ d ∈ (cutOrder x.config (maxProxyDepth + 1) members).takeWhile fun d =>
    (answer (x.headMember path) d).isNone, answer (x.getMember store path) d = none

theorem searchMembers_eq_ok {config : String → Except DepotError (Option RepoConfig)} {α : Type}
    (leaf : RepoConfig → Except DepotError (Option α)) (left : ℕ) (members : List String)
    (v : Option (RepoConfig × α)) : searchMembers config leaf (left + 1) members = .ok v ↔
      (cutOrder config (left + 1) members).findSome? (answer leaf) = v ∧
        (v = none → ∀ m ∈ members, readable config m) := by
  have hread : members.findSome? (configError config) = none ↔
      ∀ m ∈ members, readable config m := by
    rw [findSome?_eq_none_iff]
    refine forall₂_congr fun m _ => ?_
    unfold configError readable
    cases config m <;> simp
  rw [searchMembers_eq, answerOf_eq_ok, hread]

/-- The member that a search chooses is the first one that answers. -/
theorem map_fst_findSome? {α : Type} {f : RepoConfig → Option (RepoConfig × α)}
    (hf : ∀ c p, f c = some p → p.1 = c) (l : List RepoConfig) :
    (l.findSome? f).map Prod.fst = l.find? fun c => (f c).isSome := by
  induction l with
  | nil => rfl
  | cons c l ih =>
    rw [findSome?_cons, find?_cons]
    cases hc : f c with
    | none => simpa using ih
    | some p => exact congrArg some (hf c p hc)

/-- Two searches of one list choose the same entry if the second finds something in what the first
    chooses and nothing before it. -/
theorem find?_same_iff {α : Type} {p q : α → Bool} (l : List α) :
    l.find? q = l.find? p ↔ (∀ a, l.find? p = some a → q a = true) ∧
      ∀ d ∈ l.takeWhile fun d => !p d, q d = false := by
  induction l with
  | nil => simp
  | cons a l ih =>
    rw [find?_cons, find?_cons]
    cases hp : p a with
    | false =>
      rw [takeWhile_cons_of_pos (by simp [hp])]
      cases hq : q a with
      | false => simpa [hq] using ih
      | true =>
        constructor
        · intro h
          have hpa : p a = true := find?_some h.symm
          rw [hp] at hpa
          cases hpa
        · rintro ⟨-, h⟩
          rw [h a mem_cons_self] at hq
          cases hq
    | true =>
      rw [takeWhile_cons_of_neg (by simp [hp])]
      cases hq : q a with
      | true => simp [hq]
      | false =>
        constructor
        · intro h
          have hqa : q a = true := find?_some h
          rw [hq] at hqa
          cases hqa
        · rintro ⟨h, -⟩
          rw [h a rfl] at hq
          cases hq

section

variable {x : MemberReads} {path : String} {members : List String} {holder : Option RepoConfig}
variable {leaf : RepoConfig → Except DepotError (Option ArtifactRecord)}

/-- When a search with answers of the members' own records chooses the member. -/
theorem chosen_searchMembers_iff (hleaf : ∀ c r, leaf c = .ok (some r) → x.Has path c r)
    (left : ℕ) : x.Chosen path holder (searchMembers x.config leaf (left + 1) members) ↔
      ((cutOrder x.config (left + 1) members).find? fun c => (answer leaf c).isSome) = holder ∧
        (holder = none → ∀ m ∈ members, readable x.config m) := by
  have hfirst := map_fst_findSome? (fun _ _ => answer_fst) (cutOrder x.config (left + 1) members)
    (f := answer leaf)
  constructor
  · rintro ⟨a, ha, rfl, -⟩
    obtain ⟨hfound, hnone⟩ := (searchMembers_eq_ok leaf left members a).mp ha
    exact ⟨by rw [← hfirst, hfound], fun h => hnone (Option.map_eq_none_iff.mp h)⟩
  · rintro ⟨hfound, hnone⟩
    rw [← hfirst] at hfound
    subst hfound
    refine ⟨_, (searchMembers_eq_ok leaf left members _).mpr
      ⟨rfl, fun h => hnone (Option.map_eq_none_iff.mpr h)⟩, rfl, fun c r h => ?_⟩
    obtain ⟨d, -, hd⟩ := exists_of_findSome?_eq_some h
    obtain rfl := answer_fst hd
    exact hleaf c r ((answer_eq_some rfl).mp hd)

/-- `head` answers with records that the member has. -/
theorem headMember_has {c : RepoConfig} {r : ArtifactRecord}
    (h : x.headMember path c = .ok (some r)) : x.Has path c r := by
  unfold MemberReads.headMember at h
  unfold MemberReads.Has
  cases hk : c.kind with
  | cache ttl =>
    rw [hk] at h
    exact .inl h
  | hosted =>
    rw [hk] at h
    exact h
  | proxy nested writeMember =>
    rw [hk] at h
    exact h

theorem openArtifactBlob_ok {store : String} {record r : ArtifactRecord}
    (h : x.openArtifactBlob store record = .ok (some r)) : record = r := by
  unfold MemberReads.openArtifactBlob at h
  split at h
  · exact Option.some.inj (Except.ok.inj h)
  · cases h
  · cases h

/-- So does `get`. -/
theorem getMember_has {store : String} {c : RepoConfig} {r : ArtifactRecord}
    (h : x.getMember store path c = .ok (some r)) : x.Has path c r := by
  have hosted : (match x.record c.name path with
      | .ok (some record) => x.openArtifactBlob store record
      | .ok none => .ok none
      | .error e => .error e) = .ok (some r) → x.record c.name path = .ok (some r) := by
    intro hget
    split at hget
    · rename_i record hrecord
      rw [hrecord, openArtifactBlob_ok hget]
    · cases hget
    · cases hget
  unfold MemberReads.getMember at h
  unfold MemberReads.Has
  cases hk : c.kind with
  | cache ttl =>
    rw [hk] at h
    exact .inr ⟨store, h⟩
  | hosted =>
    rw [hk] at h
    exact hosted h
  | proxy nested writeMember =>
    rw [hk] at h
    exact hosted h

end

/-- **Main theorem.** A head and a get through a proxy both return a record of the first member
    that has the path exactly if nothing comes between: no unreadable configuration, no blob in
    another store, no cache that answers only one of the two. -/
theorem resolves_iff (x : MemberReads) (store : String) (members : List String) (path : String) :
    Resolves x store members path ↔ Unobstructed x store members path := by
  have hsame := @find?_same_iff RepoConfig (fun c => (answer (x.headMember path) c).isSome)
    (fun c => (answer (x.getMember store path) c).isSome)
    (cutOrder x.config (maxProxyDepth + 1) members)
  have hdelivers : ∀ c, (answer (x.getMember store path) c).isSome = true ↔
      ∃ r, x.getMember store path c = .ok (some r) := fun c => by
    unfold answer
    rcases x.getMember store path c with e | _ | r <;> simp
  have hbefore : ∀ d, (answer (x.getMember store path) d).isSome = false ↔
      answer (x.getMember store path) d = none := fun d => by simp
  simp only [hdelivers, hbefore, Option.not_isSome] at hsame
  unfold Resolves proxyHead proxyGet
  rw [chosen_searchMembers_iff fun _ _ => headMember_has,
    chosen_searchMembers_iff fun _ _ => getMember_has]
  constructor
  · rintro ⟨⟨hseen, hnobody⟩, hget, -⟩
    rw [hget, hseen] at hsame
    obtain ⟨hholder, hearlier⟩ := hsame.mp rfl
    exact ⟨hseen, hnobody, hholder, hearlier⟩
  · intro h
    rw [h.seen] at hsame
    exact ⟨⟨h.seen, h.nobody⟩, hsame.mpr ⟨h.delivers, h.before⟩, h.nobody⟩

/-- A proxy in the store `a` over a hosted member in the store `b`: every repository has the
    path, and the blob is in `b` only. -/
def otherStore : MemberReads where
  config m := .ok (if m = "h" then some { name := "h", store := "b" } else none)
  record _ _ := .ok (some
    { size := 1, createdAt := 0, updatedAt := 0, lastAccessedAt := 0, blobId := some "blob"
      contentHash := none })
  openRead store _ := .ok (store = "b")
  cacheHead _ _ := .ok none
  cacheGet _ _ _ := .ok none

/-- **Counterexample.** The head of the member's path returns its record, the get nothing. -/
theorem otherStore_unresolved : ¬ Resolves otherStore "a" ["h"] "file" := by
  rintro ⟨-, a, ha, hholder, -⟩
  have hfirst : (firstHolder otherStore ["h"] "file").isSome = true := by decide
  have hget : (proxyGet otherStore "a" ["h"] "file").toOption = some none := by decide
  rw [ha] at hget
  rw [← hholder, Option.some.inj hget] at hfirst
  cases hfirst

end Depot
