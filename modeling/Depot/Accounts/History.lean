import Depot.Accounts.Steps

/-!
# Copies of the store

Instances and tasks work with copies of users and signing secrets. Whatever happens, a copy is
what the store held at some earlier time.

Results:
* `AccountStore.Later`: what the store has become at a later time.
* `Copies`: all copies are from the store, at times when it had a property.
* `copies_op`: every step keeps this, if the store has the property before and after it.
-/

namespace Depot.Accounts

open Lib
open Function (update update_of_ne update_self)

/-! ## The store at two times -/

/-- `s'` is the store at a later time than `s`: if nothing was written to a user in between, the
    record is still the same, and so is the signing secret if none was written. -/
structure AccountStore.Later (s s' : AccountStore) : Prop where
  secrets : ∀ n, (s.secrets n).Later (s'.secrets n)
  hashes : ∀ n, (s.hashes n).Later (s'.hashes n)
  signing : s.signing.Later s'.signing
  users : ∀ n, s.secrets n = s'.secrets n → s'.users.find n = s.users.find n
  jwt : s.signing.values = s'.signing.values → s'.jwt = s.jwt

namespace AccountStore

theorem Later.refl (s : AccountStore) : s.Later s :=
  ⟨fun _ => .refl _, fun _ => .refl _, .refl _, fun _ _ => rfl, fun _ => rfl⟩

theorem Later.trans {s s' s'' : AccountStore} (h : s.Later s') (h' : s'.Later s'') :
    s.Later s'' where
  secrets n := (h.secrets n).trans (h'.secrets n)
  hashes n := (h.hashes n).trans (h'.hashes n)
  signing := h.signing.trans h'.signing
  users n heq := by
    have hmid := (h.secrets n).between (h'.secrets n) heq
    rw [h'.users n (hmid.symm.trans heq), h.users n hmid]
  jwt heq := by
    have hmid : s.signing.values = s'.signing.values :=
      h.signing.values.eq_of_length_le (heq ▸ h'.signing.values.length_le)
    rw [h'.jwt (hmid.symm.trans heq), h.jwt hmid]

/-- A history that changes at one name. -/
theorem later_update {α : Type} {f : String → Revocable α} {n : String} {r : Revocable α}
    (h : (f n).Later r) (n' : String) : (f n').Later (update f n r n') := by
  by_cases hn : n' = n
  · subst hn
    rwa [update_self]
  · rw [update_of_ne hn]
    exact .refl _

theorem later_put (s : AccountStore) (r : UserRecord) : s.Later (s.put r) where
  secrets := later_update (.add _ _)
  hashes := later_update (.add _ _)
  signing := .refl _
  users n heq := by
    show (s.users.put r).find n = _
    rw [UserTable.find_put]
    split_ifs with hn
    · subst hn
      have hadd : s.secrets r.username = (s.secrets r.username).add r.tokenSecret := by
        simpa [put] using heq
      exact absurd hadd (Revocable.ne_add _ _)
    · rfl
  jwt _ := rfl

theorem later_revokeTokens (s : AccountStore) (n : String) : s.Later (s.revokeTokens n) :=
  ⟨later_update (.revoke _), fun _ => .refl _, .refl _, fun _ _ => rfl, fun _ => rfl⟩

theorem later_revokePassword (s : AccountStore) (n : String) : s.Later (s.revokePassword n) :=
  ⟨fun _ => .refl _, later_update (.revoke _), .refl _, fun _ _ => rfl, fun _ => rfl⟩

theorem later_change (s : AccountStore) (c : Change) (r : UserRecord) : s.Later (s.change c r) := by
  cases c with
  | plain => exact s.later_put r
  | tokens => exact (s.later_revokeTokens _).trans (later_put _ r)
  | password =>
    exact (s.later_revokeTokens _).trans ((later_revokePassword _ _).trans (later_put _ r))

theorem later_remove (s : AccountStore) (n : String) : s.Later (s.remove n) where
  secrets := later_update (.revoke _)
  hashes := later_update (.revoke _)
  signing := .refl _
  users n' heq := by
    show (s.users.delete n).find n' = _
    rw [UserTable.find_delete]
    split_ifs with hn
    · subst hn
      have hrevoke : s.secrets n' = (s.secrets n').revoke := by
        simpa [remove, revokeTokens, revokePassword] using heq
      exact absurd hrevoke (Revocable.ne_revoke _)
    · rfl
  jwt _ := rfl

theorem later_changeJwt (s : AccountStore) (revoking : Bool) (st : JwtSecretState) :
    s.Later (s.changeJwt revoking st) where
  secrets _ := .refl _
  hashes _ := .refl _
  signing := by
    cases revoking with
    | false => exact .add _ _
    | true => exact (Revocable.Later.revoke _).trans (.add _ _)
  users _ _ := rfl
  jwt heq := by
    have hlen := congrArg List.length heq
    cases revoking <;> simp [changeJwt] at hlen

/-- A store with a property, at an earlier time. -/
structure Source (K : AccountStore → Prop) (s st : AccountStore) : Prop where
  holds : K st
  later : st.Later s

variable {K K' : AccountStore → Prop}

theorem Source.mono {s s' st : AccountStore} (h : s.Source K st) (hs : s.Later s') :
    s'.Source K st :=
  ⟨h.holds, h.later.trans hs⟩

end AccountStore

/-! ## Copies -/

open AccountStore

variable (ext : AccountExt) (K : AccountStore → Prop)

/-- A user, if there is one, from the one store, cached at the time of the other. -/
structure FromStore (s : AccountStore) (n : String) (u : Option UserRecord)
    (source inserted : AccountStore) : Prop where
  origin : s.Source K source
  find : source.users.find n = u
  later : inserted.Later s

/-- A signing secret from a store. -/
structure JwtFrom (s : AccountStore) (jwt : JwtSecretState) (source : AccountStore) : Prop where
  origin : s.Source K source
  jwt : source.jwt = some jwt

/-- What a task has read is from the store. -/
structure Told (s : AccountStore) (x : Seen) : Prop where
  store : ∀ st, x.store = some st → s.Source K st
  user : FromStore K s x.userName x.user x.userSource x.userInserted
  jwt : JwtFrom K s x.jwt x.jwtSource

/-- What an instance has in memory is from the store. -/
structure Held (s : AccountStore) (inst : Instance) : Prop where
  cache : ∀ n u, inst.cache n = some u → FromStore K s n u (inst.source n) (inst.inserted n)
  jwt : JwtFrom K s inst.jwt inst.jwtSource

/-- A token was signed with secrets from the store at the time of its issue, or earlier. -/
structure Signed (s : AccountStore) (e : Issue) : Prop where
  later : e.store.Later s
  user : e.store.Source K e.userSource
  jwt : e.store.Source K e.jwtSource
  key : ∃ user jwt, e.userSource.users.find e.token.sub = some user ∧
    e.jwtSource.jwt = some jwt ∧ jwt.current.length = 32 ∧
    e.token.key = ext.keyedHash jwt.current user.tokenSecret

/-- Every copy is from the store at a time when it had the property. -/
structure Copies (s : AccountState) : Prop where
  told : ∀ i, Told K s.store (s.seen i)
  held : ∀ k, Held K s.store (s.instances k)
  signed : ∀ e ∈ s.issued, Signed ext K s.store e

section

variable {K} {s s' : AccountStore}

theorem FromStore.mono {n : String} {u : Option UserRecord} {src ins : AccountStore}
    (h : FromStore K s n u src ins) (hs : s.Later s') : FromStore K s' n u src ins :=
  ⟨h.origin.mono hs, h.find, h.later.trans hs⟩

theorem JwtFrom.mono {jwt : JwtSecretState} {src : AccountStore} (h : JwtFrom K s jwt src)
    (hs : s.Later s') : JwtFrom K s' jwt src :=
  ⟨h.origin.mono hs, h.jwt⟩

theorem Told.mono {x : Seen} (h : Told K s x) (hs : s.Later s') : Told K s' x where
  store st hst := (h.store st hst).mono hs
  user := h.user.mono hs
  jwt := h.jwt.mono hs

theorem Held.mono {inst : Instance} (h : Held K s inst) (hs : s.Later s') : Held K s' inst :=
  ⟨fun n u hu => (h.cache n u hu).mono hs, h.jwt.mono hs⟩

end

variable {ext K} {s : AccountState}

/-- A task learns something. -/
theorem Copies.sees (h : Copies ext K s) {i : ℕ} {f : Seen → Seen}
    (hf : Told K s.store (f (s.seen i))) : Copies ext K (s.sees i f) where
  told i' := by
    show Told K s.store (update s.seen i _ i')
    by_cases hi : i' = i
    · subst hi
      rwa [update_self]
    · rw [update_of_ne hi]
      exact h.told i'
  held := h.held
  signed := h.signed

theorem Copies.onInstance (h : Copies ext K s) {k : ℕ} {f : Instance → Instance}
    (hf : Held K s.store (f (s.instances k))) : Copies ext K (s.onInstance k f) where
  told := h.told
  held k' := by
    show Held K s.store (update s.instances k _ k')
    by_cases hk : k' = k
    · subst hk
      rwa [update_self]
    · rw [update_of_ne hk]
      exact h.held k'
  signed := h.signed

/-- The store changes. -/
theorem Copies.stored (h : Copies ext K s) {st : AccountStore} (hs : s.store.Later st) :
    Copies ext K { s with store := st } where
  told i := (h.told i).mono hs
  held k := (h.held k).mono hs
  signed e he := ⟨(h.signed e he).later.trans hs, (h.signed e he).user, (h.signed e he).jwt,
    (h.signed e he).key⟩

/-- An entry drops out of a cache. -/
theorem Copies.evict (h : Copies ext K s) (k : ℕ) (n : String) :
    Copies ext K (s.onInstance k fun x => { x with cache := update x.cache n none }) := by
  refine h.onInstance ⟨fun n' u hu => ?_, (h.held k).jwt⟩
  by_cases hn : n' = n
  · simp [hn] at hu
  · exact (h.held k).cache n' u (by simpa [hn] using hu)

/-- What a token is signed with. -/
theorem issues_signed {i : ℕ} {req : AccountRequest} {t : Token} (h : Copies ext K s)
    (hA : req.Issues ext (s.seen i) t) (k : ℕ) : Signed ext K s.store
      ⟨t, k, (s.seen i).userSource, (s.seen i).jwtSource, s.store⟩ := by
  have huser : ∃ user, (s.seen i).user = some user ∧ createUserToken ext user.username
      (s.seen i).jwt.current user.tokenSecret (s.seen i).settings.jwtExpirySecs user.roles
      (s.seen i).clock = some t := by
    cases req with
    | login n password => exact hA
    | changePassword caller req draw => exact hA
    | _ => exact hA.elim
  obtain ⟨user, hx, ht⟩ := huser
  have hfrom := (h.told i).user
  simp only [createUserToken] at ht
  split_ifs at ht with hlen
  obtain rfl := Option.some.inj ht
  refine ⟨.refl _, hfrom.origin, (h.told i).jwt.origin, user, _, ?_, (h.told i).jwt.jwt, hlen, rfl⟩
  have hn := (s.seen i).userSource.users.keyed _ user (hfrom.find.trans hx)
  show (s.seen i).userSource.users.find user.username = some user
  rw [hn, hfrom.find, hx]

variable {s' : AccountState}

variable {o : AccountOp}

variable {r : o.Reply}

/-- Every step keeps the copies, if the store has the property before and after it. -/
theorem copies_op {i : ℕ} {j : AccountJob} {b : Bool}
    (h : Copies ext K s) (hA : Allowed ext j (s.seen i) o) (hK : K s.store)
    (hK' : K s'.store) (hx : s.exec j.server i o b = some (s', r)) : Copies ext K s' := by
  have htold := h.told i
  have hself : s.store.Source K s.store := ⟨hK, .refl _⟩
  cases o with
  | getUser n =>
    cases b <;> obtain ⟨rfl, _⟩ := some_mk_inj hx
    · exact h.sees ⟨nofun, htold.user, htold.jwt⟩
    · refine h.sees ⟨fun st hst => ?_, ⟨hself, rfl, .refl _⟩, htold.jwt⟩
      rwa [← Option.some.inj hst]
  | listUsers =>
    cases b <;> obtain ⟨rfl, _⟩ := some_mk_inj hx
    · exact h.sees ⟨nofun, htold.user, htold.jwt⟩
    · refine h.sees ⟨fun st hst => ?_, htold.user, htold.jwt⟩
      rwa [← Option.some.inj hst]
  | putUser c record =>
    cases b <;> obtain ⟨rfl, _⟩ := some_mk_inj hx
    · exact h
    · have hput := h.stored (s.store.later_change c record)
      refine hput.sees ⟨(hput.told i).store, ⟨⟨hK', .refl _⟩, ?_, .refl _⟩, (hput.told i).jwt⟩
      show (s.store.change c record).users.find record.username = some record
      rw [users_change, UserTable.find_put, if_pos rfl]
  | deleteUser n =>
    cases b <;> obtain ⟨rfl, _⟩ := some_mk_inj hx
    · exact h
    · exact h.stored (s.store.later_remove n)
  | cacheGet n =>
    obtain ⟨rfl, _⟩ := some_mk_inj hx
    refine h.sees ⟨fun st hst => htold.store st (by rwa [Instance.store_hit] at hst), ?_, ?_⟩
    all_goals unfold Instance.hit; split
    · next user huser => exact (h.held j.server).cache n user huser
    · exact htold.user
    · exact htold.jwt
    · exact htold.jwt
  | cachePut n v =>
    obtain ⟨rfl, _⟩ := some_mk_inj hx
    obtain ⟨rfl, rfl⟩ := hA
    refine h.onInstance ⟨fun n u hu => ?_, (h.held j.server).jwt⟩
    by_cases hn : n = (s.seen i).userName
    · subst hn
      simp only [update_self] at hu ⊢
      obtain rfl := Option.some.inj hu
      exact ⟨htold.user.origin, htold.user.find, .refl _⟩
    · simp only [update_of_ne hn] at hu ⊢
      exact (h.held j.server).cache n u hu
  | invalidateUser n =>
    obtain ⟨rfl, _⟩ := some_mk_inj hx
    exact h.evict j.server n
  | invalidateAll =>
    obtain ⟨rfl, _⟩ := some_mk_inj hx
    exact h.onInstance ⟨nofun, (h.held j.server).jwt⟩
  | getJwt =>
    cases b <;> obtain ⟨rfl, _⟩ := some_mk_inj hx
    · exact h
    · refine h.sees ⟨htold.store, htold.user, ?_⟩
      cases hj : s.store.jwt with
      | none => exact htold.jwt
      | some jwt => exact ⟨hself, hj⟩
  | putJwt revoking st =>
    cases b <;> obtain ⟨rfl, _⟩ := some_mk_inj hx
    · exact h
    · have hput := h.stored (s.store.later_changeJwt revoking st)
      exact hput.sees ⟨(hput.told i).store, (hput.told i).user, ⟨hK', .refl _⟩, rfl⟩
  | loadJwt =>
    obtain ⟨rfl, _⟩ := some_mk_inj hx
    exact h.sees ⟨htold.store, htold.user, (h.held j.server).jwt⟩
  | storeJwt st =>
    obtain ⟨rfl, _⟩ := some_mk_inj hx
    obtain rfl : st = (s.seen i).jwt := hA
    exact h.onInstance ⟨(h.held j.server).cache, htold.jwt⟩
  | loadSettings =>
    obtain ⟨rfl, _⟩ := some_mk_inj hx
    exact h.sees ⟨htold.store, htold.user, htold.jwt⟩
  | clock =>
    obtain ⟨rfl, _⟩ := some_mk_inj hx
    exact h.sees ⟨htold.store, htold.user, htold.jwt⟩
  | issue t =>
    obtain ⟨rfl, _⟩ := some_mk_inj hx
    refine ⟨h.told, h.held, fun e he => ?_⟩
    rcases List.mem_cons.mp he with rfl | he
    · exact issues_signed h hA.2 j.server
    · exact h.signed e he
  | decide t a =>
    obtain ⟨rfl, _⟩ := some_mk_inj hx
    exact ⟨h.told, h.held, h.signed⟩

/-- An operation leaves alone the other instances. -/
theorem exec_instances {k k' i : ℕ} {b : Bool}
    (hk : k' ≠ k) (h : s.exec k i o b = some (s', r)) : s'.instances k' = s.instances k' := by
  have hinst : ∀ f, (s.onInstance k f).instances k' = s.instances k' :=
    fun f => update_of_ne hk _ _
  cases o <;> cases b <;> obtain ⟨rfl, _⟩ := some_mk_inj h <;>
    first | rfl | exact hinst _

/-- Only `decide` reaches a verdict. -/
theorem exec_decided {k i : ℕ} {b : Bool}
    (h : s.exec k i o b = some (s', r)) : s'.decided = s.decided ∨
      ∃ t a, o = .decide t a ∧ s'.decided =
        { server := k, token := t, accepted := a, userSource := (s.seen i).userSource
          inserted := (s.seen i).userInserted, jwtSource := (s.seen i).jwtSource
          known := (s.seen i).known, issued := s.issued, store := s.store, time := s.now } ::
            s.decided := by
  cases o with
  | decide t a =>
    obtain ⟨rfl, _⟩ := some_mk_inj h
    exact .inr ⟨t, a, rfl, rfl⟩
  | _ =>
    cases b <;> obtain ⟨rfl, _⟩ := some_mk_inj h <;> exact .inl rfl

/-- Only `issue` issues a token. -/
theorem exec_issued {k i : ℕ} {b : Bool} (h : s.exec k i o b = some (s', r)) :
    s'.issued = s.issued ∨ ∃ t, o = .issue t ∧ s'.issued =
      { token := t, server := k, userSource := (s.seen i).userSource
        jwtSource := (s.seen i).jwtSource, store := s.store } :: s.issued := by
  cases o with
  | issue t =>
    obtain ⟨rfl, _⟩ := some_mk_inj h
    exact .inr ⟨t, rfl, rfl⟩
  | _ => cases b <;> obtain ⟨rfl, _⟩ := some_mk_inj h <;> exact .inl rfl

/-- An operation leads to a later store. -/
theorem AccountState.exec_later {k i : ℕ} {b : Bool} (h : s.exec k i o b = some (s', r)) :
    s.store.Later s'.store := by
  cases o with
  | putUser c record =>
    cases b <;> obtain ⟨rfl, _⟩ := some_mk_inj h
    · exact .refl _
    · exact s.store.later_change c record
  | deleteUser n =>
    cases b <;> obtain ⟨rfl, _⟩ := some_mk_inj h
    · exact .refl _
    · exact s.store.later_remove n
  | putJwt revoking st =>
    cases b <;> obtain ⟨rfl, _⟩ := some_mk_inj h
    · exact .refl _
    · exact s.store.later_changeJwt revoking st
  | _ =>
    rw [AccountState.exec_store rfl h]
    exact .refl _

/-- The environment keeps the copies. -/
theorem copies_env {e : AccountEnv} (h : Copies ext K s)
    (hx : (accountSystem ext).env e s = some s') : Copies ext K s' := by
  cases e with
  | tick secs =>
    obtain rfl := Option.some.inj hx
    exact ⟨h.told, h.held, h.signed⟩
  | evict k n =>
    obtain rfl := Option.some.inj hx
    exact h.evict k n

theorem copies_start {users : UserTable} {jwt : JwtSecretState} {settings : Settings}
    (hK : K (.start users jwt)) : Copies ext K (.start users jwt settings) := by
  have hself : AccountStore.Source K (.start users jwt) (.start users jwt) := ⟨hK, .refl _⟩
  refine ⟨fun _ => ⟨fun st hst => ?_, ⟨hself, rfl, .refl _⟩, hself, rfl⟩,
    fun _ => ⟨fun n u hu => ?_, hself, rfl⟩, fun e he => ?_⟩
  · simp [AccountState.start] at hst
  · simp [AccountState.start] at hu
  · simp [AccountState.start] at he

/-- A property of the copies that follows from another one. -/
theorem Copies.imp {K' : AccountStore → Prop} (h : Copies ext K s)
    (hK : ∀ st, st.Later s.store → K st → K' st) : Copies ext K' s := by
  have hsource : ∀ st, s.store.Source K st → s.store.Source K' st :=
    fun st hst => ⟨hK st hst.later hst.holds, hst.later⟩
  have hfrom : ∀ n u src ins, FromStore K s.store n u src ins → FromStore K' s.store n u src ins :=
    fun n u src ins hf => ⟨hsource src hf.origin, hf.find, hf.later⟩
  refine ⟨fun i => ⟨fun st hst => hsource st ((h.told i).store st hst),
    hfrom _ _ _ _ (h.told i).user, hsource _ (h.told i).jwt.origin, (h.told i).jwt.jwt⟩, fun k => ⟨fun n u hu =>
    hfrom _ _ _ _ ((h.held k).cache n u hu), hsource _ (h.held k).jwt.origin,
    (h.held k).jwt.jwt⟩, fun e he => ?_⟩
  have hsigned := h.signed e he
  exact ⟨hsigned.later, ⟨hK _ (hsigned.user.later.trans hsigned.later) hsigned.user.holds,
    hsigned.user.later⟩, ⟨hK _ (hsigned.jwt.later.trans hsigned.later) hsigned.jwt.holds,
    hsigned.jwt.later⟩, hsigned.key⟩

end Depot.Accounts
