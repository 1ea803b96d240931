import Depot.Auth.Ldap
import Depot.Lib.Trial

/-!
# Logins with a directory

`LdapAuthBackend::authenticate` (`server/src/server/auth/ldap.rs`, lines 241–277) by itself, over
a store that may fail at any operation and a directory after RFC 4513.

Results:
* `login_sound_iff`: when a login is sound.

**An empty password logs in.** A bind with it succeeds and says nothing. And a built-in account
with the name of a user of the directory gets the roles of that user.
-/

namespace Depot

open Lib

/-- With a password that is not empty a bind succeeds only if it is that of the entry; with an
    empty one it succeeds for every entry. -/
structure Directory.Rfc4513 (dir : Directory) (secret : String → String → Prop) : Prop where
  named : ∀ dn p, p ≠ "" → dir.bind dn p = some 0 → secret dn p
  unauthenticated : ∀ dn, dir.bind dn "" = some 0

/-- The record of a user. -/
def AuthState.user (s : AuthState) (n : String) : Option UserRecord := s.table.current (.user n)

section

variable (ext : AuthExt) (dir : Directory) (config : Option LdapConfig)
variable (secret : String → String → Prop) (n p : String) (s : AuthState)

/-- The stored record verifies the password. -/
def Verified : Prop := ∃ u, s.user n = some u ∧ ext.argon2 p u.passwordHash = true

/-- A run of a login; the list says which operations fail. -/
def loginRun (bs : List Bool) :
    AuthState × Option (Except AuthError (Option UserRecord) × List Bool) :=
  (ldapBackendAuthenticate ext dir config n p).trial (AuthState.exec 0) bs s

/-- The directory is reached, finds the user, accepts the password and tells the groups. -/
structure Directory.Accepts (c : LdapConfig) (dn : String) (groups : List String) : Prop where
  connected : dir.connect c.url c.starttls c.tlsSkipVerify = true
  service : dir.bindService c = some ()
  found : findUserDn dir c n = some (some dn)
  bound : dir.bind dn p = some 0
  groups : queryGroups dir c dn = some groups

/-- The user has exactly the roles to which the groups are mapped. -/
def Mapped (c : LdapConfig) (groups : List String) (user : UserRecord) : Prop :=
  ∀ r, r ∈ user.roles ↔ ∃ g ∈ groups, c.groupRoleMapping.lookup g = some r

/-- Only a password that is the entry's, or that the fallback verifies, logs in; who is let in has
    the mapped roles or is the user of the fallback, and the mapped roles in any case when the
    directory accepts and the store works; and no built-in account is changed. -/
structure LoginSound : Prop where
  accepted : ∀ bs s' user rest, loginRun ext dir config n p s bs = (s', some (.ok (some user), rest)) →
    (∃ c dn, config = some c ∧ findUserDn dir c n = some (some dn) ∧ p ≠ "" ∧ secret dn p) ∨
      (∀ c, config = some c → c.fallbackToBuiltin = true) ∧ Verified ext n p s
  roles : ∀ bs s' user rest, loginRun ext dir config n p s bs = (s', some (.ok (some user), rest)) →
    (∃ c dn groups, config = some c ∧ dir.Accepts n p c dn groups ∧ Mapped c groups user) ∨
      (∀ c, config = some c → c.fallbackToBuiltin = true) ∧ s.user n = some user ∧
        ext.argon2 p user.passwordHash = true
  mapped : ∀ bs s' user rest c dn groups,
    loginRun ext dir config n p s bs = (s', some (.ok (some user), rest)) →
    config = some c → dir.Accepts n p c dn groups → (∀ b ∈ bs, b = true) → Mapped c groups user
  frame : ∀ bs k u, s.user k = some u → u.authSource = "builtin" →
    (loginRun ext dir config n p s bs).1.user k = some u

/-- When the directory accepts the password, it is not empty or the fallback verifies it, and a
    built-in account of that name has the mapped roles already. -/
def LoginGuarded : Prop :=
  ∀ c roles, config = some c → queryDirectory dir c n p = some (some roles) →
    (p = "" → c.fallbackToBuiltin = true ∧ Verified ext n p s) ∧
      ∀ u, s.user n = some u → u.authSource = "builtin" → u.roles = roles

end

variable {ext : AuthExt} {dir : Directory} {config : Option LdapConfig}
variable {secret : String → String → Prop} {n p : String} {s : AuthState}

/-! ## The roles -/

variable {c : LdapConfig}

theorem mem_mapGroupsToRoles {groups : List String} {r : String} :
    r ∈ mapGroupsToRoles c groups ↔ ∃ g ∈ groups, c.groupRoleMapping.lookup g = some r := by
  have hfold : ∀ {f : List String → String → List String},
      (∀ roles g, r ∈ f roles g ↔ r ∈ roles ∨ c.groupRoleMapping.lookup g = some r) →
      ∀ roles, r ∈ groups.foldl f roles ↔
        r ∈ roles ∨ ∃ g ∈ groups, c.groupRoleMapping.lookup g = some r := by
    intro f hf
    induction groups with
    | nil => simp
    | cons g groups ih =>
      intro roles
      rw [List.foldl_cons, ih, hf, or_assoc]
      simp only [List.mem_cons, exists_eq_or_imp]
  refine (hfold (fun roles g => ?_) []).trans (or_iff_right List.not_mem_nil)
  cases c.groupRoleMapping.lookup g with
  | none => simp
  | some role =>
    dsimp only
    split_ifs with hmem
    · grind
    · grind

theorem mapped_of_eq {groups : List String} {user : UserRecord}
    (h : user.roles = mapGroupsToRoles c groups) : Mapped c groups user := fun r => by
  rw [h]
  exact mem_mapGroupsToRoles

variable {roles : List String}

/-- What the directory says when it accepts. -/
theorem queryDirectory_some (h : queryDirectory dir c n p = some (some roles)) :
    ∃ dn groups, dir.Accepts n p c dn groups ∧ roles = mapGroupsToRoles c groups := by
  unfold queryDirectory at h
  split_ifs at h with hconnect
  obtain ⟨⟨⟩, hservice, h⟩ := Option.bind_eq_some_iff.mp h
  obtain ⟨found, hdn, h⟩ := Option.bind_eq_some_iff.mp h
  cases found with
  | none => cases h
  | some dn =>
    obtain ⟨rc, hbind, h⟩ := Option.bind_eq_some_iff.mp h
    split_ifs at h with hrc
    · cases h
    · obtain ⟨-, -, h⟩ := Option.bind_eq_some_iff.mp h
      obtain ⟨groups, hgroups, h⟩ := Option.bind_eq_some_iff.mp h
      cases h
      exact ⟨dn, groups, ⟨hconnect, hservice, hdn, by rw [hbind, not_not.mp hrc], hgroups⟩, rfl⟩

/-- A directory that accepts says so. -/
theorem Directory.Accepts.query {dn : String} {groups : List String}
    (h : dir.Accepts n p c dn groups) :
    queryDirectory dir c n p = some (some (mapGroupsToRoles c groups)) := by
  rw [queryDirectory, if_pos h.connected, h.service, h.found]
  change (dir.bind dn p).bind _ = _
  rw [h.bound]
  change (queryGroups dir c dn).bind _ = _
  rw [h.groups]
  rfl

/-! ## Runs by themselves -/

theorem getUser_always : (getUser n).Always (AuthState.exec 0) s
    (fun found s' => s'.user = s.user ∧ (found = none ∨ found = some (s.user n)))
    (fun s' => s'.user = s.user) := by
  refine .call rfl fun b s' r hx => ?_
  cases b with
  | true =>
    cases hx
    exact ⟨rfl, .inr rfl⟩
  | false =>
    cases hx
    exact ⟨rfl, .inl rfl⟩

theorem builtin_always : (builtinAuthenticate ext n p).Always (AuthState.exec 0) s
      (fun answer s' => s'.user = s.user ∧ ∀ user, answer = .ok (some user) →
        s.user n = some user ∧ ext.argon2 p user.passwordHash = true)
      (fun s' => s'.user = s.user) := by
  refine Task.Always.bind getUser_always fun found s' hfound => ?_
  obtain ⟨hs', rfl | rfl⟩ := hfound
  · exact .pure ⟨hs', nofun⟩
  · intro bs
    cases bs with
    | nil => exact hs'
    | cons joined bs =>
      refine ⟨hs', fun user h => ?_⟩
      have hok := Except.ok.inj h
      split_ifs at hok with hvalid
      rw [hok] at hvalid
      exact ⟨hok, (Bool.and_eq_true_iff.mp hvalid).2⟩

/-- A user whose record is put. -/
theorem user_change {k : String} {v : Option UserRecord} :
    ({ s with table := s.table.change (.user n) v } : AuthState).user k =
      if k = n then v else s.user k := by
  split_ifs with hk
  · subst hk
    simp [AuthState.user, Lookaside.change, Lookaside.current]
  · have hkey : AuthKey.user k ≠ AuthKey.user n := fun h => hk (AuthKey.user.inj h)
    simp [AuthState.user, Lookaside.change, Lookaside.current, hkey]

/-- The records that a call with these roles of the directory may not change are as before. -/
def Framed (s : AuthState) (n : String) (roles : List String) (s' : AuthState) : Prop :=
  ∀ k u, s.user k = some u → (k = n → u.roles = roles) → s'.user k = some u

variable {s' t : AuthState}

theorem Framed.of_eq (h : s'.user = s.user) : Framed s n roles s' := fun k u hu _ => by rw [h, hu]

/-- The user is stored with the roles, or nothing has changed. -/
def Provisioned (s : AuthState) (n : String) (roles : List String)
    (answer : Except AuthError (Option UserRecord)) (s' : AuthState) : Prop :=
  Framed s n roles s' ∧
    ((∃ user, answer = .ok (some user) ∧ s'.user n = some user ∧ user.roles = roles) ∨
      answer = .error .storage ∧ s'.user = s.user)

/-- The change of a record, and what is returned after it. -/
theorem change_always {user : UserRecord} (ht : t.user = s.user) (hroles : user.roles = roles)
    (hother : ∀ u, s.user n = some u → u.roles ≠ roles) : Task.Always (AuthState.exec 0) (do
      match ← changeUser n (some user) with
      | none => pure (.error .storage)
      | some _ => pure (.ok (some user))) t (Provisioned s n roles) (Framed s n roles) := by
  refine Task.Always.bind (M := fun stored s' => (stored = none ∧ s'.user = s.user) ∨
    (∃ b, stored = some b) ∧ Framed s n roles s' ∧ s'.user n = some user)
    (.call (.of_eq ht) fun b s' r hx => ?_) fun stored s' hstored => ?_
  · cases b with
    | false =>
      cases hx
      exact .inl ⟨rfl, ht⟩
    | true =>
      cases hx
      refine .inr ⟨⟨_, rfl⟩, fun k u hu hsame => ?_, user_change.trans (if_pos rfl)⟩
      by_cases hk : k = n
      · subst hk
        exact absurd (hsame rfl) (hother u hu)
      · rw [user_change, if_neg hk, ht]
        exact hu
  · obtain ⟨rfl, hs'⟩ | ⟨⟨b, rfl⟩, hframed, hn⟩ := hstored
    · exact .pure ⟨.of_eq hs', .inr ⟨rfl, hs'⟩⟩
    · exact .pure ⟨hframed, .inl ⟨user, rfl, hn, hroles⟩⟩

theorem provision_always (roles : List String) : (provisionUser n roles).Always (AuthState.exec 0) s
    (Provisioned s n roles) (Framed s n roles) := by
  refine Task.Always.bind (Task.Always.mono getUser_always (fun _ _ h => h) fun _ => .of_eq)
    fun found s' hfound => ?_
  obtain ⟨hs', rfl | rfl⟩ := hfound
  · exact .pure ⟨.of_eq hs', .inr ⟨rfl, hs'⟩⟩
  · cases hn : s.user n with
    | none => exact change_always hs' rfl fun u hu => by rw [hn] at hu; cases hu
    | some existing =>
      dsimp only
      split_ifs with hroles
      · refine change_always hs' rfl fun u hu => ?_
        rw [hn] at hu
        cases hu
        exact hroles
      · exact .pure ⟨.of_eq hs', .inl ⟨existing, rfl, hs' ▸ hn, not_not.mp hroles⟩⟩

/-- A user is let in by the directory or by the fallback. -/
def LetIn (ext : AuthExt) (dir : Directory) (config : Option LdapConfig) (n p : String)
    (s : AuthState) (user : UserRecord) : Prop :=
  (∃ c roles, config = some c ∧ queryDirectory dir c n p = some (some roles) ∧
    user.roles = roles) ∨
  (∀ c, config = some c → c.fallbackToBuiltin = true) ∧ s.user n = some user ∧
    ext.argon2 p user.passwordHash = true

/-- The records that a login may not change are as before. -/
def LoginFramed (dir : Directory) (config : Option LdapConfig) (n p : String)
    (s s' : AuthState) : Prop :=
  ∀ k u, s.user k = some u → (k = n → ∀ c roles, config = some c →
    queryDirectory dir c n p = some (some roles) → u.roles = roles) → s'.user k = some u

theorem LoginFramed.of_eq (h : s'.user = s.user) :
    LoginFramed dir config n p s s' := fun k u hu _ => by rw [h, hu]

/-- What follows an answer of the directory that is not a user. -/
theorem fallback_always (q : Except AuthError (Option UserRecord)) (fallback : Bool)
    (ht : t.user = s.user) (hq : ∀ user, q ≠ .ok (some user))
    (hfallback : ∀ c, config = some c → c.fallbackToBuiltin = fallback) :
    (if fallback then builtinAuthenticate ext n p else pure q).Always (AuthState.exec 0) t
      (fun answer s' => LoginFramed dir config n p s s' ∧
        ∀ user, answer = .ok (some user) → LetIn ext dir config n p s user)
      (LoginFramed dir config n p s) := by
  cases fallback with
  | false => exact .pure ⟨.of_eq ht, fun user h => absurd h (hq user)⟩
  | true =>
    refine Task.Always.mono builtin_always (fun answer s' h => ?_) fun s' h => .of_eq (h.trans ht)
    refine ⟨.of_eq (h.1.trans ht), fun user huser => ?_⟩
    have hverified := h.2 user huser
    rw [ht] at hverified
    exact .inr ⟨hfallback, hverified⟩

theorem login_always : (ldapBackendAuthenticate ext dir config n p).Always (AuthState.exec 0) s
    (fun answer s' => LoginFramed dir config n p s s' ∧
      ∀ user, answer = .ok (some user) → LetIn ext dir config n p s user)
    (LoginFramed dir config n p s) := by
  cases config with
  | none => exact fallback_always (.ok none) true rfl nofun nofun
  | some c =>
    have hfallback : ∀ c', some c = some c' → c'.fallbackToBuiltin = c.fallbackToBuiltin :=
      fun c' h => by rw [Option.some.inj h]
    refine Task.Always.bind (M := fun answer s' => LoginFramed dir (some c) n p s s' ∧
      ((∃ user, answer = .ok (some user) ∧ LetIn ext dir (some c) n p s user) ∨
        (∀ user, answer ≠ .ok (some user)) ∧ s'.user = s.user)) ?_ fun answer s' hanswer => ?_
    · unfold ldapAuthenticate
      rcases hquery : queryDirectory dir c n p with _ | _ | roles
      · exact .pure ⟨.of_eq rfl, .inr ⟨nofun, rfl⟩⟩
      · exact .pure ⟨.of_eq rfl, .inr ⟨nofun, rfl⟩⟩
      · have hframed : ∀ s', Framed s n roles s' → LoginFramed dir (some c) n p s s' :=
          fun s' h k u hu hk => h k u hu fun hkn => hk hkn c roles rfl hquery
        refine Task.Always.mono (provision_always roles)
          (fun answer s' h => ⟨hframed s' h.1, ?_⟩) hframed
        obtain ⟨user, rfl, -, hroles⟩ | ⟨rfl, hs'⟩ := h.2
        · exact .inl ⟨user, rfl, .inl ⟨c, roles, rfl, hquery, hroles⟩⟩
        · exact .inr ⟨nofun, hs'⟩
    · obtain ⟨hframed, ⟨user, rfl, hin⟩ | ⟨hanswer, hs'⟩⟩ := hanswer
      · exact .pure ⟨hframed, fun user' h => by cases h; exact hin⟩
      · rcases answer with e | _ | user
        · exact fallback_always _ _ hs' hanswer hfallback
        · exact fallback_always _ _ hs' hanswer hfallback
        · exact absurd rfl (hanswer user)

/-! ## When a login is sound -/

/-- A lookup that succeeds. -/
theorem trial_getUser {α : Type} (f : Option (Option UserRecord) → AuthTask α) (bs : List Bool) :
    (getUser n >>= f).trial (AuthState.exec 0) (true :: bs) s =
      (f (some (s.user n))).trial (AuthState.exec 0) bs
        { s with table := s.table.fetch 0 (.user n) } := rfl

/-- A user whom the directory accepts is let in and stored. -/
theorem accepted_run (ext : AuthExt) (s : AuthState)
    (h : queryDirectory dir c n p = some (some roles)) : ∃ s' user rest,
    loginRun ext dir (some c) n p s [true, true] = (s', some (.ok (some user), rest)) ∧
      s'.user n = some user ∧ user.roles = roles := by
  have hprovision : ∃ s' user rest,
      (provisionUser n roles).trial (AuthState.exec 0) [true, true] s =
        (s', some (.ok (some user), rest)) ∧ s'.user n = some user ∧ user.roles = roles := by
    rw [provisionUser, trial_getUser]
    cases hn : s.user n with
    | none => exact ⟨_, _, _, rfl, user_change.trans (if_pos rfl), rfl⟩
    | some existing =>
      dsimp only
      split_ifs with hroles
      · exact ⟨_, _, _, rfl, user_change.trans (if_pos rfl), rfl⟩
      · exact ⟨_, _, _, rfl, hn, not_not.mp hroles⟩
  obtain ⟨s', user, rest, hrun, huser, hroles⟩ := hprovision
  refine ⟨s', user, rest, ?_, huser, hroles⟩
  have hdirectory : ldapAuthenticate dir c n p = provisionUser n roles := by
    rw [ldapAuthenticate, h]
  show Lib.Task.trial _ (Lib.Task.bind _ _) _ _ = _
  rw [Task.trial_bind, hdirectory, hrun]
  rfl

/-- While no operation fails, what is provisioned has the roles. -/
theorem provision_trial {bs rest : List Bool} {answer : Except AuthError (Option UserRecord)}
    (hbs : ∀ b ∈ bs, b = true)
    (h : (provisionUser n roles).trial (AuthState.exec 0) bs s = (s', some (answer, rest))) :
    ∃ user, answer = .ok (some user) ∧ user.roles = roles := by
  cases bs with
  | nil => cases h
  | cons b bs =>
    obtain rfl := hbs b (.head _)
    rw [provisionUser, trial_getUser] at h
    -- what is put when there is something to put
    have hput : ∀ user : UserRecord, user.roles = roles → ∀ t : AuthState,
        Task.trial (AuthState.exec 0) (do
          match ← changeUser n (some user) with
          | none => pure (.error .storage)
          | some _ => pure (.ok (some user))) bs t = (s', some (answer, rest)) →
        ∃ user, answer = .ok (some user) ∧ user.roles = roles := by
      intro user hroles t hrun
      cases bs with
      | nil => cases hrun
      | cons b bs =>
        obtain rfl := hbs b (.tail _ (.head _))
        cases hrun
        exact ⟨user, rfl, hroles⟩
    cases hn : s.user n with
    | none =>
      rw [hn] at h
      exact hput _ rfl _ h
    | some existing =>
      rw [hn] at h
      dsimp only at h
      split_ifs at h with hroles
      · exact hput _ rfl _ h
      · cases h
        exact ⟨existing, rfl, not_not.mp hroles⟩

/-- While no operation fails, a user whom the directory accepts has the roles. -/
theorem accepted_trial {bs rest : List Bool} {user : UserRecord}
    (hquery : queryDirectory dir c n p = some (some roles)) (hbs : ∀ b ∈ bs, b = true)
    (h : loginRun ext dir (some c) n p s bs = (s', some (.ok (some user), rest))) :
    user.roles = roles := by
  have hdirectory : ldapAuthenticate dir c n p = provisionUser n roles := by
    rw [ldapAuthenticate, hquery]
  change Lib.Task.trial _ (Lib.Task.bind _ _) _ _ = _ at h
  rw [Task.trial_bind, hdirectory] at h
  rcases hrun : (provisionUser n roles).trial (AuthState.exec 0) bs s with ⟨t, _ | ⟨answer, bs'⟩⟩
  · rw [hrun] at h
    cases h
  · obtain ⟨provisioned, rfl, hroles⟩ := provision_trial hbs hrun
    rw [hrun] at h
    cases h
    exact hroles

/-- **Main theorem.** A login is sound exactly when an accepted password is not empty, or verified
    by the fallback as well, and no built-in account has the name of a user with other roles. -/
theorem login_sound_iff (h : dir.Rfc4513 secret) :
    LoginSound ext dir config secret n p s ↔ LoginGuarded ext dir config n p s := by
  constructor
  · intro hsound c roles hc hquery
    subst hc
    obtain ⟨s', user, rest, hrun, huser, hroles⟩ :=
      accepted_run ext s hquery
    refine ⟨fun hp => ?_, fun u hu hbuiltin => ?_⟩
    · obtain ⟨_, _, _, _, hne, -⟩ | ⟨hfallback, hverified⟩ :=
        hsound.accepted _ _ _ _ hrun
      · exact absurd hp hne
      · exact ⟨hfallback c rfl, hverified⟩
    · have hkept := hsound.frame [true, true] n u hu hbuiltin
      rw [hrun, huser] at hkept
      rw [← Option.some.inj hkept, hroles]
  · intro hguard
    have halways := @login_always ext dir config n p s
    have hin : ∀ bs s' user rest, loginRun ext dir config n p s bs =
        (s', some (.ok (some user), rest)) → LetIn ext dir config n p s user := by
      intro bs s' user rest hrun
      have hpost := halways bs
      rw [show (ldapBackendAuthenticate ext dir config n p).trial _ bs s = _ from hrun] at hpost
      exact hpost.2 user rfl
    refine ⟨fun bs s' user rest hrun => ?_, fun bs s' user rest hrun => ?_,
      fun bs s' user rest c dn groups hrun hc haccepts hbs => ?_, fun bs k u hu hb => ?_⟩
    · obtain ⟨c, roles, rfl, hquery, -⟩ | ⟨hfallback, hn, hverified⟩ := hin bs s' user rest hrun
      · obtain ⟨dn, groups, haccepts, -⟩ := queryDirectory_some hquery
        by_cases hp : p = ""
        · obtain ⟨hfallback, hverified⟩ := (hguard c roles rfl hquery).1 hp
          exact .inr ⟨fun c' hc' => by rwa [← Option.some.inj hc'], hverified⟩
        · exact .inl ⟨c, dn, rfl, haccepts.found, hp, h.named dn p hp haccepts.bound⟩
      · exact .inr ⟨hfallback, user, hn, hverified⟩
    · obtain ⟨c, roles, rfl, hquery, hroles⟩ | hfallback := hin bs s' user rest hrun
      · obtain ⟨dn, groups, haccepts, rfl⟩ := queryDirectory_some hquery
        exact .inl ⟨c, dn, groups, rfl, haccepts, mapped_of_eq hroles⟩
      · exact .inr hfallback
    · subst hc
      exact mapped_of_eq (accepted_trial haccepts.query hbs hrun)
    · have hframed : LoginFramed dir config n p s (loginRun ext dir config n p s bs).1 := by
        have hpost := halways bs
        unfold loginRun
        revert hpost
        rcases (ldapBackendAuthenticate ext dir config n p).trial (AuthState.exec 0) bs s with
          ⟨s', _ | ⟨answer, rest⟩⟩
        · exact id
        · exact And.left
      refine hframed k u hu fun hk c roles hc hquery => ?_
      subst hk
      exact (hguard c roles hc hquery).2 u hu hb

/-! ## A login without a password -/

/-- A directory with one user, whose password is `secret`. -/
def Directory.lone : Directory where
  connect _ _ _ := true
  bind _ p := some (if p = "" ∨ p = "secret" then 0 else 49)
  search _ _ _ _ := some [⟨"uid=alice", []⟩]
  escape text := text

theorem Directory.lone_rfc4513 : Directory.lone.Rfc4513 fun _ p => p = "secret" where
  named dn p hp h := by
    simpa [Directory.lone, hp] using h
  unauthenticated _ := rfl

/-- The configuration for it, without the fallback. -/
def LdapConfig.lone : LdapConfig where
  url := "ldap://localhost:389"
  bindDn := "cn=depot"
  bindPassword := "secret"
  userBaseDn := "ou=people"
  groupBaseDn := "ou=groups"
  fallbackToBuiltin := false

/-- A store without users, and no password has a hash. -/
def AuthState.blank : AuthState where
  table := { value := fun k _ => match k with
    | .user _ => none
    | .role _ => none }

/-- Hash functions under which no password is verified. -/
def AuthExt.strict : AuthExt where
  argon2 _ _ := false
  blake3 := id
  dummyHash := ""

/-- A login with the password. -/
theorem login_sound_alice :
    LoginSound .strict .lone (some .lone) (fun _ p => p = "secret") "alice" "secret" .blank ↔
      LoginGuarded .strict .lone (some .lone) "alice" "secret" .blank :=
  login_sound_iff Directory.lone_rfc4513

/-- A login with an empty password. -/
theorem empty_password_accepted : ¬∀ (ext : AuthExt) (dir : Directory)
    (config : Option LdapConfig) (secret : String → String → Prop) (n p : String) (s : AuthState),
    dir.Rfc4513 secret → LoginSound ext dir config secret n p s := by
  intro hall
  have hsound := hall .strict .lone (some .lone) _ "alice" "" .blank Directory.lone_rfc4513
  have hquery : queryDirectory .lone .lone "alice" "" = some (some []) := rfl
  obtain ⟨s', user, rest, hrun, -⟩ := accepted_run .strict .blank hquery
  obtain ⟨_, _, _, _, hne, -⟩ | ⟨hfallback, -⟩ := hsound.accepted _ _ _ _ hrun
  · exact hne rfl
  · cases hfallback _ rfl

end Depot
