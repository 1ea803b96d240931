import Depot.Auth.Coherent
import Depot.Auth.Ldap
import Depot.Lib.Solo

/-!
# Decisions with and without caches

While no record changes, `CachedAuthBackend` decides what the built-in backend decides. The LDAP
backend is wrapped in the same caches, but its `authenticate` is never asked.

Results:
* `Mirrors`: what is cached is what the store has, and was verified.
* `authenticate_ends` and its siblings: what each method decides.
* `cache_transparent_iff`: when the decision is that of the backend itself.
* `directory_ignored`: a user of the directory is refused.
-/

namespace Depot

open Lib List
open Option (some.inj)
open Function (update update_of_ne update_self)

/-! ## The store -/

/-- The records of users and roles; roles are stored under their names. -/
structure UserStore where
  record : (k : AuthKey) → k.Record
  role_name : ∀ n role, record (.role n) = some role → role.name = n

/-- The backend when it has just been created. -/
def UserStore.fresh (store : UserStore) : AuthState where
  table := { value := fun k _ => store.record k }

/-- The record of a user. -/
def UserStore.user (store : UserStore) (n : String) : Option UserRecord := store.record (.user n)

/-- The roles that exist among those named. -/
def UserStore.roles (store : UserStore) (names : List String) : List RoleRecord :=
  names.filterMap fun n => (store.record (.role n) : Option RoleRecord)

/-- The records are those of the store; what is cached is what the store has, and each cached
    credential is that of one of the passwords. -/
structure Mirrors (ext : AuthExt) (store : UserStore) (passwords : List String) (s : AuthState) :
    Prop where
  current : ∀ k, s.table.current k = store.record k
  cached : ∀ k v, s.table.cache k = some v → v = store.record k
  verified : ∀ n v, s.authCache n = some v →
    ∃ p ∈ passwords, ext.blake3 p = v.passwordDigest ∧ ext.argon2 p v.passwordHash = true

/-- A call that runs by itself returns, and then `post` holds. -/
abbrev CallEnds {α : Type} (q : AuthTask α) (s : AuthState) (post : α → AuthState → Prop) : Prop :=
  Ends (AuthState.exec 0) q s post

variable {p n : String}

section

variable {ext : AuthExt} {store : UserStore} {passwords : List String} {s : AuthState}

theorem Mirrors.fresh : Mirrors ext store passwords store.fresh := by
  refine ⟨fun _ => rfl, fun _ _ h => ?_, fun _ _ h => ?_⟩
  · cases h
  · cases h

/-! ## Operations -/

section

variable (h : Mirrors ext store passwords s)

include h

theorem cacheGet_ends (k : AuthKey) :
    CallEnds (Task.call (AuthOp.cacheGet k)) s fun r s' => Mirrors ext store passwords s' ∧
      ∀ v, (r : Option k.Record) = some v → v = store.record k := by
  refine Ends.call rfl ⟨⟨fun k' => ?_, fun k' v hv => ?_, h.verified⟩, h.cached k⟩
  · rw [← h.current k']
    show (s.table.hit 0 k).current k' = _
    unfold Lookaside.hit
    cases s.table.cache k <;> rfl
  · refine h.cached k' v ?_
    rw [← hv]
    show s.table.cache k' = (s.table.hit 0 k).cache k'
    unfold Lookaside.hit
    cases s.table.cache k <;> rfl

/-- Asking the store. -/
theorem fetch_ends (k : AuthKey) :
    CallEnds (Task.call (AuthOp.fetch k)) s fun r s' => Mirrors ext store passwords s' ∧
      (r : Option k.Record) = some (store.record k) := by
  refine Ends.call rfl ⟨⟨h.current, h.cached, h.verified⟩, ?_⟩
  exact congrArg some (h.current k)

/-- Caching what the store has. -/
theorem cachePut_ends {k : AuthKey} {v : k.Record} (hv : v = store.record k) :
    CallEnds (Task.call (AuthOp.cachePut k v)) s fun _ => Mirrors ext store passwords := by
  refine Ends.call rfl ⟨h.current, fun k' v' hv' => ?_, h.verified⟩
  have hupdate : update s.table.cache k (some v) k' = some v' := hv'
  by_cases hk : k' = k
  · subst hk
    rw [update_self] at hupdate
    rw [← some.inj hupdate, hv]
  · rw [update_of_ne hk] at hupdate
    exact h.cached k' v' hupdate

theorem getVerified_ends (n : String) :
    CallEnds (getVerified n) s fun r s' => Mirrors ext store passwords s' ∧
      ∀ v, (r : Option VerifiedCredential) = some v → ∃ p ∈ passwords,
        ext.blake3 p = v.passwordDigest ∧ ext.argon2 p v.passwordHash = true :=
  Ends.call rfl ⟨h, h.verified n⟩

theorem putVerified_ends (n : String) {hash : String}
    (hp : p ∈ passwords) (haccept : ext.argon2 p hash = true) :
    CallEnds (putVerified n ⟨hash, ext.blake3 p⟩) s fun _ => Mirrors ext store passwords := by
  refine Ends.call rfl ⟨h.current, h.cached, fun n' v hv => ?_⟩
  have hupdate : update s.authCache n (some ⟨hash, ext.blake3 p⟩) n' = some v := hv
  by_cases hn : n' = n
  · subst hn
    rw [update_self] at hupdate
    rw [← some.inj hupdate]
    exact ⟨p, hp, rfl, haccept⟩
  · rw [update_of_ne hn] at hupdate
    exact h.verified n' v hupdate

/-- A record that drops out of the caches. -/
theorem Mirrors.evict (e : AuthEvict) {s' : AuthState}
    (he : (authSystem ext).env e s = some s') : Mirrors ext store passwords s' := by
  cases e with
  | record k =>
    obtain rfl := some.inj he
    refine ⟨h.current, fun k' v hv => ?_, h.verified⟩
    have hupdate : update s.table.cache k none k' = some v := hv
    by_cases hk : k' = k
    · subst hk
      rw [update_self] at hupdate
      cases hupdate
    · rw [update_of_ne hk] at hupdate
      exact h.cached k' v hupdate
  | credential n =>
    obtain rfl := some.inj he
    refine ⟨h.current, h.cached, fun n' v hv => ?_⟩
    have hupdate : update s.authCache n none n' = some v := hv
    by_cases hn : n' = n
    · subst hn
      rw [update_self] at hupdate
      cases hupdate
    · rw [update_of_ne hn] at hupdate
      exact h.verified n' v hupdate

end

/-! ## Users -/

/-- What `resolve_user_cached` returns for a user. -/
def userResult : Option UserRecord → Except AuthError UserRecord
  | some user => .ok user
  | none => .error .forbidden

theorem resolveUserCached_ends (h : Mirrors ext store passwords s) (n : String) :
    CallEnds (resolveUserCached n) s fun r s' =>
      Mirrors ext store passwords s' ∧ r = userResult (store.user n) := by
  refine (cacheGet_ends h (.user n)).bind fun r s1 h1 => ?_
  obtain ⟨h1, hr⟩ := h1
  match r, hr with
  | some (some user), hr =>
    refine Ends.pure ⟨h1, ?_⟩
    rw [UserStore.user, ← hr _ rfl]
    rfl
  | some none, hr =>
    refine Ends.pure ⟨h1, ?_⟩
    rw [UserStore.user, ← hr _ rfl]
    rfl
  | none, _ =>
    refine (fetch_ends h1 (.user n)).bind fun r s2 h2 => ?_
    obtain ⟨h2, rfl⟩ := h2
    refine (cachePut_ends h2 rfl).bind fun _ s3 h3 => ?_
    rw [UserStore.user]
    cases hu : store.record (.user n) with
    | some user => exact Ends.pure ⟨h3, rfl⟩
    | none => exact Ends.pure ⟨h3, rfl⟩

theorem requireAdmin_ends (h : Mirrors ext store passwords s) (n : String) :
    CallEnds (requireAdmin n) s fun r s' => Mirrors ext store passwords s' ∧
      r = (userResult (store.user n)).bind fun user =>
        if isAdmin user then .ok () else .error .forbidden := by
  refine (resolveUserCached_ends h n).bind fun r s' h' => ?_
  obtain ⟨h', rfl⟩ := h'
  cases store.user n with
  | some user => exact Ends.pure ⟨h', rfl⟩
  | none => exact Ends.pure ⟨h', rfl⟩

theorem lookupUser_ends (h : Mirrors ext store passwords s) (n : String) :
    CallEnds (lookupUser n) s fun r s' =>
      Mirrors ext store passwords s' ∧ r = .ok (store.user n) := by
  refine (resolveUserCached_ends h n).bind fun r s' h' => ?_
  obtain ⟨h', rfl⟩ := h'
  cases store.user n with
  | some user => exact Ends.pure ⟨h', rfl⟩
  | none => exact Ends.pure ⟨h', rfl⟩

/-! ## Roles -/

theorem roles_cons (store : UserStore) (name : String) (names : List String) :
    store.roles (name :: names) =
      (store.record (.role name) : Option RoleRecord).toList ++ store.roles names := by
  rw [UserStore.roles, filterMap_cons]
  cases (store.record (.role name) : Option RoleRecord) <;> rfl

section

variable (h : Mirrors ext store passwords s)

include h

theorem getRoles_ends (names : List String) : CallEnds (getRoles names) s fun roles s' =>
      Mirrors ext store passwords s' ∧ roles = store.roles names := by
  induction names generalizing s with
  | nil => exact Ends.pure ⟨h, rfl⟩
  | cons name names ih =>
    refine (fetch_ends h (.role name)).bind fun r s1 h1 => ?_
    obtain ⟨h1, rfl⟩ := h1
    refine (ih h1).bind fun roles s2 h2 => ?_
    obtain ⟨h2, rfl⟩ := h2
    rw [roles_cons]
    cases hrole : store.record (.role name) with
    | some role => exact Ends.pure ⟨h2, rfl⟩
    | none => exact Ends.pure ⟨h2, rfl⟩

theorem getUserWithRoles_ends (n : String) :
    CallEnds (getUserWithRoles n) s fun r s' => Mirrors ext store passwords s' ∧
      r = some ((store.user n).map fun user => (user, store.roles user.roles)) := by
  refine (fetch_ends h (.user n)).bind fun r s1 h1 => ?_
  obtain ⟨h1, rfl⟩ := h1
  rw [UserStore.user]
  cases hu : store.record (.user n) with
  | none => exact Ends.pure ⟨h1, rfl⟩
  | some user =>
    refine (getRoles_ends h1 user.roles).bind fun roles s2 h2 => ?_
    obtain ⟨h2, rfl⟩ := h2
    exact Ends.pure ⟨h2, rfl⟩

/-- The roles that are cached and the others make up the roles. -/
theorem getCachedRoles_ends (names : List String) :
    CallEnds (getCachedRoles names) s fun x s' => Mirrors ext store passwords s' ∧
      (x.1 ++ store.roles x.2).Perm (store.roles names) := by
  induction names generalizing s with
  | nil => exact Ends.pure ⟨h, .refl _⟩
  | cons name names ih =>
    refine (cacheGet_ends h (.role name)).bind fun r s1 h1 => ?_
    obtain ⟨h1, hr⟩ := h1
    refine (ih h1).bind fun x s2 h2 => ?_
    obtain ⟨h2, hperm⟩ := h2
    obtain ⟨roles, uncached⟩ := x
    rw [roles_cons]
    match r, hr with
    | some (some role), hr =>
      refine Ends.pure ⟨h2, ?_⟩
      rw [← hr _ rfl]
      exact hperm.cons role
    | some none, hr =>
      refine Ends.pure ⟨h2, ?_⟩
      rw [← hr _ rfl]
      exact hperm
    | none, _ =>
      refine Ends.pure ⟨h2, ?_⟩
      rw [roles_cons]
      exact (perm_append_comm_assoc _ _ _).trans (hperm.append_left _)

theorem fetchUncached_ends (names : List String) :
    CallEnds (fetchUncached names) s fun r s' => Mirrors ext store passwords s' ∧
      r = some (names.map fun n => (n, store.record (.role n))) := by
  induction names generalizing s with
  | nil => exact Ends.pure ⟨h, rfl⟩
  | cons name names ih =>
    refine (fetch_ends h (.role name)).bind fun r s1 h1 => ?_
    obtain ⟨h1, rfl⟩ := h1
    refine (ih h1).bind fun r s2 h2 => ?_
    obtain ⟨h2, rfl⟩ := h2
    exact Ends.pure ⟨h2, rfl⟩

theorem putFetched_ends (names : List String) :
    CallEnds (putFetched (names.map fun n => (n, store.record (.role n)))) s fun roles s' =>
      Mirrors ext store passwords s' ∧ roles = store.roles names := by
  induction names generalizing s with
  | nil => exact Ends.pure ⟨h, rfl⟩
  | cons name names ih =>
    refine (cachePut_ends h (k := .role name) rfl).bind fun _ s1 h1 => ?_
    refine (ih h1).bind fun roles s2 h2 => ?_
    obtain ⟨h2, rfl⟩ := h2
    rw [roles_cons]
    cases hrole : store.record (.role name) with
    | some role => exact Ends.pure ⟨h2, rfl⟩
    | none => exact Ends.pure ⟨h2, rfl⟩

end

/-- A user and the roles of the user, in any order. -/
def RolesOf (store : UserStore) (n : String) :
    Except AuthError (UserRecord × List RoleRecord) → Prop
  | .ok (user, roles) => store.user n = some user ∧ roles.Perm (store.roles user.roles)
  | .error e => store.user n = none ∧ e = .forbidden

theorem resolveUserAndRolesCached_ends (h : Mirrors ext store passwords s) (n : String) :
    CallEnds (resolveUserAndRolesCached n) s fun r s' =>
      Mirrors ext store passwords s' ∧ RolesOf store n r := by
  refine (cacheGet_ends h (.user n)).bind fun r s1 h1 => ?_
  obtain ⟨h1, hr⟩ := h1
  match r, hr with
  | some none, hr => exact Ends.pure ⟨h1, (hr _ rfl).symm, rfl⟩
  | some (some user), hr =>
    refine (getCachedRoles_ends h1 user.roles).bind fun x s2 h2 => ?_
    obtain ⟨h2, hperm⟩ := h2
    refine (fetchUncached_ends h2 x.2).bind fun r s3 h3 => ?_
    obtain ⟨h3, rfl⟩ := h3
    refine (putFetched_ends h3 x.2).bind fun roles s4 h4 => ?_
    obtain ⟨h4, rfl⟩ := h4
    exact Ends.pure ⟨h4, (hr _ rfl).symm, hperm⟩
  | none, _ =>
    refine (getUserWithRoles_ends h1 n).bind fun r s2 h2 => ?_
    obtain ⟨h2, rfl⟩ := h2
    cases hu : store.user n with
    | none =>
      refine (cachePut_ends h2 (k := .user n) hu.symm).bind fun _ s3 h3 => ?_
      exact Ends.pure ⟨h3, hu, rfl⟩
    | some user =>
      refine (cachePut_ends h2 (k := .user n) hu.symm).bind fun _ s3 h3 => ?_
      have hput : ∀ role ∈ store.roles user.roles, ∀ s, Mirrors ext store passwords s →
          CallEnds (putCachedRole role.name (some role)) s
            fun _ => Mirrors ext store passwords := by
        intro role hrole s hs
        obtain ⟨name, -, hname⟩ := mem_filterMap.mp hrole
        have heq : (some role : Option RoleRecord) = store.record (.role role.name) := by
          rw [store.role_name name role hname]
          exact hname.symm
        exact cachePut_ends hs heq
      refine (Ends.forEach hput h3).bind fun _ s4 h4 => ?_
      exact Ends.pure ⟨h4, hu, .refl _⟩

theorem resolveUserRoles_ends (h : Mirrors ext store passwords s) (n : String) :
    CallEnds (resolveUserRoles n) s fun r s' => Mirrors ext store passwords s' ∧
      match r with
      | .ok (some (user, roles)) =>
          store.user n = some user ∧ roles.Perm (store.roles user.roles)
      | .ok none => store.user n = none
      | .error _ => False := by
  refine (resolveUserAndRolesCached_ends h n).bind fun r s' h' => ?_
  obtain ⟨h', hr⟩ := h'
  match r, hr with
  | .ok (user, roles), hr => exact Ends.pure ⟨h', hr⟩
  | .error .forbidden, hr => exact Ends.pure ⟨h', hr.1⟩

/-- The order of the roles does not matter. -/
theorem checkGrants_perm {roles roles' : List RoleRecord} (h : roles.Perm roles') (repo : String)
    (required : Capability) : checkGrants roles repo required = checkGrants roles' repo required := by
  unfold checkGrants
  rw [h.any_eq]

/-- What `check_permission` answers. -/
def permissionAnswer (store : UserStore) (n repo : String) (required : Capability) :
    Except AuthError Unit :=
  match store.user n with
  | some user => checkGrants (store.roles user.roles) repo required
  | none => .error .forbidden

theorem checkPermission_ends (h : Mirrors ext store passwords s) (n repo : String)
    (required : Capability) :
    CallEnds (checkPermission n repo required) s fun r s' =>
      Mirrors ext store passwords s' ∧ r = permissionAnswer store n repo required := by
  refine (resolveUserAndRolesCached_ends h n).bind fun r s' h' => ?_
  obtain ⟨h', hr⟩ := h'
  unfold permissionAnswer
  match r, hr with
  | .ok (user, roles), hr =>
    refine Ends.pure ⟨h', ?_⟩
    rw [hr.1]
    exact checkGrants_perm hr.2 repo required
  | .error e, hr =>
    refine Ends.pure ⟨h', ?_⟩
    rw [hr.1, hr.2]

/-! ## Passwords -/

/-- The store has a user whose hash accepts the password. -/
def StoreAccepts (ext : AuthExt) (store : UserStore) (n p : String) : Prop :=
  ∃ user, store.user n = some user ∧ ext.argon2 p user.passwordHash = true

/-- The hash that a password is verified against. -/
def hashFor (ext : AuthExt) : Option UserRecord → String
  | some user => user.passwordHash
  | none => ext.dummyHash

/-- What the built-in `authenticate` answers. -/
def passwordAnswer (ext : AuthExt) (store : UserStore) (n p : String) : Option UserRecord :=
  if ext.argon2 p (hashFor ext (store.user n)) then store.user n else none

theorem passwordAnswer_eq_none :
    passwordAnswer ext store n p = none ↔ ¬StoreAccepts ext store n p := by
  unfold passwordAnswer StoreAccepts
  cases hu : store.user n with
  | none => simp
  | some user => cases haccept : ext.argon2 p user.passwordHash <;> simp [hashFor, haccept]

theorem passwordAnswer_eq_some {user : UserRecord} : passwordAnswer ext store n p = some user ↔
      store.user n = some user ∧ ext.argon2 p user.passwordHash = true := by
  unfold passwordAnswer
  cases hu : store.user n with
  | none => simp
  | some found =>
    cases haccept : ext.argon2 p found.passwordHash with
    | true =>
      rw [hashFor, if_pos haccept]
      refine ⟨fun h => ⟨h, ?_⟩, fun h => h.1⟩
      rwa [← some.inj h]
    | false =>
      rw [hashFor, if_neg (by rw [haccept]; exact Bool.false_ne_true)]
      refine ⟨nofun, fun h => ?_⟩
      rw [some.inj h.1, h.2] at haccept
      cases haccept

theorem credentials_ends (h : Mirrors ext store passwords s) (n : String) :
    CallEnds (credentials ext n) s fun r s' => Mirrors ext store passwords s' ∧
      r = .ok (store.user n, hashFor ext (store.user n)) := by
  refine (cacheGet_ends h (.user n)).bind fun r s1 h1 => ?_
  obtain ⟨h1, hr⟩ := h1
  match r, hr with
  | some (some user), hr =>
    refine Ends.pure ⟨h1, ?_⟩
    rw [UserStore.user, ← hr _ rfl]
    rfl
  | some none, hr =>
    refine Ends.pure ⟨h1, ?_⟩
    rw [UserStore.user, ← hr _ rfl]
    rfl
  | none, _ =>
    refine (fetch_ends h1 (.user n)).bind fun r s2 h2 => ?_
    obtain ⟨h2, rfl⟩ := h2
    refine (cachePut_ends h2 rfl).bind fun _ s3 h3 => ?_
    rw [UserStore.user]
    cases hu : store.record (.user n) with
    | some user => exact Ends.pure ⟨h3, rfl⟩
    | none => exact Ends.pure ⟨h3, rfl⟩

/-- No two of the passwords have the same digest. -/
def DigestsApart (ext : AuthExt) (passwords : List String) : Prop :=
  ∀ p ∈ passwords, ∀ q ∈ passwords, ext.blake3 p = ext.blake3 q → p = q

section

variable (h : Mirrors ext store passwords s)

include h

/-- A verification is skipped only if it would succeed. -/
theorem cacheHit_ends (hapart : DigestsApart ext passwords)
    (hp : p ∈ passwords) (n : String) (hash : String) (user : Option UserRecord) :
    CallEnds (cacheHit ext n p hash user) s fun hit s' => Mirrors ext store passwords s' ∧
      (hit = true → user.isSome = true ∧ ext.argon2 p hash = true) := by
  cases user with
  | none => exact Ends.pure ⟨h, nofun⟩
  | some user =>
    refine (getVerified_ends h n).bind fun r s1 h1 => ?_
    obtain ⟨h1, hr⟩ := h1
    refine Ends.pure ⟨h1, fun hhit => ⟨rfl, ?_⟩⟩
    obtain ⟨v, hv, heq⟩ := (Option.any_eq_true _ _).mp hhit
    simp only [Bool.and_eq_true, decide_eq_true_eq] at heq
    obtain ⟨q, hq, hdigest, haccept⟩ := hr v hv
    rw [heq.2] at hdigest
    obtain rfl := hapart q hq p hp hdigest
    rwa [heq.1] at haccept

theorem verifyAndCache_ends (hp : p ∈ passwords) (n hash : String) (user : Option UserRecord) :
    CallEnds (verifyAndCache ext n p hash user) s fun r s' => Mirrors ext store passwords s' ∧
      r = if ext.argon2 p hash then user else none := by
  have hverify : CallEnds (verifyPassword ext p hash) s fun valid s' =>
      Mirrors ext store passwords s' ∧ valid = ext.argon2 p hash :=
    ⟨s, ext.argon2 p hash, rfl, h, rfl⟩
  refine hverify.bind fun valid s1 h1 => ?_
  obtain ⟨h1, rfl⟩ := h1
  cases haccept : ext.argon2 p hash with
  | false => exact Ends.pure ⟨h1, rfl⟩
  | true =>
    cases user with
    | none => exact Ends.pure ⟨h1, rfl⟩
    | some user =>
      refine (putVerified_ends h1 n hp haccept).bind fun _ s2 h2 => ?_
      exact Ends.pure ⟨h2, rfl⟩

theorem authenticate_ends (hapart : DigestsApart ext passwords) (hp : p ∈ passwords) (n : String) :
    CallEnds (authenticate ext n p) s fun r s' => Mirrors ext store passwords s' ∧
      r = .ok (passwordAnswer ext store n p) := by
  refine (credentials_ends h n).bind fun r s1 h1 => ?_
  obtain ⟨h1, rfl⟩ := h1
  refine (cacheHit_ends h1 hapart hp n _ _).bind fun hit s2 h2 => ?_
  obtain ⟨h2, hhit⟩ := h2
  cases hit with
  | true =>
    refine Ends.pure ⟨h2, ?_⟩
    rw [passwordAnswer, if_pos (hhit rfl).2]
  | false =>
    refine (verifyAndCache_ends h2 hp n _ _).bind fun r s3 h3 => ?_
    obtain ⟨h3, rfl⟩ := h3
    exact Ends.pure ⟨h3, rfl⟩

/-! ## The backends themselves -/

theorem builtinAuthenticate_ends (n p : String) :
    CallEnds (builtinAuthenticate ext n p) s fun r s' => Mirrors ext store passwords s' ∧
      r = .ok (passwordAnswer ext store n p) := by
  refine (fetch_ends h (.user n)).bind fun r s1 h1 => ?_
  obtain ⟨h1, rfl⟩ := h1
  exact ⟨s1, _, rfl, h1, rfl⟩

theorem builtinCheckPermission_ends (n repo : String) (required : Capability) :
    CallEnds (builtinCheckPermission n repo required) s fun r _ =>
      r = permissionAnswer store n repo required := by
  refine (getUserWithRoles_ends h n).bind fun r s1 h1 => ?_
  obtain ⟨-, rfl⟩ := h1
  unfold permissionAnswer
  cases store.user n <;> exact Ends.pure rfl

theorem builtinRequireAdmin_ends (n : String) : CallEnds (builtinRequireAdmin n) s fun r _ =>
      r = (userResult (store.user n)).bind fun user =>
        if isAdmin user then .ok () else .error .forbidden := by
  refine (fetch_ends h (.user n)).bind fun r s1 h1 => ?_
  obtain ⟨-, rfl⟩ := h1
  rw [UserStore.user]
  cases store.record (.user n) with
  | none => exact Ends.pure rfl
  | some user => exact Ends.pure rfl

theorem builtinResolveUserRoles_ends (n : String) :
    CallEnds (builtinResolveUserRoles n) s fun r _ =>
      r = .ok ((store.user n).map fun user => (user, store.roles user.roles)) := by
  refine (getUserWithRoles_ends h n).bind fun r s1 h1 => ?_
  obtain ⟨-, rfl⟩ := h1
  exact Ends.pure rfl

theorem builtinLookupUser_ends (n : String) :
    CallEnds (builtinLookupUser n) s fun r _ => r = .ok (store.user n) := by
  refine (fetch_ends h (.user n)).bind fun r s1 h1 => ?_
  obtain ⟨-, rfl⟩ := h1
  exact Ends.pure rfl

end

/-- The user that `provision_user` returns. -/
def provisioned (store : UserStore) (n : String) (roles : List String) : UserRecord :=
  match store.user n with
  | some existing => { existing with roles := roles }
  | none => { username := n, passwordHash := externalPasswordHash, roles := roles,
              authSource := "ldap" }

theorem provisionUser_ends (h : Mirrors ext store passwords s) (n : String) (roles : List String) :
    CallEnds (provisionUser n roles) s fun r _ => r = .ok (some (provisioned store n roles)) := by
  refine (fetch_ends h (.user n)).bind fun r s1 h1 => ?_
  obtain ⟨-, rfl⟩ := h1
  unfold provisioned UserStore.user
  cases hu : store.record (.user n) with
  | none => exact ⟨_, _, rfl, rfl⟩
  | some existing =>
    show CallEnds (if existing.roles ≠ roles then _ else _) s1 _
    split_ifs with hroles
    · exact ⟨_, _, rfl, rfl⟩
    · rw [← not_not.mp hroles]
      exact Ends.pure rfl

theorem ldapAuthenticate_ends (h : Mirrors ext store passwords s) (dir : Directory)
    (config : LdapConfig) (n p : String) :
    CallEnds (ldapAuthenticate dir config n p) s fun r s' =>
      match queryDirectory dir config n p with
      | some (some roles) => r = .ok (some (provisioned store n roles))
      | some none => r = .ok none ∧ s' = s
      | none => r = .error .storage ∧ s' = s := by
  unfold ldapAuthenticate
  cases queryDirectory dir config n p with
  | none => exact Ends.pure ⟨rfl, rfl⟩
  | some found =>
    cases found with
    | none => exact Ends.pure ⟨rfl, rfl⟩
    | some roles => exact provisionUser_ends h n roles

/-- What `authenticate` answers when the directory is asked, by the records alone. -/
def ldapAnswer (ext : AuthExt) (dir : Directory) (store : UserStore) (config : LdapConfig)
    (n p : String) : Except AuthError (Option UserRecord) :=
  match queryDirectory dir config n p with
  | some (some roles) => .ok (some (provisioned store n roles))
  | some none => if config.fallbackToBuiltin then .ok (passwordAnswer ext store n p) else .ok none
  | none =>
      if config.fallbackToBuiltin then .ok (passwordAnswer ext store n p) else .error .storage

theorem ldapBackend_ends (h : Mirrors ext store passwords s) (dir : Directory)
    (config : LdapConfig) (n p : String) :
    CallEnds (ldapBackendAuthenticate ext dir (some config) n p) s fun r _ =>
      r = ldapAnswer ext dir store config n p := by
  have hbuiltin := (builtinAuthenticate_ends h n p).mono fun _ _ hr => hr.2
  refine (ldapAuthenticate_ends h dir config n p).bind fun r s1 hr => ?_
  unfold ldapAnswer
  match queryDirectory dir config n p, hr with
  | some (some roles), hr =>
    rw [hr]
    exact Ends.pure rfl
  | some none, hr =>
    obtain ⟨rfl, rfl⟩ := hr
    dsimp only
    split_ifs
    · exact hbuiltin
    · exact Ends.pure rfl
  | none, hr =>
    obtain ⟨rfl, rfl⟩ := hr
    dsimp only
    split_ifs
    · exact hbuiltin
    · exact Ends.pure rfl

end

/-! ## Transparency -/

/-- What happens to the caches: calls, and what drops out. -/
inductive CacheEvent where
  | call (c : AuthCall)
  | evict (e : AuthEvict)
  deriving DecidableEq

/-- The password that a call is given. -/
def AuthCall.password? : AuthCall → Option String
  | .authenticate _ p => some p
  | _ => none

/-- The passwords of the calls and of a last one. -/
def passwordsOf (events : List CacheEvent) (call : AuthCall) : List String :=
  (events.filterMap fun e =>
    match e with
    | .call c => c.password?
    | .evict _ => none) ++ call.password?.toList

/-- The state after some events. -/
def runEvents (ext : AuthExt) (s : AuthState) : List CacheEvent → Option AuthState
  | [] => some s
  | .call c :: events => ((c.cached ext).solo (AuthState.exec 0) s).bind fun x =>
      runEvents ext x.1 events
  | .evict e :: events => ((authSystem ext).env e s).bind fun s => runEvents ext s events

/-- The same decision; the roles of a user have no order. -/
def Decision.Same : Decision → Decision → Prop
  | .roles n (.ok (some (record, held))), .roles n' (.ok (some (record', held'))) =>
      n = n' ∧ record = record' ∧ held.Perm held'
  | d, d' => d = d'

/-- When the cached methods decide what the backend itself decides: always, but for
    `authenticate` over a directory. There the directory must fail or refuse with the fallback
    allowed; or it refuses a user that the store does not accept either; or it accepts a user
    that has the same roles in the store, and a password that the store accepts. -/
def Transparent (ext : AuthExt) (dir : Directory) (store : UserStore) :
    Backend → AuthCall → Prop
  | .ldap (some config), .authenticate n p =>
      match queryDirectory dir config n p with
      | none => config.fallbackToBuiltin = true
      | some none => config.fallbackToBuiltin = true ∨ ¬StoreAccepts ext store n p
      | some (some roles) => ∃ user, store.user n = some user ∧ user.roles = roles ∧
          ext.argon2 p user.passwordHash = true
  | _, _ => True

section

variable {ext : AuthExt} {store : UserStore} {passwords : List String} {s : AuthState}

variable {call : AuthCall}

theorem cached_ends (h : Mirrors ext store passwords s) (hapart : DigestsApart ext passwords)
    (hp : ∀ p, call.password? = some p → p ∈ passwords) :
    CallEnds (call.cached ext) s fun _ => Mirrors ext store passwords := by
  cases call with
  | authenticate n p =>
    exact (authenticate_ends h hapart (hp p rfl) n).bind fun _ _ h' => Ends.pure h'.1
  | checkPermission n r c =>
    exact (checkPermission_ends h n r c).bind fun _ _ h' => Ends.pure h'.1
  | requireAdmin n => exact (requireAdmin_ends h n).bind fun _ _ h' => Ends.pure h'.1
  | resolveUserRoles n => exact (resolveUserRoles_ends h n).bind fun _ _ h' => Ends.pure h'.1
  | lookupUser n => exact (lookupUser_ends h n).bind fun _ _ h' => Ends.pure h'.1

/-- Calls keep the caches in step with the store. -/
theorem runEvents_mirrors (h : Mirrors ext store passwords s)
    (hapart : DigestsApart ext passwords) {events : List CacheEvent}
    (hp : ∀ c, .call c ∈ events → ∀ p, c.password? = some p → p ∈ passwords) :
    ∃ s', runEvents ext s events = some s' ∧ Mirrors ext store passwords s' := by
  induction events generalizing s with
  | nil => exact ⟨s, rfl, h⟩
  | cons event events ih =>
    have hrest : ∀ c, .call c ∈ events → ∀ p, c.password? = some p → p ∈ passwords :=
      fun c hc => hp c (mem_cons_of_mem event hc)
    cases event with
    | call c =>
      obtain ⟨s1, d, hrun, h1⟩ := cached_ends h hapart (hp c mem_cons_self)
      obtain ⟨s2, hrun2, h2⟩ := ih h1 hrest
      refine ⟨s2, ?_, h2⟩
      rw [runEvents, hrun]
      exact hrun2
    | evict e =>
      have hsome : ∃ s1, (authSystem ext).env e s = some s1 := by cases e <;> exact ⟨_, rfl⟩
      obtain ⟨s1, he⟩ := hsome
      obtain ⟨s2, hrun2, h2⟩ := ih (h.evict e he) hrest
      refine ⟨s2, ?_, h2⟩
      rw [runEvents, he]
      exact hrun2

/-- A call through the caches and the same call of the backend itself. -/
def Agrees (ext : AuthExt) (dir : Directory) (backend : Backend) (s : AuthState) (call : AuthCall)
    (agree : Prop) : Prop :=
  CallEnds (call.cached ext) s fun d _ => CallEnds (call.inner ext dir backend) s fun d' _ =>
    (d.Same d' ↔ agree)

variable {dir : Directory} {backend : Backend}

theorem agrees_of_same (h : CallEnds (call.cached ext) s fun d _ =>
      CallEnds (call.inner ext dir backend) s fun d' _ => d.Same d') :
    Agrees ext dir backend s call True :=
  h.mono fun _ _ h' => h'.mono fun _ _ hsame => iff_of_true hsame trivial

theorem same_refl (d : Decision) : d.Same d := by
  unfold Decision.Same
  split
  · exact ⟨rfl, rfl, .refl _⟩
  · rfl

/-- The methods that ask only the store. -/
theorem store_agrees (h : Mirrors ext store passwords s) (dir : Directory) (backend : Backend)
    (hcall : call.password? = none) : Agrees ext dir backend s call True := by
  refine agrees_of_same ?_
  cases call with
  | authenticate n p => cases hcall
  | checkPermission n r c =>
    refine (checkPermission_ends h n r c).bind fun a s1 h1 => Ends.pure ?_
    refine (builtinCheckPermission_ends h n r c).bind fun b s2 h2 => Ends.pure ?_
    rw [h1.2, h2]
    exact same_refl _
  | requireAdmin n =>
    refine (requireAdmin_ends h n).bind fun a s1 h1 => Ends.pure ?_
    refine (builtinRequireAdmin_ends h n).bind fun b s2 h2 => Ends.pure ?_
    rw [h1.2, h2]
    exact same_refl _
  | resolveUserRoles n =>
    refine (resolveUserRoles_ends h n).bind fun a s1 h1 => Ends.pure ?_
    refine (builtinResolveUserRoles_ends h n).bind fun b s2 h2 => Ends.pure ?_
    rw [h2]
    match a, h1.2 with
    | .ok (some (record, held)), hr =>
      rw [hr.1]
      exact ⟨rfl, rfl, hr.2⟩
    | .ok none, hr =>
      rw [hr]
      exact same_refl _
  | lookupUser n =>
    refine (lookupUser_ends h n).bind fun a s1 h1 => Ends.pure ?_
    refine (builtinLookupUser_ends h n).bind fun b s2 h2 => Ends.pure ?_
    rw [h1.2, h2]
    exact same_refl _

theorem same_authenticated {a b : Except AuthError (Option UserRecord)} :
    (Decision.authenticated n p a).Same (.authenticated n p b) ↔ a = b := by
  simp [Decision.Same]

/-- When the directory's answer is that of the store. -/
theorem ldapAnswer_eq_iff {config : LdapConfig} :
    (.ok (passwordAnswer ext store n p) = ldapAnswer ext dir store config n p) ↔
      Transparent ext dir store (.ldap (some config)) (.authenticate n p) := by
  unfold ldapAnswer Transparent
  dsimp only
  match queryDirectory dir config n p with
  | some (some roles) =>
    rw [Except.ok.injEq, passwordAnswer_eq_some]
    constructor
    · rintro ⟨hu, haccept⟩
      refine ⟨_, hu, ?_, haccept⟩
      unfold provisioned
      cases store.user n <;> rfl
    · rintro ⟨user, hu, rfl, haccept⟩
      have hself : provisioned store n user.roles = user := by
        unfold provisioned
        rw [hu]
      rw [hself]
      exact ⟨hu, haccept⟩
  | some none =>
    dsimp only
    split_ifs with hfallback
    · simp [hfallback]
    · rw [Except.ok.injEq, passwordAnswer_eq_none]
      simp [hfallback]
  | none =>
    dsimp only
    split_ifs with hfallback
    · simp [hfallback]
    · simp [hfallback]

/-- The method that may ask a directory. -/
theorem authenticate_agrees (h : Mirrors ext store passwords s)
    (hapart : DigestsApart ext passwords) (dir : Directory) (backend : Backend)
    (hp : p ∈ passwords) : Agrees ext dir backend s (.authenticate n p)
      (Transparent ext dir store backend (.authenticate n p)) := by
  refine (authenticate_ends h hapart hp n).bind fun a s1 h1 => Ends.pure ?_
  rw [h1.2]
  have hbuiltin := builtinAuthenticate_ends h n p
  match backend with
  | .builtin =>
    refine hbuiltin.bind fun b s2 h2 => Ends.pure ?_
    rw [h2.2]
    exact iff_of_true (same_refl _) trivial
  | .ldap none =>
    refine hbuiltin.bind fun b s2 h2 => Ends.pure ?_
    rw [h2.2]
    exact iff_of_true (same_refl _) trivial
  | .ldap (some config) =>
    refine (ldapBackend_ends h dir config n p).bind fun b s2 h2 => Ends.pure ?_
    rw [h2, same_authenticated, ldapAnswer_eq_iff]

theorem transparent_of_store
    (hcall : call.password? = none) : Transparent ext dir store backend call := by
  unfold Transparent
  split
  · cases hcall
  · trivial

/-- A run by itself has one outcome. -/
theorem agrees_unique {P Q : Prop}
    (hP : Agrees ext dir backend s call P) (hQ : Agrees ext dir backend s call Q) : P ↔ Q := by
  obtain ⟨s1, d1, hrun1, s2, d2, hrun2, h⟩ := hP
  obtain ⟨s3, d3, hrun3, s4, d4, hrun4, h'⟩ := hQ
  obtain ⟨-, rfl⟩ := Prod.mk.inj (some.inj (hrun1.symm.trans hrun3))
  obtain ⟨-, rfl⟩ := Prod.mk.inj (some.inj (hrun2.symm.trans hrun4))
  exact h.symm.trans h'

end

/-- **Main theorem.** After any calls through the caches, and whatever has dropped out of them,
    each method decides what the backend itself decides, if and only if it need not ask a
    directory that decides otherwise than the store. -/
theorem cache_transparent_iff (ext : AuthExt) (dir : Directory) (backend : Backend)
    (store : UserStore) (events : List CacheEvent) (call : AuthCall)
    (hapart : DigestsApart ext (passwordsOf events call)) :
    ∃ s, runEvents ext store.fresh events = some s ∧
      Agrees ext dir backend s call (Transparent ext dir store backend call) := by
  have hevents : ∀ c, .call c ∈ events → ∀ p, c.password? = some p →
      p ∈ passwordsOf events call := by
    intro c hc p hp
    exact mem_append_left _ (mem_filterMap.mpr ⟨.call c, hc, hp⟩)
  obtain ⟨s, hrun, hmirrors⟩ := runEvents_mirrors Mirrors.fresh hapart hevents
  refine ⟨s, hrun, ?_⟩
  cases hp : call.password? with
  | none =>
    rw [eq_true (transparent_of_store hp)]
    exact store_agrees hmirrors dir backend hp
  | some p =>
    cases call with
    | authenticate n q =>
      obtain rfl := some.inj hp
      exact authenticate_agrees hmirrors hapart dir backend
        (mem_append_right _ (mem_singleton_self _))
    | _ => cases hp

/-! ## A directory that is not asked -/

/-- A directory with one user, who is in one group. -/
def Directory.sample : Directory where
  connect _ _ _ := true
  bind dn password := some (if (dn, password) ∈ [("cn=depot", "bind"), ("uid=alice", "secret")]
    then 0 else 49)
  search _ base _ _ := some (if base = "ou=people" then [⟨"uid=alice", []⟩]
    else [⟨"cn=devs", [("cn", ["devs"])]⟩])
  escape text := text

/-- The configuration for it. -/
def LdapConfig.sample : LdapConfig where
  url := "ldap://localhost:389"
  bindDn := "cn=depot"
  bindPassword := "bind"
  userBaseDn := "ou=people"
  groupBaseDn := "ou=groups"
  groupRoleMapping := [("devs", "developer")]

def UserStore.sample : UserStore where
  record
    | .user n => if n = "bob" then
        some { username := "bob", passwordHash := "hunter2", roles := ["developer"] } else none
    | .role n => if n = "developer" then
        some { name := "developer", capabilities := [⟨.read, "*"⟩] } else none
  role_name n role h := by
    dsimp only at h
    split_ifs at h with hn
    rw [← some.inj h, hn]

/-- A cached verification decides as the store does. -/
theorem cache_transparent_builtin : ∃ s,
    runEvents .sample UserStore.sample.fresh [.call (.authenticate "bob" "hunter2"),
      .call (.checkPermission "bob" "libs" .read), .evict (.record (.role "developer"))] = some s ∧
    Agrees .sample .sample .builtin s (.authenticate "bob" "hunter2")
      (Transparent .sample .sample .sample .builtin (.authenticate "bob" "hunter2")) :=
  cache_transparent_iff .sample .sample .builtin .sample _ _ fun _ _ _ _ h => h

/-- A user of the directory is refused: it is not asked. -/
theorem directory_ignored :
    ¬∀ (backend : Backend) (store : UserStore) (events : List CacheEvent) (call : AuthCall),
      DigestsApart .sample (passwordsOf events call) →
        ∃ s, runEvents .sample store.fresh events = some s ∧
          Agrees .sample .sample backend s call True := by
  intro hall
  obtain ⟨s, hs, hagree⟩ := hall (.ldap (some .sample)) .sample [] (.authenticate "alice" "secret")
    fun _ _ _ _ h => h
  obtain rfl := some.inj hs
  have hmirrors : Mirrors AuthExt.sample UserStore.sample ["secret"] UserStore.sample.fresh :=
    Mirrors.fresh
  have hapart : DigestsApart AuthExt.sample ["secret"] := fun _ _ _ _ h => h
  have hself := authenticate_agrees (n := "alice") hmirrors hapart Directory.sample
    (.ldap (some .sample)) (mem_singleton_self "secret")
  have htransparent := (agrees_unique hself hagree).mpr trivial
  have hquery : queryDirectory .sample .sample "alice" "secret" = some (some ["developer"]) := by
    rfl
  simp only [Transparent, hquery] at htransparent
  obtain ⟨user, hu, -⟩ := htransparent
  cases hu

end Depot
