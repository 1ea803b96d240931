import Depot.Lib.RelyGuarantee
import Depot.Lib.Lookaside
import Mathlib.Data.String.Basic

/-!
# Authorisation with caches

`CachedAuthBackend` (`server/src/server/auth/backend.rs`, lines 168–465): users and
roles are read from the store through caches that drop out by time or for want of room,
and successful password verifications are cached as well. Whoever changes a user or a role
(`api/users.rs`, `api/roles.rs`, `api/auth.rs`, `config/init.rs`) invalidates its entry
afterwards; a restored backup or changed settings invalidate everything.

The hash functions are parameters.
-/

namespace Depot

open Lib

/-! ## Records -/

/-- `Capability`. -/
inductive Capability where
  | read
  | write
  | delete
  deriving DecidableEq

/-- `CapabilityGrant`. -/
structure CapabilityGrant where
  capability : Capability
  repo : String
  deriving DecidableEq

/-- `UserRecord`. -/
structure UserRecord where
  username : String
  passwordHash : String
  roles : List String := []
  authSource : String := "builtin"
  tokenSecret : List UInt8 := []
  mustChangePassword : Bool := false
  deriving DecidableEq

/-- `RoleRecord`. -/
structure RoleRecord where
  name : String
  description : String := ""
  capabilities : List CapabilityGrant
  deriving DecidableEq

/-- `VerifiedCredential` (lines 217–223). -/
structure VerifiedCredential where
  passwordHash : String
  passwordDigest : String
  deriving DecidableEq

/-- The errors of the backend. -/
inductive AuthError where
  | forbidden
  | storage
  deriving DecidableEq

/-- `is_admin` (lines 60–62). -/
def isAdmin (user : UserRecord) : Bool := user.roles.any (· == "admin")

/-- `check_grants` (`core/src/auth.rs`, lines 35–48). -/
def checkGrants (roles : List RoleRecord) (repo : String) (required : Capability) :
    Except AuthError Unit :=
  if roles.any fun role => role.capabilities.any fun grant =>
      grant.capability = required && (grant.repo = "*" || grant.repo = repo) then
    .ok ()
  else .error .forbidden

/-- The key of a record that is cached. -/
inductive AuthKey where
  | user (username : String)
  | role (name : String)
  deriving DecidableEq

/-- What is stored for a key, if anything. -/
abbrev AuthKey.Record : AuthKey → Type
  | .user _ => Option UserRecord
  | .role _ => Option RoleRecord

instance : ∀ k : AuthKey, DecidableEq k.Record
  | .user _ => inferInstanceAs (DecidableEq (Option UserRecord))
  | .role _ => inferInstanceAs (DecidableEq (Option RoleRecord))

/-- What a call decides. -/
inductive Decision where
  | authenticated (username password : String) (answer : Except AuthError (Option UserRecord))
  | permission (username repo : String) (required : Capability) (answer : Except AuthError Unit)
  | admin (username : String) (answer : Except AuthError Unit)
  | roles (username : String)
      (answer : Except AuthError (Option (UserRecord × List RoleRecord)))
  | user (username : String) (answer : Except AuthError (Option UserRecord))
  deriving DecidableEq

/-- The functions that are not part of the repository: Argon2 (password and hash), BLAKE3
    and the hash that stands for an unknown user. -/
structure AuthExt where
  argon2 : String → String → Bool
  blake3 : String → String
  dummyHash : String

/-! ## The state and its operations -/

/-- The atomic operations. `enter` and `decide` are the start and the end of a call. -/
inductive AuthOp where
  | enter
  | cacheGet (k : AuthKey)
  | cachePut (k : AuthKey) (v : k.Record)
  | fetch (k : AuthKey)
  | change (k : AuthKey) (v : k.Record)
  | invalidateUserEntry (username : String)
  | invalidateRoleEntry (name : String)
  | invalidateUsers
  | invalidateRoles
  | authGet (username : String)
  | authPut (username : String) (v : VerifiedCredential)
  | authInvalidate (username : String)
  | authInvalidateAll
  | decide (d : Decision)

/-- Replies. A `fetch` that fails replies nothing; a `change` replies whether the record
    existed. -/
def AuthOp.Reply : AuthOp → Type
  | .cacheGet k => Option k.Record
  | .fetch k => Option k.Record
  | .change .. => Option Bool
  | .authGet _ => Option VerifiedCredential
  | _ => Unit

/-- The store with the caches for users and roles, the cache of verified passwords, and
    the decisions of the calls. -/
structure AuthState where
  table : Lookaside AuthKey AuthKey.Record
  authCache : String → Option VerifiedCredential := fun _ => none
  decisions : List (ℕ × Decision) := []

/-- Whether there is a record. -/
def AuthKey.Record.exists : {k : AuthKey} → k.Record → Bool
  | .user _, v => v.isSome
  | .role _, v => v.isSome

/-- The key of a user, not of a role. -/
def AuthKey.isUser : AuthKey → Bool
  | .user _ => true
  | .role _ => false

namespace AuthState

/-- What an operation of call `i` does; the store may fail. -/
def exec (i : ℕ) (o : AuthOp) (b : Bool) (s : AuthState) : Option (AuthState × o.Reply) :=
  match o with
  | .enter => some ({ s with table := s.table.enter i }, ())
  | .cacheGet k => some ({ s with table := s.table.hit i k }, s.table.cache k)
  | .cachePut k v => some ({ s with table := s.table.insert k v }, ())
  | .fetch k =>
      if b then some ({ s with table := s.table.fetch i k }, some (s.table.current k))
      else some (s, none)
  | .change k v =>
      if b then some ({ s with table := s.table.change k v }, some (s.table.current k).exists)
      else some (s, none)
  | .invalidateUserEntry n =>
      some ({ s with table := s.table.invalidate fun k => decide (k = .user n) }, ())
  | .invalidateRoleEntry n =>
      some ({ s with table := s.table.invalidate fun k => decide (k = .role n) }, ())
  | .invalidateUsers => some ({ s with table := s.table.invalidate AuthKey.isUser }, ())
  | .invalidateRoles => some ({ s with table := s.table.invalidate fun k => !k.isUser }, ())
  | .authGet n => some (s, s.authCache n)
  | .authPut n v => some ({ s with authCache := Function.update s.authCache n (some v) }, ())
  | .authInvalidate n => some ({ s with authCache := Function.update s.authCache n none }, ())
  | .authInvalidateAll => some ({ s with authCache := fun _ => none }, ())
  | .decide d => some ({ s with decisions := (i, d) :: s.decisions }, ())

end AuthState

/-- A function of the backend. -/
abbrev AuthTask := Task AuthOp AuthOp.Reply

/-- A call starts. -/
def enterCall : AuthTask Unit := Task.call AuthOp.enter

/-- A call decides. -/
def decideCall (d : Decision) : AuthTask Unit := Task.call (AuthOp.decide d)

/-- `get_cached_user` (lines 197–199). -/
def getCachedUser (username : String) : AuthTask (Option (Option UserRecord)) :=
  Task.call (AuthOp.cacheGet (.user username))

/-- `put_cached_user` (lines 201–203). -/
def putCachedUser (username : String) (value : Option UserRecord) : AuthTask Unit :=
  Task.call (AuthOp.cachePut (.user username) value)

/-- `get_cached_role` (lines 205–207). -/
def getCachedRole (name : String) : AuthTask (Option (Option RoleRecord)) :=
  Task.call (AuthOp.cacheGet (.role name))

/-- `put_cached_role` (lines 209–211). -/
def putCachedRole (name : String) (value : Option RoleRecord) : AuthTask Unit :=
  Task.call (AuthOp.cachePut (.role name) value)

/-- `service::get_user` (`core/src/service/user.rs`, lines 23–26). -/
def getUser (username : String) : AuthTask (Option (Option UserRecord)) :=
  Task.call (AuthOp.fetch (.user username))

/-- `service::get_role` (lines 51–54). -/
def getRole (name : String) : AuthTask (Option (Option RoleRecord)) :=
  Task.call (AuthOp.fetch (.role name))

/-- `auth_cache.get`. -/
def getVerified (username : String) : AuthTask (Option VerifiedCredential) :=
  Task.call (AuthOp.authGet username)

/-- `auth_cache.insert`. -/
def putVerified (username : String) (v : VerifiedCredential) : AuthTask Unit :=
  Task.call (AuthOp.authPut username v)

/-! ## Lookups -/

/-- The roles of a user that can be read (`core/src/service/user.rs`, lines 80–85). -/
def getRoles : List String → AuthTask (List RoleRecord)
  | [] => pure []
  | name :: names => do
      let role ← getRole name
      let roles ← getRoles names
      match role with
      | some (some role) => pure (role :: roles)
      | _ => pure roles

/-- `get_user_with_roles` (lines 72–87). -/
def getUserWithRoles (username : String) :
    AuthTask (Option (Option (UserRecord × List RoleRecord))) := do
  match ← getUser username with
  | none => pure none
  | some none => pure (some none)
  | some (some user) => do
      let roles ← getRoles user.roles
      pure (some (some (user, roles)))

/-- `resolve_user_cached` (lines 227–241). -/
def resolveUserCached (username : String) : AuthTask (Except AuthError UserRecord) := do
  match ← getCachedUser username with
  | some (some user) => pure (.ok user)
  | some none => pure (.error .forbidden)
  | none => do
      match ← getUser username with
      | none => pure (.error .storage)
      | some user => do
          putCachedUser username user
          match user with
          | some user => pure (.ok user)
          | none => pure (.error .forbidden)

/-- The roles that are cached, and the names of those that are not (lines 275–283). -/
def getCachedRoles : List String → AuthTask (List RoleRecord × List String)
  | [] => pure ([], [])
  | name :: names => do
      let role ← getCachedRole name
      let (roles, uncached) ← getCachedRoles names
      match role with
      | some (some role) => pure (role :: roles, uncached)
      | some none => pure (roles, uncached)
      | none => pure (roles, name :: uncached)

/-- Fetch the roles that are not cached (lines 285–295). -/
def fetchUncached : List String → AuthTask (Option (List (String × Option RoleRecord)))
  | [] => pure (some [])
  | name :: names => do
      match ← getRole name with
      | none => pure none
      | some role => do
          match ← fetchUncached names with
          | none => pure none
          | some fetched => pure (some ((name, role) :: fetched))

/-- Cache the roles that were fetched (lines 296–301). -/
def putFetched : List (String × Option RoleRecord) → AuthTask (List RoleRecord)
  | [] => pure []
  | (name, role) :: fetched => do
      putCachedRole name role
      let roles ← putFetched fetched
      match role with
      | some role => pure (role :: roles)
      | none => pure roles

/-- `resolve_user_and_roles_cached` on a miss (lines 253–271). -/
def resolveUncached (username : String) :
    AuthTask (Except AuthError (UserRecord × List RoleRecord)) := do
  match ← getUserWithRoles username with
  | none => pure (.error .storage)
  | some (some (user, roles)) => do
      putCachedUser username (some user)
      Task.forEach roles fun role => putCachedRole role.name (some role)
      pure (.ok (user, roles))
  | some none => do
      putCachedUser username none
      pure (.error .forbidden)

/-- `resolve_user_and_roles_cached` on a hit (lines 274–303). -/
def resolveRolesCached (user : UserRecord) :
    AuthTask (Except AuthError (UserRecord × List RoleRecord)) := do
  let (roles, uncached) ← getCachedRoles user.roles
  match ← fetchUncached uncached with
  | none => pure (.error .storage)
  | some fetched => do
      let others ← putFetched fetched
      pure (.ok (user, roles ++ others))

/-- `resolve_user_and_roles_cached` (lines 245–304). -/
def resolveUserAndRolesCached (username : String) :
    AuthTask (Except AuthError (UserRecord × List RoleRecord)) := do
  match ← getCachedUser username with
  | some (some user) => resolveRolesCached user
  | some none => pure (.error .forbidden)
  | none => resolveUncached username

section

variable (ext : AuthExt)

/-- `verify_password` (`auth/mod.rs`, lines 144–156); the task that computes it may fail. -/
def verifyPassword (password hash : String) : AuthTask Bool :=
  .choose fun joined => pure (joined && ext.argon2 password hash)

/-- The user and the hash to verify against (lines 344–364). -/
def credentials (username : String) :
    AuthTask (Except AuthError (Option UserRecord × String)) := do
  match ← getCachedUser username with
  | some (some user) => pure (.ok (some user, user.passwordHash))
  | some none => pure (.ok (none, ext.dummyHash))
  | none => do
      match ← getUser username with
      | none => pure (.error .storage)
      | some fetched => do
          putCachedUser username fetched
          match fetched with
          | some user => pure (.ok (some user, user.passwordHash))
          | none => pure (.ok (none, ext.dummyHash))

/-- The verification that skips Argon2 (lines 366–377). -/
def cacheHit (username password hash : String) : Option UserRecord → AuthTask Bool
  | some _ => do
      let v ← getVerified username
      pure (v.any fun v => v.passwordHash = hash && v.passwordDigest = ext.blake3 password)
  | none => pure false

/-- Verify and cache that it succeeded (lines 379–395). -/
def verifyAndCache (username password hash : String) (user : Option UserRecord) :
    AuthTask (Option UserRecord) := do
  let valid ← verifyPassword ext password hash
  if valid then
    match user with
    | some user => do
        putVerified username ⟨hash, ext.blake3 password⟩
        pure (some user)
    | none => pure none
  else pure none

/-- `authenticate` (lines 339–396). -/
def authenticate (username password : String) :
    AuthTask (Except AuthError (Option UserRecord)) := do
  match ← credentials ext username with
  | .error e => pure (.error e)
  | .ok (user, hash) => do
      let hit ← cacheHit ext username password hash user
      if hit then pure (.ok user)
      else do
        let user ← verifyAndCache ext username password hash user
        pure (.ok user)

end

/-- `check_permission` (lines 404–412). -/
def checkPermission (username repo : String) (required : Capability) :
    AuthTask (Except AuthError Unit) := do
  match ← resolveUserAndRolesCached username with
  | .ok (_, roles) => pure (checkGrants roles repo required)
  | .error e => pure (.error e)

/-- `require_admin` (lines 414–421). -/
def requireAdmin (username : String) : AuthTask (Except AuthError Unit) := do
  match ← resolveUserCached username with
  | .ok user => pure (if isAdmin user then .ok () else .error .forbidden)
  | .error e => pure (.error e)

/-- `resolve_user_roles` (lines 423–435). -/
def resolveUserRoles (username : String) :
    AuthTask (Except AuthError (Option (UserRecord × List RoleRecord))) := do
  match ← resolveUserAndRolesCached username with
  | .ok pair => pure (.ok (some pair))
  | .error .forbidden => pure (.ok none)
  | .error .storage => pure (.error .storage)

/-- `lookup_user` (lines 443–449). -/
def lookupUser (username : String) : AuthTask (Except AuthError (Option UserRecord)) := do
  match ← resolveUserCached username with
  | .ok user => pure (.ok (some user))
  | .error .forbidden => pure (.ok none)
  | .error .storage => pure (.error .storage)

/-! ## Changes -/

/-- `invalidate_user` (lines 451–454). -/
def invalidateUser (username : String) : AuthTask Unit := do
  Task.call (AuthOp.invalidateUserEntry username)
  Task.call (AuthOp.authInvalidate username)

/-- `invalidate_role` (lines 456–458). -/
def invalidateRole (name : String) : AuthTask Unit := Task.call (AuthOp.invalidateRoleEntry name)

/-- `invalidate_all` (lines 460–464). -/
def invalidateAll : AuthTask Unit := do
  Task.call AuthOp.invalidateUsers
  Task.call AuthOp.invalidateRoles
  Task.call AuthOp.authInvalidateAll

/-- `service::put_user` or `delete_user`; nothing when the store fails. -/
def changeUser (username : String) (record : Option UserRecord) : AuthTask (Option Bool) :=
  Task.call (AuthOp.change (.user username) record)

/-- `service::put_role` or `delete_role`. -/
def changeRole (name : String) (record : Option RoleRecord) : AuthTask (Option Bool) :=
  Task.call (AuthOp.change (.role name) record)

/-- What is asked of the backend, and the changes. -/
inductive AuthJob where
  | authenticate (username password : String)
  | checkPermission (username repo : String) (required : Capability)
  | requireAdmin (username : String)
  | resolveUserRoles (username : String)
  | lookupUser (username : String)
  | putUser (record : UserRecord)
  | deleteUser (username : String)
  | putRole (record : RoleRecord)
  | deleteRole (name : String)
  | restore (roles : List RoleRecord) (users : List UserRecord)
  deriving DecidableEq

/-- A change of a user, followed by the invalidation (`api/users.rs`, lines 163–165, 233–235
    and 335–337, `api/auth.rs`, lines 165–168, `config/init.rs`, lines 255–256). -/
def putUser (record : UserRecord) : AuthTask Unit := do
  match ← changeUser record.username (some record) with
  | some _ => invalidateUser record.username
  | none => pure ()

/-- `delete_user` (`api/users.rs`, lines 283–285). -/
def deleteUser (username : String) : AuthTask Unit := do
  match ← changeUser username none with
  | some true => invalidateUser username
  | _ => pure ()

/-- A change of a role, followed by the invalidation (`api/roles.rs`, lines 153–155 and
    206–208, `config/init.rs`, lines 118–119). -/
def putRole (record : RoleRecord) : AuthTask Unit := do
  match ← changeRole record.name (some record) with
  | some _ => invalidateRole record.name
  | none => pure ()

/-- `delete_role` (`api/roles.rs`, lines 245–247). -/
def deleteRole (name : String) : AuthTask Unit := do
  match ← changeRole name none with
  | some true => invalidateRole name
  | _ => pure ()

/-- Put records, one after the other, until the store fails. -/
def putAll {α : Type} (put : α → AuthTask (Option Bool)) : List α → AuthTask Bool
  | [] => pure true
  | record :: records => do
      match ← put record with
      | some _ => putAll put records
      | none => pure false

/-- Roles and users from a backup (`api/backup.rs`, lines 164–190 and 237–238); the
    invalidation alone follows a change of the LDAP settings (`api/settings.rs`, lines 161
    and 192). -/
def restore (roles : List RoleRecord) (users : List UserRecord) : AuthTask Unit := do
  let ok ← putAll (fun role => changeRole role.name (some role)) roles
  if ok then do
    let ok ← putAll (fun user => changeUser user.username (some user)) users
    if ok then invalidateAll else pure ()
  else pure ()

/-- A call, from its start to its decision. -/
def authCall {α : Type} (p : AuthTask α) (d : α → Decision) : AuthTask Unit := do
  enterCall
  let answer ← p
  decideCall (d answer)

/-- The function that a job calls. -/
def AuthJob.code (ext : AuthExt) : AuthJob → AuthTask Unit
  | .authenticate n p => authCall (Depot.authenticate ext n p) (.authenticated n p)
  | .checkPermission n r c => authCall (Depot.checkPermission n r c) (.permission n r c)
  | .requireAdmin n => authCall (Depot.requireAdmin n) (.admin n)
  | .resolveUserRoles n => authCall (Depot.resolveUserRoles n) (.roles n)
  | .lookupUser n => authCall (Depot.lookupUser n) (.user n)
  | .putUser r => Depot.putUser r
  | .deleteUser n => Depot.deleteUser n
  | .putRole r => Depot.putRole r
  | .deleteRole n => Depot.deleteRole n
  | .restore roles users => Depot.restore roles users

/-- What drops out of the caches by itself. -/
inductive AuthEvict where
  | record (k : AuthKey)
  | credential (username : String)
  deriving DecidableEq

/-- Any number of calls and changes. -/
def authSystem (ext : AuthExt) :
    System AuthOp AuthOp.Reply AuthState AuthJob AuthEvict where
  exec i _ o b s := s.exec i o b
  code j := j.code ext
  env e s :=
    match e with
    | .record k => some { s with table := s.table.evict k }
    | .credential n => some { s with authCache := Function.update s.authCache n none }
  leave _ s := s

/-- The condition on a run: no call caches a record that it fetched before the last
    invalidation of its key. -/
def authRules : Rules AuthOp AuthState AuthJob AuthEvict where
  op i _ s o _ :=
    match o with
    | .cachePut k v => decide (¬s.table.Late i k v)
    | _ => true
  spawn _ _ _ := true
  env _ _ _ := true

end Depot
