import Depot.Accounts.Store

/-!
# Requests about accounts

The requests that change users (`server/src/server/api/users.rs`, `api/auth.rs`,
`auth/ldap.rs`, `api/backup.rs`), those that issue and validate tokens (`api/auth.rs`,
`auth/mod.rs`), and the two loops that change an servers signing secret (`auth/mod.rs`,
lines 358–405, `config/settings.rs`, lines 364–409).

The random salt and secret of a request are given with it.
-/

namespace Depot.Accounts

open Lib

/-- Responses. A failure of the store or of a hash computation is an error of the server. -/
inductive Answer where
  | ok
  | created
  | noContent
  | token (t : Token) (mustChangePassword : Bool)
  | badRequest (message : String)
  | unauthorized
  | forbidden (message : String)
  | notFound (message : String)
  | conflict (message : String)
  | serverError
  deriving DecidableEq

/-- A handler; it may return early. -/
abbrev Handler := Fallible Answer AccountOp AccountOp.Reply

/-- One operation of a handler. -/
abbrev issue (o : AccountOp) : Handler o.Reply := Fallible.issue o

/-- The reply of the store, or its error. -/
def stored {α : Type} : Option α → Handler α
  | some a => pure a
  | none => throw .serverError

/-! ## The store -/

/-- `get_user` (`core/src/service/user.rs`, lines 23–26). -/
def getUser (n : String) : Handler (Option UserRecord) := do stored (← issue (.getUser n))

/-- `put_user` (lines 18–21). -/
def putUser (c : Change) (r : UserRecord) : Handler Unit := do stored (← issue (.putUser c r))

/-- `delete_user` (lines 39–42). -/
def deleteRecord (n : String) : Handler Bool := do stored (← issue (.deleteUser n))

/-- `invalidate_user` (`auth/backend.rs`, lines 451–454). -/
def invalidateUser (n : String) : Handler Unit := issue (.invalidateUser n)

/-- `user '…' not found`. -/
def userNotFound (n : String) : Answer := .notFound ("user '" ++ n ++ "' not found")

/-- The record of a user that must exist. -/
def foundUser (n : String) : Option UserRecord → Handler UserRecord
  | some r => pure r
  | none => throw (userNotFound n)

/-- Read a user that must exist. -/
def findUser (n : String) : Handler UserRecord := do foundUser n (← getUser n)

/-! ## Authorisation -/

/-- What `resolve_user_cached` does on a miss (`auth/backend.rs`, lines 234–239). -/
def fetchUser (n : String) : Handler (Option (Option UserRecord)) := do
  match ← issue (.getUser n) with
  | some user => do
      issue (.cachePut n user)
      pure (some user)
  | none => pure none

/-- `resolve_user_cached` (lines 226–241), through the cache of the instance; empty if the user
    cannot be read. -/
def resolveUserCached (n : String) : Handler (Option (Option UserRecord)) := do
  match ← issue (.cacheGet n) with
  | some user => pure (some user)
  | none => fetchUser n

/-- `lookup_user` (lines 443–449). -/
def lookupUser (n : String) : Handler (Option UserRecord) := do stored (← resolveUserCached n)

/-- `access denied`. -/
def accessDenied : Answer := .forbidden "access denied"

/-- The check of `require_admin` (lines 125–137). -/
def adminOr : Option UserRecord → Handler Unit
  | some user => if isAdmin user then pure () else throw accessDenied
  | none => throw accessDenied

/-- `require_admin` (lines 414–421). -/
def requireAdmin (caller : String) : Handler Unit := do adminOr (← lookupUser caller)

/-! ## Passwords -/

section

variable (ext : AccountExt)

/-- `hash_password` (`auth/mod.rs`, lines 130–142); the task that computes it may fail. -/
def hashPassword (salt password : String) : Handler String := do
  Fallible.check .serverError
  pure (ext.hash salt password)

/-- `verify_password` (lines 144–156); the task that computes it may fail. -/
def verifyPassword (password hash : String) : Handler Bool :=
  ExceptT.mk (.choose fun joined => .pure (.ok (joined && ext.argon2 password hash)))

end

/-! ## Requests of `api/users.rs` -/

/-- The random values of a request. -/
structure Draw where
  salt : String
  secret : List UInt8
  deriving DecidableEq

/-- `CreateUserRequest`. -/
structure CreateUserRequest where
  username : String
  password : String
  roles : List String := []
  mustChangePassword : Bool := false
  deriving DecidableEq

/-- `UpdateUserRequest`. -/
structure UpdateUserRequest where
  password : Option String := none
  roles : Option (List String) := none
  mustChangePassword : Option Bool := none
  deriving DecidableEq

/-- Whether a name is taken (`create_user`, lines 152–160): not if the read fails. -/
def nameTaken (n : String) : Handler Bool := do
  match ← issue (.getUser n) with
  | some (some _) => pure true
  | _ => pure false

/-- `create_user` (lines 127–177). -/
def createUser (ext : AccountExt) (caller : String) (req : CreateUserRequest) (draw : Draw) :
    Handler Answer := do
  requireAdmin caller
  if req.username.isEmpty then throw (.badRequest "username is required")
  let passwordHash ← hashPassword ext draw.salt req.password
  let record : UserRecord :=
    { username := req.username, passwordHash := passwordHash, roles := req.roles,
      authSource := "builtin", tokenSecret := draw.secret,
      mustChangePassword := req.mustChangePassword }
  if ← nameTaken record.username then throw (.conflict "user already exists")
  putUser .plain record
  invalidateUser record.username
  pure .created

/-- The message for users of another source of authentication. -/
def externalPassword : Answer :=
  .badRequest "cannot change password for externally authenticated user"

/-- The hash of the new password, if there is one (lines 199–206). -/
def newHash (ext : AccountExt) (salt : String) : Option String → Handler (Option String)
  | some password => do pure (some (← hashPassword ext salt password))
  | none => pure none

/-- The changes of `update_user` (lines 222–232). -/
def updated (req : UpdateUserRequest) (passwordHash : Option String) (secret : List UInt8)
    (record : UserRecord) : UserRecord :=
  let record := match passwordHash with
    | some hash => { record with passwordHash := hash, tokenSecret := secret }
    | none => record
  let record := match req.roles with
    | some roles => { record with roles := roles }
    | none => record
  match req.mustChangePassword with
  | some mustChange => { record with mustChangePassword := mustChange }
  | none => record

section

variable (req : UpdateUserRequest) (passwordHash : Option String) (secret : List UInt8)
variable (record : UserRecord)

@[simp] theorem updated_username :
    (updated req passwordHash secret record).username = record.username := by
  simp only [updated]
  cases passwordHash <;> cases req.roles <;> cases req.mustChangePassword <;> rfl

@[simp] theorem updated_roles :
    (updated req passwordHash secret record).roles = req.roles.getD record.roles := by
  simp only [updated]
  cases passwordHash <;> cases req.roles <;> cases req.mustChangePassword <;> rfl

@[simp] theorem updated_passwordHash : (updated req passwordHash secret record).passwordHash =
      passwordHash.getD record.passwordHash := by
  simp only [updated]
  cases passwordHash <;> cases req.roles <;> cases req.mustChangePassword <;> rfl

@[simp] theorem updated_tokenSecret :
    (updated req passwordHash secret record).tokenSecret =
      if passwordHash.isSome then secret else record.tokenSecret := by
  simp only [updated]
  cases passwordHash <;> cases req.roles <;> cases req.mustChangePassword <;> rfl

end

/-- `update_user` (lines 190–245). -/
def updateUser (ext : AccountExt) (caller username : String) (req : UpdateUserRequest)
    (draw : Draw) : Handler Answer := do
  requireAdmin caller
  let passwordHash ← newHash ext draw.salt req.password
  let record ← findUser username
  if req.password.isSome && record.authSource ≠ "builtin" then throw externalPassword
  putUser .plain (updated req passwordHash draw.secret record)
  invalidateUser username
  pure .ok

/-- How many users are admins (lines 273–276). -/
def adminCount (users : List UserRecord) : ℕ := (users.filter isAdmin).length

/-- The guard for an admin (lines 272–281): none if the users cannot be listed. -/
def guardLastAdmin : Handler Unit := do
  match ← issue .listUsers with
  | some users =>
      if adminCount users ≤ 1 then throw (.badRequest "cannot delete the last admin user")
      else pure ()
  | none => pure ()

/-- The guard of `delete_user` (lines 269–282): none if the user cannot be read. -/
def guardDelete (username : String) : Handler Unit := do
  match ← issue (.getUser username) with
  | some (some target) => if isAdmin target then guardLastAdmin else pure ()
  | _ => pure ()

/-- The answer of `delete_user` (lines 283–297). -/
def deleted (username : String) : Bool → Handler Answer
  | true => do
      invalidateUser username
      pure .noContent
  | false => throw (userNotFound username)

/-- `delete_user` (lines 260–297). -/
def deleteUser (caller username : String) : Handler Answer := do
  requireAdmin caller
  guardDelete username
  let existed ← deleteRecord username
  deleted username existed

/-- `revoke_user_tokens` (lines 313–343). -/
def revokeUserTokens (caller username : String) (secret : List UInt8) : Handler Answer := do
  if caller ≠ username then requireAdmin caller
  let record ← findUser username
  putUser .tokens { record with tokenSecret := secret }
  invalidateUser username
  pure .noContent

/-! ## Tokens -/

section

variable (ext : AccountExt)

/-- `create_user_token` and `create_token` (`auth/mod.rs`, lines 82–93 and 167–187); the global
    secret must have 32 bytes. -/
def createUserToken (username : String) (globalSecret userSecret : List UInt8)
    (expirySecs : UInt64) (roles : List String) (now : ℤ) : Option Token :=
  if globalSecret.length = 32 then
    some { sub := username, exp := (now + expirySecs.toNat) % 2 ^ 64, iat := now,
           roles := roles,
           key := ext.keyedHash globalSecret userSecret }
  else none

/-- The leeway of the validation of `exp`, in seconds. -/
def leeway : ℤ := 60

/-- `try_validate_token` (lines 191–198): the signature and the expiry. -/
def tryValidateToken (token : Token) (globalSecret userSecret : List UInt8) (now : ℤ) : Bool :=
  globalSecret.length = 32 && token.key = ext.keyedHash globalSecret userSecret &&
    now - leeway ≤ token.exp

/-- The check of `resolve_identity` (lines 296–303): the current secret, else the previous. -/
def validToken (token : Token) (jwt : JwtSecretState) (user : UserRecord) (now : ℤ) : Bool :=
  tryValidateToken ext token jwt.current user.tokenSecret now ||
    jwt.previous.any fun prev => tryValidateToken ext token prev user.tokenSecret now

/-- Sign a token for a user with the secret of the instance (`api/auth.rs`, lines 60–70 and
    171–187). -/
def signToken (username : String) (userSecret : List UInt8) (roles : List String)
    (mustChangePassword : Bool) : Handler Answer := do
  let jwt ← issue .loadJwt
  let settings ← issue .loadSettings
  let now ← issue .clock
  match createUserToken ext username jwt.current userSecret settings.jwtExpirySecs roles now with
  | some token => do
      issue (.issue token)
      pure (.token token mustChangePassword)
  | none => throw .serverError

/-- The identity that a bearer token has (`auth/mod.rs`, lines 276–316); a user that cannot be read
    is like an unknown one. -/
def resolveBearer (token : Token) : Handler Answer := do
  match ← resolveUserCached token.sub with
  | some (some user) => do
      let jwt ← issue .loadJwt
      let now ← issue .clock
      let valid := validToken ext token jwt user now
      issue (.decide token valid)
      if valid then pure .ok else throw .unauthorized
  | _ => do
      issue (.decide token false)
      throw .unauthorized

end

/-! ## Requests of `api/auth.rs` -/

section

variable (ext : AccountExt)

/-- The hash to verify a password against. -/
def hashOf : Option UserRecord → String
  | some user => user.passwordHash
  | none => ext.dummyHash

/-- `authenticate` (`auth/backend.rs`, lines 339–396), without the cache that saves it a
    verification it has already made. -/
def authenticate (username password : String) : Handler (Option UserRecord) := do
  let user ← lookupUser username
  let valid ← verifyPassword ext password (hashOf ext user)
  pure (if valid then user else none)

/-- `login` (lines 37–76). -/
def login (username password : String) : Handler Answer := do
  match ← authenticate ext username password with
  | some user => signToken ext user.username user.tokenSecret user.roles user.mustChangePassword
  | none => throw .unauthorized

/-- `ChangePasswordRequest`. -/
structure ChangePasswordRequest where
  username : String
  currentPassword : Option String := none
  newPassword : String
  deriving DecidableEq

/-- The answer to a wrong current password. -/
def wrongPassword : Answer := .forbidden "current password is incorrect"

/-- The record to change (lines 116–145): an admin need not know the password of others. -/
def passwordOwner (caller : String) (req : ChangePasswordRequest) : Handler UserRecord := do
  let record := (← issue (.getUser req.username)).join
  if caller ≠ req.username then
    match record with
    | some record => pure record
    | none => do
        let _ ← verifyPassword ext "" ext.dummyHash
        throw wrongPassword
  else
    match record with
    | some record => do
        if ← verifyPassword ext (req.currentPassword.getD "") record.passwordHash then pure record
        else throw wrongPassword
    | none => throw wrongPassword

/-- The answer of `change_password` (lines 171–192): a new token for one's own password. -/
def passwordChanged (caller : String) (req : ChangePasswordRequest) (record : UserRecord) :
    Handler Answer :=
  if caller = req.username then
    signToken ext req.username record.tokenSecret record.roles false
  else pure .noContent

/-- `change_password` (lines 99–197). -/
def changePassword (caller : String) (req : ChangePasswordRequest) (draw : Draw) :
    Handler Answer := do
  if caller ≠ req.username then requireAdmin caller
  let record ← passwordOwner ext caller req
  if record.authSource ≠ "builtin" then throw externalPassword
  let passwordHash ← hashPassword ext draw.salt req.newPassword
  let record :=
    { record with passwordHash := passwordHash, tokenSecret := draw.secret,
                  mustChangePassword := false }
  putUser .password record
  invalidateUser req.username
  passwordChanged ext caller req record

end

/-- `revoke_all_tokens` (lines 210–238). -/
def revokeAllTokens (caller : String) (secret : List UInt8) : Handler Answer := do
  requireAdmin caller
  let now ← issue .clock
  let state : JwtSecretState := { current := secret, previous := none, rotatedAt := now }
  stored (← issue (.putJwt true state))
  issue (.storeJwt state)
  pure .noContent

/-! ## Other changes -/

/-- `EXTERNAL_PASSWORD_HASH`. -/
def externalPasswordHash : String := "!EXTERNAL"

/-- The record that `provision_user` stores: none if the roles are what they were. -/
def provisioned (username : String) (roles : List String) :
    Option UserRecord → Option UserRecord
  | some existing => if existing.roles ≠ roles then some { existing with roles := roles } else none
  | none =>
      some { username := username, passwordHash := externalPasswordHash, roles := roles,
             authSource := "ldap" }

/-- `provision_user` (`auth/ldap.rs`, lines 159–200), called with the roles of the user's groups
    once the directory has accepted the password. -/
def provisionUser (username : String) (roles : List String) : Handler Answer := do
  let existing ← getUser username
  match provisioned username roles existing with
  | some record => do
      putUser .plain record
      pure .ok
  | none => pure .ok

/-- The users of a backup (`api/backup.rs`, lines 177–190 and 237–238). -/
def restoreUsers (caller : String) (users : List UserRecord) : Handler Answer := do
  requireAdmin caller
  Fallible.each (putUser .plain) users
  issue .invalidateAll
  pure .ok

/-- The rotation interval, `as i64`. -/
def rotationInterval (settings : Settings) : ℤ := settings.jwtRotationIntervalSecs.toInt64.toInt

/-- One round of `run_jwt_rotation` (`auth/mod.rs`, lines 370–397). -/
def rotateJwt (secret : List UInt8) : Handler Answer := do
  let settings ← issue .loadSettings
  let current ← issue .loadJwt
  let now : ℤ ← issue .clock
  if now - current.rotatedAt < rotationInterval settings then pure .noContent
  else do
    let state : JwtSecretState :=
      { previous := some current.current, current := secret, rotatedAt := now }
    stored (← issue (.putJwt false state))
    issue (.storeJwt state)
    pure .ok

/-- The reload of the secret in one round of `run_settings_refresh` (`config/settings.rs`,
    lines 388–398). -/
def refreshJwt : Handler Answer := do
  match ← issue .getJwt with
  | some (some state) => do
      issue (.storeJwt state)
      pure .ok
  | _ => pure .ok

/-! ## The system -/

/-- Requests, and rounds of the loops. -/
inductive AccountRequest where
  | createUser (caller : String) (req : CreateUserRequest) (draw : Draw)
  | updateUser (caller username : String) (req : UpdateUserRequest) (draw : Draw)
  | deleteUser (caller username : String)
  | changePassword (caller : String) (req : ChangePasswordRequest) (draw : Draw)
  | revokeUserTokens (caller username : String) (secret : List UInt8)
  | revokeAllTokens (caller : String) (secret : List UInt8)
  | provisionUser (username : String) (roles : List String)
  | restoreUsers (caller : String) (users : List UserRecord)
  | login (username password : String)
  | resolveBearer (token : Token)
  | rotateJwt (secret : List UInt8)
  | refreshJwt
  deriving DecidableEq

/-- A request, and the instance that serves it. -/
structure AccountJob where
  server : ℕ := 0
  request : AccountRequest
  deriving DecidableEq

/-- The handler that answers a request. -/
def AccountRequest.handler (ext : AccountExt) : AccountRequest → Handler Answer
  | .createUser caller req draw => Accounts.createUser ext caller req draw
  | .updateUser caller username req draw => Accounts.updateUser ext caller username req draw
  | .deleteUser caller username => Accounts.deleteUser caller username
  | .changePassword caller req draw => Accounts.changePassword ext caller req draw
  | .revokeUserTokens caller username secret => Accounts.revokeUserTokens caller username secret
  | .revokeAllTokens caller secret => Accounts.revokeAllTokens caller secret
  | .provisionUser username roles => Accounts.provisionUser username roles
  | .restoreUsers caller users => Accounts.restoreUsers caller users
  | .login username password => Accounts.login ext username password
  | .resolveBearer token => Accounts.resolveBearer ext token
  | .rotateJwt secret => Accounts.rotateJwt secret
  | .refreshJwt => Accounts.refreshJwt

/-- What happens by itself: time passes, and entries drop out of the caches. -/
inductive AccountEnv where
  | tick (secs : ℕ)
  | evict (k : ℕ) (username : String)
  deriving DecidableEq

/-- Any number of instances, requests and rounds. -/
def accountSystem (ext : AccountExt) :
    System AccountOp AccountOp.Reply AccountState AccountJob AccountEnv where
  exec i j o b s := s.exec j.server i o b
  code j := (j.request.handler ext).run.bind fun _ => .pure ()
  env e s :=
    match e with
    | .tick secs => some { s with now := s.now + secs }
    | .evict k n =>
        some (s.onInstance k fun x => { x with cache := Function.update x.cache n none })
  leave _ s := s

/-- Stand-ins for Argon2 and BLAKE3. -/
def AccountExt.sample : AccountExt where
  argon2 password hash := hash = "salt:" ++ password
  hash salt password := salt ++ ":" ++ password
  keyedHash secret data := secret ++ data
  dummyHash := ""

end Depot.Accounts
