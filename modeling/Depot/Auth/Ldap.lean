import Depot.Auth.Backend

/-!
# The backends behind the caches

`BuiltinAuthBackend` (`server/src/server/auth/backend.rs`, lines 69–166), which asks the store,
and `LdapAuthBackend` (`server/src/server/auth/ldap.rs`), which asks a directory for the
password and the groups of a user and otherwise the store.

The directory and the functions of the LDAP client are parameters.
-/

namespace Depot

open Lib

/-! ## The built-in backend -/

section

variable (ext : AuthExt)

/-- `authenticate` (lines 83–97). -/
def builtinAuthenticate (username password : String) :
    AuthTask (Except AuthError (Option UserRecord)) := do
  match ← getUser username with
  | none => pure (.error .storage)
  | some user => do
      let hash := match user with
        | some user => user.passwordHash
        | none => ext.dummyHash
      let valid ← verifyPassword ext password hash
      pure (.ok (if valid then user else none))

/-- `check_permission` (lines 105–118). -/
def builtinCheckPermission (username repo : String) (required : Capability) :
    AuthTask (Except AuthError Unit) := do
  match ← getUserWithRoles username with
  | none => pure (.error .storage)
  | some none => pure (.error .forbidden)
  | some (some (_, roles)) => pure (checkGrants roles repo required)

/-- `require_admin` (lines 120–132). -/
def builtinRequireAdmin (username : String) : AuthTask (Except AuthError Unit) := do
  match ← getUser username with
  | none => pure (.error .storage)
  | some none => pure (.error .forbidden)
  | some (some user) => pure (if isAdmin user then .ok () else .error .forbidden)

/-- `resolve_user_roles` (lines 134–142). -/
def builtinResolveUserRoles (username : String) :
    AuthTask (Except AuthError (Option (UserRecord × List RoleRecord))) := do
  match ← getUserWithRoles username with
  | none => pure (.error .storage)
  | some found => pure (.ok found)

/-- `lookup_user` (lines 150–155). -/
def builtinLookupUser (username : String) : AuthTask (Except AuthError (Option UserRecord)) := do
  match ← getUser username with
  | none => pure (.error .storage)
  | some found => pure (.ok found)

end

/-! ## The directory -/

/-- `LdapConfig` (`server/src/server/config/mod.rs`, lines 164–196). -/
structure LdapConfig where
  url : String
  bindDn : String
  bindPassword : String
  userBaseDn : String
  userFilter : String := "(uid=\x7busername\x7d)"
  groupBaseDn : String
  groupFilter : String := "(member=\x7bdn\x7d)"
  groupNameAttr : String := "cn"
  groupRoleMapping : List (String × String) := []
  starttls : Bool := false
  tlsSkipVerify : Bool := false
  fallbackToBuiltin : Bool := true
  deriving DecidableEq

/-- An entry that a search finds. -/
structure SearchEntry where
  dn : String
  attrs : List (String × List String) := []
  deriving DecidableEq

/-- A directory server and the client that talks to it: whether a connection succeeds, the
    result code of a bind and the entries that a search finds under the name that is bound, if
    they do not fail, and `ldap_escape`. -/
structure Directory where
  connect : (url : String) → (starttls tlsSkipVerify : Bool) → Bool
  bind : (dn password : String) → Option ℕ
  search : (bound base filter attr : String) → Option (List SearchEntry)
  escape : String → String

section

variable (dir : Directory) (config : LdapConfig)

/-- A bind that must succeed. -/
def Directory.bindService : Option Unit :=
  (dir.bind config.bindDn config.bindPassword).bind fun rc => if rc = 0 then some () else none

/-- `find_user_dn` (lines 86–109). -/
def findUserDn (username : String) : Option (Option String) :=
  (dir.search config.bindDn config.userBaseDn
    (config.userFilter.replace "\x7busername\x7d" (dir.escape username)) "dn").map fun entries =>
      entries.head?.map SearchEntry.dn

/-- `query_groups` (lines 114–143). -/
def queryGroups (userDn : String) : Option (List String) :=
  (dir.search config.bindDn config.groupBaseDn
    (config.groupFilter.replace "\x7bdn\x7d" (dir.escape userDn)) config.groupNameAttr).map
      fun entries => entries.flatMap fun entry =>
        (entry.attrs.lookup config.groupNameAttr).getD []

/-- `map_groups_to_roles` (lines 146–156). -/
def mapGroupsToRoles (groups : List String) : List String :=
  groups.foldl (fun roles group =>
    match config.groupRoleMapping.lookup group with
    | some role => if role ∈ roles then roles else roles ++ [role]
    | none => roles) []

/-- What the directory says of a user with a password (lines 209–232): nothing when it fails,
    else the roles of the groups if it accepts the password. -/
def queryDirectory (username password : String) : Option (Option (List String)) :=
  if dir.connect config.url config.starttls config.tlsSkipVerify then do
    dir.bindService config
    match ← findUserDn dir config username with
    | none => some none
    | some userDn => do
        let rc ← dir.bind userDn password
        if rc ≠ 0 then some none
        else do
          dir.bindService config
          let groups ← queryGroups dir config userDn
          some (some (mapGroupsToRoles config groups))
  else none

end

/-! ## The LDAP backend -/

/-- `EXTERNAL_PASSWORD_HASH`. -/
def externalPasswordHash : String := "!EXTERNAL"

/-- `provision_user` (lines 159–200). -/
def provisionUser (username : String) (roles : List String) :
    AuthTask (Except AuthError (Option UserRecord)) := do
  match ← getUser username with
  | none => pure (.error .storage)
  | some (some existing) =>
      if existing.roles ≠ roles then do
        let record := { existing with roles := roles }
        match ← changeUser username (some record) with
        | none => pure (.error .storage)
        | some _ => pure (.ok (some record))
      else pure (.ok (some existing))
  | some none => do
      let record : UserRecord :=
        { username := username, passwordHash := externalPasswordHash, roles := roles,
          authSource := "ldap" }
      match ← changeUser username (some record) with
      | none => pure (.error .storage)
      | some _ => pure (.ok (some record))

/-- `ldap_authenticate` (lines 203–237). Callers are told no more about an error than that there
    was one. -/
def ldapAuthenticate (dir : Directory) (config : LdapConfig) (username password : String) :
    AuthTask (Except AuthError (Option UserRecord)) :=
  match queryDirectory dir config username password with
  | some (some roles) => provisionUser username roles
  | some none => pure (.ok none)
  | none => pure (.error .storage)

/-- `LdapAuthBackend::authenticate` (lines 241–277). -/
def ldapBackendAuthenticate (ext : AuthExt) (dir : Directory) (config : Option LdapConfig)
    (username password : String) : AuthTask (Except AuthError (Option UserRecord)) :=
  match config with
  | none => builtinAuthenticate ext username password
  | some config => do
      match ← ldapAuthenticate dir config username password with
      | .ok (some user) => pure (.ok (some user))
      | .ok none =>
          if config.fallbackToBuiltin then builtinAuthenticate ext username password
          else pure (.ok none)
      | .error e =>
          if config.fallbackToBuiltin then builtinAuthenticate ext username password
          else pure (.error e)

/-! ## Calls -/

/-- The backends that `init_auth` wraps (`infra/state.rs`, lines 363–386). -/
inductive Backend where
  | builtin
  | ldap (config : Option LdapConfig)

/-- The methods that decide. -/
inductive AuthCall where
  | authenticate (username password : String)
  | checkPermission (username repo : String) (required : Capability)
  | requireAdmin (username : String)
  | resolveUserRoles (username : String)
  | lookupUser (username : String)
  deriving DecidableEq

/-- A method of `CachedAuthBackend`. -/
def AuthCall.cached (ext : AuthExt) : AuthCall → AuthTask Decision
  | .authenticate n p => do pure (.authenticated n p (← Depot.authenticate ext n p))
  | .checkPermission n r c => do pure (.permission n r c (← Depot.checkPermission n r c))
  | .requireAdmin n => do pure (.admin n (← Depot.requireAdmin n))
  | .resolveUserRoles n => do pure (.roles n (← Depot.resolveUserRoles n))
  | .lookupUser n => do pure (.user n (← Depot.lookupUser n))

/-- `authenticate` of a backend. -/
def Backend.authenticate (ext : AuthExt) (dir : Directory) (n p : String) :
    Backend → AuthTask (Except AuthError (Option UserRecord))
  | .builtin => builtinAuthenticate ext n p
  | .ldap config => ldapBackendAuthenticate ext dir config n p

/-- The same method of a backend itself; those of LDAP but `authenticate` are the built-in ones
    (lines 279–303). -/
def AuthCall.inner (ext : AuthExt) (dir : Directory) (backend : Backend) :
    AuthCall → AuthTask Decision
  | .authenticate n p => do pure (.authenticated n p (← backend.authenticate ext dir n p))
  | .checkPermission n r c => do pure (.permission n r c (← builtinCheckPermission n r c))
  | .requireAdmin n => do pure (.admin n (← builtinRequireAdmin n))
  | .resolveUserRoles n => do pure (.roles n (← builtinResolveUserRoles n))
  | .lookupUser n => do pure (.user n (← builtinLookupUser n))

end Depot
