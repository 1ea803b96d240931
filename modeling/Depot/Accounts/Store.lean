import Depot.Auth.Backend
import Depot.Core.Settings
import Depot.Lib.Fallible
import Depot.Lib.Revocable
import Depot.Lib.SortedMap

/-!
# Users and signing secrets

The table of users and the signing secret in the store, and what each instance keeps in memory
of them: its cache of users (`server/src/server/auth/backend.rs`, lines 168–241), its copy of
the signing secret (`server/src/server/auth/mod.rs`, lines 60–68) and its settings. Instances
share only the store.

Argon2 and keyed BLAKE3 are parameters.
-/

namespace Depot.Accounts

open Lib
open Function (update)

/-! ## Data -/

/-- `JwtSecretState` (`auth/mod.rs`, lines 60–68). -/
structure JwtSecretState where
  current : List UInt8
  previous : Option (List UInt8) := none
  rotatedAt : ℤ
  deriving DecidableEq

/-- A token: its `Claims`, and the key under which its signature verifies. -/
structure Token where
  sub : String
  exp : ℤ
  iat : ℤ
  roles : List String := []
  key : List UInt8
  deriving DecidableEq

/-- The functions of other crates: verification and hashing of passwords (the hash is made with
    a salt), the keyed hash, and the hash that stands for an unknown user. -/
structure AccountExt where
  argon2 : String → String → Bool
  hash : (salt password : String) → String
  keyedHash : List UInt8 → List UInt8 → List UInt8
  dummyHash : String

/-- The users under their names. -/
structure UserTable where
  map : SortedMap String UserRecord
  keyed : ∀ n r, map.get n = some r → r.username = n

namespace UserTable

/-- No users. -/
def empty : UserTable := ⟨SortedMap.empty, fun _ _ h => by cases h⟩

/-- The record of a user. -/
def find (t : UserTable) (n : String) : Option UserRecord := t.map.get n

/-- `put_user` (`core/src/service/user.rs`, lines 18–21). -/
def put (t : UserTable) (r : UserRecord) : UserTable where
  map := t.map.insert r.username r
  keyed n r' h := by
    rw [SortedMap.get_insert] at h
    split_ifs at h with hn
    · obtain rfl := Option.some.inj h
      exact hn.symm
    · exact t.keyed n r' h

/-- `delete_user` (lines 39–42). -/
def delete (t : UserTable) (n : String) : UserTable where
  map := t.map.erase n
  keyed n' r h := by
    rw [SortedMap.get_erase] at h
    split_ifs at h
    exact t.keyed n' r h

/-- `ADMIN_ENTITY_CAP` (`core/src/service/scan.rs`, line 24). -/
def adminEntityCap : ℕ := 10000

/-- `list_users` (lines 28–37). -/
def list (t : UserTable) : List UserRecord := (t.map.entries.map Prod.snd).take adminEntityCap

theorem find_put (t : UserTable) (r : UserRecord) (n : String) :
    (t.put r).find n = if n = r.username then some r else t.find n :=
  SortedMap.get_insert t.map r.username n r

theorem find_delete (t : UserTable) (n n' : String) :
    (t.delete n).find n' = if n' = n then none else t.find n' :=
  SortedMap.get_erase t.map n n'

end UserTable

/-! ## Operations -/

/-- What a record is stored for. -/
inductive Change where
  | plain
  | tokens
  | password
  deriving DecidableEq

/-- The atomic operations. What a record or a signing secret is stored for only goes into the
    history. -/
inductive AccountOp where
  | getUser (username : String)
  | listUsers
  | putUser (change : Change) (record : UserRecord)
  | deleteUser (username : String)
  | cacheGet (username : String)
  | cachePut (username : String) (value : Option UserRecord)
  | invalidateUser (username : String)
  | invalidateAll
  | getJwt
  | putJwt (revoking : Bool) (state : JwtSecretState)
  | loadJwt
  | storeJwt (state : JwtSecretState)
  | loadSettings
  | clock
  | issue (token : Token)
  | decide (token : Token) (accepted : Bool)

/-- Replies; those of the store are empty when it fails. -/
def AccountOp.Reply : AccountOp → Type
  | .getUser _ => Option (Option UserRecord)
  | .listUsers => Option (List UserRecord)
  | .putUser .. => Option Unit
  | .deleteUser _ => Option Bool
  | .cacheGet _ => Option (Option UserRecord)
  | .getJwt => Option (Option JwtSecretState)
  | .putJwt .. => Option Unit
  | .loadJwt => JwtSecretState
  | .loadSettings => Settings
  | .clock => ℤ
  | _ => Unit

/-- Whether an operation writes to the store. -/
def AccountOp.writes : AccountOp → Bool
  | .putUser .. => true
  | .deleteUser _ => true
  | .putJwt .. => true
  | _ => false

/-- The users and the signing secret in the store, and what the store does not keep: the history of
    the token secrets and the password hashes of each name, and of the signing secrets. -/
structure AccountStore where
  users : UserTable
  jwt : Option JwtSecretState := none
  secrets : String → Revocable (List UInt8) := fun _ => {}
  hashes : String → Revocable String := fun _ => {}
  signing : Revocable (List UInt8) := {}

namespace AccountStore

/-- A store with a history that starts now. -/
def start (users : UserTable) (jwt : JwtSecretState) : AccountStore where
  users := users
  jwt := some jwt
  secrets n := .start ((users.find n).map UserRecord.tokenSecret).toList
  hashes n := .start ((users.find n).map UserRecord.passwordHash).toList
  signing := .start (jwt.current :: jwt.previous.toList)

/-- A record is stored. -/
def put (s : AccountStore) (r : UserRecord) : AccountStore :=
  { s with
    users := s.users.put r
    secrets := update s.secrets r.username ((s.secrets r.username).add r.tokenSecret)
    hashes := update s.hashes r.username ((s.hashes r.username).add r.passwordHash) }

/-- A new token secret for a user. -/
def revokeTokens (s : AccountStore) (n : String) : AccountStore :=
  { s with secrets := update s.secrets n (s.secrets n).revoke }

/-- The password of a user is replaced. -/
def revokePassword (s : AccountStore) (n : String) : AccountStore :=
  { s with hashes := update s.hashes n (s.hashes n).revoke }

/-- A record is stored for a reason. -/
def change (s : AccountStore) (c : Change) (r : UserRecord) : AccountStore :=
  match c with
  | .plain => s.put r
  | .tokens => (s.revokeTokens r.username).put r
  | .password => ((s.revokeTokens r.username).revokePassword r.username).put r

/-- A user is deleted, which revokes the tokens and the password. -/
def remove (s : AccountStore) (n : String) : AccountStore :=
  { (s.revokeTokens n).revokePassword n with users := s.users.delete n }

/-- A signing secret is stored, to rotate it or to revoke all tokens. -/
def changeJwt (s : AccountStore) (revoking : Bool) (st : JwtSecretState) : AccountStore :=
  { s with
    jwt := some st
    signing := (if revoking then s.signing.revoke else s.signing).add st.current }

end AccountStore

@[simp] theorem users_change (s : AccountStore) (c : Change) (r : UserRecord) :
    (s.change c r).users = s.users.put r := by
  cases c <;> rfl

theorem jwt_change (s : AccountStore) (c : Change) (r : UserRecord) :
    (s.change c r).jwt = s.jwt := by
  cases c <;> rfl

theorem signing_change (s : AccountStore) (c : Change) (r : UserRecord) :
    (s.change c r).signing = s.signing := by
  cases c <;> rfl

@[simp] theorem users_remove (s : AccountStore) (n : String) :
    (s.remove n).users = s.users.delete n := rfl

@[simp] theorem users_changeJwt (s : AccountStore) (revoking : Bool) (st : JwtSecretState) :
    (s.changeJwt revoking st).users = s.users := by
  cases revoking <;> rfl

/-- A token that was issued: by which instance, with a user and a signing secret from which stores,
    and the store at that time. -/
structure Issue where
  token : Token
  server : ℕ
  userSource : AccountStore
  jwtSource : AccountStore
  store : AccountStore

/-- What a task has read: the store at its last read, unless that failed; whether the last read of
    a user succeeded, and the last user that it was told of or has stored, with the store that the
    answer is from and the store at the time when the answer was put into the cache; the last
    signing secret, with the store that it is from, the instance if it is from one, and the tokens
    that were issued by then; the last settings and the last time. -/
structure Seen where
  store : Option AccountStore := none
  answered : Bool := true
  userName : String := ""
  user : Option UserRecord
  userSource : AccountStore
  userInserted : AccountStore
  jwt : JwtSecretState
  jwtSource : AccountStore
  memory : Option ℕ := none
  known : List Issue := []
  settings : Settings := {}
  clock : ℤ := 0

/-- What an instance keeps in memory: its signing secret, its cache of users and its settings,
    with the store that the secret and the entries are from, and the store at the time when the
    entries were made. -/
structure Instance where
  jwt : JwtSecretState
  jwtSource : AccountStore
  cache : String → Option (Option UserRecord) := fun _ => none
  source : String → AccountStore
  inserted : String → AccountStore
  settings : Settings := {}

/-- What the cache tells of a user. -/
def Instance.hit (inst : Instance) (n : String) (x : Seen) : Seen :=
  match inst.cache n with
  | some user =>
      { x with
        answered := true, userName := n, user := user, userSource := inst.source n
        userInserted := inst.inserted n }
  | none => x

@[simp] theorem Instance.store_hit (inst : Instance) (n : String) (x : Seen) :
    (inst.hit n x).store = x.store := by
  unfold Instance.hit
  split <;> rfl

/-- What was decided about a token: by which instance, with a user and a signing secret from which
    stores; the store when the user was put into the cache; and the tokens that were issued when the
    secret was loaded and when it was decided, the store and the time then. -/
structure Verdict where
  server : ℕ
  token : Token
  accepted : Bool
  userSource : AccountStore
  inserted : AccountStore
  jwtSource : AccountStore
  known : List Issue
  issued : List Issue
  store : AccountStore
  time : ℤ

/-- The store, the instances, the time, the tokens that were issued and what was decided about
    tokens. No operation's effect on the store, or reply, depends
    on what tasks have `seen`. -/
structure AccountState where
  store : AccountStore
  instances : ℕ → Instance
  now : ℤ := 0
  issued : List Issue := []
  decided : List Verdict := []
  seen : ℕ → Seen

namespace AccountState

/-- Instances that have just started. -/
def start (users : UserTable) (jwt : JwtSecretState) (settings : Settings) : AccountState where
  store := .start users jwt
  instances _ :=
    { jwt := jwt, jwtSource := .start users jwt, source := fun _ => .start users jwt
      inserted := fun _ => .start users jwt, settings := settings }
  seen _ :=
    { user := users.find "", userSource := .start users jwt, userInserted := .start users jwt
      jwt := jwt, jwtSource := .start users jwt, settings := settings }

/-- Task `i` learns something. -/
def sees (s : AccountState) (i : ℕ) (f : Seen → Seen) : AccountState :=
  { s with seen := update s.seen i (f (s.seen i)) }

/-- Instance `k` changes. -/
def onInstance (s : AccountState) (k : ℕ) (f : Instance → Instance) : AccountState :=
  { s with instances := update s.instances k (f (s.instances k)) }

/-- What an operation of task `i` on instance `k` does; the store may fail. -/
def exec (k i : ℕ) (o : AccountOp) (b : Bool) (s : AccountState) :
    Option (AccountState × o.Reply) :=
  match o with
  | .getUser n =>
      if b then
        some (s.sees i fun x => { x with
            store := some s.store, answered := true, userName := n, user := s.store.users.find n
            userSource := s.store, userInserted := s.store },
          some (s.store.users.find n))
      else some (s.sees i fun x => { x with store := none, answered := false }, none)
  | .listUsers =>
      if b then some (s.sees i fun x => { x with store := some s.store }, some s.store.users.list)
      else some (s.sees i fun x => { x with store := none }, none)
  | .putUser c r =>
      if b then
        some ({ s with store := s.store.change c r }.sees i fun x => { x with
            userName := r.username, user := some r, userSource := s.store.change c r
            userInserted := s.store.change c r }, some ())
      else some (s, none)
  | .deleteUser n =>
      if b then
        some ({ s with store := s.store.remove n }, some (s.store.users.find n).isSome)
      else some (s, none)
  | .cacheGet n => some (s.sees i ((s.instances k).hit n), (s.instances k).cache n)
  | .cachePut n v =>
      some (s.onInstance k fun x => { x with
        cache := update x.cache n (some v)
        source := update x.source n (s.seen i).userSource
        inserted := update x.inserted n s.store }, ())
  | .invalidateUser n =>
      some (s.onInstance k fun x => { x with cache := update x.cache n none }, ())
  | .invalidateAll => some (s.onInstance k fun x => { x with cache := fun _ => none }, ())
  | .getJwt =>
      if b then
        some (s.sees i fun x => { x with
            jwt := s.store.jwt.getD x.jwt
            jwtSource := if s.store.jwt.isSome then s.store else x.jwtSource
            memory := none },
          some s.store.jwt)
      else some (s, none)
  | .putJwt revoking st =>
      if b then
        some ({ s with store := s.store.changeJwt revoking st }.sees i fun x => { x with
            jwt := st, jwtSource := s.store.changeJwt revoking st, memory := none }, some ())
      else some (s, none)
  | .loadJwt =>
      some (s.sees i fun x => { x with
          jwt := (s.instances k).jwt, jwtSource := (s.instances k).jwtSource, memory := some k
          known := s.issued },
        (s.instances k).jwt)
  | .storeJwt st =>
      some (s.onInstance k fun x => { x with jwt := st, jwtSource := (s.seen i).jwtSource }, ())
  | .loadSettings =>
      some (s.sees i fun x => { x with settings := (s.instances k).settings },
        (s.instances k).settings)
  | .clock => some (s.sees i fun x => { x with clock := s.now }, s.now)
  | .issue t =>
      some ({ s with issued :=
        { token := t, server := k, userSource := (s.seen i).userSource
          jwtSource := (s.seen i).jwtSource, store := s.store } :: s.issued }, ())
  | .decide t a =>
      some ({ s with decided :=
        { server := k, token := t, accepted := a, userSource := (s.seen i).userSource
          inserted := (s.seen i).userInserted, jwtSource := (s.seen i).jwtSource
          known := (s.seen i).known, issued := s.issued, store := s.store, time := s.now } ::
          s.decided }, ())

/-- An operation that does not write leaves the store. -/
theorem exec_store {k i : ℕ} {o : AccountOp} {b : Bool} {s s' : AccountState} {r : o.Reply}
    (ho : o.writes = false) (h : s.exec k i o b = some (s', r)) : s'.store = s.store := by
  cases o with
  | putUser c r => cases ho
  | deleteUser n => cases ho
  | putJwt revoking st => cases ho
  | _ => cases b <;> obtain ⟨rfl, _⟩ := some_mk_inj h <;> rfl

end AccountState

end Depot.Accounts
