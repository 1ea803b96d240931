import Depot.Accounts.Handlers

/-!
# What a request may do, given what it has read

A request on users and roles writes what it has decided on earlier, from records that may have
changed in the meantime. Its operations are therefore judged by what the request has read.

Results:
* `preserved_run`: what every operation preserves that agrees with what its request has read
  (`Allowed`) holds after every run.
-/

namespace Depot.Accounts

open Lib
open Option (some.inj)

/-! ## What a request may do -/

/-- The records that a request may store. -/
def AccountRequest.Puts (ext : AccountExt) (x : Seen) (c : Change) (r : UserRecord) :
    AccountRequest → Prop
  | .createUser _ req draw =>
      c = .plain ∧ (∀ st, x.store = some st → st.users.find r.username = none) ∧
        r.username = req.username ∧ r.roles = req.roles ∧ r.tokenSecret = draw.secret ∧
        r.passwordHash = ext.hash draw.salt req.password
  | .updateUser _ n req draw =>
      c = .plain ∧ ∃ st old, x.store = some st ∧ st.users.find n = some old ∧
        r = updated req (req.password.map (ext.hash draw.salt)) draw.secret old
  | .changePassword _ req draw =>
      c = .password ∧ ∃ st old, x.store = some st ∧ st.users.find req.username = some old ∧
        r = { old with
          passwordHash := ext.hash draw.salt req.newPassword, tokenSecret := draw.secret,
          mustChangePassword := false }
  | .revokeUserTokens _ n secret =>
      c = .tokens ∧ ∃ st old, x.store = some st ∧ st.users.find n = some old ∧
        r = { old with tokenSecret := secret }
  | .provisionUser n roles =>
      c = .plain ∧ ∃ st, x.store = some st ∧ provisioned n roles (st.users.find n) = some r
  | .restoreUsers _ users => c = .plain ∧ r ∈ users
  | _ => False

/-- The users that a request may delete: no admin, or not the only one. -/
def AccountRequest.Deletes (x : Seen) (n : String) : AccountRequest → Prop
  | .deleteUser _ n' => n' = n ∧ ∀ st, x.store = some st →
      (∀ r, st.users.find n = some r → isAdmin r = false) ∨ 1 < adminCount st.users.list
  | _ => False

/-- The signing secrets that a request may store. -/
def AccountRequest.PutsJwt (x : Seen) (revoking : Bool) (st : JwtSecretState) :
    AccountRequest → Prop
  | .revokeAllTokens _ secret =>
      revoking = true ∧ st = { current := secret, previous := none, rotatedAt := x.clock }
  | .rotateJwt secret =>
      revoking = false ∧
        st = { current := secret, previous := some x.jwt.current, rotatedAt := x.clock } ∧
        rotationInterval x.settings ≤ x.clock - x.jwt.rotatedAt
  | _ => False

/-- The tokens that a request may issue. -/
def AccountRequest.Issues (ext : AccountExt) (x : Seen) (t : Token) (req : AccountRequest) :
    Prop :=
  match req with
  | .login .. | .changePassword .. => ∃ user, x.user = some user ∧
      createUserToken ext user.username x.jwt.current user.tokenSecret x.settings.jwtExpirySecs
        user.roles x.clock = some t
  | _ => False

/-- What a request may do, given what it has read. -/
def Allowed (ext : AccountExt) (j : AccountJob) (x : Seen) : AccountOp → Prop
  | .putUser c r => j.request.Puts ext x c r
  | .deleteUser n => j.request.Deletes x n
  | .cachePut n v => n = x.userName ∧ v = x.user
  | .putJwt revoking st => j.request.PutsJwt x revoking st
  | .storeJwt st => st = x.jwt
  | .issue t => x.memory = some j.server ∧ j.request.Issues ext x t
  | .decide t a =>
      if x.answered then
        t.sub = x.userName ∧ (x.user.isSome = true → x.memory = some j.server) ∧
          a = (x.user.any fun user => validToken ext t x.jwt user x.clock)
      else a = false
  | _ => True

/-- An operation leaves alone what other tasks have read. -/
theorem exec_seen {k i i' : ℕ} {o : AccountOp} {b : Bool} {s s' : AccountState} {r : o.Reply}
    (hi : i' ≠ i) (h : s.exec k i o b = some (s', r)) : s'.seen i' = s.seen i' := by
  have hsees : ∀ (s : AccountState) f, (s.sees i f).seen i' = s.seen i' :=
    fun s f => Function.update_of_ne hi _ _
  cases o <;> simp only [AccountState.exec] at h <;> (try split_ifs at h) <;>
    obtain ⟨rfl, _⟩ := some_mk_inj h <;> first | rfl | exact hsees _ _

/-! ## Triples -/

/-- What is preserved: by the operations that are allowed, and by the environment. -/
structure Preserved (ext : AccountExt) (rules : Rules AccountOp AccountState AccountJob AccountEnv)
    (P : AccountState → Prop) : Prop where
  op : ∀ i j o b s s' r, P s → Allowed ext j (s.seen i) o →
    rules.op i j s o b = true → s.exec j.server i o b = some (s', r) → P s'
  env : ∀ e s s', P s → (accountSystem ext).env e s = some s' → P s'

/-- What the proof sees. -/
abbrev AccountView := View AccountState AccountJob Unit

/-- The proof outline: nobody changes what others have read. -/
def accountLogic (P : AccountState → Prop) : Logic AccountState AccountJob Unit where
  inv w := P w.shared
  rely i w w' := w'.shared.seen i = w.shared.seen i
  guar i w w' := ∀ i' ≠ i, w'.shared.seen i' = w.shared.seen i'
  rely_refl _ _ := rfl
  rely_trans h h' := h'.trans h

section

variable {ext : AccountExt} {rules : Rules AccountOp AccountState AccountJob AccountEnv}
variable {P : AccountState → Prop} {i : ℕ} {j : AccountJob} {α β : Type}

/-- Triples about what a task has read. -/
def ATriple (ext : AccountExt) (rules : Rules AccountOp AccountState AccountJob AccountEnv)
    (P : AccountState → Prop) (i : ℕ) (j : AccountJob) (F : Seen → Prop) (p : Handler α)
    (Q : α → Seen → Prop) : Prop :=
  FTriple (accountSystem ext) rules i j ((accountLogic P).contract i j)
    (fun w => F (w.shared.seen i)) p (fun a w => Q a (w.shared.seen i)) fun _ => True

/-- A handler that may be called at any time. -/
abbrev ASafe (ext : AccountExt) (rules : Rules AccountOp AccountState AccountJob AccountEnv)
    (P : AccountState → Prop) (i : ℕ) (j : AccountJob) (p : Handler α) : Prop :=
  ATriple ext rules P i j (fun _ => True) p fun _ _ => True

theorem stable_seen (F : Seen → Prop) :
    ((accountLogic P).contract i j).Stable fun w : AccountView => F (w.shared.seen i) := by
  intro w w' _ _ (hr : w'.shared.seen i = w.shared.seen i) h
  show F (w'.shared.seen i)
  rwa [hr]

theorem stable_true : ((accountLogic P).contract i j).Stable fun _ : AccountView => True :=
  fun _ _ _ _ _ _ => trivial

theorem ATriple.bind {F : Seen → Prop} {p : Handler α} {f : α → Handler β} {M : α → Seen → Prop}
    {Q : β → Seen → Prop} (hp : ATriple ext rules P i j F p M)
    (hf : ∀ a, ATriple ext rules P i j (M a) (f a) Q) : ATriple ext rules P i j F (p >>= f) Q :=
  FTriple.bind stable_true hp hf

theorem ATriple.pure {F : Seen → Prop} {a : α} {Q : α → Seen → Prop} (h : ∀ x, F x → Q a x) :
    ATriple ext rules P i j F (Pure.pure a) Q :=
  Triple.weaken_pre (FTriple.pure (stable_seen (Q a))) fun _ _ hw => h _ hw

theorem ATriple.throw {F : Seen → Prop} {e : Answer} {Q : α → Seen → Prop} :
    ATriple ext rules P i j F (MonadExcept.throw e) Q :=
  Triple.weaken_pre (FTriple.throw stable_true) fun _ _ _ => trivial

theorem ATriple.weaken {F F' : Seen → Prop} {p : Handler α} {Q Q' : α → Seen → Prop}
    (h : ATriple ext rules P i j F' p Q') (hF : ∀ x, F x → F' x) (hQ : ∀ a x, Q' a x → Q a x) :
    ATriple ext rules P i j F p Q :=
  FTriple.consequence h (fun _ _ hw => hF _ hw) (fun a _ _ hw => hQ a _ hw) fun _ _ h => h

/-- A check before the rest of a handler. -/
theorem ATriple.when {c : Prop} [Decidable c] {F M : Seen → Prop} {p : Handler PUnit}
    {f : PUnit → Handler β} {Q : β → Seen → Prop}
    (hp : c → ATriple ext rules P i j F p fun _ => M) (hn : ¬c → ∀ x, F x → M x)
    (hf : ∀ u, ATriple ext rules P i j M (f u) Q) :
    ATriple ext rules P i j F (if c then p >>= f else f ⟨⟩) Q :=
  FTriple.when stable_true hp (fun hc _ _ hw => hn hc _ hw) hf

theorem ATriple.assume {φ : Prop} {F : Seen → Prop} {p : Handler α} {Q : α → Seen → Prop}
    (h : φ → ATriple ext rules P i j F p Q) : ATriple ext rules P i j (fun x => F x ∧ φ) p Q :=
  FTriple.assume h

/-! ## The operations -/

variable (hP : Preserved ext rules P)
include hP

variable {F : Seen → Prop}

/-- An operation that is allowed. -/
theorem issue_triple {o : AccountOp} {Q : o.Reply → Seen → Prop} (hA : ∀ x, F x → Allowed ext j x o)
    (hQ : ∀ b (s s' : AccountState) r, F (s.seen i) → s.exec j.server i o b = some (s', r) →
      Q r (s'.seen i)) : ATriple ext rules P i j F (issue o) Q := by
  refine FTriple.issue (stable_seen F) (fun r => stable_seen (Q r)) fun w b s r hi hw ha hx => ?_
  refine ⟨(), ⟨hP.op i j o b _ s r hi.1 (hA _ hw) ha hx, hi.2⟩, fun i' hi' => ?_, hQ b _ s r hw hx⟩
  exact exec_seen hi' hx

/-- An operation after which the request has read nothing new. -/
theorem quiet_triple {o : AccountOp} (hA : ∀ x, F x → Allowed ext j x o)
    (hq : ∀ b (s s' : AccountState) r, s.exec j.server i o b = some (s', r) →
      s'.seen i = s.seen i) :
    ATriple ext rules P i j F (issue o) fun _ => F :=
  issue_triple hP hA fun b s s' r hF hx => by rwa [hq b s s' r hx]

omit hP in
theorem stored_triple {F : Seen → Prop} {Q : α → Seen → Prop} {r : Option α}
    (h : ∀ a, r = some a → ∀ x, F x → Q a x) : ATriple ext rules P i j F (stored r) Q := by
  cases r with
  | none => exact ATriple.throw
  | some a => exact ATriple.pure (h a rfl)

/-- What is known after `get_user`. -/
def Fetched (n : String) (r : Option (Option UserRecord)) (x : Seen) : Prop :=
  match r with
  | some user =>
      (x.userName = n ∧ x.user = user ∧ x.answered = true) ∧
        ∃ st, x.store = some st ∧ st.users.find n = user
  | none => x.store = none ∧ x.answered = false

omit hP in
theorem Fetched.username {n : String} {user : UserRecord} {x : Seen}
    (h : Fetched n (some (some user)) x) : user.username = n := by
  obtain ⟨_, st, _, hfind⟩ := h
  exact st.users.keyed n user hfind

variable {n : String}

theorem getUser_triple : ATriple ext rules P i j F (issue (.getUser n)) (Fetched n) := by
  refine issue_triple hP (fun _ _ => trivial) fun b s s' r _ hx => ?_
  cases b with
  | true =>
    obtain ⟨rfl, rfl⟩ := some_mk_inj hx
    simp [AccountState.sees, Fetched]
  | false =>
    obtain ⟨rfl, rfl⟩ := some_mk_inj hx
    simp [AccountState.sees, Fetched]

theorem listUsers_triple : ATriple ext rules P i j F (issue .listUsers) fun r x => match r with
      | some users => ∃ st, x.store = some st ∧ users = st.users.list
      | none => x.store = none := by
  refine issue_triple hP (fun _ _ => trivial) fun b s s' r _ hx => ?_
  cases b with
  | true =>
    obtain ⟨rfl, rfl⟩ := some_mk_inj hx
    simp [AccountState.sees]
  | false =>
    obtain ⟨rfl, rfl⟩ := some_mk_inj hx
    simp [AccountState.sees]

theorem cacheGet_triple :
    ATriple ext rules P i j F (issue (.cacheGet n)) fun r x => ∀ user, r = some user →
      x.userName = n ∧ x.user = user ∧ x.answered = true := by
  refine issue_triple hP (fun _ _ => trivial) fun b s s' r _ hx user hr => ?_
  obtain ⟨rfl, rfl⟩ := some_mk_inj hx
  simp [AccountState.sees, Instance.hit, hr]

theorem cachePut_triple {v : Option UserRecord} :
    ATriple ext rules P i j (fun x => x.userName = n ∧ x.user = v ∧ x.answered = true)
      (issue (.cachePut n v)) fun _ x => x.userName = n ∧ x.user = v ∧ x.answered = true :=
  quiet_triple hP (fun _ h => ⟨h.1.symm, h.2.1.symm⟩) fun b s s' r hx => by
    obtain ⟨rfl, _⟩ := some_mk_inj hx
    rfl

theorem invalidateUser_triple : ATriple ext rules P i j F (invalidateUser n) fun _ => F :=
  quiet_triple hP (fun _ _ => trivial) fun b s s' r hx => by
    obtain ⟨rfl, _⟩ := some_mk_inj hx
    rfl

theorem putUser_triple {c : Change} {r : UserRecord} (h : ∀ x, F x → j.request.Puts ext x c r) :
    ATriple ext rules P i j F (putUser c r) fun _ x => x.user = some r := by
  have hput : ATriple ext rules P i j F (issue (.putUser c r)) fun reply x =>
      reply = some () → x.user = some r := by
    refine issue_triple hP h fun b s s' reply _ hx hr => ?_
    cases b with
    | true =>
      obtain ⟨rfl, _⟩ := some_mk_inj hx
      simp [AccountState.sees]
    | false =>
      obtain ⟨_, rfl⟩ := some_mk_inj hx
      cases hr
  exact ATriple.bind hput fun reply => stored_triple fun a ha x hx => hx (by rw [ha])

/-! ## The functions -/

theorem getRecord_triple :
    ATriple ext rules P i j F (getUser n) fun user => Fetched n (some user) :=
  ATriple.bind (getUser_triple hP) fun r => stored_triple fun a ha x hx => by rwa [← ha]

theorem findUser_triple :
    ATriple ext rules P i j F (findUser n) fun old => Fetched n (some (some old)) := by
  refine ATriple.bind (getRecord_triple hP) fun user => ?_
  cases user with
  | none => exact ATriple.throw
  | some old => exact ATriple.pure fun _ h => h

/-- A user that was looked up, or could not be read. -/
def Resolved (n : String) (r : Option (Option UserRecord)) (x : Seen) : Prop :=
  match r with
  | some user => x.userName = n ∧ x.user = user ∧ x.answered = true
  | none => x.answered = false

theorem resolveUserCached_triple :
    ATriple ext rules P i j F (resolveUserCached n) (Resolved n) := by
  refine ATriple.bind (cacheGet_triple hP) fun r => ?_
  cases r with
  | some user => exact ATriple.pure fun x h => h user rfl
  | none =>
    refine ATriple.bind (getUser_triple hP) fun r => ?_
    cases r with
    | some user =>
      refine ATriple.bind ((cachePut_triple hP).weaken (fun _ h => h.1) fun _ _ h => h) fun _ => ?_
      exact ATriple.pure fun _ h => h
    | none => exact ATriple.pure fun _ h => h.2

theorem lookupUser_triple :
    ATriple ext rules P i j F (lookupUser n) fun user x => x.userName = n ∧ x.user = user :=
  ATriple.bind (resolveUserCached_triple hP) fun r => stored_triple fun user hr x hx => by
    subst hr
    exact ⟨hx.1, hx.2.1⟩

variable {caller : String}

theorem requireAdmin_triple : ATriple ext rules P i j F (requireAdmin caller) fun _ _ => True := by
  refine ATriple.bind (lookupUser_triple hP) fun user => ?_
  cases user with
  | none => exact ATriple.throw
  | some user =>
    simp only [adminOr]
    split_ifs
    · exact ATriple.pure fun _ _ => trivial
    · exact ATriple.throw

omit hP in
theorem hashPassword_triple {salt password : String} {F : Seen → Prop} :
    ATriple ext rules P i j F (hashPassword ext salt password) fun h x =>
      F x ∧ h = ext.hash salt password := by
  refine ATriple.bind (M := fun _ => F) ?_ fun _ => ATriple.pure fun x hx => ⟨hx, rfl⟩
  exact FTriple.consequence (FTriple.check (stable_seen F)) (fun _ _ h => h) (fun _ _ _ h => h)
    fun _ _ _ => trivial

omit hP in
theorem verifyPassword_triple {password hash : String} {F : Seen → Prop} :
    ATriple ext rules P i j F (verifyPassword ext password hash) fun _ => F :=
  Triple.choose fun _ w hi hw u hu hi' => stable_seen F w u hi hi' hu hw

/-- What does not depend on the signing secret, the settings and the time. -/
def Timeless (F : Seen → Prop) : Prop :=
  ∀ x jwt source memory known settings clock, F x →
    F { x with
      jwt := jwt, jwtSource := source, memory := memory, known := known, settings := settings
      clock := clock }

/-- What the secret of the instance is known to be. -/
def Loaded (j : AccountJob) (jwt : JwtSecretState) (x : Seen) : Prop :=
  x.jwt = jwt ∧ x.memory = some j.server

theorem loadJwt_triple (hF : Timeless F) :
    ATriple ext rules P i j F (issue .loadJwt) fun r x => F x ∧ Loaded j r x := by
  refine issue_triple hP (fun _ _ => trivial) fun b s s' r hs hx => ?_
  obtain ⟨rfl, rfl⟩ := some_mk_inj hx
  simp only [AccountState.sees, Function.update_self, Loaded, and_true]
  exact hF _ _ _ _ _ (s.seen i).settings (s.seen i).clock hs

theorem loadSettings_triple {jwt : JwtSecretState} (hF : Timeless F) :
    ATriple ext rules P i j (fun x => F x ∧ Loaded j jwt x) (issue .loadSettings) fun r x =>
      F x ∧ Loaded j jwt x ∧ x.settings = r := by
  refine issue_triple hP (fun _ _ => trivial) fun b s s' r hs hx => ?_
  obtain ⟨rfl, rfl⟩ := some_mk_inj hx
  simp only [AccountState.sees, Function.update_self, and_true]
  exact ⟨hF _ (s.seen i).jwt (s.seen i).jwtSource (s.seen i).memory (s.seen i).known _
    (s.seen i).clock hs.1, hs.2⟩

theorem clock_triple {jwt : JwtSecretState} {F G : Seen → Prop} (hF : Timeless F)
    (hG : ∀ x clock, G x → G { x with clock := clock }) :
    ATriple ext rules P i j (fun x => F x ∧ Loaded j jwt x ∧ G x) (issue .clock)
      fun r x => F x ∧ Loaded j jwt x ∧ G x ∧ x.clock = r := by
  refine issue_triple hP (fun _ _ => trivial) fun b s s' r hs hx => ?_
  obtain ⟨rfl, rfl⟩ := some_mk_inj hx
  simp only [AccountState.sees, Function.update_self, and_true]
  exact ⟨hF _ (s.seen i).jwt (s.seen i).jwtSource (s.seen i).memory (s.seen i).known
    (s.seen i).settings _ hs.1, hs.2.1, hG _ _ hs.2.2⟩

variable {secret : List UInt8}

theorem signToken_triple {roles : List String} {must : Bool} (hF : Timeless F)
    (hI : ∀ x t, F x → createUserToken ext n x.jwt.current secret x.settings.jwtExpirySecs roles
      x.clock = some t → j.request.Issues ext x t) :
    ATriple ext rules P i j F (signToken ext n secret roles must) fun _ => F := by
  refine ATriple.bind (loadJwt_triple hP hF) fun jwt => ?_
  refine ATriple.bind (loadSettings_triple hP hF) fun settings => ?_
  refine ATriple.bind (clock_triple hP (G := fun x => x.settings = settings) hF
    fun _ _ h => h) fun now => ?_
  cases ht : createUserToken ext n jwt.current secret settings.jwtExpirySecs roles now with
  | none => exact ATriple.throw
  | some t =>
    have hissue : ATriple ext rules P i j
        (fun x => F x ∧ Loaded j jwt x ∧ x.settings = settings ∧ x.clock = now)
        (issue (.issue t)) fun _ x => F x ∧ Loaded j jwt x ∧ x.settings = settings ∧
          x.clock = now := by
      refine quiet_triple hP (o := .issue t) (fun x h => ⟨h.2.1.2, hI x t h.1 ?_⟩)
        fun b s s' r hx => ?_
      · rw [h.2.1.1, h.2.2.1, h.2.2.2, ht]
      · obtain ⟨rfl, _⟩ := some_mk_inj hx
        rfl
    exact ATriple.bind hissue fun _ => ATriple.pure fun _ h => h.1

/-! ## The handlers -/

theorem createUser_triple {req : CreateUserRequest} {draw : Draw}
    (hj : j.request = .createUser caller req draw) :
    ASafe ext rules P i j (createUser ext caller req draw) := by
  refine ATriple.bind (requireAdmin_triple hP) fun _ => ?_
  refine ATriple.when (M := fun _ => True) (fun _ => ATriple.throw) (fun _ _ _ => trivial)
    fun _ => ?_
  refine ATriple.bind hashPassword_triple fun h => ATriple.assume fun hh => ?_
  have htaken : ATriple ext rules P i j (fun _ => True) (nameTaken req.username) fun taken x =>
      taken = false → ∀ st, x.store = some st → st.users.find req.username = none := by
    refine ATriple.bind (getUser_triple hP) fun r => ?_
    rcases r with _ | (_ | user)
    · exact ATriple.pure fun x hx _ st hst => by simp [hx.1] at hst
    · refine ATriple.pure fun x ⟨_, st', hst', hu⟩ _ st hst => ?_
      obtain rfl := some.inj (hst'.symm.trans hst)
      exact hu
    · exact ATriple.pure fun _ _ h => by cases h
  refine ATriple.bind htaken fun taken => ?_
  refine ATriple.when (M := fun x => ∀ st, x.store = some st →
    st.users.find req.username = none) (fun _ => ATriple.throw)
    (fun hc _ hx => hx (Bool.eq_false_of_not_eq_true hc)) fun _ => ?_
  refine ATriple.bind (putUser_triple hP fun x hx => ?_) fun _ => ?_
  · rw [hj]
    exact ⟨rfl, hx, rfl, rfl, rfl, hh⟩
  · exact ATriple.bind (invalidateUser_triple hP) fun _ => ATriple.pure fun _ _ => trivial

theorem updateUser_triple {caller n : String} {req : UpdateUserRequest} {draw : Draw}
    (hj : j.request = .updateUser caller n req draw) :
    ASafe ext rules P i j (updateUser ext caller n req draw) := by
  refine ATriple.bind (requireAdmin_triple hP) fun _ => ?_
  have hnew : ATriple ext rules P i j (fun _ => True) (newHash ext draw.salt req.password)
      fun h _ => True ∧ h = req.password.map (ext.hash draw.salt) := by
    cases req.password with
    | none => exact ATriple.pure fun _ _ => ⟨trivial, rfl⟩
    | some password =>
      refine ATriple.bind hashPassword_triple fun h => ?_
      exact ATriple.pure fun _ hx => ⟨trivial, congrArg some hx.2⟩
  refine ATriple.bind hnew fun h => ATriple.assume fun hh => ?_
  refine ATriple.bind (findUser_triple hP) fun old => ?_
  refine ATriple.when (M := Fetched n (some (some old))) (fun _ => ATriple.throw)
    (fun _ _ hx => hx) fun _ => ?_
  refine ATriple.bind (putUser_triple hP fun x ⟨_, st, hst, hu⟩ => ?_) fun _ => ?_
  · rw [hj]
    exact ⟨rfl, st, old, hst, hu, by rw [hh]⟩
  · exact ATriple.bind (invalidateUser_triple hP) fun _ => ATriple.pure fun _ _ => trivial

theorem deleteUser_triple {caller n : String} (hj : j.request = .deleteUser caller n) :
    ASafe ext rules P i j (deleteUser caller n) := by
  refine ATriple.bind (requireAdmin_triple hP) fun _ => ?_
  have hguard : ATriple ext rules P i j (fun _ => True) (guardDelete n)
      fun _ x => (AccountRequest.deleteUser caller n).Deletes x n := by
    refine ATriple.bind (getUser_triple hP) fun r => ?_
    rcases r with _ | (_ | target)
    · exact ATriple.pure fun x hx => ⟨rfl, fun st hst => by simp [hx.1] at hst⟩
    · refine ATriple.pure fun x ⟨_, st', hst', hu⟩ => ⟨rfl, fun st hst => .inl fun r hr => ?_⟩
      obtain rfl := some.inj (hst'.symm.trans hst)
      simp [hu] at hr
    · show ATriple ext rules P i j _ (if isAdmin target then guardLastAdmin else pure ()) _
      split_ifs with hadmin
      · refine ATriple.bind (listUsers_triple hP) fun users => ?_
        cases users with
        | none =>
          exact ATriple.pure fun x (hx : x.store = none) =>
            ⟨rfl, fun st hst => by simp [hx] at hst⟩
        | some users =>
          show ATriple ext rules P i j _ (if adminCount users ≤ 1 then _ else _) _
          split_ifs with hcount
          · exact ATriple.throw
          · refine ATriple.pure fun x ⟨st', hst', hu⟩ => ⟨rfl, fun st hst => .inr ?_⟩
            obtain rfl := some.inj (hst'.symm.trans hst)
            rw [← hu]
            omega
      · refine ATriple.pure fun x ⟨_, st', hst', hu⟩ => ⟨rfl, fun st hst => .inl fun r hr => ?_⟩
        obtain rfl := some.inj (hst'.symm.trans hst)
        obtain rfl := some.inj (hu.symm.trans hr)
        exact Bool.eq_false_of_not_eq_true hadmin
  refine ATriple.bind hguard fun _ => ?_
  have hdelete : ATriple ext rules P i j
      (fun x => (AccountRequest.deleteUser caller n).Deletes x n) (deleteRecord n)
      fun _ _ => True := by
    refine ATriple.bind (M := fun _ _ => True) ?_ fun r => stored_triple fun _ _ _ _ => trivial
    exact issue_triple hP (fun x hx => by rwa [Allowed, hj]) fun _ _ _ _ _ _ => trivial
  refine ATriple.bind hdelete fun existed => ?_
  cases existed with
  | true => exact ATriple.bind (invalidateUser_triple hP) fun _ => ATriple.pure fun _ _ => trivial
  | false => exact ATriple.throw

theorem revokeUserTokens_triple {caller n : String}
    (hj : j.request = .revokeUserTokens caller n secret) :
    ASafe ext rules P i j (revokeUserTokens caller n secret) := by
  unfold revokeUserTokens
  refine ATriple.when (c := caller ≠ n) (M := fun _ => True) (fun _ => requireAdmin_triple hP)
    (fun _ _ _ => trivial) fun _ => ?_
  refine ATriple.bind (findUser_triple hP) fun old => ?_
  refine ATriple.bind (putUser_triple hP fun x ⟨_, st, hst, hu⟩ => ?_) fun _ => ?_
  · rw [hj]
    exact ⟨rfl, st, old, hst, hu, rfl⟩
  · exact ATriple.bind (invalidateUser_triple hP) fun _ => ATriple.pure fun _ _ => trivial

theorem passwordOwner_triple {req : ChangePasswordRequest} :
    ATriple ext rules P i j F (passwordOwner ext caller req) fun old =>
      Fetched req.username (some (some old)) := by
  refine ATriple.bind (getUser_triple hP) fun r => ?_
  have hjoin : ∀ old, r.join = some old → r = some (some old) := by
    rintro old h
    rcases r with _ | (_ | old')
    · cases h
    · cases h
    · rw [Option.join_some] at h
      rw [h]
  generalize r.join = record at hjoin
  show ATriple ext rules P i j (Fetched req.username r) (if caller ≠ req.username then _ else _) _
  split_ifs with hc
  · cases record with
    | none => exact ATriple.bind verifyPassword_triple fun _ => ATriple.throw
    | some old => exact ATriple.pure fun x hx => hjoin old rfl ▸ hx
  · cases record with
    | none => exact ATriple.throw
    | some old =>
      refine ATriple.bind verifyPassword_triple fun valid => ?_
      cases valid with
      | false => exact ATriple.throw
      | true => exact ATriple.pure fun x hx => hjoin old rfl ▸ hx

theorem changePassword_triple {req : ChangePasswordRequest} {draw : Draw}
    (hj : j.request = .changePassword caller req draw) :
    ASafe ext rules P i j (changePassword ext caller req draw) := by
  unfold changePassword
  refine ATriple.when (c := caller ≠ req.username) (M := fun _ => True)
    (fun _ => requireAdmin_triple hP) (fun _ _ _ => trivial) fun _ => ?_
  refine ATriple.bind ((passwordOwner_triple hP).weaken (fun _ hx => hx) fun old x hx =>
    (⟨hx, hx.username⟩ : Fetched req.username (some (some old)) x ∧
      old.username = req.username)) fun old => ATriple.assume fun hn => ?_
  refine ATriple.when (M := Fetched req.username (some (some old))) (fun _ => ATriple.throw)
    (fun _ _ hx => hx) fun _ => ?_
  refine ATriple.bind hashPassword_triple fun h => ATriple.assume fun hh => ?_
  refine ATriple.bind (putUser_triple hP fun x ⟨_, st, hst, hu⟩ => ?_) fun _ => ?_
  · rw [hj]
    exact ⟨rfl, st, old, hst, hu, by rw [hh]⟩
  refine ATriple.bind (invalidateUser_triple hP) fun _ => ?_
  show ATriple ext rules P i j _ (if caller = req.username then _ else _) _
  split_ifs
  · refine (signToken_triple hP (F := fun x => x.user = some _) (fun _ _ _ _ _ _ _ h => h)
      fun x t hx ht => ?_).weaken (fun _ hx => hx) fun _ _ _ => trivial
    rw [hj]
    exact ⟨_, hx, by rwa [← hn] at ht⟩
  · exact ATriple.pure fun _ _ => trivial

theorem login_triple {n password : String} (hj : j.request = .login n password) :
    ASafe ext rules P i j (login ext n password) := by
  have hauth : ATriple ext rules P i j (fun _ => True) (authenticate ext n password)
      fun user x => ∀ u, user = some u → x.user = some u := by
    refine ATriple.bind (lookupUser_triple hP) fun user => ?_
    refine ATriple.bind verifyPassword_triple fun valid => ATriple.pure fun x hx u hu => ?_
    cases valid with
    | true => exact hx.2.trans hu
    | false => cases hu
  refine ATriple.bind hauth fun user => ?_
  cases user with
  | none => exact ATriple.throw
  | some user =>
    refine (signToken_triple hP (F := fun x => x.user = some user) (fun _ _ _ _ _ _ _ h => h)
      fun x t hx ht => ?_).weaken (fun _ h => h user rfl) fun _ _ _ => trivial
    rw [hj]
    exact ⟨user, hx, ht⟩

theorem resolveBearer_triple {t : Token} :
    ASafe ext rules P i j (resolveBearer ext t) := by
  have hdecide : ∀ {a : Bool} {F : Seen → Prop}, (∀ x, F x → Allowed ext j x (.decide t a)) →
      ATriple ext rules P i j F (issue (.decide t a)) fun _ _ => True := fun h =>
    issue_triple hP h fun _ _ _ _ _ _ => trivial
  refine ATriple.bind (resolveUserCached_triple hP) fun r => ?_
  rcases r with _ | (_ | user)
  · refine ATriple.bind (hdecide fun x (hx : x.answered = false) => ?_) fun _ => ATriple.throw
    rw [Allowed, if_neg (by rw [hx]; exact Bool.false_ne_true)]
  · refine ATriple.bind (hdecide fun x hx => ?_) fun _ => ATriple.throw
    obtain ⟨hname, huser, hanswered⟩ := hx
    rw [Allowed, if_pos hanswered, huser]
    exact ⟨hname.symm, fun h => (Bool.false_ne_true h).elim, rfl⟩
  · have hF : Timeless fun x => x.userName = t.sub ∧ x.user = some user ∧ x.answered = true :=
      fun _ _ _ _ _ _ _ h => h
    refine ATriple.bind (loadJwt_triple hP hF) fun jwt => ?_
    refine ATriple.bind (((clock_triple hP (G := fun _ => True) hF fun _ _ h => h)).weaken
      (fun _ h => ⟨h.1, h.2, trivial⟩) fun _ _ h => h) fun now => ?_
    refine ATriple.bind (hdecide fun x hx => ?_) fun _ => ?_
    · rw [Allowed, if_pos hx.1.2.2, hx.1.2.1, hx.2.1.1, hx.2.2.2, Option.any_some]
      exact ⟨hx.1.1.symm, fun _ => hx.2.1.2, rfl⟩
    · show ATriple ext rules P i j _ (if validToken ext t jwt user now then _ else _) _
      split_ifs
      · exact ATriple.pure fun _ _ => trivial
      · exact ATriple.throw

theorem provisionUser_triple {roles : List String} (hj : j.request = .provisionUser n roles) :
    ASafe ext rules P i j (provisionUser n roles) := by
  refine ATriple.bind (getRecord_triple hP) fun existing => ?_
  cases hr : provisioned n roles existing with
  | none => exact ATriple.pure fun _ _ => trivial
  | some record =>
    refine ATriple.bind (putUser_triple hP fun x ⟨_, st, hst, hu⟩ => ?_) fun _ =>
      ATriple.pure fun _ _ => trivial
    rw [hj]
    exact ⟨rfl, st, hst, by rw [hu, hr]⟩

theorem restoreUsers_triple {users : List UserRecord}
    (hj : j.request = .restoreUsers caller users) :
    ASafe ext rules P i j (restoreUsers caller users) := by
  refine ATriple.bind (requireAdmin_triple hP) fun _ => ?_
  have heach : ASafe ext rules P i j (Fallible.each (putUser .plain) users) := by
    refine FTriple.each (I := fun _ _ => True) stable_true stable_true fun done r rest h => ?_
    have hput : ATriple ext rules P i j (fun _ => True) (putUser .plain r) fun _ x =>
        x.user = some r := by
      refine putUser_triple hP fun x _ => ?_
      rw [hj, h]
      exact ⟨rfl, List.mem_append_right done List.mem_cons_self⟩
    exact hput.weaken (fun _ h => h) fun _ _ _ => trivial
  refine ATriple.bind heach fun _ => ATriple.bind (M := fun _ _ => True) ?_ fun _ =>
    ATriple.pure fun _ _ => trivial
  exact issue_triple hP (fun _ _ => trivial) fun _ _ _ _ _ _ => trivial

/-- Storing a signing secret that the request may store, and taking it over. -/
theorem putJwt_triple {revoking : Bool} {st : JwtSecretState} {a : Answer}
    (h : ∀ x, F x → j.request.PutsJwt x revoking st) :
    ATriple ext rules P i j F
      (do stored (← issue (.putJwt revoking st)); issue (.storeJwt st); pure a)
      fun _ _ => True := by
  have hput : ATriple ext rules P i j F (issue (.putJwt revoking st)) fun r x =>
      r = some () → x.jwt = st := by
    refine issue_triple hP h fun b s s' r _ hx hr => ?_
    cases b with
    | true =>
      obtain ⟨rfl, _⟩ := some_mk_inj hx
      simp [AccountState.sees]
    | false =>
      obtain ⟨_, rfl⟩ := some_mk_inj hx
      cases hr
  refine ATriple.bind hput fun r => ?_
  refine ATriple.bind (M := fun _ x => x.jwt = st)
    (stored_triple fun a ha x hx => hx (by rw [ha])) fun _ => ?_
  refine ATriple.bind (M := fun _ _ => True) ?_ fun _ => ATriple.pure fun _ _ => trivial
  exact issue_triple hP (fun x hx => hx.symm) fun _ _ _ _ _ _ => trivial

theorem revokeAllTokens_triple (hj : j.request = .revokeAllTokens caller secret) :
    ASafe ext rules P i j (revokeAllTokens caller secret) := by
  refine ATriple.bind (requireAdmin_triple hP) fun _ => ?_
  have hclock : ATriple ext rules P i j (fun _ => True) (issue .clock) fun now x =>
      x.clock = now := by
    refine issue_triple hP (fun _ _ => trivial) fun b s s' r _ hx => ?_
    obtain ⟨rfl, rfl⟩ := some_mk_inj hx
    simp [AccountState.sees]
  refine ATriple.bind hclock fun now => putJwt_triple hP fun x hx => ?_
  rw [hj]
  exact ⟨rfl, by rw [hx]⟩

theorem rotateJwt_triple (hj : j.request = .rotateJwt secret) :
    ASafe ext rules P i j (rotateJwt secret) := by
  have hsettings : ATriple ext rules P i j (fun _ => True) (issue .loadSettings)
      fun settings x => x.settings = settings := by
    refine issue_triple hP (fun _ _ => trivial) fun b s s' r _ hx => ?_
    obtain ⟨rfl, rfl⟩ := some_mk_inj hx
    simp [AccountState.sees]
  have hjwt : ∀ settings, ATriple ext rules P i j (fun x => x.settings = settings)
      (issue .loadJwt) fun jwt x => x.settings = settings ∧ x.jwt = jwt := fun settings => by
    refine issue_triple hP (fun _ _ => trivial) fun b s s' r hs hx => ?_
    obtain ⟨rfl, rfl⟩ := some_mk_inj hx
    simpa [AccountState.sees] using hs
  have hclock : ∀ settings jwt, ATriple ext rules P i j
      (fun x => x.settings = settings ∧ x.jwt = jwt) (issue .clock) fun now x =>
        x.settings = settings ∧ x.jwt = jwt ∧ x.clock = now := fun settings jwt => by
    refine issue_triple hP (fun _ _ => trivial) fun b s s' r hs hx => ?_
    obtain ⟨rfl, rfl⟩ := some_mk_inj hx
    simpa [AccountState.sees] using hs
  refine ATriple.bind hsettings fun settings => ATriple.bind (hjwt settings) fun jwt =>
    ATriple.bind (hclock settings jwt) fun now => ?_
  show ATriple ext rules P i j _ (if now - jwt.rotatedAt < _ then _ else _) _
  split_ifs with hdue
  · exact ATriple.pure fun _ _ => trivial
  · refine putJwt_triple hP fun x hx => ?_
    rw [hj]
    refine ⟨rfl, by rw [hx.2.1, hx.2.2], ?_⟩
    rw [hx.1, hx.2.1, hx.2.2]
    omega

theorem refreshJwt_triple : ASafe ext rules P i j refreshJwt := by
  have hget : ATriple ext rules P i j (fun _ => True) (issue .getJwt) fun r x =>
      ∀ st, r = some (some st) → x.jwt = st := by
    refine issue_triple hP (fun _ _ => trivial) fun b s s' r _ hx st hr => ?_
    cases b with
    | true =>
      obtain ⟨rfl, rfl⟩ := some_mk_inj hx
      simp [AccountState.sees, some.inj hr]
    | false =>
      obtain ⟨rfl, rfl⟩ := some_mk_inj hx
      cases hr
  refine ATriple.bind hget fun r => ?_
  rcases r with _ | (_ | st)
  · exact ATriple.pure fun _ _ => trivial
  · exact ATriple.pure fun _ _ => trivial
  · refine ATriple.bind (M := fun _ _ => True) ?_ fun _ => ATriple.pure fun _ _ => trivial
    exact issue_triple hP (fun x hx => (hx st rfl).symm) fun _ _ _ _ _ _ => trivial

/-- Every handler only does what is allowed. -/
theorem handler_triple :
    ASafe ext rules P i j (j.request.handler ext) := by
  cases hj : j.request with
  | createUser caller req draw => exact createUser_triple hP hj
  | updateUser caller n req draw => exact updateUser_triple hP hj
  | deleteUser caller n => exact deleteUser_triple hP hj
  | changePassword caller req draw => exact changePassword_triple hP hj
  | revokeUserTokens caller n secret => exact revokeUserTokens_triple hP hj
  | revokeAllTokens caller secret => exact revokeAllTokens_triple hP hj
  | provisionUser n roles => exact provisionUser_triple hP hj
  | restoreUsers caller users => exact restoreUsers_triple hP hj
  | login n password => exact login_triple hP hj
  | resolveBearer t => exact resolveBearer_triple hP
  | rotateJwt secret => exact rotateJwt_triple hP hj
  | refreshJwt => exact refreshJwt_triple hP

/-! ## Runs -/

theorem accountLogic_sound : (accountLogic P).Sound (accountSystem ext) rules where
  guar_rely hi _ _ hg := hg _ hi
  spawn w j hi _ := by
    refine ⟨(), hi, fun _ => rfl, ?_⟩
    have htriple : Triple (accountSystem ext) rules w.jobs.length j
        ((accountLogic P).contract w.jobs.length j) (fun _ => True)
        ((j.request.handler ext).run.bind fun _ => .pure ()) fun _ _ => True :=
      Triple.bind (handler_triple hP) fun _ => Triple.weaken_pre (Triple.pure stable_true)
        fun _ _ _ => trivial
    exact htriple ⟨w.shared, w.jobs ++ [some j], ()⟩ ⟨hi, List.getElem?_concat_length⟩ trivial
  leave w _ _ hi _ := ⟨(), hi, fun _ _ => rfl⟩
  env w e s hi _ hx := by
    refine ⟨(), hP.env e _ s hi hx, fun k => ?_⟩
    show s.seen k = w.shared.seen k
    cases e <;> obtain rfl := some.inj hx <;> rfl

/-- What every allowed operation preserves holds after every run. -/
theorem preserved_run {s : AccountState} (h0 : P s) {es : List (Event AccountJob AccountEnv)}
    {p : Pool AccountOp AccountOp.Reply AccountState AccountJob}
    (h : (Pool.init s).run (accountSystem ext) rules es = some p) : P p.shared := by
  obtain ⟨_, hinv⟩ := (accountLogic_sound hP).run_inv (g := ()) h0 h
  exact hinv

end

end Depot.Accounts
