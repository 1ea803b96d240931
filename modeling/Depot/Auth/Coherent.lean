import Depot.Auth.Backend

/-!
# Decisions after an invalidation

Results:
* `authLogic_sound`: every decision follows from the records that its call has read, and
  every cached credential has been verified.
* `auth_coherent`: as long as no call caches a record that it fetched before an
  invalidation, no call uses a record from before an invalidation that came before the call.
* `old_password_accepted`: a lookup caches the user that it fetched before the change.
-/

namespace Depot

open Lib List
open Function (update update_apply)
open Triple (weaken_pre)

/-! ## What a decision follows from -/

/-- The records a call has read. -/
abbrev Known := (k : AuthKey) → k.Record → Prop

/-- The records call `i` has read. -/
def AuthState.known (s : AuthState) (i : ℕ) : Known := fun k v => v ∈ s.table.used i k

/-- A password with the digest of this one was verified against the hash. -/
def AuthExt.Accepts (ext : AuthExt) (password hash : String) : Prop :=
  ∃ verified, ext.blake3 verified = ext.blake3 password ∧ ext.argon2 verified hash = true

/-- Each role was read under a name of the list. -/
def RolesFrom (names : List String) (roles : List RoleRecord) (u : Known) : Prop :=
  ∀ role ∈ roles, ∃ name ∈ names, u (.role name) (some role)

/-- The user was read, and the roles under the names of the user's roles. -/
def Resolved (username : String) (user : UserRecord) (roles : List RoleRecord) (u : Known) :
    Prop :=
  u (.user username) (some user) ∧ RolesFrom user.roles roles u

/-- A user from `resolve_user_cached`. -/
def UserAnswer (username : String) : Except AuthError UserRecord → Known → Prop
  | .ok user, u => u (.user username) (some user)
  | .error .forbidden, u => u (.user username) none
  | .error .storage, _ => True

/-- A user with roles from `resolve_user_and_roles_cached`. -/
def RolesAnswer (username : String) :
    Except AuthError (UserRecord × List RoleRecord) → Known → Prop
  | .ok (user, roles), u => Resolved username user roles u
  | .error .forbidden, u => u (.user username) none
  | .error .storage, _ => True

/-- The decision follows from the records that were read. -/
def Decision.Based (ext : AuthExt) : Decision → Known → Prop
  | .authenticated n password (.ok (some record)), u =>
      u (.user n) (some record) ∧ ext.Accepts password record.passwordHash
  | .authenticated n _ (.ok none), u => ∃ record, u (.user n) record
  | .authenticated _ _ (.error _), _ => True
  | .permission n repo required answer, u =>
      ∃ r, RolesAnswer n r u ∧ answer = r.bind fun x => checkGrants x.2 repo required
  | .admin n answer, u =>
      ∃ r, UserAnswer n r u ∧
        answer = r.bind fun record => if isAdmin record then .ok () else .error .forbidden
  | .roles n (.ok (some (record, held))), u => Resolved n record held u
  | .roles n (.ok none), u => u (.user n) none
  | .roles _ (.error _), _ => True
  | .user n (.ok record), u => u (.user n) record
  | .user _ (.error _), _ => True

/-- Every decision follows from what its call has read, and that is not older than the last
    invalidation before the call. -/
structure Coherent (ext : AuthExt) (s : AuthState) : Prop where
  based : ∀ x ∈ s.decisions, x.2.Based ext (s.known x.1)
  current : ∀ i k v, s.known i k v → s.table.From k (s.table.floor i k) v

theorem RolesFrom.monotone (names : List String) (roles : List RoleRecord) :
    Monotone (RolesFrom names roles) := by
  intro u u' hu h role hr
  obtain ⟨name, hn, hk⟩ := h role hr
  exact ⟨name, hn, hu _ _ hk⟩

theorem Resolved.monotone (n : String) (user : UserRecord) (roles : List RoleRecord) :
    Monotone (Resolved n user roles) :=
  fun _ _ hu h => ⟨hu _ _ h.1, RolesFrom.monotone _ _ hu h.2⟩

theorem UserAnswer.monotone (n : String) (r : Except AuthError UserRecord) :
    Monotone (UserAnswer n r) := by
  intro u u' hu h
  rcases r with (_ | _) | user
  · exact hu _ _ h
  · trivial
  · exact hu _ _ h

theorem RolesAnswer.monotone (n : String) (r : Except AuthError (UserRecord × List RoleRecord)) :
    Monotone (RolesAnswer n r) := by
  intro u u' hu h
  rcases r with (_ | _) | ⟨user, roles⟩
  · exact hu _ _ h
  · trivial
  · exact Resolved.monotone n user roles hu h

theorem Decision.Based.monotone (ext : AuthExt) (d : Decision) : Monotone (d.Based ext) := by
  intro u u' hu h
  cases d with
  | authenticated n password answer =>
    rcases answer with _ | (_ | user)
    · trivial
    · obtain ⟨user, hk⟩ := h
      exact ⟨user, hu _ _ hk⟩
    · exact ⟨hu _ _ h.1, h.2⟩
  | permission n repo required answer =>
    obtain ⟨r, hr, ha⟩ := h
    exact ⟨r, RolesAnswer.monotone n r hu hr, ha⟩
  | admin n answer =>
    obtain ⟨r, hr, ha⟩ := h
    exact ⟨r, UserAnswer.monotone n r hu hr, ha⟩
  | roles n answer =>
    rcases answer with _ | (_ | ⟨user, roles⟩)
    · trivial
    · exact hu _ _ h
    · exact Resolved.monotone n user roles hu h
  | user n answer =>
    rcases answer with _ | user
    · trivial
    · exact hu _ _ h

/-! ## The proof outline -/

/-- What the proof sees. -/
abbrev AuthView := View AuthState AuthJob Unit

/-- Cached credentials have been verified, decisions follow from what was read. -/
structure AuthInv (ext : AuthExt) (w : AuthView) : Prop where
  verified : ∀ n v, w.shared.authCache n = some v →
    ∃ password, ext.blake3 password = v.passwordDigest ∧
      ext.argon2 password v.passwordHash = true
  based : ∀ x ∈ w.shared.decisions, x.2.Based ext (w.shared.known x.1)
  started : ∀ x ∈ w.shared.decisions, x.1 < w.jobs.length

/-- The others leave call `i` what it has read, and do not decide for it. -/
structure AuthRely (i : ℕ) (s s' : AuthState) : Prop where
  known : s.known i ≤ s'.known i
  decisions : ∀ d, (i, d) ∈ s'.decisions → (i, d) ∈ s.decisions

theorem AuthRely.refl (i : ℕ) (s : AuthState) : AuthRely i s s := ⟨le_rfl, fun _ h => h⟩

/-- The proof outline. -/
def authLogic (ext : AuthExt) : Logic AuthState AuthJob Unit where
  inv := AuthInv ext
  rely i w w' := AuthRely i w.shared w'.shared
  guar i w w' := ∀ k ≠ i, AuthRely k w.shared w'.shared
  rely_refl i w := AuthRely.refl i w.shared
  rely_trans h h' := ⟨h.known.trans h'.known, fun d hd => h.decisions d (h'.decisions d hd)⟩

/-- The contract of a call between its start and its decision: calls only learn. -/
def readContract (ext : AuthExt) (i : ℕ) (j : AuthJob) : Contract AuthState AuthJob Unit :=
  { (authLogic ext).contract i j with
    guar := fun w w' => (∀ k, w.shared.known k ≤ w'.shared.known k) ∧
      w'.shared.decisions = w.shared.decisions }

/-- Triples about what happens between the start of a call and its decision. -/
abbrev AuthTriple (ext : AuthExt) (i : ℕ) (j : AuthJob) {α : Type} (pre : AuthView → Prop)
    (p : AuthTask α) (post : α → AuthView → Prop) : Prop :=
  Triple (authSystem ext) .free i j (readContract ext i j) pre p post

/-- The same, whatever is known before. -/
abbrev AuthSpec (ext : AuthExt) (i : ℕ) (j : AuthJob) {α : Type} (p : AuthTask α)
    (post : α → AuthView → Prop) : Prop :=
  AuthTriple ext i j (fun _ => True) p post

section

variable {ext : AuthExt} {i : ℕ} {j : AuthJob} {α β : Type}

theorem readContract_part : (readContract ext i j).Part ((authLogic ext).contract i j) where
  inv _ := Iff.rfl
  rely _ _ h := h
  guar w w' h k _ := ⟨h.1 k, fun d hd => by rw [h.2] at hd; exact hd⟩

/-- Assertions about what the call has read are stable when they are monotone. -/
theorem stable_known {F : Known → Prop} (hF : Monotone F) :
    (readContract ext i j).Stable fun w => F (w.shared.known i) :=
  fun _ _ _ _ hr h => hF hr.known h

/-- What the call has read is carried along. -/
theorem bind_known {F : Known → Prop} (hF : Monotone F) {p : AuthTask α} {f : α → AuthTask β}
    {M : α → AuthView → Prop} {post : β → AuthView → Prop}
    (hp : AuthSpec ext i j p M)
    (hf : ∀ a, AuthTriple ext i j (fun w => F (w.shared.known i) ∧ M a w) (f a) post) :
    AuthTriple ext i j (fun w => F (w.shared.known i)) (p.bind f) post := by
  have hframe := Triple.frame (F := fun w : AuthView => F (w.shared.known i)) (stable_known hF)
    (fun w w' _ _ hg h => hF (hg.1 i) h) hp
  exact Triple.bind (hframe.weaken_pre fun w _ hw => ⟨hw, trivial⟩) hf

/-- Return what follows from what the call has read. -/
theorem pure_known {a : α} {Q : α → Known → Prop} (hQ : Monotone (Q a)) {pre : AuthView → Prop}
    (h : ∀ w, pre w → Q a (w.shared.known i)) :
    AuthTriple ext i j pre (.pure a) fun a w => Q a (w.shared.known i) :=
  (Triple.pure (stable_known hQ)).weaken_pre fun w _ hw => h w hw

/-! ## The operations -/

/-- What changes neither the decisions nor adds a credential keeps the invariant. -/
theorem AuthInv.quiet {w : AuthView} {s : AuthState} (h : AuthInv ext w)
    (hk : ∀ k, w.shared.known k ≤ s.known k) (hd : s.decisions = w.shared.decisions)
    (hc : ∀ n v, s.authCache n = some v → w.shared.authCache n = some v) :
    AuthInv ext ⟨s, w.jobs, ()⟩ where
  verified n v hv := h.verified n v (hc n v hv)
  based x hx := by
    have hx' : x ∈ s.decisions := hx
    rw [hd] at hx'
    exact Decision.Based.monotone ext x.2 (hk x.1) (h.based x hx')
  started x hx := by
    have hx' : x ∈ s.decisions := hx
    rw [hd] at hx'
    exact h.started x hx'

theorem known_use (s : AuthState) (k : AuthKey) (v : k.Record) (i' : ℕ) :
    s.known i' ≤ ({ s with table := s.table.use i k v } : AuthState).known i' :=
  fun _ _ h => Lookaside.used_use h

theorem known_hit (s : AuthState) (k : AuthKey) (i' : ℕ) :
    s.known i' ≤ ({ s with table := s.table.hit i k } : AuthState).known i' := by
  unfold Lookaside.hit
  cases s.table.cache k with
  | none => exact le_rfl
  | some v => exact known_use s k v i'

/-- The reply of a lookup was read. -/
def ReadReply (k : AuthKey) (r : Option k.Record) (u : Known) : Prop := ∀ v, r = some v → u k v

theorem ReadReply.monotone (k : AuthKey) (r : Option k.Record) : Monotone (ReadReply k r) :=
  fun _ _ hu h v hv => hu k v (h v hv)

theorem authQuiet_triple {o : AuthOp} {Q : o.Reply → Known → Prop} (hQ : ∀ r, Monotone (Q r))
    (h : ∀ b (s s' : AuthState) r, s.exec i o b = some (s', r) → (∀ k, s.known k ≤ s'.known k) ∧
      s'.decisions = s.decisions ∧ (∀ n v, s'.authCache n = some v → s.authCache n = some v) ∧
      Q r (s'.known i)) :
    AuthSpec ext i j (Task.call o) fun r w => Q r (w.shared.known i) := by
  refine Triple.call (stable_known (F := fun _ => True) fun _ _ _ h => h)
    (fun r => stable_known (hQ r)) fun w b s r hi _ _ hx => ?_
  obtain ⟨hk, hd, hc, hq⟩ := h b w.shared s r hx
  exact ⟨(), ⟨hi.1.quiet hk hd hc, hi.2⟩, ⟨hk, hd⟩, hq⟩

theorem cacheGet_triple (k : AuthKey) :
    AuthSpec ext i j (Task.call (AuthOp.cacheGet k)) fun r w =>
      ReadReply k r (w.shared.known i) := by
  refine authQuiet_triple (o := .cacheGet k) (ReadReply.monotone k) fun b s s' r hx => ?_
  obtain ⟨rfl, rfl⟩ := some_mk_inj hx
  refine ⟨known_hit s k, rfl, fun _ _ h => h, fun v hv => ?_⟩
  show v ∈ (s.table.hit i k).used i k
  unfold Lookaside.hit
  rw [hv]
  exact Lookaside.mem_use.mpr (.inl ⟨rfl, rfl, rfl⟩)

theorem fetch_triple (k : AuthKey) :
    AuthSpec ext i j (Task.call (AuthOp.fetch k)) fun r w =>
      ReadReply k r (w.shared.known i) := by
  refine authQuiet_triple (o := .fetch k) (ReadReply.monotone k) fun b s s' r hx => ?_
  cases b with
  | false =>
    obtain ⟨rfl, rfl⟩ := some_mk_inj hx
    exact ⟨fun _ => le_rfl, rfl, fun _ _ h => h, fun v hv => by cases hv⟩
  | true =>
    obtain ⟨rfl, rfl⟩ := some_mk_inj hx
    refine ⟨known_use s k _, rfl, fun _ _ h => h, fun v hv => ?_⟩
    obtain rfl := Option.some.inj hv
    exact Lookaside.mem_use.mpr (.inl ⟨rfl, rfl, rfl⟩)

/-- The operations that read nothing for the call. -/
theorem authWrite_triple {o : AuthOp} (h : ∀ b (s s' : AuthState) r, s.exec i o b = some (s', r) →
    s'.table.used = s.table.used ∧ s'.decisions = s.decisions ∧
      ∀ n v, s'.authCache n = some v → s.authCache n = some v) :
    AuthSpec ext i j (Task.call o) fun _ _ => True := by
  refine authQuiet_triple (Q := fun _ _ => True) (fun _ _ _ _ h => h) fun b s s' r hx => ?_
  obtain ⟨hu, hd, hc⟩ := h b s s' r hx
  refine ⟨fun k => ?_, hd, hc, trivial⟩
  unfold AuthState.known
  rw [hu]

theorem cachePut_triple (k : AuthKey) (v : k.Record) :
    AuthSpec ext i j (Task.call (AuthOp.cachePut k v)) fun _ _ => True := by
  refine authWrite_triple (o := .cachePut k v) fun b s s' r hx => ?_
  obtain ⟨rfl, -⟩ := some_mk_inj hx
  exact ⟨rfl, rfl, fun _ _ h => h⟩

theorem getVerified_triple (n : String) :
    AuthSpec ext i j (getVerified n) fun r _ => ∀ v, r = some v →
      ∃ password, ext.blake3 password = v.passwordDigest ∧
        ext.argon2 password v.passwordHash = true := by
  refine Triple.call (stable_known (F := fun _ => True) fun _ _ _ h => h)
    (fun r _ _ _ _ _ h => h) fun w b s r hi _ _ hx => ?_
  obtain ⟨rfl, rfl⟩ := some_mk_inj hx
  exact ⟨(), hi, ⟨fun _ => le_rfl, rfl⟩, fun v hv => hi.1.verified n v hv⟩

theorem putVerified_triple (n : String) {password hash : String}
    (hv : ext.argon2 password hash = true) :
    AuthSpec ext i j (putVerified n ⟨hash, ext.blake3 password⟩)
      fun _ _ => True := by
  refine Triple.call (stable_known (F := fun _ => True) fun _ _ _ h => h)
    (fun _ _ _ _ _ _ h => h) fun w b s r hi _ _ hx => ?_
  obtain ⟨rfl, -⟩ := some_mk_inj hx
  refine ⟨(), ⟨⟨fun n' v hv' => ?_, hi.1.based, hi.1.started⟩, hi.2⟩, ⟨fun _ => le_rfl, rfl⟩,
    trivial⟩
  have hc : update w.shared.authCache n (some ⟨hash, ext.blake3 password⟩) n' = some v :=
    hv'
  rw [update_apply] at hc
  split_ifs at hc
  · obtain rfl := Option.some.inj hc
    exact ⟨password, rfl, hv⟩
  · exact hi.1.verified n' v hc

/-! ## The functions -/

/-- What `get_user_with_roles` returns. -/
def LoadedAnswer (n : String) : Option (Option (UserRecord × List RoleRecord)) → Known → Prop
  | none, _ => True
  | some none, u => u (.user n) none
  | some (some (user, roles)), u => Resolved n user roles u

theorem LoadedAnswer.monotone (n : String) (r : Option (Option (UserRecord × List RoleRecord))) :
    Monotone (LoadedAnswer n r) := by
  intro u u' hu h
  rcases r with _ | (_ | ⟨user, roles⟩)
  · trivial
  · exact hu _ _ h
  · exact Resolved.monotone n user roles hu h

/-- The roles that are cached, and names of others. -/
def CachedAnswer (names : List String) (x : List RoleRecord × List String) (u : Known) : Prop :=
  RolesFrom names x.1 u ∧ ∀ name ∈ x.2, name ∈ names

theorem CachedAnswer.monotone (names : List String) (x : List RoleRecord × List String) :
    Monotone (CachedAnswer names x) :=
  fun _ _ hu h => ⟨RolesFrom.monotone names x.1 hu h.1, h.2⟩

/-- What was fetched under each name was read. -/
def FetchedFrom (names : List String) (fetched : List (String × Option RoleRecord)) (u : Known) :
    Prop :=
  ∀ x ∈ fetched, x.1 ∈ names ∧ u (.role x.1) x.2

theorem FetchedFrom.monotone (names : List String) (fetched : List (String × Option RoleRecord)) :
    Monotone (FetchedFrom names fetched) :=
  fun _ _ hu h x hx => ⟨(h x hx).1, hu _ _ (h x hx).2⟩

/-- The same, when the store did not fail. -/
def FetchedAnswer (names : List String) : Option (List (String × Option RoleRecord)) → Known → Prop
  | none, _ => True
  | some fetched, u => FetchedFrom names fetched u

theorem FetchedAnswer.monotone (names : List String)
    (r : Option (List (String × Option RoleRecord))) : Monotone (FetchedAnswer names r) := by
  intro u u' hu h
  cases r with
  | none => trivial
  | some fetched => exact FetchedFrom.monotone names fetched hu h

theorem RolesFrom.nil (names : List String) (u : Known) : RolesFrom names [] u :=
  fun _ hr => by cases hr

theorem RolesFrom.cons {name : String} {names : List String} {role : RoleRecord}
    {roles : List RoleRecord} {u : Known} (hk : u (.role name) (some role))
    (h : RolesFrom (name :: names) roles u) : RolesFrom (name :: names) (role :: roles) u := by
  intro role' hr
  rcases mem_cons.mp hr with rfl | hr
  · exact ⟨name, mem_cons_self, hk⟩
  · exact h role' hr

theorem RolesFrom.weaken {names names' : List String} {roles : List RoleRecord} {u : Known}
    (h : RolesFrom names roles u) (hn : ∀ name ∈ names, name ∈ names') :
    RolesFrom names' roles u := by
  intro role hr
  obtain ⟨name, hmem, hk⟩ := h role hr
  exact ⟨name, hn name hmem, hk⟩

theorem RolesFrom.append {names : List String} {roles roles' : List RoleRecord} {u : Known}
    (h : RolesFrom names roles u) (h' : RolesFrom names roles' u) :
    RolesFrom names (roles ++ roles') u := by
  intro role hr
  rcases mem_append.mp hr with hr | hr
  · exact h role hr
  · exact h' role hr

theorem getRoles_triple (names : List String) :
    AuthSpec ext i j (getRoles names) fun roles w =>
      RolesFrom names roles (w.shared.known i) := by
  induction names with
  | nil => exact pure_known (RolesFrom.monotone [] []) fun _ _ => RolesFrom.nil [] _
  | cons name names ih =>
    refine Triple.bind (fetch_triple (.role name)) fun r => ?_
    refine bind_known (ReadReply.monotone (.role name) r) ih fun roles => ?_
    have hrest : ∀ u : Known, RolesFrom names roles u → RolesFrom (name :: names) roles u :=
      fun u h => h.weaken fun _ hn => mem_cons_of_mem _ hn
    rcases r with _ | (_ | role)
    · exact pure_known (RolesFrom.monotone _ roles) fun w hw => hrest _ hw.2
    · exact pure_known (RolesFrom.monotone _ roles) fun w hw => hrest _ hw.2
    · exact pure_known (RolesFrom.monotone _ (role :: roles)) fun w hw =>
        RolesFrom.cons (hw.1 _ rfl) (hrest _ hw.2)

theorem getUserWithRoles_triple (n : String) :
    AuthSpec ext i j (getUserWithRoles n) fun r w =>
      LoadedAnswer n r (w.shared.known i) := by
  refine Triple.bind (fetch_triple (.user n)) fun r => ?_
  rcases r with _ | (_ | user)
  · exact pure_known (LoadedAnswer.monotone n none) fun _ _ => trivial
  · exact pure_known (LoadedAnswer.monotone n (some none)) fun w hw => hw none rfl
  · refine bind_known (ReadReply.monotone (.user n) _) (getRoles_triple user.roles) fun roles => ?_
    exact pure_known (LoadedAnswer.monotone n (some (some (user, roles)))) fun w hw =>
      ⟨hw.1 _ rfl, hw.2⟩

theorem resolveUserCached_triple (n : String) :
    AuthSpec ext i j (resolveUserCached n) fun r w =>
      UserAnswer n r (w.shared.known i) := by
  refine Triple.bind (cacheGet_triple (.user n)) fun cached => ?_
  rcases cached with _ | (_ | user)
  · refine weaken_pre (Triple.bind (fetch_triple (.user n)) fun fetched => ?_) fun _ _ _ => trivial
    rcases fetched with _ | user
    · exact pure_known (UserAnswer.monotone n (.error .storage)) fun _ _ => trivial
    · refine bind_known (ReadReply.monotone (.user n) _) (cachePut_triple (.user n) user)
        fun _ => ?_
      cases user with
      | none => exact pure_known (UserAnswer.monotone n (.error .forbidden)) fun w hw => hw.1 _ rfl
      | some user => exact pure_known (UserAnswer.monotone n (.ok user)) fun w hw => hw.1 _ rfl
  · exact pure_known (UserAnswer.monotone n (.error .forbidden)) fun w hw => hw _ rfl
  · exact pure_known (UserAnswer.monotone n (.ok user)) fun w hw => hw _ rfl

theorem getCachedRoles_triple (names : List String) :
    AuthSpec ext i j (getCachedRoles names) fun x w =>
      CachedAnswer names x (w.shared.known i) := by
  induction names with
  | nil =>
    exact pure_known (CachedAnswer.monotone [] ([], [])) fun _ _ =>
      ⟨RolesFrom.nil [] _, fun _ hn => hn⟩
  | cons name names ih =>
    refine Triple.bind (cacheGet_triple (.role name)) fun r => ?_
    refine bind_known (ReadReply.monotone (.role name) r) ih fun x => ?_
    obtain ⟨roles, uncached⟩ := x
    have hrest : ∀ u : Known, CachedAnswer names (roles, uncached) u →
        CachedAnswer (name :: names) (roles, uncached) u := fun u h =>
      ⟨h.1.weaken fun _ hn => mem_cons_of_mem _ hn,
        fun n hn => mem_cons_of_mem _ (h.2 n hn)⟩
    rcases r with _ | (_ | role)
    · refine pure_known (CachedAnswer.monotone _ (roles, name :: uncached)) fun w hw => ?_
      refine ⟨(hrest _ hw.2).1, fun n hn => ?_⟩
      rcases mem_cons.mp hn with rfl | hn
      · exact mem_cons_self
      · exact (hrest _ hw.2).2 n hn
    · exact pure_known (CachedAnswer.monotone _ (roles, uncached)) fun w hw => hrest _ hw.2
    · exact pure_known (CachedAnswer.monotone _ (role :: roles, uncached)) fun w hw =>
        ⟨RolesFrom.cons (hw.1 _ rfl) (hrest _ hw.2).1, (hrest _ hw.2).2⟩

theorem fetchUncached_triple (names : List String) :
    AuthSpec ext i j (fetchUncached names) fun r w =>
      FetchedAnswer names r (w.shared.known i) := by
  induction names with
  | nil =>
    exact pure_known (FetchedAnswer.monotone [] (some [])) fun _ _ x hx => by cases hx
  | cons name names ih =>
    refine Triple.bind (fetch_triple (.role name)) fun r => ?_
    rcases r with _ | role
    · exact pure_known (FetchedAnswer.monotone _ none) fun _ _ => trivial
    · refine bind_known (ReadReply.monotone (.role name) _) ih fun rest => ?_
      rcases rest with _ | fetched
      · exact pure_known (FetchedAnswer.monotone _ none) fun _ _ => trivial
      · refine pure_known (FetchedAnswer.monotone _ (some ((name, role) :: fetched)))
          fun w hw x hx => ?_
        rcases mem_cons.mp hx with rfl | hx
        · exact ⟨mem_cons_self, hw.1 _ rfl⟩
        · obtain ⟨hn, hk⟩ := hw.2 x hx
          exact ⟨mem_cons_of_mem _ hn, hk⟩

/-- The roles that are returned after the inserts are those that were fetched. -/
theorem putFetched_triple (fetched : List (String × Option RoleRecord)) :
    AuthSpec ext i j (putFetched fetched) fun roles _ =>
      ∀ role ∈ roles, ∃ name, (name, some role) ∈ fetched := by
  have hs : ∀ (fetched : List (String × Option RoleRecord)) (roles : List RoleRecord),
      (readContract ext i j).Stable fun _ => ∀ role ∈ roles, ∃ name, (name, some role) ∈ fetched :=
    fun _ _ _ _ _ _ _ h => h
  induction fetched with
  | nil => exact weaken_pre (Triple.pure (hs [] [])) fun _ _ _ role hr => by cases hr
  | cons x fetched ih =>
    obtain ⟨name, role⟩ := x
    refine Triple.bind (cachePut_triple (.role name) role) fun _ => ?_
    refine Triple.bind ih fun roles => ?_
    have hrest : (∀ role ∈ roles, ∃ name, (name, some role) ∈ fetched) →
        ∀ role' ∈ roles, ∃ n, (n, some role') ∈ (name, role) :: fetched := by
      intro h role' hr
      obtain ⟨n, hn⟩ := h role' hr
      exact ⟨n, mem_cons_of_mem _ hn⟩
    cases role with
    | none => exact weaken_pre (Triple.pure (hs _ roles)) fun _ _ hw => hrest hw
    | some role =>
      refine weaken_pre (Triple.pure (hs _ (role :: roles))) fun _ _ hw role' hr => ?_
      rcases mem_cons.mp hr with rfl | hr
      · exact ⟨name, mem_cons_self⟩
      · exact hrest hw role' hr

theorem monotone_read (k : AuthKey) (v : k.Record) : Monotone fun u : Known => u k v :=
  fun _ _ hu h => hu k v h

theorem resolveRolesCached_triple (n : String) (user : UserRecord) :
    AuthTriple ext i j (fun w => w.shared.known i (.user n) (some user)) (resolveRolesCached user)
      fun r w => RolesAnswer n r (w.shared.known i) := by
  refine bind_known (monotone_read (.user n) (some user)) (getCachedRoles_triple user.roles)
    fun x => ?_
  obtain ⟨roles, uncached⟩ := x
  have hmono : Monotone fun u : Known =>
      u (.user n) (some user) ∧ CachedAnswer user.roles (roles, uncached) u :=
    fun _ _ hu h => ⟨hu _ _ h.1, CachedAnswer.monotone _ _ hu h.2⟩
  refine bind_known hmono (fetchUncached_triple uncached) fun r => ?_
  rcases r with _ | fetched
  · exact pure_known (RolesAnswer.monotone n (.error .storage)) fun _ _ => trivial
  · have hmono' : Monotone fun u : Known => (u (.user n) (some user) ∧
        CachedAnswer user.roles (roles, uncached) u) ∧ FetchedFrom uncached fetched u :=
      fun _ _ hu h => ⟨hmono hu h.1, FetchedFrom.monotone _ _ hu h.2⟩
    refine bind_known hmono' (putFetched_triple fetched) fun others => ?_
    refine pure_known (RolesAnswer.monotone n (.ok (user, roles ++ others))) fun w hw => ?_
    obtain ⟨⟨⟨hu, hc⟩, hf⟩, ho⟩ := hw
    refine ⟨hu, hc.1.append fun role hr => ?_⟩
    obtain ⟨name, hn⟩ := ho role hr
    obtain ⟨hmem, hk⟩ := hf _ hn
    exact ⟨name, hc.2 name hmem, hk⟩

/-- A loop of inserts. -/
theorem putRoles_triple (roles : List RoleRecord) :
    AuthSpec ext i j (Task.forEach roles fun role => putCachedRole role.name (some role)) fun _ _ => True := by
  refine Triple.forEach (I := fun _ _ => True) (fun _ _ _ _ _ h => h) fun _ role _ _ => ?_
  exact cachePut_triple (.role role.name) (some role)

theorem resolveUncached_triple (n : String) :
    AuthSpec ext i j (resolveUncached n) fun r w =>
      RolesAnswer n r (w.shared.known i) := by
  refine Triple.bind (getUserWithRoles_triple n) fun r => ?_
  rcases r with _ | (_ | ⟨user, roles⟩)
  · exact pure_known (RolesAnswer.monotone n (.error .storage)) fun _ _ => trivial
  · refine bind_known (LoadedAnswer.monotone n (some none)) (cachePut_triple (.user n) none)
      fun _ => ?_
    exact pure_known (RolesAnswer.monotone n (.error .forbidden)) fun w hw => hw.1
  · have hmono := LoadedAnswer.monotone n (some (some (user, roles)))
    refine bind_known hmono (cachePut_triple (.user n) (some user)) fun _ => ?_
    refine weaken_pre (bind_known hmono (putRoles_triple roles) fun _ => ?_) fun w _ hw => hw.1
    exact pure_known (RolesAnswer.monotone n (.ok (user, roles))) fun w hw => hw.1

theorem resolveUserAndRolesCached_triple (n : String) :
    AuthSpec ext i j (resolveUserAndRolesCached n) fun r w =>
      RolesAnswer n r (w.shared.known i) := by
  refine Triple.bind (cacheGet_triple (.user n)) fun cached => ?_
  rcases cached with _ | (_ | user)
  · exact (resolveUncached_triple n).weaken_pre fun _ _ _ => trivial
  · exact pure_known (RolesAnswer.monotone n (.error .forbidden)) fun w hw => hw _ rfl
  · exact (resolveRolesCached_triple n user).weaken_pre fun w _ hw => hw _ rfl

/-! ### Authentication -/

/-- The user, and its hash or the one that stands for an unknown user. -/
def CredentialsAnswer (n : String) :
    Except AuthError (Option UserRecord × String) → Known → Prop
  | .ok (some user, hash), u => u (.user n) (some user) ∧ hash = user.passwordHash
  | .ok (none, _), u => u (.user n) none
  | .error _, _ => True

theorem CredentialsAnswer.monotone (n : String)
    (r : Except AuthError (Option UserRecord × String)) : Monotone (CredentialsAnswer n r) := by
  intro u u' hu h
  rcases r with _ | ⟨_ | user, hash⟩
  · trivial
  · exact hu _ _ h
  · exact ⟨hu _ _ h.1, h.2⟩

theorem credentials_triple (n : String) :
    AuthSpec ext i j (credentials ext n) fun r w =>
      CredentialsAnswer n r (w.shared.known i) := by
  have hmono := CredentialsAnswer.monotone n
  refine Triple.bind (cacheGet_triple (.user n)) fun cached => ?_
  rcases cached with _ | (_ | user)
  · refine weaken_pre (Triple.bind (fetch_triple (.user n)) fun fetched => ?_) fun _ _ _ => trivial
    rcases fetched with _ | user
    · exact pure_known (hmono (.error .storage)) fun _ _ => trivial
    · refine bind_known (ReadReply.monotone (.user n) _) (cachePut_triple (.user n) user)
        fun _ => ?_
      cases user with
      | none => exact pure_known (hmono (.ok (none, ext.dummyHash))) fun w hw => hw.1 _ rfl
      | some user =>
        exact pure_known (hmono (.ok (some user, user.passwordHash))) fun w hw =>
          ⟨hw.1 _ rfl, rfl⟩
  · exact pure_known (hmono (.ok (none, ext.dummyHash))) fun w hw => hw _ rfl
  · exact pure_known (hmono (.ok (some user, user.passwordHash))) fun w hw => ⟨hw _ rfl, rfl⟩

/-- Facts about the hash functions are stable. -/
theorem stable_fact {F : Prop} : (readContract ext i j).Stable fun _ => F :=
  fun _ _ _ _ _ h => h

theorem cacheHit_triple (n password hash : String) (user : Option UserRecord) :
    AuthSpec ext i j (cacheHit ext n password hash user) fun hit _ =>
      hit = true → ext.Accepts password hash := by
  cases user with
  | none => exact weaken_pre (Triple.pure stable_fact) fun _ _ _ h => by cases h
  | some user =>
    refine Triple.bind (getVerified_triple n) fun v => ?_
    refine weaken_pre (Triple.pure stable_fact) fun _ _ hw hit => ?_
    obtain ⟨v, rfl, hv⟩ := (Option.any_eq_true _ _).mp hit
    simp only [Bool.and_eq_true, decide_eq_true_eq] at hv
    obtain ⟨verified, hd, ha⟩ := hw v rfl
    exact ⟨verified, hd.trans hv.2, hv.1 ▸ ha⟩

theorem verifyAndCache_triple (n password hash : String) (user : Option UserRecord) :
    AuthSpec ext i j (verifyAndCache ext n password hash user) fun r _ =>
      ∀ record, r = some record → user = some record ∧ ext.Accepts password hash := by
  have hverify : AuthSpec ext i j (verifyPassword ext password hash)
      fun valid _ => valid = true → ext.argon2 password hash = true := by
    refine Triple.choose fun joined => weaken_pre (Triple.pure stable_fact) fun _ _ _ h => ?_
    exact (Bool.and_eq_true_iff.mp h).2
  have hnone : ∀ pre : AuthView → Prop, AuthTriple ext i j pre (.pure none) fun r _ =>
      ∀ record : UserRecord, r = some record → user = some record ∧ ext.Accepts password hash :=
    fun _ => weaken_pre (Triple.pure stable_fact) fun _ _ _ _ h => by cases h
  refine Triple.bind hverify fun valid => ?_
  cases valid with
  | false => exact hnone _
  | true =>
    cases user with
    | none => exact hnone _
    | some user =>
      intro w hi hw
      have hvalid := hw rfl
      refine Triple.bind (putVerified_triple n hvalid) (fun _ => ?_) w hi trivial
      refine weaken_pre (Triple.pure stable_fact) fun _ _ _ record h => ?_
      exact ⟨h, password, rfl, hvalid⟩

theorem authenticate_triple (n password : String) :
    AuthSpec ext i j (authenticate ext n password) fun r w =>
      (Decision.authenticated n password r).Based ext (w.shared.known i) := by
  have hmono := fun r => Decision.Based.monotone ext (.authenticated n password r)
  refine Triple.bind (credentials_triple n) fun r => ?_
  rcases r with e | ⟨user, hash⟩
  · exact pure_known (hmono (.error e)) fun _ _ => trivial
  · refine bind_known (CredentialsAnswer.monotone n _) (cacheHit_triple n password hash user)
      fun hit => ?_
    cases hit with
    | true =>
      refine pure_known (hmono (.ok user)) fun w hw => ?_
      cases user with
      | none => exact ⟨none, hw.1⟩
      | some user =>
        obtain ⟨⟨hk, rfl⟩, hacc⟩ := hw
        exact ⟨hk, hacc rfl⟩
    | false =>
      refine weaken_pre (bind_known (CredentialsAnswer.monotone n _)
        (verifyAndCache_triple n password hash user) fun r => ?_) fun w _ hw => hw.1
      refine pure_known (hmono (.ok r)) fun w hw => ?_
      cases r with
      | none =>
        cases user with
        | none => exact ⟨none, hw.1⟩
        | some user => exact ⟨some user, hw.1.1⟩
      | some record =>
        obtain ⟨rfl, hacc⟩ := hw.2 record rfl
        obtain ⟨⟨hk, rfl⟩, -⟩ := hw
        exact ⟨hk, hacc⟩

/-! ### Authorisation -/

theorem checkPermission_triple (n repo : String) (required : Capability) :
    AuthSpec ext i j (checkPermission n repo required) fun r w =>
      (Decision.permission n repo required r).Based ext (w.shared.known i) := by
  have hmono := fun r => Decision.Based.monotone ext (.permission n repo required r)
  refine Triple.bind (resolveUserAndRolesCached_triple n) fun r => ?_
  rcases r with e | ⟨user, roles⟩
  · exact pure_known (hmono (.error e)) fun w hw => ⟨.error e, hw, rfl⟩
  · exact pure_known (hmono (checkGrants roles repo required)) fun w hw =>
      ⟨.ok (user, roles), hw, rfl⟩

theorem requireAdmin_triple (n : String) :
    AuthSpec ext i j (requireAdmin n) fun r w =>
      (Decision.admin n r).Based ext (w.shared.known i) := by
  have hmono := fun r => Decision.Based.monotone ext (.admin n r)
  refine Triple.bind (resolveUserCached_triple n) fun r => ?_
  rcases r with e | user
  · exact pure_known (hmono (.error e)) fun w hw => ⟨.error e, hw, rfl⟩
  · exact pure_known (hmono (if isAdmin user then .ok () else .error .forbidden)) fun w hw =>
      ⟨.ok user, hw, rfl⟩

theorem resolveUserRoles_triple (n : String) :
    AuthSpec ext i j (resolveUserRoles n) fun r w =>
      (Decision.roles n r).Based ext (w.shared.known i) := by
  have hmono := fun r => Decision.Based.monotone ext (.roles n r)
  refine Triple.bind (resolveUserAndRolesCached_triple n) fun r => ?_
  rcases r with (_ | _) | ⟨user, roles⟩
  · exact pure_known (hmono (.ok none)) fun w hw => hw
  · exact pure_known (hmono (.error .storage)) fun w hw => trivial
  · exact pure_known (hmono (.ok (some (user, roles)))) fun w hw => hw

theorem lookupUser_triple (n : String) :
    AuthSpec ext i j (lookupUser n) fun r w =>
      (Decision.user n r).Based ext (w.shared.known i) := by
  have hmono := fun r => Decision.Based.monotone ext (.user n r)
  refine Triple.bind (resolveUserCached_triple n) fun r => ?_
  rcases r with (_ | _) | user
  · exact pure_known (hmono (.ok none)) fun w hw => hw
  · exact pure_known (hmono (.error .storage)) fun w hw => trivial
  · exact pure_known (hmono (.ok (some user))) fun w hw => hw

/-! ### Changes -/

theorem change_triple (k : AuthKey) (v : k.Record) :
    AuthSpec ext i j (Task.call (AuthOp.change k v)) fun _ _ => True := by
  refine authWrite_triple (o := .change k v) fun b s s' r hx => ?_
  cases b with
  | false =>
    obtain ⟨rfl, -⟩ := some_mk_inj hx
    exact ⟨rfl, rfl, fun _ _ h => h⟩
  | true =>
    obtain ⟨rfl, -⟩ := some_mk_inj hx
    exact ⟨rfl, rfl, fun _ _ h => h⟩

theorem invalidateUser_triple (n : String) :
    AuthSpec ext i j (invalidateUser n) fun _ _ => True := by
  refine Triple.bind (M := fun _ _ => True)
    (authWrite_triple (o := .invalidateUserEntry n) fun b s s' r hx => ?_) fun _ =>
      authWrite_triple (o := .authInvalidate n) fun b s s' r hx => ?_
  · obtain ⟨rfl, -⟩ := some_mk_inj hx
    exact ⟨rfl, rfl, fun _ _ h => h⟩
  · obtain ⟨rfl, -⟩ := some_mk_inj hx
    refine ⟨rfl, rfl, fun n' v hv => ?_⟩
    have hc : update s.authCache n none n' = some v := hv
    rw [update_apply] at hc
    split_ifs at hc
    exact hc

theorem invalidateRole_triple (n : String) :
    AuthSpec ext i j (invalidateRole n) fun _ _ => True := by
  refine authWrite_triple (o := .invalidateRoleEntry n) fun b s s' r hx => ?_
  obtain ⟨rfl, -⟩ := some_mk_inj hx
  exact ⟨rfl, rfl, fun _ _ h => h⟩

theorem invalidateAll_triple :
    AuthSpec ext i j invalidateAll fun _ _ => True := by
  refine Triple.bind (M := fun _ _ => True)
    (authWrite_triple (o := .invalidateUsers) fun b s s' r hx => ?_) fun _ =>
      Triple.bind (M := fun _ _ => True)
        (authWrite_triple (o := .invalidateRoles) fun b s s' r hx => ?_) fun _ =>
          authWrite_triple (o := .authInvalidateAll) fun b s s' r hx => ?_
  · obtain ⟨rfl, -⟩ := some_mk_inj hx
    exact ⟨rfl, rfl, fun _ _ h => h⟩
  · obtain ⟨rfl, -⟩ := some_mk_inj hx
    exact ⟨rfl, rfl, fun _ _ h => h⟩
  · obtain ⟨rfl, -⟩ := some_mk_inj hx
    exact ⟨rfl, rfl, fun _ _ hv => by cases hv⟩

theorem skip_triple {a : α} : AuthSpec ext i j (.pure a) fun _ _ => True :=
  fun _ _ _ _ _ _ => trivial

theorem putAll_triple {put : α → AuthTask (Option Bool)} (hput : ∀ record,
    AuthSpec ext i j (put record) fun _ _ => True) (records : List α) :
    AuthSpec ext i j (putAll put records) fun _ _ => True := by
  induction records with
  | nil => exact skip_triple
  | cons record records ih =>
    refine Triple.bind (hput record) fun r => ?_
    cases r with
    | none => exact skip_triple
    | some b => exact ih

theorem restore_triple (roles : List RoleRecord) (users : List UserRecord) :
    AuthSpec ext i j (restore roles users) fun _ _ => True := by
  refine Triple.bind (putAll_triple (fun role => change_triple (.role role.name) (some role))
    roles) fun ok => ?_
  cases ok with
  | false => exact skip_triple
  | true =>
    refine Triple.bind (putAll_triple (fun user => change_triple (.user user.username) (some user))
      users) fun ok => ?_
    cases ok with
    | false => exact skip_triple
    | true => exact invalidateAll_triple

/-- A change, followed by the invalidation unless it is not needed. -/
theorem changed_triple {k : AuthKey} {v : k.Record} {f : Option Bool → AuthTask Unit}
    {invalidate : AuthTask Unit}
    (hinv : AuthSpec ext i j invalidate fun _ _ => True)
    (hf : ∀ r, f r = invalidate ∨ f r = .pure ()) :
    AuthSpec ext i j ((Task.call (AuthOp.change k v)).bind f)
      fun _ _ => True := by
  refine Triple.bind (change_triple k v) fun r => ?_
  rcases hf r with h | h
  · rw [h]
    exact hinv
  · rw [h]
    exact skip_triple

theorem putUser_triple (record : UserRecord) :
    AuthSpec ext i j (putUser record) fun _ _ => True := by
  refine changed_triple (invalidateUser_triple record.username) fun r => ?_
  cases r with
  | none => exact .inr rfl
  | some b => exact .inl rfl

theorem deleteUser_triple (n : String) :
    AuthSpec ext i j (deleteUser n) fun _ _ => True := by
  refine changed_triple (invalidateUser_triple n) fun r => ?_
  rcases r with _ | (_ | _)
  · exact .inr rfl
  · exact .inr rfl
  · exact .inl rfl

theorem putRole_triple (record : RoleRecord) :
    AuthSpec ext i j (putRole record) fun _ _ => True := by
  refine changed_triple (invalidateRole_triple record.name) fun r => ?_
  cases r with
  | none => exact .inr rfl
  | some b => exact .inl rfl

theorem deleteRole_triple (n : String) :
    AuthSpec ext i j (deleteRole n) fun _ _ => True := by
  refine changed_triple (invalidateRole_triple n) fun r => ?_
  rcases r with _ | (_ | _)
  · exact .inr rfl
  · exact .inr rfl
  · exact .inl rfl

/-! ### Calls -/

/-- No decision for call `i` yet. -/
def Undecided (i : ℕ) (w : AuthView) : Prop := ∀ d, (i, d) ∉ w.shared.decisions

/-- A call reads, and decides what follows from what it has read. -/
theorem authCall_triple {p : AuthTask α} {d : α → Decision}
    (hp : AuthSpec ext i j p fun r w => (d r).Based ext (w.shared.known i)) :
    Triple (authSystem ext) .free i j ((authLogic ext).contract i j) (Undecided i)
      (authCall p d) fun _ _ => True := by
  refine Triple.bind (M := fun _ _ => True) ?_ fun _ => Triple.bind
    (Triple.part readContract_part hp) fun r => ?_
  · refine Triple.call (fun w w' _ _ hr h d hd => h d (hr.decisions d hd))
      (fun _ _ _ _ _ _ h => h) fun w b s r hi hw _ hx => ?_
    obtain ⟨rfl, -⟩ := some_mk_inj hx
    have hknown : ∀ k ≠ i, w.shared.known k ≤
        ({ w.shared with table := w.shared.table.enter i } : AuthState).known k := by
      intro k hk key v hv
      show v ∈ update w.shared.table.used i (fun _ => []) k key
      rw [Function.update_of_ne hk]
      exact hv
    refine ⟨(), ⟨⟨hi.1.verified, fun x hx => ?_, hi.1.started⟩, hi.2⟩,
      fun k hk => ⟨hknown k hk, fun _ h => h⟩, trivial⟩
    have hne : x.1 ≠ i := fun heq => hw x.2 (by rw [← heq]; exact hx)
    exact Decision.Based.monotone ext x.2 (hknown x.1 hne) (hi.1.based x hx)
  · refine Triple.call (fun w w' _ _ hr h => Decision.Based.monotone ext (d r) hr.known h)
      (fun _ _ _ _ _ _ h => h) fun w b s _ hi hw _ hx => ?_
    obtain ⟨rfl, -⟩ := some_mk_inj hx
    refine ⟨(), ⟨⟨hi.1.verified, fun x hx => ?_, fun x hx => ?_⟩, hi.2⟩,
      fun k hk => ⟨le_rfl, fun d' hd => ?_⟩, trivial⟩
    · rcases mem_cons.mp hx with rfl | hx
      · exact hw
      · exact hi.1.based x hx
    · rcases mem_cons.mp hx with rfl | hx
      · exact (List.getElem?_eq_some_iff.mp hi.2).1
      · exact hi.1.started x hx
    · rcases mem_cons.mp hd with heq | hd
      · exact absurd (Prod.mk.inj heq).1 hk
      · exact hd

theorem authJob_triple (j : AuthJob) :
    Triple (authSystem ext) .free i j ((authLogic ext).contract i j) (Undecided i)
      (j.code ext) fun _ _ => True := by
  have hpart : ∀ {p : AuthTask Unit}, AuthSpec ext i j p (fun _ _ => True) →
      Triple (authSystem ext) .free i j ((authLogic ext).contract i j) (Undecided i) p
        fun _ _ => True := fun h =>
    (Triple.part readContract_part h).weaken_pre fun _ _ _ => trivial
  cases j with
  | authenticate n password => exact authCall_triple (authenticate_triple n password)
  | checkPermission n repo c => exact authCall_triple (checkPermission_triple n repo c)
  | requireAdmin n => exact authCall_triple (requireAdmin_triple n)
  | resolveUserRoles n => exact authCall_triple (resolveUserRoles_triple n)
  | lookupUser n => exact authCall_triple (lookupUser_triple n)
  | putUser record => exact hpart (putUser_triple record)
  | deleteUser n => exact hpart (deleteUser_triple n)
  | putRole record => exact hpart (putRole_triple record)
  | deleteRole n => exact hpart (deleteRole_triple n)
  | restore roles users => exact hpart (restore_triple roles users)

/-- The proof outline is sound. -/
theorem authLogic_sound : (authLogic ext).Sound (authSystem ext) .free where
  guar_rely h _ _ hg := hg _ h
  spawn w j hi _ := by
    refine ⟨(), ⟨hi.verified, hi.based, fun x hx => ?_⟩, fun _ => AuthRely.refl _ _, ?_⟩
    · have hlt := hi.started x hx
      show x.1 < (w.jobs ++ [some j]).length
      rw [length_append]
      omega
    · refine authJob_triple j _ ⟨⟨hi.verified, hi.based, fun x hx => ?_⟩,
        getElem?_concat_length⟩ fun d hd => absurd (hi.started _ hd) (lt_irrefl _)
      have hlt := hi.started x hx
      show x.1 < (w.jobs ++ [some j]).length
      rw [length_append]
      omega
  leave w i j hi _ := by
    refine ⟨(), ⟨hi.verified, hi.based, fun x hx => ?_⟩, fun _ _ => AuthRely.refl _ _⟩
    show x.1 < (w.jobs.set i none).length
    rw [length_set]
    exact hi.started x hx
  env w e s hi _ hx := by
    cases e with
    | record k =>
      obtain rfl := Option.some.inj hx
      exact ⟨(), ⟨hi.verified, hi.based, hi.started⟩, fun _ => ⟨le_rfl, fun _ h => h⟩⟩
    | credential n =>
      obtain rfl := Option.some.inj hx
      refine ⟨(), ⟨fun n' v hv => ?_, hi.based, hi.started⟩, fun _ => ⟨le_rfl, fun _ h => h⟩⟩
      have hc : update w.shared.authCache n none n' = some v := hv
      rw [update_apply] at hc
      split_ifs at hc
      exact hi.verified n' v hc

end

/-! ## Results -/

/-- The start: some users and roles, nothing cached. -/
def AuthState.start (records : (k : AuthKey) → k.Record) : AuthState where
  table := { value := fun k _ => records k }

variable {p : Pool AuthOp AuthOp.Reply AuthState AuthJob} {records : (k : AuthKey) → k.Record}
variable {es : List (Event AuthJob AuthEvict)}

theorem auth_based {ext : AuthExt}
    (h : (Pool.init (AuthState.start records)).run (authSystem ext) .free es = some p) :
    ∀ x ∈ p.shared.decisions, x.2.Based ext (p.shared.known x.1) := by
  have hinit : AuthInv ext ⟨AuthState.start records, [], ()⟩ := {
    verified := fun _ _ hv => by cases hv
    based := fun _ hx => by cases hx
    started := fun _ hx => by cases hx }
  obtain ⟨_, hinv⟩ := authLogic_sound.run_inv (g := ()) hinit h
  exact hinv.based

/-- Under the condition every operation keeps the caches behind the invalidations. -/
theorem auth_table {ext : AuthExt}
    (h : (Pool.init (AuthState.start records)).run (authSystem ext) authRules es = some p) :
    p.shared.table.Inv := by
  refine Pool.run_shared (P := fun s : AuthState => s.table.Inv)
    (fun i j o b s s' r hs hr hx => ?_) (fun _ _ hs => hs) (fun _ e s s' hs _ hx => ?_)
    (Lookaside.Inv.init _) h
  · have hexec : s.exec i o b = some (s', r) := hx
    cases o with
    | enter =>
      obtain ⟨rfl, -⟩ := some_mk_inj hexec
      exact hs.enter i
    | cacheGet k =>
      obtain ⟨rfl, -⟩ := some_mk_inj hexec
      exact hs.hit i k
    | cachePut k v =>
      obtain ⟨rfl, -⟩ := some_mk_inj hexec
      exact hs.insert (of_decide_eq_true hr)
    | fetch k =>
      rw [AuthState.exec] at hexec
      split_ifs at hexec
      · obtain ⟨rfl, -⟩ := some_mk_inj hexec
        exact hs.fetch i k
      · obtain ⟨rfl, -⟩ := some_mk_inj hexec
        exact hs
    | change k v =>
      rw [AuthState.exec] at hexec
      split_ifs at hexec
      · obtain ⟨rfl, -⟩ := some_mk_inj hexec
        exact hs.change k v
      · obtain ⟨rfl, -⟩ := some_mk_inj hexec
        exact hs
    | invalidateUserEntry | invalidateRoleEntry | invalidateUsers | invalidateRoles =>
      obtain ⟨rfl, -⟩ := some_mk_inj hexec
      exact hs.invalidate _
    | _ =>
      obtain ⟨rfl, -⟩ := some_mk_inj hexec
      exact hs
  · cases e with
    | record k =>
      obtain rfl := Option.some.inj hx
      exact hs.evict k
    | credential n =>
      obtain rfl := Option.some.inj hx
      exact hs

/-- **Main theorem.** In every run in which no call caches a record that it fetched before
    the last invalidation of its key, every decision follows from the records that its call
    has read, and none of these is older than an invalidation before the call. -/
theorem auth_coherent (ext : AuthExt) (records : (k : AuthKey) → k.Record)
    {es : List (Event AuthJob AuthEvict)} {p : Pool AuthOp AuthOp.Reply AuthState AuthJob}
    (h : (Pool.init (AuthState.start records)).run (authSystem ext) authRules es = some p) :
    Coherent ext p.shared where
  based := auth_based (Pool.run_free h)
  current i k v hv := (auth_table h).used i k v hv

/-! ## Runs -/

/-- Hash functions to compute with: a password is its own hash and digest. -/
def AuthExt.sample : AuthExt where
  argon2 password hash := password = hash
  blake3 := id
  dummyHash := ""

/-- A user before and after its password is changed. -/
def bobBefore : UserRecord := { username := "bob", passwordHash := "old" }

def bobAfter : UserRecord := { bobBefore with passwordHash := "new" }

/-- One user, no roles. -/
def bobRecords : (k : AuthKey) → k.Record
  | .user n => if n = "bob" then some bobBefore else none
  | .role _ => none

/-- A lookup, a change of the password and an attempt with the old password. -/
def threeCalls : List (Event AuthJob AuthEvict) :=
  [.spawn (.lookupUser "bob"), .spawn (.putUser bobAfter), .spawn (.authenticate "bob" "old")]

/-- A number of steps of a call. -/
def authSteps (i n : ℕ) : List (Event AuthJob AuthEvict) := replicate n (.step i true)

/-- The lookup ends before the password is changed; the old one is refused afterwards. -/
theorem auth_coherent_refused :
    ∃ p, (Pool.init (AuthState.start bobRecords)).run (authSystem .sample) authRules
        (threeCalls ++ authSteps 0 5 ++ authSteps 1 3 ++ authSteps 2 7) = some p ∧
      (2, .authenticated "bob" "old" (.ok none)) ∈ p.shared.decisions ∧
      Coherent .sample p.shared := by
  refine ends_in (fun p => (2, .authenticated "bob" "old" (.ok none)) ∈ p.shared.decisions)
    (by decide +kernel) fun p hp hd => ?_
  exact ⟨hd, auth_coherent .sample bobRecords hp⟩

/-- **A stale user.** The lookup fetches the user, the password is changed and the entry
    invalidated, and the lookup caches what it has fetched: a later call accepts the old
    password. -/
theorem old_password_accepted :
    ∃ p, (Pool.init (AuthState.start bobRecords)).run (authSystem .sample) .free
        (threeCalls ++ authSteps 0 3 ++ authSteps 1 3 ++ authSteps 0 2 ++ authSteps 2 6) = some p ∧
      p.returned 1 = some (.putUser bobAfter) ∧
      (2, .authenticated "bob" "old" (.ok (some bobBefore))) ∈ p.shared.decisions ∧
      p.shared.table.floor 2 (.user "bob") = 1 ∧ ¬Coherent .sample p.shared := by
  refine ends_in (fun p => p.returned 1 = some (.putUser bobAfter) ∧
    (2, .authenticated "bob" "old" (.ok (some bobBefore))) ∈ p.shared.decisions ∧
    p.shared.table.floor 2 (.user "bob") = 1 ∧ p.shared.table.version (.user "bob") = 1 ∧
    p.shared.table.value (.user "bob") 1 = some bobAfter ∧
    some bobBefore ∈ p.shared.table.used 2 (.user "bob")) (by decide +kernel) fun p _ hall => ?_
  obtain ⟨hret, hd, hfloor, hversion, hvalue, hused⟩ := hall
  refine ⟨hret, hd, hfloor, fun hc => ?_⟩
  obtain ⟨m, hm, hle, hv⟩ := hc.current 2 (.user "bob") (some bobBefore) hused
  rw [hfloor] at hm
  rw [hversion] at hle
  obtain rfl : m = 1 := by omega
  rw [hvalue] at hv
  exact absurd hv (by decide)

end Depot
