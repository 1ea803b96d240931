import Depot.Accounts.History

/-!
# Revoked tokens

`revoke_user_tokens`, `change_password` and `delete_user` revoke the tokens of a user, and
`revoke_all_tokens` all tokens. User records and the signing secret are written without a check of
what they replace.

Results:
* `revocation_sticks`: when no record or secret that was read before a revocation is stored or
  cached after it, and random values are new, no token from before a revocation is accepted with a
  user that was cached after it, or with a signing secret from after a revocation of all tokens, and
  what was revoked is not stored again.
* `accepted_genuine`: in every run a token is accepted only with a user and a secret that were
  stored.
* `revocation_undone`: an update that has read the user before the revocation.
-/

namespace Depot.Accounts

open Lib List
open Option (some.inj)
open Function (update update_of_ne update_self)

/-! ## What is stored -/

/-- What is stored has not been revoked. -/
structure AccountStore.Sound (s : AccountStore) : Prop where
  secret : ∀ n r, s.users.find n = some r → (s.secrets n).Valid r.tokenSecret
  hash : ∀ n r, s.users.find n = some r → (s.hashes n).Valid r.passwordHash
  current : ∀ st, s.jwt = some st → s.signing.Valid st.current
  previous : ∀ st, s.jwt = some st → ∀ g ∈ st.previous, g ∉ s.signing.revoked

namespace AccountStore

/-- The credentials of a record are not revoked when it is stored. -/
structure Fits (s : AccountStore) (c : Change) (r : UserRecord) : Prop where
  secret : r.tokenSecret ∉ (s.secrets r.username).values ∨
    c = .plain ∧ (s.secrets r.username).Valid r.tokenSecret
  hash : r.passwordHash ∉ (s.hashes r.username).values ∨
    c ≠ .password ∧ (s.hashes r.username).Valid r.passwordHash

theorem secrets_change (s : AccountStore) (c : Change) (r : UserRecord) (n : String) :
    (s.change c r).secrets n =
      if n = r.username then
        (if c = .plain then s.secrets n else (s.secrets n).revoke).add r.tokenSecret
      else s.secrets n := by
  by_cases hn : n = r.username
  · subst hn
    cases c <;> simp [change, put, revokeTokens, revokePassword]
  · cases c <;> simp [change, put, revokeTokens, revokePassword, hn]

theorem hashes_change (s : AccountStore) (c : Change) (r : UserRecord) (n : String) :
    (s.change c r).hashes n =
      if n = r.username then
        (if c = .password then (s.hashes n).revoke else s.hashes n).add r.passwordHash
      else s.hashes n := by
  by_cases hn : n = r.username
  · subst hn
    cases c <;> simp [change, put, revokeTokens, revokePassword]
  · cases c <;> simp [change, put, revokeTokens, revokePassword, hn]

theorem Sound.change {s : AccountStore} (h : s.Sound) {c : Change} {r : UserRecord}
    (hr : s.Fits c r) : (s.change c r).Sound := by
  have husers : (s.change c r).users = s.users.put r := by cases c <;> rfl
  have hjwt : (s.change c r).jwt = s.jwt := by cases c <;> rfl
  have hsigning : (s.change c r).signing = s.signing := by cases c <;> rfl
  refine ⟨fun n u hu => ?_, fun n u hu => ?_, ?_, ?_⟩
  · rw [husers, UserTable.find_put] at hu
    rw [secrets_change]
    split_ifs at hu with hn
    · subst hn
      obtain rfl := some.inj hu
      rw [if_pos rfl]
      rcases hr.secret with hnew | ⟨hc, hold⟩
      · split_ifs
        · exact Revocable.valid_add hnew
        · exact Revocable.valid_revoke_add hnew
      · rw [if_pos hc]
        exact hold.add _
    · rw [if_neg hn]
      exact h.secret n u hu
  · rw [husers, UserTable.find_put] at hu
    rw [hashes_change]
    split_ifs at hu with hn
    · subst hn
      obtain rfl := some.inj hu
      rw [if_pos rfl]
      rcases hr.hash with hnew | ⟨hc, hold⟩
      · split_ifs
        · exact Revocable.valid_revoke_add hnew
        · exact Revocable.valid_add hnew
      · rw [if_neg hc]
        exact hold.add _
    · rw [if_neg hn]
      exact h.hash n u hu
  · rw [hjwt, hsigning]
    exact h.current
  · rw [hjwt, hsigning]
    exact h.previous

theorem Sound.remove {s : AccountStore} (h : s.Sound) (n : String) : (s.remove n).Sound := by
  refine ⟨fun n' u hu => ?_, fun n' u hu => ?_, h.current, h.previous⟩
  · have hfind : (s.users.delete n).find n' = some u := hu
    rw [UserTable.find_delete] at hfind
    split_ifs at hfind with hn
    show (update s.secrets n _ n').Valid u.tokenSecret
    rw [update_of_ne hn]
    exact h.secret n' u hfind
  · have hfind : (s.users.delete n).find n' = some u := hu
    rw [UserTable.find_delete] at hfind
    split_ifs at hfind with hn
    show (update s.hashes n _ n').Valid u.passwordHash
    rw [update_of_ne hn]
    exact h.hash n' u hfind

theorem Sound.changeJwt {s : AccountStore} (h : s.Sound) {revoking : Bool} {st : JwtSecretState}
    (hnew : st.current ∉ s.signing.values)
    (hprev : ∀ g ∈ st.previous, revoking = false ∧ g ∉ s.signing.revoked) :
    (s.changeJwt revoking st).Sound := by
  refine ⟨h.secret, h.hash, fun st' hst => ?_, fun st' hst g hg => ?_⟩
  · obtain rfl := some.inj hst
    cases revoking with
    | false => exact Revocable.valid_add hnew
    | true => exact Revocable.valid_revoke_add hnew
  · obtain rfl := some.inj hst
    obtain ⟨rfl, hg⟩ := hprev g hg
    exact hg

theorem sound_start (users : UserTable) (jwt : JwtSecretState) : (start users jwt).Sound := by
  refine ⟨fun n r hr => ?_, fun n r hr => ?_, fun st hst => ?_, fun st hst g hg => ?_⟩
  · exact Revocable.valid_start (by rw [show users.find n = some r from hr]; simp)
  · exact Revocable.valid_start (by rw [show users.find n = some r from hr]; simp)
  · obtain rfl := some.inj hst
    exact Revocable.valid_start (by simp)
  · exact not_mem_nil

end AccountStore

/-! ## The condition -/

/-- What keyed BLAKE3 is relied on for: no two secrets have the same key. -/
def AccountExt.Collisionless (ext : AccountExt) : Prop :=
  ∀ g g' u u', g.length = 32 → g'.length = 32 → ext.keyedHash g u = ext.keyedHash g' u' →
    g = g' ∧ u = u'

variable (ext : AccountExt)

/-- The random values have not been used for the user. -/
def freshDraw (s : AccountStore) (n password : String) (draw : Draw) : Bool :=
  draw.secret ∉ (s.secrets n).values && ext.hash draw.salt password ∉ (s.hashes n).values

/-- Neither the tokens nor the password of the user were revoked since the task has read it. -/
def unrevoked (s : AccountStore) (x : Seen) (n : String) : Bool :=
  x.store.any fun st =>
    (st.secrets n).count = (s.secrets n).count && (st.hashes n).count = (s.hashes n).count

/-- The condition on a record that is stored. -/
def AccountRequest.keepsRevoked (s : AccountStore) (x : Seen) : AccountRequest → Bool
  | .createUser _ req draw => freshDraw ext s req.username req.password draw
  | .updateUser _ n req draw =>
      match req.password with
      | some password => freshDraw ext s n password draw
      | none => unrevoked s x n
  | .changePassword _ req draw => freshDraw ext s req.username req.newPassword draw
  | .revokeUserTokens _ n secret =>
      unrevoked s x n && secret ∉ (s.secrets n).values
  | .provisionUser n _ =>
      if (x.store.bind fun st => st.users.find n).isSome then unrevoked s x n
      else [] ∉ (s.secrets n).values && externalPasswordHash ∉ (s.hashes n).values
  | .restoreUsers .. => false
  | _ => true

/-- The condition on a run: no backup is restored; random values are new; no record that
    was read before a revocation is stored after it, or put into the cache; and no signing secret
    that was read before all tokens were revoked is stored as the previous one. -/
def revocationRules : Rules AccountOp AccountState AccountJob AccountEnv where
  op i j s o b :=
    match o with
    | .putUser _ _ => !b || j.request.keepsRevoked ext s.store (s.seen i)
    | .cachePut n _ =>
        decide (((s.seen i).userSource.secrets n).count = (s.store.secrets n).count)
    | .putJwt revoking st =>
        !b || st.current ∉ s.store.signing.values &&
          (revoking || (s.seen i).jwtSource.signing.count = s.store.signing.count)
    | _ => true
  spawn _ _ _ := true
  env _ _ _ := true

/-! ## The invariant -/

/-- After the token was issued, the tokens of its user were revoked and then the user was cached
    with whom the verdict was reached; or all tokens were revoked and then the signing secret was
    read with which it was reached. -/
def Verdict.AfterRevocation (d : Verdict) (e : Issue) : Prop :=
  (e.store.secrets d.token.sub).count < (d.inserted.secrets d.token.sub).count ∨
    e.store.signing.count < d.jwtSource.signing.count

/-- A verdict on the tokens that were issued before. -/
def Verdict.Rejects (d : Verdict) : Prop :=
  ∀ e ∈ d.issued, e.token = d.token → d.AfterRevocation e → d.accepted = false

/-- A store that was sound, before or after each of the tokens was issued. -/
structure Placed (issued : List Issue) (st : AccountStore) : Prop where
  sound : st.Sound
  ordered : ∀ e ∈ issued, e.store.Later st ∨ st.Later e.store

/-- No tokens of the user were revoked between the two times. -/
def SameCount (n : String) (s s' : AccountStore) : Prop :=
  (s.secrets n).count = (s'.secrets n).count

/-- What is stored has not been revoked, all copies are from such a store, and a user was not
    revoked between the time that it is from and the time when it was cached. -/
structure RevocationInv (s : AccountState) : Prop where
  sound : s.store.Sound
  copies : Copies ext (Placed s.issued) s
  told : ∀ i, SameCount (s.seen i).userName (s.seen i).userSource (s.seen i).userInserted
  held : ∀ k n u, (s.instances k).cache n = some u →
    SameCount n ((s.instances k).source n) ((s.instances k).inserted n)
  rejects : ∀ d ∈ s.decided, d.Rejects

variable {ext} {s : AccountState}

/-! ## Every step -/

variable {x : Seen}

/-- A record that was read is not revoked if nothing was revoked since. -/
theorem unrevoked_valid {n : String} {st : AccountStore} {old : UserRecord}
    (h : Told AccountStore.Sound s.store x) (hst : x.store = some st)
    (hold : st.users.find n = some old) (hr : unrevoked s.store x n = true) :
    (s.store.secrets n).Valid old.tokenSecret ∧ (s.store.hashes n).Valid old.passwordHash := by
  have hsrc := h.store st hst
  rw [unrevoked, hst, Option.any_some, Bool.and_eq_true, decide_eq_true_eq, decide_eq_true_eq] at hr
  exact ⟨(hsrc.later.secrets n).valid hr.1 (hsrc.holds.secret n old hold),
    (hsrc.later.hashes n).valid hr.2 (hsrc.holds.hash n old hold)⟩

theorem freshDraw_iff {st : AccountStore} {n password : String} {draw : Draw} :
    freshDraw ext st n password draw = true ↔
      draw.secret ∉ (st.secrets n).values ∧ ext.hash draw.salt password ∉ (st.hashes n).values := by
  simp [freshDraw]

/-- A record that is stored under the condition has no revoked credentials. -/
theorem puts_fits {c : Change} {r : UserRecord} {req : AccountRequest}
    (h : Told AccountStore.Sound s.store x) (hA : req.Puts ext x c r)
    (hr : req.keepsRevoked ext s.store x = true) : s.store.Fits c r := by
  cases req with
  | createUser caller req draw =>
    obtain ⟨rfl, _, hn, _, hsecret, hhash⟩ := hA
    obtain ⟨hs, hh⟩ := freshDraw_iff.mp hr
    rw [← hn] at hs hh
    exact ⟨.inl (hsecret ▸ hs), .inl (hhash ▸ hh)⟩
  | updateUser caller n req draw =>
    obtain ⟨rfl, st, old, hst, hold, rfl⟩ := hA
    have hn := st.users.keyed n old hold
    cases hp : req.password with
    | some password =>
      simp only [AccountRequest.keepsRevoked, hp] at hr
      obtain ⟨hs, hh⟩ := freshDraw_iff.mp hr
      exact ⟨.inl (by simpa [hn] using hs), .inl (by simpa [hn] using hh)⟩
    | none =>
      simp only [AccountRequest.keepsRevoked, hp] at hr
      obtain ⟨hs, hh⟩ := unrevoked_valid h hst hold hr
      exact ⟨.inr ⟨rfl, by simpa [hn] using hs⟩, .inr ⟨nofun, by simpa [hn] using hh⟩⟩
  | changePassword caller req draw =>
    obtain ⟨rfl, st, old, hst, hold, rfl⟩ := hA
    have hn := st.users.keyed _ old hold
    obtain ⟨hs, hh⟩ := freshDraw_iff.mp hr
    exact ⟨.inl (by rwa [← hn] at hs), .inl (by rwa [← hn] at hh)⟩
  | revokeUserTokens caller n secret =>
    obtain ⟨rfl, st, old, hst, hold, rfl⟩ := hA
    obtain rfl := st.users.keyed n old hold
    simp only [AccountRequest.keepsRevoked, Bool.and_eq_true, decide_eq_true_eq] at hr
    exact ⟨.inl hr.2, .inr ⟨nofun, (unrevoked_valid h hst hold hr.1).2⟩⟩
  | provisionUser n roles =>
    obtain ⟨rfl, st, hst, hprov⟩ := hA
    simp only [AccountRequest.keepsRevoked, hst, Option.bind_some] at hr
    cases hold : st.users.find n with
    | none =>
      rw [hold] at hr hprov
      obtain rfl := some.inj hprov
      simp only [Option.isSome_none, Bool.false_eq_true, if_false, Bool.and_eq_true,
        decide_eq_true_eq] at hr
      exact ⟨.inl hr.1, .inl hr.2⟩
    | some old =>
      rw [hold] at hr hprov
      simp only [provisioned] at hprov
      split_ifs at hprov
      obtain rfl := some.inj hprov
      obtain rfl := st.users.keyed n old hold
      obtain ⟨hs, hh⟩ := unrevoked_valid h hst hold (by simpa using hr)
      exact ⟨.inr ⟨rfl, hs⟩, .inr ⟨nofun, hh⟩⟩
  | restoreUsers caller users => cases hr
  | _ => exact hA.elim

/-- A signing secret that is stored under the condition was not revoked. -/
theorem putsJwt_sound {revoking : Bool} {st : JwtSecretState} {req : AccountRequest}
    (hs : s.store.Sound) (h : JwtFrom AccountStore.Sound s.store x.jwt x.jwtSource)
    (hA : req.PutsJwt x revoking st) (hnew : st.current ∉ s.store.signing.values)
    (hold : revoking = true ∨ x.jwtSource.signing.count = s.store.signing.count) :
    (s.store.changeJwt revoking st).Sound := by
  cases req with
  | revokeAllTokens caller secret =>
    obtain ⟨rfl, rfl⟩ := hA
    exact hs.changeJwt hnew nofun
  | rotateJwt secret =>
    obtain ⟨rfl, rfl, _⟩ := hA
    refine hs.changeJwt hnew fun g hg => ⟨rfl, ?_⟩
    obtain rfl := some.inj hg
    have hcount := hold.resolve_left nofun
    exact h.origin.later.signing.not_revoked hcount (h.origin.holds.current _ h.jwt).2
  | _ => exact hA.elim

/-- A copy in which more was revoked of the user's tokens than at the issue of a token is from a
    later time. -/
theorem Placed.later_secrets {issued : List Issue} {st : AccountStore} {e : Issue} {n : String}
    (h : Placed issued st) (he : e ∈ issued)
    (hlt : (e.store.secrets n).count < (st.secrets n).count) : e.store.Later st := by
  refine (h.ordered e he).resolve_right fun hlater => ?_
  have hle := (hlater.secrets n).count
  omega

theorem Placed.later_signing {issued : List Issue} {st : AccountStore} {e : Issue}
    (h : Placed issued st) (he : e ∈ issued)
    (hlt : e.store.signing.count < st.signing.count) : e.store.Later st := by
  refine (h.ordered e he).resolve_right fun hlater => ?_
  have hle := hlater.signing.count
  omega

/-- A token that was revoked does not verify with a user, or a secret, from after the
    revocation. -/
theorem revoked_rejected (hkeys : ext.Collisionless) {t : Token} {e : Issue}
    {issued : List Issue} (h : Told (Placed issued) s.store x)
    (hsame : SameCount x.userName x.userSource x.userInserted) (he : e ∈ issued)
    (hsigned : Signed ext (Placed issued) s.store e) (ht : e.token = t)
    (hname : t.sub = x.userName)
    (hrev : (e.store.secrets t.sub).count < (x.userInserted.secrets t.sub).count ∨
      e.store.signing.count < x.jwtSource.signing.count) :
    (x.user.any fun user => validToken ext t x.jwt user x.clock) = false := by
  subst ht
  obtain ⟨signer, jwt, hsigner, hfirst, hlen, hkey⟩ := hsigned.key
  have hsecret := (hsigned.user.later.secrets _).values.subset
    (hsigned.user.holds.sound.secret _ signer hsigner).1
  have hglobal := hsigned.jwt.later.signing.values.subset
    (hsigned.jwt.holds.sound.current _ hfirst).1
  have hone : ∀ g user, g ∉ x.jwtSource.signing.revoked → x.user = some user →
      tryValidateToken ext e.token g user.tokenSecret x.clock = false := by
    intro g user hg hx
    by_contra hvalid
    rw [Bool.not_eq_false, tryValidateToken, Bool.and_eq_true, Bool.and_eq_true,
      decide_eq_true_eq, decide_eq_true_eq] at hvalid
    obtain ⟨⟨hlen', hkey'⟩, _⟩ := hvalid
    obtain ⟨hg', hu⟩ := hkeys jwt.current g signer.tokenSecret user.tokenSecret hlen hlen'
      (hkey.symm.trans hkey')
    rcases hrev with hrev | hrev
    · have hfrom := h.user
      rw [← hname] at hfrom hsame
      rw [← show _ = _ from hsame] at hrev
      have hvalid := hfrom.origin.holds.sound.secret _ user (hfrom.find.trans hx)
      have hlater := hfrom.origin.holds.later_secrets he hrev
      exact (hlater.secrets _).not_valid hrev (hu ▸ hsecret) hvalid
    · have hlater := h.jwt.origin.holds.later_signing he hrev
      exact hg (hlater.signing.revoked hrev (hg' ▸ hglobal))
  cases hx : x.user with
  | none => rfl
  | some user =>
    rw [Option.any_some, validToken, Bool.or_eq_false_iff]
    have hsound := h.jwt.origin.holds.sound
    refine ⟨hone _ user (hsound.current _ h.jwt.jwt).2 hx, ?_⟩
    cases hprev : x.jwt.previous with
    | none => rfl
    | some prev => exact hone _ user (hsound.previous _ h.jwt.jwt prev hprev) hx

variable {s' : AccountState}

variable {j : AccountJob} {o : AccountOp}

section

variable {i : ℕ} {b : Bool} {r : o.Reply} (h : RevocationInv ext s)
variable (hA : Allowed ext j (s.seen i) o) (hr : (revocationRules ext).op i j s o b = true)
variable (hx : s.exec j.server i o b = some (s', r))

include h hA hr hx

/-- What is stored stays sound. -/
theorem sound_op : s'.store.Sound := by
  have htold := (h.copies.imp fun _ _ hst => hst.sound).told i
  cases o with
  | putUser c record =>
    cases b <;> obtain ⟨rfl, _⟩ := some_mk_inj hx
    · exact h.sound
    · exact h.sound.change (puts_fits htold hA hr)
  | deleteUser n =>
    cases b <;> obtain ⟨rfl, _⟩ := some_mk_inj hx
    · exact h.sound
    · exact h.sound.remove n
  | putJwt revoking st =>
    cases b <;> obtain ⟨rfl, _⟩ := some_mk_inj hx
    · exact h.sound
    · have hcond : st.current ∉ s.store.signing.values ∧ (revoking = true ∨
          (s.seen i).jwtSource.signing.count = s.store.signing.count) := by
        simpa [revocationRules] using hr
      exact putsJwt_sound h.sound htold.jwt hA hcond.1 hcond.2
  | _ =>
    rw [AccountState.exec_store rfl hx]
    exact h.sound

/-- A user that is cached was not revoked since it was fetched. -/
theorem held_op : ∀ k n u, (s'.instances k).cache n = some u →
      SameCount n ((s'.instances k).source n) ((s'.instances k).inserted n) := by
  intro k n u hu
  by_cases hk : k = j.server
  · subst hk
    have hheld := h.held j.server n u
    cases o with
    | cachePut n' v =>
      obtain ⟨rfl, _⟩ := some_mk_inj hx
      obtain ⟨rfl, rfl⟩ := hA
      simp only [AccountState.onInstance, update_self] at hu ⊢
      by_cases hn : n = (s.seen i).userName
      · subst hn
        simp only [update_self]
        show ((s.seen i).userSource.secrets _).count = _
        exact of_decide_eq_true hr
      · simp only [update_of_ne hn] at hu ⊢
        exact hheld hu
    | invalidateUser n' =>
      obtain ⟨rfl, _⟩ := some_mk_inj hx
      simp only [AccountState.onInstance, update_self] at hu ⊢
      by_cases hn : n = n'
      · simp [hn] at hu
      · rw [update_of_ne hn] at hu
        exact hheld hu
    | invalidateAll =>
      obtain ⟨rfl, _⟩ := some_mk_inj hx
      simp [AccountState.onInstance] at hu
    | storeJwt st =>
      obtain ⟨rfl, _⟩ := some_mk_inj hx
      simp only [AccountState.onInstance, update_self] at hu ⊢
      exact hheld hu
    | _ =>
      cases b <;> obtain ⟨rfl, _⟩ := some_mk_inj hx <;> exact hheld hu
  · rw [exec_instances hk hx] at hu ⊢
    exact h.held k n u hu

end

/-- A user that a task was told of was not revoked between its fetch and its caching. -/
theorem told_op {i : ℕ} {b : Bool}
    {r : o.Reply} (h : RevocationInv ext s) (hx : s.exec j.server i o b = some (s', r)) :
    ∀ i', SameCount (s'.seen i').userName (s'.seen i').userSource (s'.seen i').userInserted := by
  intro i'
  by_cases hi : i' = i
  · subst hi
    have htold := h.told i'
    cases o with
    | cacheGet n =>
      obtain ⟨rfl, _⟩ := some_mk_inj hx
      simp only [AccountState.sees, update_self, Instance.hit]
      split
      · next user huser => exact h.held j.server n user huser
      · exact htold
    | getUser n =>
      cases b <;> obtain ⟨rfl, _⟩ := some_mk_inj hx <;>
        simp only [AccountState.sees, update_self]
      · exact htold
      · rfl
    | putUser c record =>
      cases b <;> obtain ⟨rfl, _⟩ := some_mk_inj hx
      · exact htold
      · simp only [AccountState.sees, update_self]
        rfl
    | _ =>
      cases b <;> obtain ⟨rfl, _⟩ := some_mk_inj hx <;>
        (try simp only [AccountState.sees, update_self]) <;> exact htold
  · rw [exec_seen hi hx]
    exact h.told i'

/-- The store, and the copies of it, have their place among the tokens that were issued. -/
theorem placed_op {i : ℕ} {b : Bool} {r : o.Reply} (h : RevocationInv ext s)
    (hA : Allowed ext j (s.seen i) o) (hsound : s'.store.Sound)
    (hx : s.exec j.server i o b = some (s', r)) : Copies ext (Placed s'.issued) s' := by
  have hlater := AccountState.exec_later hx
  have hold : Placed s.issued s.store := ⟨h.sound, fun e he => .inl (h.copies.signed e he).later⟩
  have hnew : Placed s.issued s'.store :=
    ⟨hsound, fun e he => .inl ((h.copies.signed e he).later.trans hlater)⟩
  refine (copies_op h.copies hA hold hnew hx).imp fun st hst hplaced =>
    ⟨hplaced.sound, fun e he => ?_⟩
  rcases exec_issued hx with heq | ⟨t, rfl, heq⟩
  · exact hplaced.ordered e (heq ▸ he)
  · rw [heq] at he
    rcases mem_cons.mp he with rfl | he
    · rw [AccountState.exec_store rfl hx] at hst
      exact .inr hst
    · exact hplaced.ordered e he

theorem revocation_preserved (hkeys : ext.Collisionless) :
    Preserved ext (revocationRules ext) (RevocationInv ext) where
  op i j o b s s' r h hA hr hx := by
    have hsound := sound_op h hA hr hx
    refine ⟨hsound, placed_op h hA hsound hx, told_op h hx, held_op h hA hr hx, ?_⟩
    intro d hd
    rcases exec_decided hx with heq | ⟨t, a, ho, heq⟩
    · exact h.rejects d (heq ▸ hd)
    · rw [heq] at hd
      rcases mem_cons.mp hd with rfl | hd
      · subst ho
        intro e he ht hrev
        rw [Allowed] at hA
        split_ifs at hA
        · obtain ⟨hname, _, rfl⟩ := hA
          exact revoked_rejected hkeys (h.copies.told i) (h.told i) he (h.copies.signed e he) ht
            hname hrev
        · exact hA
      · exact h.rejects d hd
  env e s s' h hx := by
    have hcopies := copies_env h.copies hx
    refine ⟨?_, ?_, ?_, ?_, ?_⟩
    all_goals cases e <;> obtain rfl := some.inj hx
    · exact h.sound
    · exact h.sound
    · exact hcopies
    · exact hcopies
    · exact h.told
    · exact h.told
    · exact h.held
    · next k n =>
      intro k' n' u hu
      by_cases hk : k' = k
      · subst hk
        simp only [AccountState.onInstance, update_self] at hu ⊢
        by_cases hn : n' = n
        · simp [hn] at hu
        · rw [update_of_ne hn] at hu
          exact h.held k' n' u hu
      · simp only [AccountState.onInstance, update_of_ne hk] at hu ⊢
        exact h.held k' n' u hu
    · exact h.rejects
    · exact h.rejects

theorem revocation_start (users : UserTable) (jwt : JwtSecretState) (settings : Settings) :
    RevocationInv ext (.start users jwt settings) := by
  have hsound := AccountStore.sound_start users jwt
  refine ⟨hsound, copies_start ⟨hsound, fun e he => ?_⟩, fun _ => rfl, fun _ n u hu => ?_,
    fun d hd => ?_⟩
  · cases he
  · simp [AccountState.start] at hu
  · simp [AccountState.start] at hd

/-! ## Runs -/

/-- **Main theorem.** Under the condition, no verdict that is reached with a user from after a
    revocation of the user's tokens, or with a signing secret from after a revocation of all tokens,
    accepts a token that was issued before that revocation; and no stored record has a token secret
    or a password hash from before a revocation. -/
theorem revocation_sticks (hkeys : ext.Collisionless) {users : UserTable} {jwt : JwtSecretState}
    {settings : Settings} {es : List (Event AccountJob AccountEnv)}
    {p : Pool AccountOp AccountOp.Reply AccountState AccountJob}
    (h : (Pool.init (.start users jwt settings)).run (accountSystem ext) (revocationRules ext) es =
      some p) :
    (∀ d ∈ p.shared.decided, ∀ e ∈ d.issued, e.token = d.token → d.AfterRevocation e →
      d.accepted = false) ∧
    (∀ n r, p.shared.store.users.find n = some r →
      r.tokenSecret ∉ (p.shared.store.secrets n).revoked ∧
        r.passwordHash ∉ (p.shared.store.hashes n).revoked) := by
  have hinv := preserved_run (revocation_preserved hkeys) (revocation_start users jwt settings) h
  refine ⟨fun d hd => hinv.rejects d hd, fun n r hr => ?_⟩
  exact ⟨(hinv.sound.secret n r hr).2, (hinv.sound.hash n r hr).2⟩

/-! ## Samples -/

theorem collisionless_sample : AccountExt.sample.Collisionless := by
  intro g g' u u' hg hg' h
  exact append_inj h (hg.trans hg'.symm)

instance (d : Verdict) (e : Issue) : Decidable (d.AfterRevocation e) :=
  inferInstanceAs (Decidable (_ ∨ _))

/-- An admin and a user `bob`. -/
def twoUsers : UserTable :=
  (UserTable.empty.put
    { username := "admin", passwordHash := "salt:secret", roles := ["admin"] }).put
    { username := "bob", passwordHash := "salt:pw" }

/-- The secret with which instances start. -/
def firstSecret : JwtSecretState := { current := replicate 32 0, rotatedAt := 0 }

/-- The token that bob gets when he logs in. -/
def bobsToken : Token :=
  { sub := "bob", exp := 86400, iat := 0, key := replicate 32 0 }

/-- A verdict with new data about a revoked token. -/
def LateVerdict (s : AccountState) (accepted : Bool) : Prop :=
  ∃ d ∈ s.decided, d.accepted = accepted ∧ ∃ e ∈ d.issued, e.token = d.token ∧ d.AfterRevocation e

instance (s : AccountState) (accepted : Bool) : Decidable (LateVerdict s accepted) :=
  inferInstanceAs (Decidable (∃ d ∈ s.decided, d.accepted = accepted ∧
    ∃ e ∈ d.issued, e.token = d.token ∧ d.AfterRevocation e))

/-- **Counterexample.** An admin changes bob's roles; between its read and its write bob revokes
    his tokens. The old token secret is stored again, and the old token accepted. -/
theorem revocation_undone : AccountExt.sample.Collisionless ∧
    ∃ es p, (Pool.init (.start twoUsers firstSecret {})).run (accountSystem .sample) .free es =
        some p ∧ LateVerdict p.shared true := by
  refine ⟨collisionless_sample, .spawn ⟨0, .login "bob" "pw"⟩ :: replicate 8 (.step 0 true) ++
    .spawn ⟨0, .updateUser "admin" "bob" { roles := some ["dev"] } ⟨"", []⟩⟩ ::
      replicate 4 (.step 1 true) ++
    .spawn ⟨0, .revokeUserTokens "bob" "bob" [1]⟩ :: replicate 3 (.step 2 true) ++
    replicate 2 (.step 1 true) ++
    .spawn ⟨0, .resolveBearer bobsToken⟩ :: replicate 6 (.step 3 true), ?_⟩
  exact ends_in (fun p => LateVerdict p.shared true) (by decide +kernel) fun _ _ hlate => hlate

/-- The same without the update. -/
theorem revocation_sticks_bob :
    ∃ es p, (Pool.init (.start twoUsers firstSecret {})).run (accountSystem .sample)
        (revocationRules .sample) es = some p ∧
      ∃ d ∈ p.shared.decided, d.accepted = false ∧ ∃ e ∈ d.issued, d.AfterRevocation e := by
  refine ⟨.spawn ⟨0, .login "bob" "pw"⟩ :: replicate 8 (.step 0 true) ++
    .spawn ⟨0, .revokeUserTokens "bob" "bob" [1]⟩ :: replicate 3 (.step 1 true) ++
    .spawn ⟨0, .resolveBearer bobsToken⟩ :: replicate 6 (.step 2 true), ?_⟩
  refine ends_in (fun p => ∃ d ∈ p.shared.decided, ∃ e ∈ d.issued, e.token = d.token ∧
    d.AfterRevocation e) (by decide +kernel) fun p hp hlate => ?_
  obtain ⟨d, hd, e, he, ht, hrev⟩ := hlate
  exact ⟨d, hd, (revocation_sticks collisionless_sample hp).1 d hd e he ht hrev, e, he, hrev⟩

/-! ## What is accepted -/

/-- The token verifies with a record of its user and a signing secret that were stored before. -/
def Verdict.Genuine (ext : AccountExt) (d : Verdict) : Prop :=
  d.userSource.Later d.store ∧ d.jwtSource.Later d.store ∧ ∃ user jwt now,
    d.userSource.users.find d.token.sub = some user ∧ d.jwtSource.jwt = some jwt ∧
      validToken ext d.token jwt user now = true

/-- **Main theorem.** In every run, whatever is cached and whatever fails, only such tokens are
    accepted. -/
theorem accepted_genuine (ext : AccountExt) {users : UserTable} {jwt : JwtSecretState}
    {settings : Settings} {es : List (Event AccountJob AccountEnv)}
    {p : Pool AccountOp AccountOp.Reply AccountState AccountJob}
    (h : (Pool.init (.start users jwt settings)).run (accountSystem ext) .free es = some p) :
    ∀ d ∈ p.shared.decided, d.accepted = true → d.Genuine ext := by
  have hpres : Preserved ext .free fun s => Copies ext (fun _ => True) s ∧
      ∀ d ∈ s.decided, d.accepted = true → d.Genuine ext := by
    refine ⟨fun i j o b s s' r hs hA _ hx => ⟨copies_op hs.1 hA trivial trivial hx, ?_⟩,
      fun e s s' hs hx => ⟨copies_env hs.1 hx, ?_⟩⟩
    · rcases exec_decided hx with heq | ⟨t, a, rfl, heq⟩
      · rw [heq]
        exact hs.2
      · rw [heq]
        refine forall_mem_cons.mpr ⟨fun (hacc : a = true) => ?_, hs.2⟩
        rw [Allowed] at hA
        split_ifs at hA with hanswered
        swap
        · rw [hA] at hacc
          cases hacc
        obtain ⟨hname, -, rfl⟩ := hA
        obtain ⟨user, huser, hvalid⟩ := (Option.any_eq_true _ _).mp hacc
        have htold := hs.1.told i
        exact ⟨htold.user.origin.later, htold.jwt.origin.later, user, _, _,
          (hname ▸ htold.user.find).trans huser, htold.jwt.jwt, hvalid⟩
    · cases e <;> obtain rfl := some.inj hx <;> exact hs.2
  refine (preserved_run hpres ⟨copies_start trivial, fun d hd => ?_⟩ h).2
  cases hd

/-- Bob's token, after he has logged in. -/
theorem accepted_genuine_bob :
    ∃ es p, (Pool.init (.start twoUsers firstSecret {})).run (accountSystem .sample) .free es =
      some p ∧ ∃ d ∈ p.shared.decided, d.accepted = true ∧ d.Genuine .sample := by
  refine ⟨.spawn ⟨0, .login "bob" "pw"⟩ :: replicate 8 (.step 0 true) ++
    .spawn ⟨0, .resolveBearer bobsToken⟩ :: replicate 4 (.step 1 true), ?_⟩
  refine ends_in (fun p => ∃ d ∈ p.shared.decided, d.accepted = true) (by decide +kernel)
    fun p hp hacc => ?_
  obtain ⟨d, hd, hacc⟩ := hacc
  exact ⟨d, hd, hacc, accepted_genuine .sample hp d hd hacc⟩

end Depot.Accounts
