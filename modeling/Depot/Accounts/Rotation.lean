import Depot.Accounts.Revocation
import Mathlib.Data.List.Nodup

/-!
# Tokens and the rotation of the signing secret

Each instance decides from its own copy of the signing secret whether a rotation is due, and
stores its own copy as the previous secret.

Results:
* `tokens_live`: when a rotation rotates out the secret that is stored, and no instance works with
  a secret whose successor is about to be replaced, every token of an unchanged user is accepted
  until it expires.
* `rotation_lost`: two instances rotate one after the other.
-/

namespace Depot.Accounts

open Lib List
open Option (some.inj)
open Function (update update_self)

/-! ## The condition -/

/-- How many signing secrets there were. -/
def AccountStore.version (s : AccountStore) : ℕ := s.signing.values.length

/-- The user that a task has read has the token secret that is stored. -/
def userIsCurrent (s : AccountStore) (x : Seen) : Bool :=
  x.user.map UserRecord.tokenSecret = (s.users.find x.userName).map UserRecord.tokenSecret

local instance lawfulSecrets : LawfulBEq (List UInt8) := inferInstance

/-- The condition on a run. A signing secret that is stored is new, and a rotation replaces the
    secret that its instance has in memory, with no token issued since it read the clock. A token
    is signed with the token secret that is stored, and with the signing secret that is stored or
    with the previous one if it expires before the next rotation is due. No instance takes over an
    older signing secret than it has; and a verdict on a token of an unchanged user is reached with
    the token secret that is stored, so that the read of the user must not have failed. -/
def tokenRules (settings : Settings) :
    Rules AccountOp AccountState AccountJob AccountEnv where
  op i j s o b :=
    match o with
    | .putJwt revoking st =>
        !b || (st.current ∉ s.store.signing.values &&
          (revoking || (s.store.jwt = some (s.seen i).jwt &&
            s.issued.all fun e => e.token.iat ≤ st.rotatedAt)))
    | .issue t => userIsCurrent s.store (s.seen i) && s.store.jwt.any fun st =>
        st.current = (s.seen i).jwt.current ||
          (st.previous = some (s.seen i).jwt.current &&
            t.exp ≤ st.rotatedAt + rotationInterval settings)
    | .decide t _ => s.issued.all fun e =>
        e.token ≠ t || e.store.secrets t.sub ≠ s.store.secrets t.sub ||
          ((s.seen i).answered && userIsCurrent s.store (s.seen i))
    | .storeJwt _ =>
        decide ((s.instances j.server).jwtSource.version ≤ (s.seen i).jwtSource.version)
    | _ => true
  spawn _ _ _ := true
  env _ _ _ := true

/-! ## The claim about a verdict -/

/-- The token was issued before and has not expired; since then the tokens were not revoked and its
    user was not changed or deleted; and the instance has read the signing secret since, or is the
    one that has issued it. -/
structure Verdict.Due (d : Verdict) (e : Issue) : Prop where
  issued : e ∈ d.issued
  token : e.token = d.token
  unexpired : d.time < e.token.exp
  unrevoked : e.store.signing.count = d.store.signing.count
  unchanged : e.store.secrets d.token.sub = d.store.secrets d.token.sub
  reached : e.store.version ≤ d.jwtSource.version ∨ e.server = d.server ∧ e ∈ d.known

/-! ## The stored secret and its predecessors -/

/-- The token was signed with the secret. -/
def Issue.SignedWith (e : Issue) (g : List UInt8) : Prop :=
  ∃ jwt, e.jwtSource.jwt = some jwt ∧ jwt.current = g

/-- A stored secret comes right after the previous one in the history, and tokens that are signed
    with an older one have expired. -/
structure Rotated (issued : List Issue) (now : ℤ) (st : AccountStore) (jwt : JwtSecretState) :
    Prop where
  stored : st.jwt = some jwt
  history : ∃ rest, st.signing.values = jwt.current :: rest ∧
    ∀ g ∈ jwt.previous, rest.head? = some g
  nodup : st.signing.values.Nodup
  valid : ∀ g, g = jwt.current ∨ jwt.previous = some g → g ∉ st.signing.revoked
  kept : ∀ e ∈ issued, ∀ g ∈ st.signing.values, e.SignedWith g →
    e.jwtSource.signing.count = st.signing.count →
      g = jwt.current ∨ jwt.previous = some g ∨ e.token.exp ≤ now

/-- Such a store. -/
def InOrder (issued : List Issue) (now : ℤ) (st : AccountStore) : Prop :=
  ∃ jwt, Rotated issued now st jwt

variable {issued : List Issue} {now : ℤ} {st S : AccountStore} {jwt : JwtSecretState}

theorem Rotated.mono (h : Rotated issued now st jwt) {now' : ℤ} (hnow : now ≤ now') :
    Rotated issued now' st jwt := by
  refine ⟨h.stored, h.history, h.nodup, h.valid, fun e he g hg hs hc => ?_⟩
  exact (h.kept e he g hg hs hc).imp_right (Or.imp_right fun hexp => hexp.trans hnow)

theorem InOrder.mono (h : InOrder issued now st) {now' : ℤ} (hnow : now ≤ now') :
    InOrder issued now' st := by
  obtain ⟨jwt, h⟩ := h
  exact ⟨jwt, h.mono hnow⟩

/-- Only the signing secret matters. -/
theorem InOrder.congr (h : InOrder issued now st) (hjwt : S.jwt = st.jwt)
    (hsigning : S.signing = st.signing) : InOrder issued now S := by
  obtain ⟨jwt, h⟩ := h
  refine ⟨jwt, by rw [hjwt, h.stored], ?_, ?_, ?_, ?_⟩
  · rw [hsigning]
    exact h.history
  · rw [hsigning]
    exact h.nodup
  · rw [hsigning]
    exact h.valid
  · rw [hsigning]
    exact h.kept

variable {jwt' jS : JwtSecretState}

/-- An earlier store that knows the stored secret is as new. -/
theorem Rotated.current_known (h : Rotated issued now S jwt)
    (hst : Rotated issued now st jwt') (hlater : st.Later S)
    (hg : jwt.current ∈ st.signing.values) : jwt' = jwt := by
  obtain ⟨rest, hrest, _⟩ := h.history
  have hsuffix := hlater.signing.values
  rw [hrest] at hsuffix
  have hnodup := h.nodup
  rw [hrest] at hnodup
  rcases suffix_cons_iff.mp hsuffix with heq | hrest'
  · have hjwt := hlater.jwt (heq.trans hrest.symm)
    rw [h.stored, hst.stored] at hjwt
    exact (some.inj hjwt).symm
  · exact absurd (hrest'.subset hg) (nodup_cons.mp hnodup).1

/-- An earlier store that knows the previous secret has it as its own, or is as new. -/
theorem Rotated.previous_known (h : Rotated issued now S jwt)
    (hst : Rotated issued now st jwt') (hlater : st.Later S) {g : List UInt8}
    (hprev : jwt.previous = some g) (hg : g ∈ st.signing.values) :
    g = jwt'.current ∨ jwt' = jwt := by
  obtain ⟨rest, hrest, hhead⟩ := h.history
  have hsuffix := hlater.signing.values
  rw [hrest] at hsuffix
  rcases suffix_cons_iff.mp hsuffix with heq | hsuffix'
  · have hjwt := hlater.jwt (heq.trans hrest.symm)
    rw [h.stored, hst.stored] at hjwt
    exact .inr (some.inj hjwt).symm
  · left
    have hnodup := h.nodup
    rw [hrest] at hnodup
    obtain ⟨rest', hrest', _⟩ := hst.history
    cases rest with
    | nil => cases hhead g hprev
    | cons g' rest =>
      obtain rfl := some.inj (hhead g hprev)
      rcases suffix_cons_iff.mp hsuffix' with heq | hsuffix''
      · rw [heq] at hrest'
        exact (List.cons.inj hrest').1
      · exact absurd (hsuffix''.subset hg) (nodup_cons.mp (nodup_cons.mp hnodup).2).1

/-- A new token, signed with the stored secret or the previous one. -/
theorem InOrder.issue (hS : InOrder issued now S) (hst : InOrder issued now st)
    (hlater : st.Later S) {e : Issue} (he : e.jwtSource.jwt = some jwt)
    (hsigned : ∃ jS, S.jwt = some jS ∧
      (jS.current = jwt.current ∨ jS.previous = some jwt.current)) :
    InOrder (e :: issued) now st := by
  obtain ⟨jwt', hst⟩ := hst
  obtain ⟨jS, hjS, hsigned⟩ := hsigned
  obtain ⟨jS', hS⟩ := hS
  obtain rfl := some.inj (hjS.symm.trans hS.stored)
  refine ⟨jwt', hst.stored, hst.history, hst.nodup, hst.valid, fun e' he' g hg hs hc => ?_⟩
  rcases mem_cons.mp he' with rfl | he'
  · obtain ⟨j, hj, rfl⟩ := hs
    obtain rfl := some.inj (hj.symm.trans he)
    rcases hsigned with hcur | hprev
    · have heq := hS.current_known hst hlater (hcur ▸ hg)
      exact .inl (heq ▸ hcur.symm)
    · rcases hS.previous_known hst hlater hprev hg with hcur | heq
      · exact .inl hcur
      · exact .inr (.inl (heq ▸ hprev))
  · exact hst.kept e' he' g hg hs hc

/-- Tokens that were signed with the previous secret expire before the next rotation is due. -/
def DueBy (issued : List Issue) (bound : ℤ) (st : AccountStore) : Prop :=
  ∀ e ∈ issued, ∀ jwt, st.jwt = some jwt → ∀ g, jwt.previous = some g → e.SignedWith g →
    e.jwtSource.signing.count = st.signing.count → e.token.exp ≤ jwt.rotatedAt + bound

/-- A rotation that is due and replaces the stored secret. -/
theorem Rotated.rotate {bound : ℤ} (h : Rotated issued now S jS) (hdue : DueBy issued bound S)
    (hstate : jwt.previous = some jS.current) (hnew : jwt.current ∉ S.signing.values)
    (htime : jwt.rotatedAt ≤ now) (helapsed : jS.rotatedAt + bound ≤ jwt.rotatedAt) :
    Rotated issued now (S.changeJwt false jwt) jwt := by
  obtain ⟨rest, hrest, hhead⟩ := h.history
  refine ⟨rfl, ⟨S.signing.values, rfl, fun g hg => ?_⟩, nodup_cons.mpr ⟨hnew, h.nodup⟩,
    fun g hg hrev => ?_, fun e he g hg hs hc => ?_⟩
  · rw [hrest]
    exact hstate.symm.trans hg
  · rcases hg with rfl | hg
    · exact hnew (S.signing.subset hrev)
    · exact h.valid g (.inl (some.inj (hg.symm.trans hstate))) hrev
  · have hcount : e.jwtSource.signing.count = S.signing.count := hc
    rcases mem_cons.mp hg with rfl | hg
    · exact .inl rfl
    · rcases h.kept e he g hg hs hcount with rfl | hprev | hexp
      · exact .inr (.inl hstate)
      · have hlate := hdue e he jS h.stored g hprev hs hcount
        exact .inr (.inr (by omega))
      · exact .inr (.inr hexp)

/-- A revocation of all tokens. -/
theorem Rotated.revoke (h : Rotated issued now S jS)
    (hfrom : ∀ e ∈ issued, e.jwtSource.Later S) (hstate : jwt.previous = none)
    (hnew : jwt.current ∉ S.signing.values) : Rotated issued now (S.changeJwt true jwt) jwt := by
  refine ⟨rfl, ⟨S.signing.values, rfl, fun g hg => ?_⟩, nodup_cons.mpr ⟨hnew, h.nodup⟩,
    fun g hg => ?_, fun e he g hg hs hc => ?_⟩
  · rw [hstate] at hg
    cases hg
  · rcases hg with rfl | hg
    · exact hnew
    · rw [hstate] at hg
      cases hg
  · have hcount := (hfrom e he).signing.count
    have hsucc : e.jwtSource.signing.count = S.signing.count + 1 := hc
    omega

/-- A token that is due is signed with the secret or the previous one. -/
theorem Rotated.signed (h : Rotated issued now st jwt) (hlater : st.Later S) {e : Issue}
    (he : e ∈ issued) (hsrc : InOrder issued now e.jwtSource) (hfrom : e.jwtSource.Later S)
    (hcount : e.jwtSource.signing.count = S.signing.count)
    (hversion : e.jwtSource.version ≤ st.version) (hexp : now < e.token.exp) {g : List UInt8}
    (hs : e.SignedWith g) : g = jwt.current ∨ jwt.previous = some g := by
  obtain ⟨je, hsrc⟩ := hsrc
  obtain rfl : je.current = g := by
    obtain ⟨je', hje, hcur⟩ := hs
    rw [← hcur, some.inj (hsrc.stored.symm.trans hje)]
  obtain ⟨rest, hrest, _⟩ := hsrc.history
  have hsuffix :=
    suffix_of_suffix_length_le hfrom.signing.values hlater.signing.values hversion
  have hg : je.current ∈ st.signing.values :=
    hsuffix.subset (hrest ▸ mem_cons_self)
  have hsame : e.jwtSource.signing.count = st.signing.count := by
    have hle := hlater.signing.count
    by_contra hne
    have hrev := hlater.signing.revoked (by omega) hg
    rw [hfrom.signing.same hcount] at hrev
    exact hsrc.valid _ (.inl rfl) hrev
  rcases h.kept e he _ hg hs hsame with hcur | hprev | hold
  · exact .inl hcur
  · exact .inr hprev
  · omega

/-! ## The invariant -/

/-- What instances and tasks have of the secrets that they sign with: no task has a newer secret
    from the memory of an instance than the instance, and both are as new as those that tokens of
    the instance were signed with. -/
structure Newest (s : AccountState) : Prop where
  issued : ∀ e ∈ s.issued, e.jwtSource.version ≤ (s.instances e.server).jwtSource.version
  told : ∀ i k, (s.seen i).memory = some k →
    (s.seen i).jwtSource.version ≤ (s.instances k).jwtSource.version ∧
      ∀ e ∈ (s.seen i).known, e.server = k →
        e.jwtSource.version ≤ (s.seen i).jwtSource.version

/-- The settings and the time that tasks have read, and the terms of tokens. -/
structure Terms (settings : Settings) (s : AccountState) : Prop where
  instances : ∀ k, (s.instances k).settings = settings
  seen : ∀ i, (s.seen i).settings = settings
  clock : ∀ i, 0 ≤ (s.seen i).clock ∧ (s.seen i).clock ≤ s.now
  term : ∀ e ∈ s.issued, e.token.exp ≤ e.token.iat + settings.jwtExpirySecs.toNat

/-- The token was signed with secrets that were stored and not revoked at its issue. -/
structure Issue.Current (e : Issue) : Prop where
  signing : e.jwtSource.signing.count = e.store.signing.count
  user : (e.userSource.users.find e.token.sub).map UserRecord.tokenSecret =
    (e.store.users.find e.token.sub).map UserRecord.tokenSecret

variable (ext : AccountExt) (settings : Settings)

/-- A verdict accepts the tokens that are due. -/
def Verdict.Accepts (d : Verdict) : Prop := ∀ e, d.Due e → d.accepted = true

/-- What holds of the JWT secrets and the tokens in every state. -/
structure TokenInv (s : AccountState) : Prop where
  order : InOrder s.issued s.now s.store
  due : DueBy s.issued (rotationInterval settings) s.store
  copies : Copies ext (InOrder s.issued s.now) s
  newest : Newest s
  current : ∀ e ∈ s.issued, e.Current
  terms : Terms settings s
  accepts : ∀ d ∈ s.decided, d.Accepts

variable {ext settings} {s s' : AccountState} {i : ℕ} {j : AccountJob} {o : AccountOp} {b : Bool}
  {r : o.Reply}

/-! ## Every step -/

theorem exec_now {k : ℕ} (h : s.exec k i o b = some (s', r)) : s'.now = s.now := by
  cases o <;> cases b <;> obtain ⟨rfl, _⟩ := some_mk_inj h <;> rfl

/-- An interval that is not negative as a signed number. -/
theorem rotationInterval_eq (h : settings.jwtRotationIntervalSecs.toNat < 2 ^ 63) :
    rotationInterval settings = settings.jwtRotationIntervalSecs.toNat := by
  unfold rotationInterval
  rw [← Int64.toInt_toBitVec, UInt64.toBitVec_toInt64, BitVec.toInt_eq_toNat_of_lt]
  · simp
  · simp only [UInt64.toNat_toBitVec]
    omega

/-- The settings that are accepted let tokens expire before the secret after the next one. -/
theorem expiry_le_interval {x : SettingsExt} (h : settings.validate x = .ok ()) :
    settings.jwtExpirySecs.toNat ≤ settings.jwtRotationIntervalSecs.toNat := by
  unfold Settings.validate at h
  simp only at h
  split at h
  · next herrors =>
    simp only [append_eq_nil_iff] at herrors
    have hlt := herrors.1.1.2.2
    split_ifs at hlt with hle
    simpa [UInt64.lt_iff_toNat_lt] using hle
  · cases h

/-- What a token says that is issued. -/
theorem Issues.term {req : AccountRequest} {x : Seen} {t : Token} (h : req.Issues ext x t) :
    (∃ user, x.user = some user ∧ t.sub = user.username) ∧ t.iat = x.clock ∧
      t.exp = (x.clock + x.settings.jwtExpirySecs.toNat) % 2 ^ 64 := by
  have huser : ∃ user, x.user = some user ∧ createUserToken ext user.username x.jwt.current
      user.tokenSecret x.settings.jwtExpirySecs user.roles x.clock = some t := by
    cases req with
    | login n password => exact h
    | changePassword caller req draw => exact h
    | _ => exact h.elim
  obtain ⟨user, hx, ht⟩ := huser
  simp only [createUserToken] at ht
  split_ifs at ht
  obtain rfl := some.inj ht
  exact ⟨⟨user, hx, rfl⟩, rfl, rfl⟩

/-- A signing secret that is stored follows the one before. -/
theorem putJwt_order (hvalid : settings.jwtExpirySecs.toNat ≤ rotationInterval settings)
    {revoking : Bool} {st : JwtSecretState}
    (h : TokenInv ext settings s) (hA : j.request.PutsJwt (s.seen i) revoking st)
    (hr : (tokenRules settings).op i j s (.putJwt revoking st) true = true) :
    InOrder s.issued s.now (s.store.changeJwt revoking st) ∧
      DueBy s.issued (rotationInterval settings) (s.store.changeJwt revoking st) := by
  have hrule : st.current ∉ s.store.signing.values ∧
      (revoking = true ∨ s.store.jwt = some (s.seen i).jwt ∧
        ∀ e ∈ s.issued, e.token.iat ≤ st.rotatedAt) := by
    simpa [tokenRules] using hr
  obtain ⟨hnew, hrule⟩ := hrule
  obtain ⟨jS, hS⟩ := h.order
  have hfrom : ∀ e ∈ s.issued, e.jwtSource.Later s.store := fun e he =>
    (h.copies.signed e he).jwt.later.trans (h.copies.signed e he).later
  have hclock := h.terms.clock i
  cases hreq : j.request with
  | revokeAllTokens caller secret =>
    rw [hreq] at hA
    obtain ⟨rfl, rfl⟩ := hA
    refine ⟨⟨_, hS.revoke hfrom rfl hnew⟩, fun e he jwt hjwt g hg => ?_⟩
    obtain rfl := some.inj hjwt
    cases hg
  | rotateJwt secret =>
    rw [hreq] at hA
    obtain ⟨rfl, rfl, hdue⟩ := hA
    obtain ⟨hstored, hiat⟩ := hrule.resolve_left nofun
    obtain rfl := some.inj (hstored.symm.trans hS.stored)
    rw [h.terms.seen i] at hdue
    refine ⟨⟨_, hS.rotate h.due rfl hnew hclock.2 ?_⟩, fun e he jwt hjwt g hg hs hc => ?_⟩
    · show (s.seen i).jwt.rotatedAt + rotationInterval settings ≤ (s.seen i).clock
      omega
    · obtain rfl := some.inj hjwt
      have hterm := h.terms.term e he
      have hissued := hiat e he
      simp only at hissued ⊢
      omega
  | _ =>
    rw [hreq] at hA
    exact hA.elim

/-- The token that is issued is signed with the stored secret or the previous one. -/
theorem issue_order {t : Token} (h : TokenInv ext settings s)
    (hr : (tokenRules settings).op i j s (.issue t) b = true) : ∃ jS, s.store.jwt = some jS ∧
      (jS.current = (s.seen i).jwt.current ∨ jS.previous = some (s.seen i).jwt.current) ∧
      (jS.previous = some (s.seen i).jwt.current →
        t.exp ≤ jS.rotatedAt + rotationInterval settings) := by
  obtain ⟨jS, hS⟩ := h.order
  have hrule : jS.current = (s.seen i).jwt.current ∨ jS.previous = some (s.seen i).jwt.current ∧
      t.exp ≤ jS.rotatedAt + rotationInterval settings := by
    have hr' := (Bool.and_eq_true_iff.mp hr).2
    simpa [hS.stored] using hr'
  refine ⟨jS, hS.stored, hrule.imp_right And.left, fun hprev => ?_⟩
  rcases hrule with hcur | ⟨_, hexp⟩
  · obtain ⟨rest, hrest, hhead⟩ := hS.history
    have hmem : jS.current ∈ rest := by
      rw [hcur]
      exact mem_of_mem_head? (hhead _ hprev)
    have hnodup := hS.nodup
    rw [hrest] at hnodup
    exact absurd hmem (nodup_cons.mp hnodup).1
  · exact hexp

/-- What is stored and copied stays in order. -/
theorem order_op (hvalid : settings.jwtExpirySecs.toNat ≤ rotationInterval settings)
    (h : TokenInv ext settings s) (hA : Allowed ext j (s.seen i) o)
    (hr : (tokenRules settings).op i j s o b = true) (hx : s.exec j.server i o b = some (s', r)) :
    InOrder s'.issued s'.now s'.store ∧ DueBy s'.issued (rotationInterval settings) s'.store ∧
      Copies ext (InOrder s'.issued s'.now) s' := by
  have hnow := exec_now hx
  rcases exec_issued hx with hissued | ⟨t, rfl, hissued⟩
  · have horder : InOrder s.issued s.now s'.store ∧
        DueBy s.issued (rotationInterval settings) s'.store := by
      cases o with
      | putUser c record =>
        cases b <;> obtain ⟨rfl, _⟩ := some_mk_inj hx
        · exact ⟨h.order, h.due⟩
        · exact ⟨h.order.congr (jwt_change _ _ _) (signing_change _ _ _), by
            intro e he jwt hjwt g hg hs hc
            exact h.due e he jwt ((jwt_change _ _ _).symm.trans hjwt) g hg hs
              (hc.trans (congrArg _ (signing_change _ _ _)))⟩
      | deleteUser n =>
        cases b <;> obtain ⟨rfl, _⟩ := some_mk_inj hx
        · exact ⟨h.order, h.due⟩
        · exact ⟨h.order.congr rfl rfl, h.due⟩
      | putJwt revoking st =>
        cases b <;> obtain ⟨rfl, _⟩ := some_mk_inj hx
        · exact ⟨h.order, h.due⟩
        · exact putJwt_order hvalid h hA hr
      | _ =>
        rw [AccountState.exec_store rfl hx]
        exact ⟨h.order, h.due⟩
    rw [hissued, hnow]
    exact ⟨horder.1, horder.2, copies_op h.copies hA h.order horder.1 hx⟩
  · have hstore : s'.store = s.store := AccountState.exec_store rfl hx
    obtain ⟨jS, hjS, hsigned, hexp⟩ := issue_order h hr
    have htold := (h.copies.told i).jwt.jwt
    have hnew : ∀ st, st.Later s.store → InOrder s.issued s.now st →
        InOrder s'.issued s'.now st := by
      intro st hst hin
      rw [hissued, hnow]
      exact h.order.issue hin hst htold ⟨jS, hjS, hsigned⟩
    refine ⟨hstore ▸ hnew _ (.refl _) h.order, ?_, ?_⟩
    · rw [hissued, hstore]
      intro e he jwt hjwt g hg hs hc
      rcases mem_cons.mp he with rfl | he
      · obtain rfl := some.inj (hjS.symm.trans hjwt)
        obtain ⟨je, hje, rfl⟩ := hs
        obtain rfl := some.inj (hje.symm.trans htold)
        exact hexp hg
      · exact h.due e he jwt hjwt g hg hs hc
    · have hcopies := copies_op h.copies hA h.order (hstore ▸ h.order) hx
      exact hcopies.imp fun st hst hin => hnew st (hstore ▸ hst) hin

/-- The memory of an instance only becomes newer. -/
theorem memory_op (hr : (tokenRules settings).op i j s o b = true)
    (hx : s.exec j.server i o b = some (s', r)) (k : ℕ) :
    (s.instances k).jwtSource.version ≤ (s'.instances k).jwtSource.version := by
  by_cases hk : k = j.server
  · subst hk
    cases o with
    | storeJwt st =>
      obtain ⟨rfl, _⟩ := some_mk_inj hx
      simp only [AccountState.onInstance, update_self]
      exact of_decide_eq_true hr
    | _ =>
      cases b <;> obtain ⟨rfl, _⟩ := some_mk_inj hx <;>
        (try simp only [AccountState.onInstance, update_self]) <;> exact le_rfl
  · rw [exec_instances hk hx]

theorem newest_op (h : TokenInv ext settings s) (hA : Allowed ext j (s.seen i) o)
    (hr : (tokenRules settings).op i j s o b = true)
    (hx : s.exec j.server i o b = some (s', r)) : Newest s' := by
  have hmemory := memory_op hr hx
  refine ⟨fun e he => ?_, fun i' k hk => ?_⟩
  · rcases exec_issued hx with hissued | ⟨t, rfl, hissued⟩
    · rw [hissued] at he
      exact (h.newest.issued e he).trans (hmemory e.server)
    · rw [hissued] at he
      rcases mem_cons.mp he with rfl | he
      · exact ((h.newest.told i j.server hA.1).1).trans (hmemory j.server)
      · exact (h.newest.issued e he).trans (hmemory e.server)
  · have hkeep : (s'.seen i').memory = (s.seen i').memory →
        (s'.seen i').jwtSource = (s.seen i').jwtSource → (s'.seen i').known = (s.seen i').known →
        (s'.seen i').jwtSource.version ≤ (s'.instances k).jwtSource.version ∧
          ∀ e ∈ (s'.seen i').known, e.server = k →
            e.jwtSource.version ≤ (s'.seen i').jwtSource.version := by
      intro hm hsrc hknown
      rw [hm] at hk
      rw [hsrc, hknown]
      obtain ⟨hle, hall⟩ := h.newest.told i' k hk
      exact ⟨hle.trans (hmemory k), hall⟩
    by_cases hi : i' = i
    · subst hi
      cases o with
      | loadJwt =>
        obtain ⟨rfl, _⟩ := some_mk_inj hx
        simp only [AccountState.sees, update_self] at hk ⊢
        obtain rfl := some.inj hk
        exact ⟨le_rfl, fun e he hserver => hserver ▸ h.newest.issued e he⟩
      | getJwt | putJwt =>
        cases b <;> obtain ⟨rfl, _⟩ := some_mk_inj hx
        · exact hkeep rfl rfl rfl
        · simp [AccountState.sees] at hk
      | cacheGet n =>
        obtain ⟨rfl, _⟩ := some_mk_inj hx
        have hhit : ∀ x : Seen, ((s.instances j.server).hit n x).memory = x.memory ∧
            ((s.instances j.server).hit n x).jwtSource = x.jwtSource ∧
            ((s.instances j.server).hit n x).known = x.known := by
          intro x
          unfold Instance.hit
          split <;> exact ⟨rfl, rfl, rfl⟩
        simp only [AccountState.sees, update_self] at hkeep hk ⊢
        exact hkeep (hhit _).1 (hhit _).2.1 (hhit _).2.2
      | _ =>
        cases b <;> obtain ⟨rfl, _⟩ := some_mk_inj hx <;>
          exact hkeep (by simp [AccountState.sees, AccountState.onInstance])
            (by simp [AccountState.sees, AccountState.onInstance])
            (by simp [AccountState.sees, AccountState.onInstance])
    · exact hkeep (by rw [exec_seen hi hx]) (by rw [exec_seen hi hx]) (by rw [exec_seen hi hx])

/-- An operation leaves the settings of the instances. -/
theorem exec_settings {k k' : ℕ} (h : s.exec k i o b = some (s', r)) :
    (s'.instances k').settings = (s.instances k').settings := by
  by_cases hk : k' = k
  · subst hk
    cases o <;> cases b <;> obtain ⟨rfl, _⟩ := some_mk_inj h <;>
      simp [AccountState.onInstance, AccountState.sees]
  · rw [exec_instances hk h]

/-- What a task has read of the settings and the time. -/
theorem terms_seen (h : Terms settings s) (hx : s.exec j.server i o b = some (s', r)) (i' : ℕ) :
    (s'.seen i').settings = settings ∧ 0 ≤ (s'.seen i').clock ∧ (s'.seen i').clock ≤ s'.now := by
  rw [exec_now hx]
  have hold := h.seen i'
  have hclock := h.clock i'
  by_cases hi : i' = i
  · subst hi
    cases o with
    | clock =>
      obtain ⟨rfl, _⟩ := some_mk_inj hx
      simp only [AccountState.sees, update_self]
      exact ⟨hold, hclock.1.trans hclock.2, le_rfl⟩
    | loadSettings =>
      obtain ⟨rfl, _⟩ := some_mk_inj hx
      simp only [AccountState.sees, update_self]
      exact ⟨h.instances _, hclock⟩
    | cacheGet n =>
      obtain ⟨rfl, _⟩ := some_mk_inj hx
      simp only [AccountState.sees, update_self, Instance.hit]
      split <;> exact ⟨hold, hclock⟩
    | _ =>
      cases b <;> obtain ⟨rfl, _⟩ := some_mk_inj hx <;>
        (try simp only [AccountState.sees, update_self]) <;> exact ⟨hold, hclock⟩
  · rw [exec_seen hi hx]
    exact ⟨hold, hclock⟩

theorem terms_op (h : Terms settings s) (hA : Allowed ext j (s.seen i) o)
    (hx : s.exec j.server i o b = some (s', r)) : Terms settings s' := by
  have hseen := terms_seen h hx
  refine ⟨fun k => (exec_settings hx).trans (h.instances k), fun i' => (hseen i').1,
    fun i' => (hseen i').2, fun e he => ?_⟩
  rcases exec_issued hx with hissued | ⟨t, rfl, hissued⟩
  · exact h.term e (hissued ▸ he)
  · rw [hissued] at he
    rcases mem_cons.mp he with rfl | he
    · obtain ⟨_, hiat, hexp⟩ := Issues.term hA.2
      have hclock := (h.clock i).1
      have hsettings := h.seen i
      simp only [hiat, hexp, hsettings]
      omega
    · exact h.term e he

/-- A token is issued with secrets that are stored. -/
theorem current_op (h : TokenInv ext settings s) (hA : Allowed ext j (s.seen i) o)
    (hr : (tokenRules settings).op i j s o b = true)
    (hx : s.exec j.server i o b = some (s', r)) : ∀ e ∈ s'.issued, e.Current := by
  intro e he
  rcases exec_issued hx with hissued | ⟨t, rfl, hissued⟩
  · exact h.current e (hissued ▸ he)
  · rw [hissued] at he
    rcases mem_cons.mp he with rfl | he
    · have htold := h.copies.told i
      obtain ⟨⟨user, huser, hsub⟩, _⟩ := Issues.term hA.2
      have hname : (s.seen i).userName = t.sub := by
        rw [hsub]
        exact ((s.seen i).userSource.users.keyed _ user (htold.user.find.trans huser)).symm
      refine ⟨?_, ?_⟩
      · obtain ⟨jS, hjS, hsigned, _⟩ := issue_order h hr
        obtain ⟨jS', hS⟩ := h.order
        obtain rfl := some.inj (hjS.symm.trans hS.stored)
        obtain ⟨je, hje⟩ := htold.jwt.origin.holds
        obtain rfl := some.inj (htold.jwt.jwt.symm.trans hje.stored)
        obtain ⟨rest, hrest, _⟩ := hje.history
        have hlater := htold.jwt.origin.later.signing
        have hle := hlater.count
        by_contra hne
        have hrev : (s.seen i).jwt.current ∈ s.store.signing.revoked :=
          hlater.revoked (by simp only at hne; omega) (hrest ▸ mem_cons_self)
        exact hS.valid _ (hsigned.imp Eq.symm id) hrev
      · have hcurrent := (Bool.and_eq_true_iff.mp hr).1
        show ((s.seen i).userSource.users.find t.sub).map _ = (s.store.users.find t.sub).map _
        rw [← hname, htold.user.find]
        exact of_decide_eq_true hcurrent
    · exact h.current e he

/-- A token that is due is accepted. -/
theorem due_accepted {t : Token} {a : Bool} {e : Issue} (h : TokenInv ext settings s)
    (hA : Allowed ext j (s.seen i) (.decide t a))
    (hr : (tokenRules settings).op i j s (.decide t a) b = true)
    (he : e ∈ s.issued) (ht : e.token = t) (hexp : s.now < e.token.exp)
    (hcount : e.store.signing.count = s.store.signing.count)
    (hsame : e.store.secrets t.sub = s.store.secrets t.sub)
    (hreached : e.store.version ≤ (s.seen i).jwtSource.version ∨
      e.server = j.server ∧ e ∈ (s.seen i).known) : a = true := by
  subst ht
  have htold := h.copies.told i
  have hsigned := h.copies.signed e he
  obtain ⟨signer, jwt, hsigner, hjwt, hlen, hkey⟩ := hsigned.key
  have hstored := hsigned.later.users e.token.sub hsame
  have hrule : (s.seen i).answered = true ∧ userIsCurrent s.store (s.seen i) = true := by
    have hall := all_eq_true.mp hr e he
    simpa [hsame] using hall
  rw [Allowed, if_pos hrule.1] at hA
  obtain ⟨hname, hmemory, rfl⟩ := hA
  have huser : (s.seen i).user.map UserRecord.tokenSecret = some signer.tokenSecret := by
    rw [of_decide_eq_true hrule.2, ← hname, hstored, ← (h.current e he).user, hsigner]
    rfl
  obtain ⟨user, hx, hsecret⟩ := Option.map_eq_some_iff.mp huser
  obtain ⟨hle, hknown⟩ := h.newest.told i j.server (hmemory (by rw [hx]; rfl))
  have hversion : e.jwtSource.version ≤ (s.seen i).jwtSource.version := by
    rcases hreached with hreached | ⟨hserver, hmem⟩
    · exact hsigned.jwt.later.signing.values.length_le.trans hreached
    · exact hknown e hmem hserver
  obtain ⟨jx, hjx⟩ := htold.jwt.origin.holds
  obtain rfl := some.inj (htold.jwt.jwt.symm.trans hjx.stored)
  have hsecrets := hjx.signed htold.jwt.origin.later he hsigned.jwt.holds
    (hsigned.jwt.later.trans hsigned.later) ((h.current e he).signing.trans hcount) hversion hexp
    ⟨jwt, hjwt, rfl⟩
  have hone : tryValidateToken ext e.token jwt.current user.tokenSecret (s.seen i).clock =
      true := by
    have hclock := (h.terms.clock i).2
    unfold tryValidateToken leeway
    simp only [hlen, hkey, hsecret, decide_true, Bool.true_and, decide_eq_true_eq]
    omega
  rw [hx, Option.any_some, validToken]
  rcases hsecrets with hcur | hprev
  · rw [← hcur, hone, Bool.true_or]
  · rw [hprev, Option.any_some, hone, Bool.or_true]

theorem token_preserved (hvalid : settings.jwtExpirySecs.toNat ≤ rotationInterval settings) :
    Preserved ext (tokenRules settings) (TokenInv ext settings) where
  op i j o b s s' r h hA hr hx := by
    obtain ⟨horder, hdue, hcopies⟩ := order_op hvalid h hA hr hx
    refine ⟨horder, hdue, hcopies, newest_op h hA hr hx, current_op h hA hr hx,
      terms_op h.terms hA hx, fun d hd => ?_⟩
    rcases exec_decided hx with heq | ⟨t, a, ho, heq⟩
    · exact h.accepts d (heq ▸ hd)
    · rw [heq] at hd
      rcases mem_cons.mp hd with rfl | hd
      · subst ho
        intro e hd
        exact due_accepted h hA hr hd.issued hd.token hd.unexpired hd.unrevoked hd.unchanged
          hd.reached
      · exact h.accepts d hd
  env e s s' h hx := by
    have hcopies := copies_env h.copies hx
    cases e with
    | tick secs =>
      obtain rfl := some.inj hx
      have hnow : s.now ≤ s.now + secs := by omega
      refine ⟨h.order.mono hnow, h.due, hcopies.imp fun st _ hst => hst.mono hnow,
        ⟨h.newest.issued, h.newest.told⟩, h.current,
        ⟨h.terms.instances, h.terms.seen, fun i => ?_, h.terms.term⟩, h.accepts⟩
      have hclock := h.terms.clock i
      exact ⟨hclock.1, hclock.2.trans hnow⟩
    | evict k n =>
      obtain rfl := some.inj hx
      have hsource : ∀ k', (update s.instances k { s.instances k with
          cache := update (s.instances k).cache n none } k').jwtSource =
            (s.instances k').jwtSource ∧ (update s.instances k { s.instances k with
          cache := update (s.instances k).cache n none } k').settings =
            (s.instances k').settings := by
        intro k'
        by_cases hk : k' = k
        · subst hk
          simp
        · simp [Function.update_of_ne hk]
      refine ⟨h.order, h.due, hcopies, ⟨fun e he => ?_, fun i k' hk => ?_⟩, h.current,
        ⟨fun k' => ?_, h.terms.seen, h.terms.clock, h.terms.term⟩, h.accepts⟩
      · exact (h.newest.issued e he).trans_eq (congrArg _ (hsource e.server).1.symm)
      · obtain ⟨hle, hall⟩ := h.newest.told i k' hk
        exact ⟨hle.trans_eq (congrArg _ (hsource k').1.symm), hall⟩
      · exact (hsource k').2.trans (h.terms.instances k')

theorem token_start {users : UserTable} (hjwt : jwt.previous ≠ some jwt.current) :
    TokenInv ext settings (.start users jwt settings) := by
  have horder : InOrder [] 0 (.start users jwt) := by
    refine ⟨jwt, rfl, ⟨jwt.previous.toList, rfl, fun g hg => ?_⟩, ?_, fun g _ => ?_, ?_⟩
    · rw [Option.mem_def.mp hg]
      rfl
    · show (jwt.current :: jwt.previous.toList).Nodup
      cases hprev : jwt.previous with
      | none => simp
      | some g =>
        have hne : g ≠ jwt.current := fun hg => hjwt (hg ▸ hprev)
        simpa using hne.symm
    · exact not_mem_nil
    · intro e he
      cases he
  refine ⟨horder, ?_, copies_start horder, ⟨?_, ?_⟩, ?_, ⟨fun _ => rfl, fun _ => rfl,
    fun _ => ⟨le_rfl, le_rfl⟩, ?_⟩, ?_⟩
  · intro e he
    cases he
  · intro e he
    cases he
  · intro i k hk
    cases hk
  · intro e he
    cases he
  · intro e he
    cases he
  · intro d hd
    cases hd

/-! ## Runs -/

/-- **Main theorem.** With settings that are accepted, under the condition, every token that is due
    is accepted. -/
theorem tokens_live {x : SettingsExt} (hvalid : settings.validate x = .ok ())
    (hsigned : settings.jwtRotationIntervalSecs.toNat < 2 ^ 63)
    (hjwt : jwt.previous ≠ some jwt.current) {users : UserTable}
    {es : List (Event AccountJob AccountEnv)}
    {p : Pool AccountOp AccountOp.Reply AccountState AccountJob}
    (h : (Pool.init (.start users jwt settings)).run (accountSystem ext) (tokenRules settings) es =
      some p) : ∀ d ∈ p.shared.decided, ∀ e, d.Due e → d.accepted = true := by
  have hle : (settings.jwtExpirySecs.toNat : ℤ) ≤ rotationInterval settings := by
    rw [rotationInterval_eq hsigned]
    exact_mod_cast expiry_le_interval hvalid
  exact (preserved_run (token_preserved hle) (token_start hjwt) h).accepts

/-! ## Samples -/

/-- A verdict about a token that is due, by an instance that has read the signing secret since. -/
def DueVerdict (s : AccountState) (accepted : Bool) : Prop :=
  ∃ d ∈ s.decided, d.accepted = accepted ∧ ∃ e ∈ d.issued, e.token = d.token ∧
    d.time < e.token.exp ∧ e.store.signing.count = d.store.signing.count ∧
    e.store.secrets d.token.sub = d.store.secrets d.token.sub ∧
    e.store.version ≤ d.jwtSource.version

instance (s : AccountState) (accepted : Bool) : Decidable (DueVerdict s accepted) :=
  inferInstanceAs (Decidable (∃ d ∈ s.decided, d.accepted = accepted ∧
    ∃ e ∈ d.issued, e.token = d.token ∧ d.time < e.token.exp ∧
      e.store.signing.count = d.store.signing.count ∧
      e.store.secrets d.token.sub = d.store.secrets d.token.sub ∧
      e.store.version ≤ d.jwtSource.version))

theorem DueVerdict.due {accepted : Bool} (h : DueVerdict s accepted) :
    ∃ d ∈ s.decided, d.accepted = accepted ∧ ∃ e, d.Due e := by
  obtain ⟨d, hd, ha, e, he, ht, hexp, hcount, hsame, hversion⟩ := h
  exact ⟨d, hd, ha, e, he, ht, hexp, hcount, hsame, .inl hversion⟩

/-- The token that bob gets after a week. -/
def weeksToken : Token :=
  { sub := "bob", exp := 691200, iat := 604800, key := replicate 32 1 }

/-- A week after the start, one instance rotates the secret, and bob logs in. -/
def weekLater : List (Event AccountJob AccountEnv) :=
  .env (.tick 604800) :: .spawn ⟨0, .rotateJwt (replicate 32 1)⟩ ::
    replicate 5 (.step 0 true) ++
  .spawn ⟨0, .login "bob" "pw"⟩ :: replicate 8 (.step 1 true)

/-- **Counterexample.** The other instance rotates the secret as well, before it reads the new one:
    the secret that bob's token was signed with is neither stored nor the previous one, and the
    first instance rejects the token after its next refresh. -/
theorem rotation_lost : (∀ x, ({} : Settings).validate x = .ok ()) ∧
    ∃ es p, (Pool.init (.start twoUsers firstSecret {})).run (accountSystem .sample) .free es =
        some p ∧ ∃ d ∈ p.shared.decided, d.accepted = false ∧ ∃ e, d.Due e := by
  refine ⟨Settings.default_validate, weekLater ++ .spawn ⟨1, .rotateJwt (replicate 32 2)⟩ ::
      replicate 5 (.step 2 true) ++
    .spawn ⟨0, .refreshJwt⟩ :: replicate 2 (.step 3 true) ++
    .spawn ⟨0, .resolveBearer weeksToken⟩ :: replicate 4 (.step 4 true), ?_⟩
  exact ends_in (fun p => DueVerdict p.shared false) (by decide +kernel) fun _ _ hdue => hdue.due

/-- The same without the other instance. -/
theorem tokens_live_bob : ∃ es p, (Pool.init (.start twoUsers firstSecret {})).run
    (accountSystem .sample) (tokenRules {}) es = some p ∧
      ∃ d ∈ p.shared.decided, d.accepted = true ∧ ∃ e, d.Due e := by
  refine ⟨weekLater ++ .spawn ⟨0, .refreshJwt⟩ :: replicate 2 (.step 2 true) ++
    .spawn ⟨0, .resolveBearer weeksToken⟩ :: replicate 4 (.step 3 true), ?_⟩
  refine ends_in (fun p => DueVerdict p.shared true) (by decide +kernel) fun p hp hdue => ?_
  obtain ⟨d, hd, _, e, he⟩ := hdue.due
  exact ⟨d, hd, tokens_live (x := ⟨fun _ => true, fun _ => none, id⟩)
    (Settings.default_validate _) (by decide) (by decide) hp d hd e he, e, he⟩

end Depot.Accounts
