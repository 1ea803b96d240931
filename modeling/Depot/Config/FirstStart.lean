import Depot.Config.Start

/-!
# Starts that fail

A start fails at some operation or check, or the process dies between two operations. Whether the
next start applies the section again depends on whether there is a user by then.

Results:
* `initialization_retried`: a start is repeated in full or has applied everything, and leaves no
  store without an admin, exactly if it ends before the user `anonymous` is stored, or not before
  everything is stored.
* `initialization_lost`: a start that fails later.
-/

namespace Depot.Config

open Lib Accounts List
open Fallible (Uses uses_pure uses_throw)

/-! ## Runs -/

/-- A start: the store at its end, and how it has ended. -/
def runStart (ext : StartExt) (x : SettingsExt) (cfg : StartConfig) (bs : List Bool)
    (s : StartState) : StartState × Option (Except StartError Unit × List Bool) :=
  (start ext x cfg).run.trial StartOp.exec bs s

/-- The start came to its end without an error. -/
def Completes (out : StartState × Option (Except StartError Unit × List Bool)) : Prop :=
  ∃ bs', out.2 = some (.ok (), bs')

section

variable {α β : Type} {bs : List Bool} {s : StartState}

theorem run_then (p : Start α) (f : α → Start β) (bs : List Bool) (s : StartState) :
    (p >>= f).run.trial StartOp.exec bs s =
      match p.run.trial StartOp.exec bs s with
      | (s', none) => (s', none)
      | (s', some (.ok a, bs')) => (f a).run.trial StartOp.exec bs' s'
      | (s', some (.error e, bs')) => (s', some (.error e, bs')) := by
  rw [run_bind, Task.trial_bind]
  rcases p.run.trial StartOp.exec bs s with ⟨s', _ | ⟨_ | a, bs'⟩⟩
  · rfl
  · simp
  · rfl

theorem run_step_nil (o : StartOp) (g : o.Reply → Start α) (s : StartState) :
    (step o >>= g).run.trial StartOp.exec [] s = (s, none) := by
  rw [run_then]
  simp [step, run_issue, Task.trial]

theorem run_step_true (o : StartOp) (g : o.Reply → Start α) (bs : List Bool) (s : StartState) :
    (step o >>= g).run.trial StartOp.exec (true :: bs) s =
      (g (o.reply s)).run.trial StartOp.exec bs (o.write s) := by
  rw [run_then]
  simp [step, run_issue, Task.trial, StartOp.exec]

theorem run_step_false (o : StartOp) (ho : o.inMemory = false) (g : o.Reply → Start α)
    (bs : List Bool) (s : StartState) : (step o >>= g).run.trial StartOp.exec (false :: bs) s =
      (g (o.failure s)).run.trial StartOp.exec bs s := by
  rw [run_then]
  simp [step, run_issue, Task.trial, StartOp.exec, ho]

theorem run_throw (e : StartError) (bs : List Bool) (s : StartState) :
    (throw e : Start α).run.trial StartOp.exec bs s = (s, some (.error e, bs)) :=
  Task.trial_pure _ _ _

theorem run_pure (a : α) (bs : List Bool) (s : StartState) :
    (pure a : Start α).run.trial StartOp.exec bs s = (s, some (.ok a, bs)) :=
  Task.trial_pure _ _ _

theorem put_ne_nil (t : UserTable) (r : UserRecord) : (t.put r).list ≠ [] := by
  intro h
  have hmem := SortedMap.mem_entries_iff.mpr (SortedMap.get_insert_self t.map r.username r)
  have hnil : (t.put r).map.entries.map Prod.snd = [] := by
    unfold UserTable.list UserTable.adminEntityCap at h
    simpa using h
  simp only [UserTable.put, map_eq_nil_iff] at hnil
  rw [hnil] at hmem
  cases hmem

/-- No operation deletes a user. -/
theorem users_kept (p : Start α) (bs : List Bool) {s : StartState} (hs : s.users.list ≠ []) :
    (p.run.trial StartOp.exec bs s).1.users.list ≠ [] := by
  refine Task.trial_invariant (P := fun _ => True) (I := fun s : StartState => s.users.list ≠ [])
    (fun o b s s' r _ hs hx => ?_) (Task.uses_of_forall (fun _ => trivial) _) bs hs
  unfold StartOp.exec at hx
  split_ifs at hx <;> obtain ⟨rfl, _⟩ := some_mk_inj hx
  · cases o with
    | putUser record => exact put_ne_nil _ record
    | _ => exact hs
  · exact hs

end

/-! ## The condition -/

/-- The number of operations up to the one that stores `anonymous`: one for whether the store is
    fresh, one or three for the roles, and two. -/
def bootSteps (s : StartState) : ℕ := if s.roles.entries.isEmpty then 6 else 4

/-- The first operation that fails, or before which the process dies, is one of those. -/
def EndsEarly (n : ℕ) (bs : List Bool) : Prop := (bs.takeWhile id).length < n

theorem endsEarly_nil (n : ℕ) : EndsEarly (n + 1) [] := by
  simp [EndsEarly]

theorem endsEarly_false (n : ℕ) (bs : List Bool) : EndsEarly (n + 1) (false :: bs) := by
  simp [EndsEarly]

theorem endsEarly_true {n : ℕ} {bs : List Bool} :
    EndsEarly (n + 1) (true :: bs) ↔ EndsEarly n bs := by
  simp [EndsEarly]

theorem endsEarly_drop {n m : ℕ} {bs : List Bool} (h : ¬EndsEarly n bs) :
    EndsEarly m (bs.drop n) ↔ EndsEarly (n + m) bs := by
  induction n generalizing bs with
  | zero => rw [drop_zero, Nat.zero_add]
  | succ n ih =>
    rcases bs with _ | ⟨_ | _, bs⟩
    · exact absurd (endsEarly_nil n) h
    · exact absurd (endsEarly_false n bs) h
    · rw [drop_succ_cons, ih (mt endsEarly_true.mpr h), Nat.add_right_comm, endsEarly_true]

/-! ## Beginnings -/

/-- The users at the end are those at the start, and there was an error or a crash. -/
structure Undone {α : Type} (s : StartState)
    (out : StartState × Option (Except StartError α × List Bool)) : Prop where
  users : out.1.users = s.users
  failed : ∀ a bs, out.2 ≠ some (.ok a, bs)

/-- `p` has `n` operations that change no users and must succeed, and returns `a`. -/
structure Leads {α : Type} (p : Start α) (n : ℕ) (s s' : StartState) (a : α) : Prop where
  early : ∀ bs, EndsEarly n bs → Undone s (p.run.trial StartOp.exec bs s)
  late : ∀ bs, ¬EndsEarly n bs → p.run.trial StartOp.exec bs s = (s', some (.ok a, bs.drop n))
  users : s'.users = s.users

/-- `p` begins with `n` operations that must succeed, of which the last one stores a user. -/
structure Guards {α : Type} (p : Start α) (n : ℕ) (s : StartState) : Prop where
  early : ∀ bs, EndsEarly n bs → Undone s (p.run.trial StartOp.exec bs s)
  late : ∀ bs, ¬EndsEarly n bs → (p.run.trial StartOp.exec bs s).1.users.list ≠ []

section

variable {α β : Type} {s s' : StartState} {a : α} {n m : ℕ} {o : StartOp} {g : o.Reply → Start α}

theorem leads_pure (a : α) (s : StartState) : Leads (pure a) 0 s s a where
  early _ h := absurd h (Nat.not_lt_zero _)
  late bs _ := run_pure a bs s
  users := rfl

/-- An operation that must succeed. -/
theorem step_early {bs : List Bool} {e : StartError} (ho : o.inMemory = false)
    (hfail : g (o.failure s) = throw e) (hu : ¬EndsEarly 1 bs → EndsEarly n bs.tail →
      Undone s ((g (o.reply s)).run.trial StartOp.exec bs.tail (o.write s)))
    (h : EndsEarly (n + 1) bs) : Undone s ((step o >>= g).run.trial StartOp.exec bs s) := by
  rcases bs with _ | ⟨_ | _, bs⟩
  · rw [run_step_nil]
    exact ⟨rfl, nofun⟩
  · rw [run_step_false o ho, hfail, run_throw]
    exact ⟨rfl, nofun⟩
  · rw [run_step_true]
    exact hu (by simp [EndsEarly]) (endsEarly_true.mp h)

section

variable (ho : o.inMemory = false) (hfail : g (o.failure s) = throw e)

include ho hfail

theorem Leads.op (hu : (o.write s).users = s.users) (h : Leads (g (o.reply s)) n (o.write s) s' a) :
    Leads (step o >>= g) (n + 1) s s' a where
  early bs hbs := by
    refine step_early ho hfail (fun _ htail => ?_) hbs
    have hundone := h.early _ htail
    exact ⟨hundone.users.trans hu, hundone.failed⟩
  late bs hbs := by
    rcases bs with _ | ⟨_ | _, bs⟩
    · exact absurd (endsEarly_nil n) hbs
    · exact absurd (endsEarly_false n bs) hbs
    · rw [run_step_true, h.late bs (mt endsEarly_true.mpr hbs)]
      rfl
  users := h.users.trans hu

theorem Guards.op (hu : (o.write s).users = s.users) (h : Guards (g (o.reply s)) n (o.write s)) :
    Guards (step o >>= g) (n + 1) s where
  early bs hbs := by
    refine step_early ho hfail (fun _ htail => ?_) hbs
    have hundone := h.early _ htail
    exact ⟨hundone.users.trans hu, hundone.failed⟩
  late bs hbs := by
    rcases bs with _ | ⟨_ | _, bs⟩
    · exact absurd (endsEarly_nil n) hbs
    · exact absurd (endsEarly_false n bs) hbs
    · rw [run_step_true]
      exact h.late bs (mt endsEarly_true.mpr hbs)

/-- The operation that stores the user. -/
theorem Guards.put (hne : (o.write s).users.list ≠ []) : Guards (step o >>= g) 1 s where
  early bs hbs := step_early ho hfail (fun hbs' _ => absurd hbs hbs') hbs
  late bs hbs := by
    rcases bs with _ | ⟨_ | _, bs⟩
    · exact absurd (endsEarly_nil 0) hbs
    · exact absurd (endsEarly_false 0 bs) hbs
    · rw [run_step_true]
      exact users_kept _ bs hne

end

theorem Undone.bind {p : Start α} {f : α → Start β} {bs : List Bool}
    (h : Undone s (p.run.trial StartOp.exec bs s)) :
    Undone s ((p >>= f).run.trial StartOp.exec bs s) := by
  rw [run_then]
  obtain ⟨hu, hf⟩ := h
  revert hu hf
  rcases p.run.trial StartOp.exec bs s with ⟨s', _ | ⟨e | a, bs'⟩⟩
  · exact fun hu _ => ⟨hu, nofun⟩
  · exact fun hu _ => ⟨hu, nofun⟩
  · exact fun _ hf => absurd rfl (hf a bs')

theorem Leads.bind {p : Start α} {f : α → Start β} (h : Leads p n s s' a)
    (h' : Guards (f a) m s') : Guards (p >>= f) (n + m) s where
  early bs hbs := by
    by_cases hn : EndsEarly n bs
    · exact (h.early bs hn).bind
    · rw [run_then, h.late bs hn]
      have hundone := h'.early (bs.drop n) ((endsEarly_drop hn).mpr hbs)
      exact ⟨hundone.users.trans h.users, hundone.failed⟩
  late bs hbs := by
    have hn : ¬EndsEarly n bs := fun hn => hbs (hn.trans_le (Nat.le_add_right n m))
    rw [run_then, h.late bs hn]
    exact h'.late _ (mt (endsEarly_drop hn).mp hbs)

theorem Guards.bind {p : Start α} {f : α → Start β} (h : Guards p n s) : Guards (p >>= f) n s where
  early bs hbs := (h.early bs hbs).bind
  late bs hbs := by
    have hlate := h.late bs hbs
    revert hlate
    rw [run_then]
    rcases p.run.trial StartOp.exec bs s with ⟨s', _ | ⟨e | a, bs'⟩⟩
    · exact id
    · exact id
    · exact fun hne => users_kept _ bs' hne

/-! ## The bootstrap -/

theorem kvIsFresh_leads (h : s.users.list = []) : Leads kvIsFresh 1 s s true := by
  refine .op (e := .failed "") rfl rfl rfl ?_
  show Leads (pure s.users.list.isEmpty) 0 s s true
  rw [h]
  exact leads_pure true s

theorem list_isEmpty (s : StartState) :
    ((s.roles.entries.map Prod.snd).take UserTable.adminEntityCap).isEmpty =
      s.roles.entries.isEmpty := by
  cases s.roles.entries <;> simp [UserTable.adminEntityCap]

theorem bootstrapRoles_leads (s : StartState) :
    ∃ n s' created, n + 3 = bootSteps s ∧ Leads bootstrapRoles n s s' created := by
  unfold bootSteps
  split_ifs with hempty
  · refine ⟨3, (StartOp.putRole readOnlyRole).write ((StartOp.putRole adminRole).write s), true,
      rfl, .op (e := .failed "") rfl rfl rfl ?_⟩
    show Leads (if (!((s.roles.entries.map Prod.snd).take UserTable.adminEntityCap).isEmpty) = true
      then _ else _) 2 s _ true
    rw [list_isEmpty, hempty, if_neg (by decide)]
    exact .op (e := .failed "") rfl rfl rfl (.op (e := .failed "") rfl rfl rfl (leads_pure true _))
  · refine ⟨1, s, false, rfl, .op (e := .failed "") rfl rfl rfl ?_⟩
    show Leads (if (!((s.roles.entries.map Prod.snd).take UserTable.adminEntityCap).isEmpty) = true
      then _ else _) 0 s s false
    rw [list_isEmpty, if_pos (by simpa using hempty)]
    exact leads_pure false s

theorem bootstrapUsers_guards (ext : StartExt) (password : Option String) (skip : Bool)
    (h : s.users.list = []) : Guards (bootstrapUsers ext password skip) 2 s := by
  refine .op (e := .failed "") rfl rfl rfl ?_
  show Guards (if (!s.users.list.isEmpty) = true then _ else _) 1 s
  rw [h, if_neg (by decide)]
  exact .put (e := .failed "") rfl rfl (put_ne_nil _ _)

/-- The start begins with those operations. -/
theorem start_guards (ext : StartExt) (x : SettingsExt) (cfg : StartConfig)
    (h : s.users.list = []) : Guards (start ext x cfg) (bootSteps s) s := by
  obtain ⟨n, s', created, hn, hroles⟩ := bootstrapRoles_leads s
  have husers := bootstrapUsers_guards ext cfg.defaultAdminPassword cfg.skipDefaultAdmin
    (hroles.users ▸ h)
  have hsteps : bootSteps s = 1 + (n + 2) := by omega
  rw [hsteps]
  exact (kvIsFresh_leads h).bind (hroles.bind husers.bind)

end

/-! ## Admins -/

/-- A user has the admin role. -/
def HasAdmin (t : UserTable) : Prop := ∃ n r, t.find n = some r ∧ isAdmin r = true

/-- An admin is declared, or the default one is created. -/
def AdminDue (cfg : StartConfig) : Prop :=
  cfg.skipDefaultAdmin = false ∨
    ∃ init ∈ cfg.initialization, ∃ u ∈ init.users, u.roles.contains "admin" = true

/-- Everything but storing a user. -/
def StartOp.LeavesUsers : StartOp → Prop
  | .putUser _ => False
  | _ => True

section

variable {α β : Type} {x : SettingsExt} {ext : StartExt}

variable {P : StartOp → Prop}

theorem uses_ok (context : String) (r : Option α) : Uses P (ok context r) := by
  cases r with
  | none => exact uses_throw _
  | some a => exact uses_pure a

theorem uses_checked (context : String) (r : Except String α) : Uses P (checked context r) := by
  cases r with
  | error message => exact uses_throw _
  | ok a => exact uses_pure a

theorem uses_step {o : StartOp} (h : P o) : Uses P (step o) :=
  Fallible.uses_issue h

theorem bootstrapRoles_uses : Uses StartOp.LeavesUsers bootstrapRoles := by
  unfold bootstrapRoles
  refine (uses_step trivial).bind fun _ => (uses_ok _ _).bind fun _ => ?_
  split
  · exact uses_pure _
  · exact (uses_step trivial).bind fun _ => (uses_ok _ _).bind fun _ =>
      (uses_step trivial).bind fun _ => (uses_ok _ _).bind fun _ => uses_pure _

theorem initRole_uses (req : CreateRoleRequest) : Uses StartOp.LeavesUsers (initRole req) :=
  (uses_step trivial).bind fun _ => uses_ok _ _

theorem initStore_uses (req : CreateStoreRequest) :
    Uses StartOp.LeavesUsers (initStore ext x req) := by
  refine (uses_checked _ _).bind fun kind => ?_
  refine (uses_step trivial).bind fun _ => (uses_ok _ _).bind fun _ => ?_
  refine (uses_step trivial).bind fun _ => (uses_ok _ _).bind fun _ => ?_
  refine (uses_step trivial).bind fun _ => (uses_ok _ _).bind fun _ => ?_
  exact (uses_step trivial).bind fun _ => (uses_ok _ _).bind fun _ => uses_step trivial

theorem validateDepth_uses (place : String) (members : List String) :
    Uses StartOp.LeavesUsers (validateYumProxyMemberDepth place members) := by
  unfold validateYumProxyMemberDepth
  refine (Uses.fold fun depths name _ => ?_).bind fun depths => ?_
  · exact (uses_step trivial).bind fun _ => (uses_ok _ _).bind fun _ => uses_pure _
  · split
    · exact uses_throw _
    · exact uses_pure _

theorem blobStore_uses (place store : String) :
    Uses StartOp.LeavesUsers (blobStore place store) := by
  refine (uses_step trivial).bind fun found => ?_
  split
  · exact uses_pure _
  · exact uses_throw _

theorem storeSigningKey_uses (place repo : String) (keys : String × String) :
    Uses StartOp.LeavesUsers (storeSigningKey place repo keys) :=
  (uses_step trivial).bind fun _ => (uses_ok _ _).bind fun _ =>
    (uses_step trivial).bind fun _ => uses_ok _ _

theorem initSigningKey_uses (config : RepoConfig) (key : Option String) :
    Uses StartOp.LeavesUsers (initSigningKey ext config key) := by
  unfold initSigningKey
  split_ifs
  · cases key with
    | some key =>
      refine (blobStore_uses _ _).bind fun _ => (uses_checked _ _).bind fun _ => ?_
      refine (storeSigningKey_uses _ _ _).bind fun _ => ?_
      refine (uses_step trivial).bind fun _ => (uses_ok _ _).bind fun _ => ?_
      exact Uses.each fun dist _ => (uses_step trivial).bind fun _ => uses_ok _ _
    | none =>
      unfold ensureRepoSigningKey
      split_ifs
      · refine (blobStore_uses _ _).bind fun _ => ?_
        refine (uses_step trivial).bind fun _ => (uses_ok _ _).bind fun found => ?_
        split
        · exact uses_pure _
        · exact (uses_checked _ _).bind fun _ => storeSigningKey_uses _ _ _
      · exact uses_pure _
  · exact uses_pure _

theorem initRepo_uses (req : CreateRepoRequest) : Uses StartOp.LeavesUsers (initRepo ext req) := by
  refine (uses_checked _ _).bind fun kind => ?_
  refine (uses_step trivial).bind fun _ => (uses_ok _ _).bind fun found => ?_
  split
  · exact uses_throw _
  · refine (validateDepth_uses _ _).bind fun _ => ?_
    exact (uses_step trivial).bind fun _ => (uses_ok _ _).bind fun _ => initSigningKey_uses _ _

theorem initSettings_uses (settings : Option Settings) :
    Uses StartOp.LeavesUsers (initSettings x settings) := by
  cases settings with
  | none => exact uses_pure _
  | some settings =>
    rw [initSettings]
    cases settings.validate x with
    | error errors => exact uses_throw _
    | ok u => exact (uses_step trivial).bind fun _ => (uses_ok _ _).bind fun _ => uses_step trivial

/-- What only depends on the users is kept by everything but storing a user. -/
theorem keeps {I : UserTable → Prop} {p : Start α} (h : Uses StartOp.LeavesUsers p) :
    Returns StartOp.exec (fun s => I s.users) p fun _ s => I s.users := by
  refine Returns.keep (P := StartOp.LeavesUsers) (I := fun s : StartState => I s.users)
    (fun o b s s' r ho hs hx => ?_) h
  unfold StartOp.exec at hx
  split_ifs at hx <;> obtain ⟨rfl, _⟩ := some_mk_inj hx
  · cases o with
    | putUser record => exact ho.elim
    | _ => exact hs
  · exact hs

variable {post : β → StartState → Prop} {context : String}

/-- What follows on a reply that must not be empty. -/
theorem ok_returns {pre : StartState → Prop}
    {r : Option α} {f : α → Start β} (h : ∀ a, r = some a → Returns StartOp.exec pre (f a) post) :
    Returns StartOp.exec pre (ok context r >>= f) post := by
  cases r with
  | none => exact Returns.bind (M := fun _ _ => False) Returns.throw fun _ _ _ _ _ _ hs => hs.elim
  | some a => exact h a rfl

/-- A fact about the reply. -/
theorem fact_returns {P : Prop} {pre : StartState → Prop} {post : α → StartState → Prop}
    {p : Start α} (h : P → Returns StartOp.exec pre p post) :
    Returns StartOp.exec (fun s => P ∧ pre s) p post :=
  fun bs s s' a bs' hs hrun => h hs.1 bs s s' a bs' hs.2 hrun

variable {I K : UserTable → Prop}

theorem putUser_reply (r : UserRecord) (h : ∀ t, I t → K (t.put r)) :
    Returns StartOp.exec (fun s => I s.users) (step (.putUser r))
      fun (reply : Option Unit) s => reply = some () → K s.users := by
  refine Returns.issue fun b s s' reply hs hx => ?_
  cases b <;> obtain ⟨rfl, rfl⟩ := some_mk_inj hx
  · exact nofun
  · exact fun _ => h _ hs

/-- Storing a user, and what follows. -/
theorem putUser_returns {f : Unit → Start β} (r : UserRecord) (h : ∀ t, I t → K (t.put r))
    (hf : Returns StartOp.exec (fun s => K s.users) (f ()) post) :
    Returns StartOp.exec (fun s => I s.users)
      (step (.putUser r) >>= fun reply => ok context reply >>= f) post := by
  refine Returns.bind (putUser_reply r h) fun reply => ok_returns fun u hu => ?_
  exact hf.mono (fun s hs => hs hu) fun _ _ hpost => hpost

theorem putUser_stored (r : UserRecord)
    (h : ∀ t, I t → K (t.put r)) : Returns StartOp.exec (fun s => I s.users)
      (step (.putUser r) >>= fun reply => ok context reply) fun _ s => K s.users := by
  refine Returns.bind (putUser_reply r h) fun reply => ?_
  cases reply with
  | none => exact Returns.throw
  | some u => exact Returns.pure fun s hs => hs rfl

/-- Reading the users of a store that has none, and what follows. -/
theorem listUsers_returns {f : List UserRecord → Start β}
    (h : Returns StartOp.exec (fun s => s.users.list = []) (f []) post) :
    Returns StartOp.exec (fun s => s.users.list = [])
      (step .listUsers >>= fun reply => ok context reply >>= f) post := by
  refine Returns.bind (M := fun (reply : Option (List UserRecord)) s =>
    (∀ users, reply = some users → users = []) ∧ s.users.list = [])
    (.issue fun b s s' reply hs hx => ?_) fun reply => fact_returns fun hreply =>
      ok_returns fun users hu => ?_
  · cases b <;> obtain ⟨rfl, rfl⟩ := some_mk_inj hx
    · exact ⟨nofun, hs⟩
    · exact ⟨fun users hu => (Option.some.inj hu).symm.trans hs, hs⟩
  · rw [hreply users hu]
    exact h

/-- The default admin, unless the section declares another one. -/
def Bootstrapped (cfg : StartConfig) (t : UserTable) : Prop :=
  cfg.skipDefaultAdmin = false → ∃ r, t.find "admin" = some r ∧ isAdmin r = true

theorem bootstrapUsers_returns (cfg : StartConfig) (password : Option String) :
    Returns StartOp.exec (fun s => s.users.list = [])
      (bootstrapUsers ext password cfg.skipDefaultAdmin) fun _ s => Bootstrapped cfg s.users := by
  unfold bootstrapUsers
  refine listUsers_returns ?_
  show Returns StartOp.exec _ (if (!([] : List UserRecord).isEmpty) = true then _ else _) _
  rw [if_neg (by decide)]
  refine Returns.mono (A := fun s => True) ?_ (fun _ _ => trivial) fun _ _ h => h
  refine putUser_returns (I := fun _ => True) (K := fun _ => True) _ (fun _ h => h) ?_
  split_ifs with hskip
  · exact Returns.pure fun s _ h => absurd (hskip.symm.trans h) nofun
  · refine Returns.bind (keeps (I := fun _ => True) (uses_step trivial)) fun reply =>
      ok_returns fun _ _ => ?_
    have hadmin : ∀ t : UserTable, Bootstrapped cfg
        (t.put (adminUser ext (password.getD ext.randomPassword))) := by
      intro t _
      refine ⟨adminUser ext (password.getD ext.randomPassword), ?_, rfl⟩
      rw [UserTable.find_put]
      exact if_pos rfl
    exact putUser_returns (I := fun _ => True) _ (fun t _ => hadmin t) (Returns.pure fun s hs => hs)

/-- What is stored of the users that are declared. -/
structure UsersDone (cfg : StartConfig) (done : List CreateUserRequest) (t : UserTable) : Prop where
  bootstrapped : Bootstrapped cfg t
  stored : ∀ u ∈ done, ∃ r, t.find u.username = some r ∧ r.roles = u.roles

variable {cfg : StartConfig}

theorem initUser_returns {done : List CreateUserRequest}
    (u : CreateUserRequest) (hadmin : cfg.skipDefaultAdmin = false → u.username ≠ "admin")
    (hnew : ∀ v ∈ done, v.username ≠ u.username) :
    Returns StartOp.exec (fun s => UsersDone cfg done s.users) (initUser ext u)
      fun _ s => UsersDone cfg (done ++ [u]) s.users := by
  unfold initUser
  split_ifs
  · exact Returns.throw
  · refine Returns.bind (keeps (I := UsersDone cfg done) (uses_step trivial)) fun reply =>
      ok_returns fun _ _ => ?_
    refine putUser_stored _ fun t ht => ⟨fun hskip => ?_, fun v hv => ?_⟩
    · obtain ⟨r, hr, hr'⟩ := ht.bootstrapped hskip
      refine ⟨r, ?_, hr'⟩
      rw [UserTable.find_put, if_neg fun h => hadmin hskip h.symm, hr]
    · rcases mem_append.mp hv with hv | hv
      · obtain ⟨r, hr, hroles⟩ := ht.stored v hv
        have hne : v.username ≠ (initialUser ext u).username := hnew v hv
        refine ⟨r, ?_, hroles⟩
        rw [UserTable.find_put, if_neg hne, hr]
      · obtain rfl := mem_singleton.mp hv
        refine ⟨initialUser ext v, ?_, rfl⟩
        rw [UserTable.find_put]
        exact if_pos rfl

/-- The section, on a fresh store with the default users. -/
theorem applyInitialization_returns {init : InitializationConfig}
    (hinit : cfg.initialization = some init) (hnodup : (init.users.map (·.username)).Nodup) :
    Returns StartOp.exec (fun s => Bootstrapped cfg s.users) (applyInitialization ext x init)
      fun _ s => UsersDone cfg init.users s.users := by
  have hskip : cfg.skipDefaultAdmin = false → ∀ u ∈ init.users, u.username ≠ "admin" := by
    intro h u hu hname
    rw [StartConfig.skipDefaultAdmin, hinit, Option.any_some, any_eq_false] at h
    exact h u hu (decide_eq_true hname)
  unfold applyInitialization
  refine Returns.bind (keeps (Uses.each fun req _ => initRole_uses req)) fun _ => ?_
  refine Returns.bind (keeps (Uses.each fun req _ => initStore_uses req)) fun _ => ?_
  refine Returns.bind (keeps (Uses.each fun req _ => initRepo_uses req)) fun _ => ?_
  refine Returns.bind (M := fun _ s => UsersDone cfg init.users s.users) ?_ fun _ =>
    keeps (initSettings_uses init.settings)
  refine Returns.mono (A := fun s => UsersDone cfg [] s.users) (Returns.each
    (I := fun done (s : StartState) => UsersDone cfg done s.users) fun done u rest hlist => ?_)
    (fun s hs => ⟨hs, nofun⟩) fun _ _ h => h
  have hu : u ∈ init.users := hlist ▸ mem_append_right _ mem_cons_self
  refine initUser_returns u (fun h => hskip h u hu) fun v hv hname => ?_
  rw [hlist, map_append, nodup_append] at hnodup
  exact hnodup.2.2 _ (mem_map_of_mem hv) _ (mem_map_of_mem mem_cons_self) hname

/-- A start that completes on a fresh store leaves an admin, if one is due. -/
theorem start_admin (hvalid : ∀ init ∈ cfg.initialization, validateInitialization x init = []) :
    Returns StartOp.exec (fun s => s.users.list = []) (start ext x cfg)
      fun _ s => AdminDue cfg → HasAdmin s.users := by
  have hfresh : Returns StartOp.exec (fun s => s.users.list = []) kvIsFresh
      fun fresh s => fresh = true ∧ s.users.list = [] :=
    listUsers_returns (Returns.pure fun s hs => ⟨rfl, hs⟩)
  unfold start
  refine hfresh.bind fun fresh => fact_returns fun hfresh => ?_
  subst hfresh
  refine Returns.bind (keeps (I := fun t => t.list = []) bootstrapRoles_uses) fun _ => ?_
  refine (bootstrapUsers_returns cfg _).bind fun _ => ?_
  have hboot : ∀ t : UserTable, Bootstrapped cfg t → cfg.skipDefaultAdmin = false → HasAdmin t := by
    intro t ht hskip
    obtain ⟨r, hr, hadmin⟩ := ht hskip
    exact ⟨_, r, hr, hadmin⟩
  unfold initializeStore
  cases hinit : cfg.initialization with
  | none =>
    refine Returns.pure fun s hs hdue => ?_
    rcases hdue with hskip | ⟨init, hmem, _⟩
    · exact hboot _ hs hskip
    · rw [hinit] at hmem
      cases hmem
  | some init =>
    have hdeclared : ∀ s : StartState, UsersDone cfg init.users s.users → AdminDue cfg →
        HasAdmin s.users := by
      intro s hs hdue
      rcases hdue with hskip | ⟨init', hmem, u, hu, hrole⟩
      · exact hboot _ hs.bootstrapped hskip
      · rw [hinit] at hmem
        obtain rfl := Option.some.inj hmem
        obtain ⟨r, hr, hroles⟩ := hs.stored u hu
        refine ⟨_, r, hr, ?_⟩
        rw [isAdmin, hroles, any_eq_true]
        exact ⟨"admin", contains_iff_mem.mp hrole, by simp⟩
    dsimp only
    split_ifs with hempty
    · refine Returns.mono (applyInitialization_returns hinit (users_nodup (hvalid init hinit)))
        (fun s hs => hs) fun _ s hs => hdeclared s hs
    · refine Returns.pure fun s hs => hdeclared s ⟨hs, fun u hu => ?_⟩
      have hnil : init.users = [] := by
        have hnone : init.isEmpty = true := by simpa using hempty
        simp only [InitializationConfig.isEmpty, Bool.and_eq_true, List.isEmpty_iff] at hnone
        exact hnone.1.2
      rw [hnil] at hu
      cases hu

/-! ## The claim -/

/-- What is in the store, without what the instance keeps in memory. -/
def StartState.stored (s : StartState) : StartState :=
  { s with registry := [], loaded := {}, rateLimit := none }

/-- The initialization has been applied in full: the start came to its end, or the process died
    when nothing was left to be stored, so that the rest of the start only concerned the memory. -/
def Applied (ext : StartExt) (x : SettingsExt) (cfg : StartConfig) (bs : List Bool)
    (s : StartState) : Prop :=
  ∃ rest, Completes (runStart ext x cfg (bs ++ rest) s) ∧
    (runStart ext x cfg (bs ++ rest) s).1.stored = (runStart ext x cfg bs s).1.stored

/-- What the end of a start must be like: the next start applies the section again, unless it has
    been applied in full; and unless the store is still fresh, there is an admin, if one is due. -/
structure AllOrRetried (ext : StartExt) (x : SettingsExt) (cfg : StartConfig) (bs : List Bool)
    (s : StartState) : Prop where
  retried : ¬Applied ext x cfg bs s → (runStart ext x cfg bs s).1.users.list = []
  admin : (runStart ext x cfg bs s).1.users.list ≠ [] → AdminDue cfg →
    HasAdmin (runStart ext x cfg bs s).1.users

/-- **Main theorem.** On a fresh store, a start is all or retried exactly if it ends at the latest
    with the storing of `anonymous`, or not before everything is stored. -/
theorem initialization_retried {cfg : StartConfig} {s : StartState}
    (hvalid : ∀ init ∈ cfg.initialization, validateInitialization x init = [])
    (hfresh : s.users.list = []) (bs : List Bool) :
    AllOrRetried ext x cfg bs s ↔ EndsEarly (bootSteps s) bs ∨ Applied ext x cfg bs s := by
  have hguards := start_guards ext x cfg hfresh
  constructor
  · intro h
    by_contra hnot
    obtain ⟨hlate, hrest⟩ := not_or.mp hnot
    exact hguards.late bs hlate (h.retried hrest)
  · rintro (h | h)
    · have hundone := hguards.early bs h
      have hnil : (runStart ext x cfg bs s).1.users.list = [] :=
        (congrArg UserTable.list hundone.users).trans hfresh
      exact ⟨fun _ => hnil, fun hne => absurd hnil hne⟩
    · refine ⟨fun hnot => absurd h hnot, fun _ => ?_⟩
      obtain ⟨rest, ⟨bs', hres⟩, hstored⟩ := h
      -- the admin of the run that is continued is already there
      have husers : (runStart ext x cfg (bs ++ rest) s).1.users =
          (runStart ext x cfg bs s).1.users :=
        (congrArg StartState.users hstored :)
      rw [← husers]
      exact start_admin hvalid (bs ++ rest) s _ () bs' hfresh (Prod.ext rfl hres)

end

/-! ## Samples -/

/-- Stand-ins for Argon2, OpenPGP and the random generators. -/
def StartExt.sample : StartExt where
  hash password := "salt:" ++ password
  randomPassword := "random"
  tokenSecret _ := []
  generateKeypair repo := .ok ("secret " ++ repo, "public " ++ repo)
  publicKeyOf key := .ok ("public of " ++ key)
  now := 0

/-- Stand-ins for the parsers. -/
def sampleParsers : SettingsExt := ⟨fun _ => true, fun _ => none, id⟩

/-- A section with a shorter expiry. -/
def shortTokens : StartConfig :=
  { initialization := some { settings := some { jwtExpirySecs := 600 } } }

def newStore : StartState := { users := .empty }

theorem shortTokens_valid : ∀ init ∈ shortTokens.initialization,
    validateInitialization sampleParsers init = [] := by
  intro init hinit
  obtain rfl := Option.some.inj hinit
  decide

/-- **Counterexample.** The store fails when the settings are stored: there are users by then, and
    the section is not applied again. The process dies before the default admin is stored: there
    is no admin, and none will be created. -/
theorem initialization_lost :
    (∃ bs, ¬AllOrRetried .sample sampleParsers shortTokens bs newStore) ∧
    ∃ bs, (runStart .sample sampleParsers shortTokens bs newStore).1.users.list ≠ [] ∧
      AdminDue shortTokens ∧
        ¬HasAdmin (runStart .sample sampleParsers shortTokens bs newStore).1.users := by
  refine ⟨⟨replicate 8 true ++ [false], fun h => ?_⟩, ⟨replicate 6 true, ?_, .inl rfl, ?_⟩⟩
  · have hfailed : ∀ rest, (runStart .sample sampleParsers shortTokens
        (replicate 8 true ++ [false] ++ rest) newStore).2 = some (.error (.failed ""), rest) :=
      fun rest => by rfl
    have husers : (runStart .sample sampleParsers shortTokens (replicate 8 true ++ [false])
        newStore).1.users.list ≠ [] := by decide +kernel
    refine husers (h.retried ?_)
    rintro ⟨rest, ⟨bs', hbs⟩, -⟩
    rw [hfailed] at hbs
    simp at hbs
  · decide +kernel
  · rintro ⟨n, r, hr, hadmin⟩
    have hentries : (runStart .sample sampleParsers shortTokens (replicate 6 true)
        newStore).1.users.map.entries = [("anonymous", anonymousUser)] := by decide +kernel
    have hmem := SortedMap.mem_entries_iff.mpr hr
    rw [hentries, mem_singleton] at hmem
    obtain ⟨_, rfl⟩ := Prod.mk.inj hmem
    simp [isAdmin, anonymousUser] at hadmin

/-- The store fails at the roles; or the process dies when the settings have been stored and are
    not yet in use. -/
theorem initialization_retried_ends :
    AllOrRetried .sample sampleParsers shortTokens [true, true, false] newStore ∧
      AllOrRetried .sample sampleParsers shortTokens (replicate 9 true) newStore :=
  ⟨(initialization_retried shortTokens_valid rfl _).mpr (.inl (by unfold EndsEarly; decide)),
    (initialization_retried shortTokens_valid rfl _).mpr
      (.inr ⟨[true], ⟨[], by rfl⟩, by rfl⟩)⟩

end Depot.Config
