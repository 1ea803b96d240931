import Depot.Accounts.Steps

/-!
# There is always an admin

Only `delete_user` looks after the last admin, with a count that it takes before it deletes.

Results:
* `admin_remains`: an admin remains in every run in which roles are not taken from the only
  admin, no record that was read is stored over a later one, and no admin that `delete_user` has
  read loses the role before it deletes.
* `last_admin_demoted`: an update that takes the role from the only admin is accepted.
-/

namespace Depot.Accounts

open Lib List

variable {r : UserRecord}

/-! ## Admins -/

namespace UserTable

/-- The names of the users with the admin role. -/
def adminNames (t : UserTable) : List String :=
  ((t.map.entries.map Prod.snd).filter isAdmin).map UserRecord.username

/-- Some user has the admin role. -/
def HasAdmin (t : UserTable) : Prop := ∃ n r, t.find n = some r ∧ isAdmin r = true

variable {t : UserTable}

theorem mem_entries {e : String × UserRecord} :
    e ∈ t.map.entries ↔ t.find e.1 = some e.2 := SortedMap.mem_entries_iff

theorem mem_adminNames {n : String} :
    n ∈ t.adminNames ↔ ∃ r, t.find n = some r ∧ isAdmin r = true := by
  simp only [adminNames, mem_map, mem_filter]
  constructor
  · rintro ⟨r, ⟨⟨⟨k, r'⟩, he, rfl⟩, hr⟩, rfl⟩
    have hfind := mem_entries.mp he
    have hk : r'.username = k := t.keyed k r' hfind
    exact ⟨r', hk ▸ hfind, hr⟩
  · rintro ⟨r, hfind, hr⟩
    exact ⟨r, ⟨⟨(n, r), mem_entries.mpr hfind, rfl⟩, hr⟩, t.keyed n r hfind⟩

theorem hasAdmin_iff : t.HasAdmin ↔ t.adminNames ≠ [] := by
  constructor
  · rintro ⟨n, h⟩ hnil
    have hmem := mem_adminNames.mpr h
    rw [hnil] at hmem
    cases hmem
  · intro h
    obtain ⟨n, hn⟩ := exists_mem_of_ne_nil _ h
    exact ⟨n, mem_adminNames.mp hn⟩

/-- Users are listed under different names. -/
theorem nodup_listed (t : UserTable) : ((t.list.filter isAdmin).map UserRecord.username).Nodup := by
  have hkeys : (t.map.entries.map Prod.snd).map UserRecord.username =
      t.map.entries.map Prod.fst := by
    rw [map_map]
    exact map_congr_left fun e he => t.keyed _ _ (mem_entries.mp he)
  have hall : ((t.map.entries.map Prod.snd).map UserRecord.username).Nodup := by
    rw [hkeys]
    exact nodup_keys_of_sorted t.map.sorted
  have hsub : (t.list.filter isAdmin).Sublist (t.map.entries.map Prod.snd) :=
    filter_sublist.trans (take_sublist _ _)
  exact hall.sublist (hsub.map _)

/-- If more than one admin is listed, there is one under another name. -/
theorem other_admin (h : 1 < adminCount t.list) (n : String) : ∃ a ∈ t.adminNames, a ≠ n := by
  have hnodup := t.nodup_listed
  have hmem : ∀ a ∈ (t.list.filter isAdmin).map UserRecord.username, a ∈ t.adminNames := by
    have hsub : (t.list.filter isAdmin).Sublist ((t.map.entries.map Prod.snd).filter isAdmin) :=
      (take_sublist _ _).filter _
    exact fun a ha => (hsub.map _).subset ha
  have hlen : 1 < ((t.list.filter isAdmin).map UserRecord.username).length := by
    rwa [length_map]
  generalize (t.list.filter isAdmin).map UserRecord.username = names at hnodup hmem hlen
  match names, hlen with
  | a :: b :: _, _ =>
    by_cases ha : a = n
    · refine ⟨b, hmem b (by simp), fun hb => ?_⟩
      exact (nodup_cons.mp hnodup).1 (by simp [ha, hb])
    · exact ⟨a, hmem a (by simp), ha⟩

/-- Nobody else is an admin. -/
def onlyAdmin (t : UserTable) (n : String) : Bool := t.adminNames.all (· = n)

/-- A record that is stored leaves an admin if it is one, or does not replace the only one. -/
theorem hasAdmin_put
    (hr : isAdmin r = true ∨ t.onlyAdmin r.username = false) : (t.put r).HasAdmin := by
  rcases hr with hr | hr
  · exact ⟨r.username, r, by rw [find_put, if_pos rfl], hr⟩
  · have hother : ∃ a ∈ t.adminNames, a ≠ r.username := by
      simpa [onlyAdmin] using hr
    obtain ⟨a, ha, hne⟩ := hother
    obtain ⟨r', hfind, hr'⟩ := mem_adminNames.mp ha
    exact ⟨a, r', by rw [find_put, if_neg hne, hfind], hr'⟩

/-- So does a record with the roles of the one that it replaces, if any. -/
theorem hasAdmin_put_of_same (h : t.HasAdmin)
    (hr : ∀ old, t.find r.username = some old → old.roles = r.roles) : (t.put r).HasAdmin := by
  obtain ⟨a, old, hfind, hold⟩ := h
  by_cases ha : a = r.username
  · subst ha
    have hadmin : isAdmin r = true := by
      unfold isAdmin at hold ⊢
      rwa [← hr old hfind]
    exact ⟨r.username, r, by rw [find_put, if_pos rfl], hadmin⟩
  · exact ⟨a, old, by rw [find_put, if_neg ha, hfind], hold⟩

theorem hasAdmin_delete {n a : String} (ha : a ∈ t.adminNames) (hne : a ≠ n) :
    (t.delete n).HasAdmin := by
  obtain ⟨r, hfind, hr⟩ := mem_adminNames.mp ha
  exact ⟨a, r, by rw [find_delete, if_neg hne, hfind], hr⟩

end UserTable

/-! ## The condition -/

/-- Whether a request gives a record the roles that it asks for. -/
def AccountRequest.setsRoles : AccountRequest → Bool
  | .updateUser _ _ req _ => req.roles.isSome
  | .provisionUser .. => true
  | .restoreUsers .. => true
  | _ => false

/-- Whether a request stores a new record. -/
def AccountRequest.creates : AccountRequest → Bool
  | .createUser .. => true
  | _ => false

/-- Backups that are restored contain an admin. -/
def adminBackups : Rules AccountOp AccountState AccountJob AccountEnv where
  op _ _ _ _ _ := true
  spawn _ _ j :=
    match j.request with
    | .restoreUsers _ users => users.any isAdmin
    | _ => true
  env _ _ _ := true

/-- The condition on a run. A record with new roles is an admin, or does not replace the only
    one; a new record does not replace one; any other record replaces the one that was read; and
    the admins that `delete_user` has read, without failing, are admins when it deletes. -/
def adminRules : Rules AccountOp AccountState AccountJob AccountEnv where
  op i j s o b :=
    match o with
    | .putUser _ r =>
        !b ||
          if j.request.setsRoles then isAdmin r || !s.store.users.onlyAdmin r.username
          else if j.request.creates then (s.store.users.find r.username).isNone
          else (s.seen i).store.any fun st =>
            st.users.find r.username = s.store.users.find r.username
    | .deleteUser _ =>
        !b || (s.seen i).store.any fun st =>
          st.users.adminNames.all (· ∈ s.store.users.adminNames)
    | _ => true
  spawn _ _ _ := true
  env _ _ _ := true

/-! ## Every step -/

/-- There is an admin, and there was one in every table that a request has read. -/
structure AdminInv (s : AccountState) : Prop where
  stored : s.store.users.HasAdmin
  seen : ∀ i st, (s.seen i).store = some st → st.users.HasAdmin

variable {ext : AccountExt}

/-- A record that keeps the roles of the one that was read. -/
theorem AccountRequest.Puts.roles {x : Seen} {c : Change} {req : AccountRequest}
    (h : req.Puts ext x c r) (hset : req.setsRoles = false) (hnew : req.creates = false) :
    ∃ st old, x.store = some st ∧ st.users.find r.username = some old ∧ old.roles = r.roles := by
  cases req with
  | createUser caller req draw => cases hnew
  | provisionUser n roles => cases hset
  | restoreUsers caller users => cases hset
  | updateUser caller n req draw =>
    obtain ⟨_, st, old, hst, hold, rfl⟩ := h
    have hroles : req.roles = none := by simpa [setsRoles] using hset
    refine ⟨st, old, hst, ?_, by rw [updated_roles, hroles, Option.getD_none]⟩
    rw [updated_username, st.users.keyed n old hold, hold]
  | changePassword caller req draw =>
    obtain ⟨_, st, old, hst, hold, rfl⟩ := h
    refine ⟨st, old, hst, ?_, rfl⟩
    show st.users.find old.username = some old
    rw [st.users.keyed _ old hold, hold]
  | revokeUserTokens caller n secret =>
    obtain ⟨_, st, old, hst, hold, rfl⟩ := h
    refine ⟨st, old, hst, ?_, rfl⟩
    show st.users.find old.username = some old
    rw [st.users.keyed n old hold, hold]
  | _ => exact h.elim

variable {s s' : AccountState}

variable {i k : ℕ}

/-- A record that is stored keeps an admin. -/
theorem put_keeps {j : AccountJob} {c : Change}
    (h : AdminInv s) (hA : j.request.Puts ext (s.seen i) c r)
    (hr : adminRules.op i j s (.putUser c r) true = true) : (s.store.users.put r).HasAdmin := by
  simp only [adminRules, Bool.not_true, Bool.false_or] at hr
  split_ifs at hr with hset hnew
  · refine UserTable.hasAdmin_put ?_
    simpa using hr
  · refine UserTable.hasAdmin_put_of_same h.stored fun old hold => ?_
    rw [hold] at hr
    cases hr
  · obtain ⟨st, old, hst, hold, hroles⟩ :=
      hA.roles (Bool.eq_false_of_not_eq_true hset) (Bool.eq_false_of_not_eq_true hnew)
    rw [hst, Option.any_some, decide_eq_true_eq] at hr
    refine UserTable.hasAdmin_put_of_same h.stored fun old' hold' => ?_
    rw [← hr, hold] at hold'
    rwa [← Option.some.inj hold']

/-- A user that is deleted leaves an admin. -/
theorem delete_keeps {j : AccountJob} {n : String}
    (h : AdminInv s) (hA : j.request.Deletes (s.seen i) n)
    (hr : adminRules.op i j s (.deleteUser n) true = true) : (s.store.users.delete n).HasAdmin := by
  simp only [adminRules, Bool.not_true, Bool.false_or] at hr
  obtain ⟨st, hst, hall⟩ := (Option.any_eq_true _ _).mp hr
  have hstill : ∀ a ∈ st.users.adminNames, a ∈ s.store.users.adminNames := by
    simpa using hall
  have hother : ∃ a ∈ st.users.adminNames, a ≠ n := by
    cases hreq : j.request with
    | deleteUser caller n' =>
      rw [hreq] at hA
      rcases hA.2 st hst with hplain | hmany
      · obtain ⟨a, r, hfind, hadmin⟩ := h.seen i st hst
        refine ⟨a, UserTable.mem_adminNames.mpr ⟨r, hfind, hadmin⟩, fun hn => ?_⟩
        rw [hplain r (hn ▸ hfind)] at hadmin
        cases hadmin
      · exact UserTable.other_admin hmany n
    | _ =>
      rw [hreq] at hA
      exact hA.elim
  obtain ⟨a, ha, hne⟩ := hother
  exact UserTable.hasAdmin_delete (hstill a ha) hne

/-- What an operation does to the table of users. -/
def AccountOp.onUsers (b : Bool) (t : UserTable) : AccountOp → UserTable
  | .putUser _ r => if b then t.put r else t
  | .deleteUser n => if b then t.delete n else t
  | _ => t

theorem exec_users {o : AccountOp} {b : Bool} {r : o.Reply}
    (h : s.exec k i o b = some (s', r)) : s'.store.users = o.onUsers b s.store.users := by
  cases o <;> cases b <;> obtain ⟨rfl, _⟩ := some_mk_inj h <;>
    simp [AccountOp.onUsers, AccountState.sees, AccountState.onInstance]

/-- A request has read the store as it is, or nothing new. -/
theorem exec_read {o : AccountOp} {b : Bool} {r : o.Reply} (h : s.exec k i o b = some (s', r)) :
    (s'.seen i).store = some s.store ∨ (s'.seen i).store = none ∨
      (s'.seen i).store = (s.seen i).store := by
  cases o <;> cases b <;> obtain ⟨rfl, _⟩ := some_mk_inj h <;>
    simp [AccountState.sees, AccountState.onInstance]

/-- Every step that meets the condition leaves an admin. -/
theorem admin_preserved : Preserved ext adminRules AdminInv where
  op i j o b s s' r h hA hr hx := by
    refine ⟨?_, fun i' st hst => ?_⟩
    · rw [exec_users hx]
      cases b with
      | false => cases o <;> exact h.stored
      | true =>
        cases o with
        | putUser c record => exact put_keeps h hA hr
        | deleteUser n => exact delete_keeps h hA hr
        | _ => exact h.stored
    · by_cases hi : i' = i
      · subst hi
        rcases exec_read hx with hread | hread | hread
        · rw [hread] at hst
          obtain rfl := Option.some.inj hst
          exact h.stored
        · rw [hread] at hst
          cases hst
        · exact h.seen i' st (hread ▸ hst)
      · rw [exec_seen hi hx] at hst
        exact h.seen i' st hst
  env e s s' h hx := by
    cases e <;> obtain rfl := Option.some.inj hx <;> exact ⟨h.stored, h.seen⟩

/-! ## Runs -/

/-- Nothing has been read yet. -/
def AccountState.Unread (s : AccountState) : Prop := ∀ i, (s.seen i).store = none

/-- **Main theorem.** Under the condition, a state with an admin is followed only by states with
    an admin. -/
theorem admin_remains {s : AccountState} (hnew : s.Unread) (h0 : s.store.users.HasAdmin)
    {es : List (Event AccountJob AccountEnv)}
    {p : Pool AccountOp AccountOp.Reply AccountState AccountJob}
    (h : (Pool.init s).run (accountSystem ext) adminRules es = some p) :
    p.shared.store.users.HasAdmin := by
  have hinv : AdminInv s := ⟨h0, fun i st hst => by rw [hnew i] at hst; cases hst⟩
  exact (preserved_run admin_preserved hinv h).stored

/-! ## Samples -/

/-- A store with one admin, and instances that have just started. -/
def oneAdmin : AccountState :=
  .start (UserTable.empty.put
    { username := "admin", passwordHash := "salt:secret", roles := ["admin"] })
    { current := replicate 32 0, rotatedAt := 0 } {}

/-- **Counterexample.** The only admin takes the role from itself: `update_user` does not look
    for another one. -/
theorem last_admin_demoted : oneAdmin.Unread ∧ oneAdmin.store.users.HasAdmin ∧
    ∃ es p, (Pool.init oneAdmin).run (accountSystem .sample) adminBackups es = some p ∧
      ¬ p.shared.store.users.HasAdmin := by
  refine ⟨fun _ => rfl, UserTable.hasAdmin_iff.mpr (by decide +kernel),
    .spawn ⟨0, .updateUser "admin" "admin" { roles := some [] } ⟨"", []⟩⟩ ::
      replicate 6 (.step 0 true), ?_⟩
  refine ends_in (fun p => p.shared.store.users.adminNames = []) (by decide +kernel)
    fun p _ hnone => ?_
  rwa [UserTable.hasAdmin_iff, not_not]

/-- A second admin takes the role from the first one and deletes it. -/
theorem admin_remains_second :
    ∃ es p, (Pool.init oneAdmin).run (accountSystem .sample) adminRules es = some p ∧
      p.shared.store.users.find "admin" = none ∧ p.shared.store.users.HasAdmin := by
  refine ⟨.spawn ⟨0, .createUser "admin" { username := "bob", password := "x", roles := ["admin"] }
      ⟨"salt", [1]⟩⟩ :: replicate 7 (.step 0 true) ++
    .spawn ⟨0, .updateUser "bob" "admin" { roles := some [] } ⟨"", []⟩⟩ ::
      replicate 6 (.step 1 true) ++
    .spawn ⟨1, .deleteUser "bob" "admin"⟩ :: replicate 6 (.step 2 true), ?_⟩
  refine ends_in (fun p => p.shared.store.users.find "admin" = none) (by decide +kernel)
    fun p hp hnone => ⟨hnone, ?_⟩
  exact admin_remains (fun _ => rfl) (UserTable.hasAdmin_iff.mpr (by decide +kernel)) hp

end Depot.Accounts
