import Depot.Cache.Inflight

/-!
# Who waits is woken

A request that finds the path claimed waits for the guard, and is woken when the guard is dropped.
Between finding the claim and beginning to wait it holds nothing that the guard knows of.

Results:
* `inflight_singleFlight`: a key has one guard at most, the map holds the keys of
  the guards, and who waits waits for a guard, as long as nobody begins to wait
  after the notification.
* `singleFlight_of_run`: what holds in every run; who begins to wait later is never woken.
* `wakeup_lost`: a guard is dropped between a claim that fails and the wait.
-/

namespace Depot

open Lib List
open Function (update update_apply update_of_ne update_self)

/-! ## The invariant -/

/-- The shards hold the keys of the guards; the notifiers of the guards differ and were
    not used yet; and a task waits for a guard that is still there, or was notified. -/
structure InflightInv (hash : String → ℕ) (s : InflightState) : Prop where
  shard : ∀ sh key n, (s.shards sh).data.get key = some n ↔
    inflightShard hash key = some sh ∧ ⟨key, n⟩ ∈ s.guards
  distinct : ((s.guards ++ s.dropping).map InflightGuard.notify).Nodup
  made : ∀ g ∈ s.guards ++ s.dropping, g.notify < s.notifies
  quiet : ∀ g ∈ s.guards ++ s.dropping, s.calls g.notify = 0
  once : ∀ n, s.calls n ≤ 1
  unmade : ∀ n, s.notifies ≤ n → s.calls n = 0
  waits : ∀ w ∈ s.waiting, w.seen ≤ s.calls w.notify ∧
    (⟨w.key, w.notify⟩ ∈ s.guards ++ s.dropping ∨ 0 < s.calls w.notify)

/-- What the other tasks leave to task `i`: the shards that it has locked, its guards and
    its notifiers. -/
structure InflightRely (i : ℕ) (s s' : InflightState) : Prop where
  holder : ∀ sh, (s.shards sh).holder = some i →
    (s'.shards sh).holder = some i ∧ (s'.shards sh).data = (s.shards sh).data
  notifies : s.notifies ≤ s'.notifies
  maker : ∀ n < s.notifies, s'.maker n = s.maker n
  guards : ∀ g, g.notify < s.notifies → s.maker g.notify = i →
    (g ∈ s'.guards ↔ g ∈ s.guards) ∧ (g ∈ s'.dropping ↔ g ∈ s.dropping)
  mine : ∀ n < s.notifies, s.maker n = i → s'.calls n = s.calls n
  calls : ∀ n, s.calls n ≤ s'.calls n
  live : ∀ g ∈ s.guards ++ s.dropping, g ∈ s'.guards ++ s'.dropping ∨ 0 < s'.calls g.notify

theorem InflightRely.refl (i : ℕ) (s : InflightState) : InflightRely i s s where
  holder _ h := ⟨h, rfl⟩
  notifies := le_rfl
  maker _ _ := rfl
  guards _ _ _ := ⟨Iff.rfl, Iff.rfl⟩
  mine _ _ _ := rfl
  calls _ := le_rfl
  live _ hg := .inl hg

theorem InflightRely.trans {i : ℕ} {s s' s'' : InflightState} (h : InflightRely i s s')
    (h' : InflightRely i s' s'') : InflightRely i s s'' where
  holder sh hs := by
    obtain ⟨hh, hd⟩ := h.holder sh hs
    obtain ⟨hh', hd'⟩ := h'.holder sh hh
    exact ⟨hh', hd'.trans hd⟩
  notifies := h.notifies.trans h'.notifies
  maker n hn := (h'.maker n (hn.trans_le h.notifies)).trans (h.maker n hn)
  guards g hn hm := by
    have hm' : s'.maker g.notify = i := (h.maker _ hn).trans hm
    obtain ⟨h1, h2⟩ := h.guards g hn hm
    obtain ⟨h1', h2'⟩ := h'.guards g (hn.trans_le h.notifies) hm'
    exact ⟨h1'.trans h1, h2'.trans h2⟩
  mine n hn hm := by
    have hm' : s'.maker n = i := (h.maker _ hn).trans hm
    rw [h'.mine n (hn.trans_le h.notifies) hm', h.mine n hn hm]
  calls n := (h.calls n).trans (h'.calls n)
  live g hg := by
    rcases h.live g hg with hg' | hc
    · exact h'.live g hg'
    · exact .inr (hc.trans_le (h'.calls _))

/-- The proof outline: every task keeps the invariant and leaves to the others what is
    theirs. -/
def inflightLogic (hash : String → ℕ) : Logic InflightState InflightJob Unit where
  inv w := InflightInv hash w.shared
  rely i w w' := InflightRely i w.shared w'.shared
  guar i w w' := ∀ k ≠ i, InflightRely k w.shared w'.shared
  rely_refl _ _ := InflightRely.refl _ _
  rely_trans h h' := h.trans h'

variable {P : InflightView → Prop} {s : InflightState} {sh : ℕ} {g : InflightGuard} {key : String}
variable {n : NotifyId} {data : SortedMap String NotifyId}

section

variable {hash : String → ℕ} {i : ℕ} {j : InflightJob}

/-- The shard of a key is there. -/
theorem inflightShard_eq (key : String) :
    inflightShard hash key = some (hash key % inflightShardCount) := by
  have hlt : hash key % inflightShardCount < inflightShardCount := Nat.mod_lt _ (by decide)
  rw [inflightShard, getElem?_range hlt]

/-! ## What a task knows -/

/-- Task `i` has locked a shard, whose snapshot is `data`. -/
def LockedAt (i sh : ℕ) (data : SortedMap String NotifyId)
    (w : View InflightState InflightJob Unit) : Prop :=
  (w.shared.shards sh).holder = some i ∧ (w.shared.shards sh).data = data

/-- Task `i` has made a notifier that no guard has. -/
def Unclaimed (i : ℕ) (n : NotifyId) (w : View InflightState InflightJob Unit) : Prop :=
  n < w.shared.notifies ∧ w.shared.maker n = i ∧ w.shared.calls n = 0 ∧
    ∀ g ∈ w.shared.guards ++ w.shared.dropping, g.notify ≠ n

/-- Task `i` has a guard whose key is in the map. -/
def Guarding (i : ℕ) (g : InflightGuard) (w : View InflightState InflightJob Unit) : Prop :=
  g ∈ w.shared.guards ∧ w.shared.maker g.notify = i

/-- Task `i` has a guard whose key it has removed. -/
def Dropping (i : ℕ) (g : InflightGuard) (w : View InflightState InflightJob Unit) : Prop :=
  g ∈ w.shared.dropping ∧ w.shared.maker g.notify = i

/-- There was a guard for the key with this notifier. -/
def Noticed (key : String) (n : NotifyId) (w : View InflightState InflightJob Unit) : Prop :=
  ⟨key, n⟩ ∈ w.shared.guards ++ w.shared.dropping ∨ 0 < w.shared.calls n

abbrev InflightView := View InflightState InflightJob Unit

theorem LockedAt.stable : ((inflightLogic hash).contract i j).Stable (LockedAt i sh data) := by
  intro w w' _ _ hr ⟨hh, hd⟩
  obtain ⟨hh', hd'⟩ := hr.holder sh hh
  exact ⟨hh', hd'.trans hd⟩

theorem Unclaimed.stable : ((inflightLogic hash).contract i j).Stable (Unclaimed i n) := by
  intro w w' _ _ hr ⟨hn, hm, hc, hg⟩
  refine ⟨hn.trans_le hr.notifies, (hr.maker n hn).trans hm, (hr.mine n hn hm).trans hc, ?_⟩
  intro g hg' hgn
  subst hgn
  obtain ⟨h1, h2⟩ := hr.guards g hn hm
  rcases mem_append.mp hg' with hg' | hg'
  · exact hg g (mem_append_left _ (h1.mp hg')) rfl
  · exact hg g (mem_append_right _ (h2.mp hg')) rfl

theorem Guarding.stable : ((inflightLogic hash).contract i j).Stable (Guarding i g) := by
  intro w w' hi _ hr ⟨hg, hm⟩
  have hn := hi.1.made g (mem_append_left _ hg)
  exact ⟨(hr.guards g hn hm).1.mpr hg, (hr.maker _ hn).trans hm⟩

theorem Dropping.stable : ((inflightLogic hash).contract i j).Stable (Dropping i g) := by
  intro w w' hi _ hr ⟨hg, hm⟩
  have hn := hi.1.made g (mem_append_right _ hg)
  exact ⟨(hr.guards g hn hm).2.mpr hg, (hr.maker _ hn).trans hm⟩

theorem Noticed.stable : ((inflightLogic hash).contract i j).Stable (Noticed key n) := by
  intro w w' _ _ hr hw
  rcases hw with hg | hc
  · exact hr.live _ hg
  · exact .inr (hc.trans_le (hr.calls n))

theorem stable_and {Q : InflightView → Prop} (hP : ((inflightLogic hash).contract i j).Stable P)
    (hQ : ((inflightLogic hash).contract i j).Stable Q) :
    ((inflightLogic hash).contract i j).Stable fun w => P w ∧ Q w :=
  fun w w' hi hi' hr hw => ⟨hP w w' hi hi' hr hw.1, hQ w w' hi hi' hr hw.2⟩

/-! ## The operations -/

/-- A shard that keeps its snapshot. -/
theorem InflightInv.setHolder (h : InflightInv hash s) (sh : ℕ)
    (holder : Option ℕ) : InflightInv hash (s.setShard sh { s.shards sh with holder := holder }) :=
  { h with
    shard := fun sh' key n => by
      have hdata : ((s.setShard sh { s.shards sh with holder := holder }).shards sh').data =
          (s.shards sh').data := by
        rw [InflightState.setShard_shards]
        split_ifs with hsh
        · rw [hsh]
        · rfl
      rw [hdata]
      exact h.shard sh' key n }

/-- The other tasks do not notice what happens to a shard that they have not locked. -/
theorem rely_setShard {k : ℕ} {d : Shard}
    (h : (s.shards sh).holder ≠ some k) : InflightRely k s (s.setShard sh d) :=
  { InflightRely.refl k s with
    holder := fun sh' hsh' => by
      have hne : sh' ≠ sh := fun heq => h (heq ▸ hsh')
      rw [InflightState.setShard_shards, if_neg hne]
      exact ⟨hsh', rfl⟩ }

/-- What a function of a request does. -/
abbrev InflightTriple (hash : String → ℕ) (i : ℕ) (j : InflightJob) {α : Type}
    (pre : InflightView → Prop) (p : InflightTask α) (post : α → InflightView → Prop) : Prop :=
  Triple (inflightSystem hash) .free i j ((inflightLogic hash).contract i j) pre p post

/-- What does not depend on the shards. -/
def ShardFree (P : InflightView → Prop) : Prop :=
  ∀ (w : InflightView) sh d, P w → P ⟨w.shared.setShard sh d, w.jobs, ()⟩

theorem lockShard_triple (sh : ℕ)
    (hP : ((inflightLogic hash).contract i j).Stable P) (hfree : ShardFree P) :
    InflightTriple hash i j P (lockShard sh) (fun _ w => P w ∧ ∃ data, LockedAt i sh data w) := by
  have hpost : ((inflightLogic hash).contract i j).Stable
      fun w => ∃ data, LockedAt i sh data w := fun w w' hi hi' hr ⟨data, hw⟩ =>
    ⟨data, LockedAt.stable w w' hi hi' hr hw⟩
  refine Triple.call hP (fun _ => stable_and hP hpost) fun w b s r hi hw _ hx => ?_
  have hexec : w.shared.exec i (.lock sh) = some (s, r) := hx
  rw [InflightState.exec] at hexec
  split_ifs at hexec with hfreeLock
  obtain ⟨rfl, -⟩ := some_mk_inj hexec
  refine ⟨(), ⟨hi.1.setHolder sh _, hi.2⟩, fun k _ => rely_setShard ?_, hfree w sh _ hw, ?_⟩
  · rw [hfreeLock]
    exact nofun
  · refine ⟨(w.shared.shards sh).data, ?_, ?_⟩ <;> rw [InflightState.setShard_shards, if_pos rfl]

theorem loadShard_triple {P : SortedMap String NotifyId → InflightView → Prop} (sh : ℕ)
    {pre : InflightView → Prop} (hpre : ((inflightLogic hash).contract i j).Stable pre)
    (hP : ∀ data, ((inflightLogic hash).contract i j).Stable (P data))
    (h : ∀ w, InflightInv hash w.shared → pre w → P (w.shared.shards sh).data w) :
    InflightTriple hash i j pre (loadShard sh) P := by
  refine Triple.call hpre hP fun w b s r hi hw _ hx => ?_
  obtain ⟨rfl, rfl⟩ := some_mk_inj hx
  exact ⟨(), hi, fun k _ => InflightRely.refl k _, h w hi.1 hw⟩

theorem unlockShard_triple (sh : ℕ)
    (hP : ((inflightLogic hash).contract i j).Stable P) (hfree : ShardFree P) :
    InflightTriple hash i j (fun w => P w ∧ ∃ data, LockedAt i sh data w) (unlockShard sh)
      (fun _ => P) := by
  have hpre : ((inflightLogic hash).contract i j).Stable
      fun w => ∃ data, LockedAt i sh data w := fun w w' hi hi' hr ⟨data, hw⟩ =>
    ⟨data, LockedAt.stable w w' hi hi' hr hw⟩
  refine Triple.call (stable_and hP hpre) (fun _ => hP) fun w b s r hi hw _ hx => ?_
  obtain ⟨rfl, -⟩ := some_mk_inj hx
  obtain ⟨hw, data, hh, -⟩ := hw
  refine ⟨(), ⟨hi.1.setHolder sh _, hi.2⟩, fun k hk => rely_setShard ?_, hfree w sh _ hw⟩
  rw [hh]
  exact fun heq => hk (Option.some.inj heq).symm

theorem newNotify_triple (hP : ((inflightLogic hash).contract i j).Stable P)
    (hmade : ∀ (w : InflightView) n, P w →
      P ⟨{ w.shared with notifies := w.shared.notifies + 1
                         maker := update w.shared.maker n i }, w.jobs, ()⟩) :
    InflightTriple hash i j P newNotify (fun n w => P w ∧ Unclaimed i n w) := by
  refine Triple.call hP (fun n => stable_and hP Unclaimed.stable) fun w b s r hi hw _ hx => ?_
  obtain ⟨rfl, rfl⟩ := some_mk_inj hx
  have hold : ∀ n < w.shared.notifies,
      update w.shared.maker w.shared.notifies i n = w.shared.maker n := fun n hn =>
    update_of_ne (Nat.ne_of_lt hn) _ _
  refine ⟨(), ⟨{ hi.1 with made := fun g hg => (hi.1.made g hg).trans (Nat.lt_succ_self _)
                           unmade := fun n hn => hi.1.unmade n (Nat.le_of_succ_le hn) }, hi.2⟩,
    fun k _ => { InflightRely.refl k w.shared with notifies := Nat.le_succ _, maker := hold },
    hmade w _ hw, Nat.lt_succ_self _, update_self _ _ _, hi.1.unmade _ le_rfl, ?_⟩
  intro g hg hgn
  exact absurd (hi.1.made g hg) (by rw [hgn]; exact lt_irrefl _)

/-- The guards of a state have different keys. -/
theorem InflightInv.guard_eq (h : InflightInv hash s) {g' : InflightGuard}
    (hg : g ∈ s.guards) (hg' : g' ∈ s.guards) (hkey : g.key = g'.key) : g = g' := by
  have hget := (h.shard _ g.key g.notify).mpr ⟨inflightShard_eq g.key, hg⟩
  have hget' := (h.shard _ g'.key g'.notify).mpr ⟨inflightShard_eq g'.key, hg'⟩
  rw [← hkey, hget] at hget'
  obtain ⟨key, n⟩ := g
  obtain ⟨key', n'⟩ := g'
  obtain rfl : key = key' := hkey
  obtain rfl : n = n' := Option.some.inj hget'
  rfl

theorem InflightInv.nodup (h : InflightInv hash s) : s.guards.Nodup :=
  Nodup.of_append_left (Nodup.of_map _ h.distinct)

/-- The key of a new guard is put into its shard. -/
theorem InflightInv.claim (h : InflightInv hash s) (hsh : inflightShard hash key = some sh)
    (hnone : (s.shards sh).data.get key = none) (hn : n < s.notifies) (hc : s.calls n = 0)
    (hnew : ∀ g ∈ s.guards ++ s.dropping, g.notify ≠ n) :
    InflightInv hash ((s.setShard sh { s.shards sh with
      data := (s.shards sh).data.insert key n }).noteGuard (.claimed ⟨key, n⟩)) where
  shard sh' key' n' := by
    show ((s.setShard sh _).shards sh').data.get key' = some n' ↔
      inflightShard hash key' = some sh' ∧ ⟨key', n'⟩ ∈ s.guards ++ [⟨key, n⟩]
    rw [InflightState.setShard_shards, mem_append, mem_singleton]
    by_cases hkey : key' = key
    · subst hkey
      have hno : ∀ n', (⟨key', n'⟩ : InflightGuard) ∉ s.guards := fun n' hg => by
        rw [(h.shard sh key' n').mpr ⟨hsh, hg⟩] at hnone
        cases hnone
      split_ifs with hs
      · subst hs
        rw [SortedMap.get_insert_self]
        simp [hsh, hno, eq_comm]
      · rw [h.shard sh' key' n', hsh]
        simp [Ne.symm hs]
    · have hiff : (⟨key', n'⟩ : InflightGuard) ∈ s.guards ∨
          (⟨key', n'⟩ : InflightGuard) = ⟨key, n⟩ ↔ (⟨key', n'⟩ : InflightGuard) ∈ s.guards := by
        simp [hkey]
      rw [hiff, ← h.shard sh' key' n']
      split_ifs with hs
      · rw [SortedMap.get_insert, if_neg hkey, hs]
      · rfl
  distinct := by
    have hperm : (s.guards ++ [(⟨key, n⟩ : InflightGuard)] ++ s.dropping).Perm
        ((⟨key, n⟩ : InflightGuard) :: (s.guards ++ s.dropping)) := by
      rw [append_assoc]
      exact perm_middle
    refine ((hperm.map InflightGuard.notify).nodup_iff).mpr ?_
    refine nodup_cons.mpr ⟨fun hmem => ?_, h.distinct⟩
    obtain ⟨g, hg, hgn⟩ := mem_map.mp hmem
    exact hnew g hg hgn
  made g hg := by
    rcases mem_append.mp hg with hg | hg
    · rcases mem_append.mp hg with hg | hg
      · exact h.made g (mem_append_left _ hg)
      · obtain rfl := mem_singleton.mp hg
        exact hn
    · exact h.made g (mem_append_right _ hg)
  quiet g hg := by
    rcases mem_append.mp hg with hg | hg
    · rcases mem_append.mp hg with hg | hg
      · exact h.quiet g (mem_append_left _ hg)
      · obtain rfl := mem_singleton.mp hg
        exact hc
    · exact h.quiet g (mem_append_right _ hg)
  once := h.once
  unmade := h.unmade
  waits w hw := by
    obtain ⟨hseen, hg | hcalls⟩ := h.waits w hw
    · refine ⟨hseen, .inl ?_⟩
      rcases mem_append.mp hg with hg | hg
      · exact mem_append_left _ (mem_append_left _ hg)
      · exact mem_append_right _ hg
    · exact ⟨hseen, .inr hcalls⟩

/-- The key of a guard, and no other one, is removed from its shard. -/
theorem InflightInv.release (h : InflightInv hash s)
    (hsh : inflightShard hash g.key = some sh) (hg : g ∈ s.guards) :
    InflightInv hash ((s.setShard sh { s.shards sh with
      data := (s.shards sh).data.erase g.key }).noteGuard (.released g)) := by
  have hperm : (s.guards.erase g ++ (s.dropping ++ [g])).Perm (s.guards ++ s.dropping) := by
    have hcons : (g :: s.guards.erase g).Perm s.guards := (perm_cons_erase hg).symm
    rw [← append_assoc]
    exact (perm_append_singleton g _).trans (hcons.append_right s.dropping)
  have hmem : ∀ g', g' ∈ s.guards.erase g ++ (s.dropping ++ [g]) ↔ g' ∈ s.guards ++ s.dropping :=
    fun g' => hperm.mem_iff
  exact {
    shard := fun sh' key' n' => by
      show ((s.setShard sh _).shards sh').data.get key' = some n' ↔
        inflightShard hash key' = some sh' ∧ ⟨key', n'⟩ ∈ s.guards.erase g
      rw [InflightState.setShard_shards]
      by_cases hkey : key' = g.key
      · subst hkey
        have hno : (⟨g.key, n'⟩ : InflightGuard) ∉ s.guards.erase g := fun hin => by
          have heq := h.guard_eq (mem_of_mem_erase hin) hg rfl
          rw [heq] at hin
          exact h.nodup.not_mem_erase hin
        split_ifs with hs
        · rw [SortedMap.get_erase_self]
          simp [hno]
        · rw [h.shard sh' g.key n', hsh]
          simp [Ne.symm hs]
      · have hne : (⟨key', n'⟩ : InflightGuard) ≠ g := fun heq => hkey (by rw [← heq])
        rw [mem_erase_of_ne hne, ← h.shard sh' key' n']
        split_ifs with hs
        · rw [SortedMap.get_erase, if_neg hkey, hs]
        · rfl
    distinct := ((hperm.map _).nodup_iff).mpr h.distinct
    made := fun g' hg' => h.made g' ((hmem g').mp hg')
    quiet := fun g' hg' => h.quiet g' ((hmem g').mp hg')
    once := h.once
    unmade := h.unmade
    waits := fun w hw => ⟨(h.waits w hw).1, (h.waits w hw).2.imp (hmem _).mpr id⟩ }

/-- The waiters of a guard are notified. -/
theorem InflightInv.wake (h : InflightInv hash s) (hg : g ∈ s.dropping) : InflightInv hash { s with
      calls := update s.calls g.notify (s.calls g.notify + 1)
      dropping := s.dropping.filter (·.notify ≠ g.notify) } := by
  have hzero := h.quiet g (mem_append_right _ hg)
  have hsub : (s.guards ++ s.dropping.filter (·.notify ≠ g.notify)).Sublist
      (s.guards ++ s.dropping) := (filter_sublist).append_left _
  have hother : ∀ g' ∈ s.guards ++ s.dropping.filter (·.notify ≠ g.notify),
      g'.notify ≠ g.notify := by
    intro g' hg'
    rcases mem_append.mp hg' with hg' | hg'
    · have hdis := h.distinct
      rw [map_append, nodup_append] at hdis
      exact hdis.2.2 _ (mem_map_of_mem hg') _ (mem_map_of_mem hg)
    · exact of_decide_eq_true (mem_filter.mp hg').2
  have hle : ∀ n, s.calls n ≤ update s.calls g.notify (s.calls g.notify + 1) n := by
    intro n
    rw [update_apply]
    split_ifs with hn
    · rw [hn]
      exact Nat.le_succ _
    · exact le_rfl
  exact {
    shard := h.shard
    distinct := h.distinct.sublist (hsub.map _)
    made := fun g' hg' => h.made g' (hsub.subset hg')
    quiet := fun g' hg' => by
      show update s.calls g.notify _ g'.notify = 0
      rw [update_of_ne (hother g' hg')]
      exact h.quiet g' (hsub.subset hg')
    once := fun n => by
      show update s.calls g.notify _ n ≤ 1
      rw [update_apply]
      split_ifs
      · rw [hzero]
      · exact h.once n
    unmade := fun n hn => by
      show update s.calls g.notify _ n = 0
      have hlt := h.made g (mem_append_right _ hg)
      rw [update_of_ne (Nat.ne_of_gt (hlt.trans_le hn))]
      exact h.unmade n hn
    waits := fun w hw => by
      obtain ⟨hseen, hwait⟩ := h.waits w hw
      refine ⟨hseen.trans (hle _), ?_⟩
      by_cases hn : w.notify = g.notify
      · right
        show 0 < update s.calls g.notify _ w.notify
        rw [hn, update_self]
        exact Nat.succ_pos _
      · rcases hwait with hin | hc
        · left
          rcases mem_append.mp hin with hin | hin
          · exact mem_append_left _ hin
          · exact mem_append_right _ (mem_filter.mpr ⟨hin, decide_eq_true hn⟩)
        · exact .inr (hc.trans_le (hle _)) }

theorem storeClaimed_triple (hsh : inflightShard hash key = some sh) (hnone : data.get key = none) :
    InflightTriple hash i j (fun w => LockedAt i sh data w ∧ Unclaimed i n w)
      (storeShard sh (data.insert key n) (.claimed ⟨key, n⟩))
      (fun _ w => Guarding i ⟨key, n⟩ w ∧ ∃ data, LockedAt i sh data w) := by
  have hlocked : ((inflightLogic hash).contract i j).Stable
      fun w => ∃ data, LockedAt i sh data w := fun w w' hi hi' hr ⟨data, hw⟩ =>
    ⟨data, LockedAt.stable w w' hi hi' hr hw⟩
  refine Triple.call (stable_and LockedAt.stable Unclaimed.stable)
    (fun _ => stable_and Guarding.stable hlocked) fun w b s r hi hw _ hx => ?_
  obtain ⟨rfl, -⟩ := some_mk_inj hx
  obtain ⟨⟨hh, rfl⟩, hn, hm, hc, hnew⟩ := hw
  have hin : (⟨key, n⟩ : InflightGuard) ∈ w.shared.guards ++ [⟨key, n⟩] :=
    mem_append_right _ (mem_singleton_self _)
  refine ⟨(), ⟨hi.1.claim hsh hnone hn hc hnew, hi.2⟩, fun k hk => ?_, ⟨hin, hm⟩, _, ?_, rfl⟩
  · have hholder : (w.shared.shards sh).holder ≠ some k := by
      rw [hh]
      exact fun heq => hk (Option.some.inj heq).symm
    refine { rely_setShard hholder with guards := fun g hg hgm => ⟨?_, Iff.rfl⟩, live := ?_ }
    · show g ∈ w.shared.guards ++ [⟨key, n⟩] ↔ g ∈ w.shared.guards
      have hne : g ≠ ⟨key, n⟩ := fun heq => by
        rw [heq] at hgm
        exact hk (hgm.symm.trans hm)
      simp [hne]
    · intro g hg
      rcases mem_append.mp hg with hg | hg
      · exact .inl (mem_append_left _ (mem_append_left _ hg))
      · exact .inl (mem_append_right _ hg)
  · show ((w.shared.setShard sh _).shards sh).holder = some i
    rw [InflightState.setShard_shards, if_pos rfl]
    exact hh

theorem storeReleased_triple (hsh : inflightShard hash g.key = some sh) :
    InflightTriple hash i j (fun w => Guarding i g w ∧ LockedAt i sh data w)
      (storeShard sh (data.erase g.key) (.released g))
      (fun _ w => Dropping i g w ∧ ∃ data, LockedAt i sh data w) := by
  have hlocked : ((inflightLogic hash).contract i j).Stable
      fun w => ∃ data, LockedAt i sh data w := fun w w' hi hi' hr ⟨data, hw⟩ =>
    ⟨data, LockedAt.stable w w' hi hi' hr hw⟩
  refine Triple.call (stable_and Guarding.stable LockedAt.stable)
    (fun _ => stable_and Dropping.stable hlocked) fun w b s r hi hw _ hx => ?_
  obtain ⟨rfl, -⟩ := some_mk_inj hx
  obtain ⟨⟨hg, hm⟩, hh, rfl⟩ := hw
  have hin : g ∈ w.shared.dropping ++ [g] := mem_append_right _ (mem_singleton_self _)
  refine ⟨(), ⟨hi.1.release hsh hg, hi.2⟩, fun k hk => ?_, ⟨hin, hm⟩, _, ?_, rfl⟩
  · have hholder : (w.shared.shards sh).holder ≠ some k := by
      rw [hh]
      exact fun heq => hk (Option.some.inj heq).symm
    refine { rely_setShard hholder with guards := fun g' hg' hgm => ?_, live := ?_ }
    · have hne : g' ≠ g := fun heq => by
        rw [heq] at hgm
        exact hk (hgm.symm.trans hm)
      refine ⟨mem_erase_of_ne hne, ?_⟩
      show g' ∈ w.shared.dropping ++ [g] ↔ g' ∈ w.shared.dropping
      simp [hne]
    · intro g' hg'
      left
      show g' ∈ w.shared.guards.erase g ++ (w.shared.dropping ++ [g])
      by_cases hne : g' = g
      · rw [hne]
        exact mem_append_right _ hin
      · rcases mem_append.mp hg' with hg' | hg'
        · exact mem_append_left _ ((mem_erase_of_ne hne).mpr hg')
        · exact mem_append_right _ (mem_append_left _ hg')
  · show ((w.shared.setShard sh _).shards sh).holder = some i
    rw [InflightState.setShard_shards, if_pos rfl]
    exact hh

theorem notifyWaiters_triple :
    InflightTriple hash i j (Dropping i g) (notifyWaiters g.notify) (fun _ _ => True) := by
  refine Triple.call Dropping.stable (fun _ _ _ _ _ _ _ => trivial) fun w b s r hi hw _ hx => ?_
  obtain ⟨rfl, -⟩ := some_mk_inj hx
  obtain ⟨hg, hm⟩ := hw
  refine ⟨(), ⟨hi.1.wake hg, hi.2⟩, fun k hk => ?_, trivial⟩
  refine { InflightRely.refl k w.shared with
    guards := fun g' hg' hgm => ⟨Iff.rfl, ?_⟩, mine := ?_, calls := ?_, live := ?_ }
  · have hne : g'.notify ≠ g.notify := fun heq => by
      rw [heq] at hgm
      exact hk (hgm.symm.trans hm)
    show g' ∈ w.shared.dropping.filter _ ↔ g' ∈ w.shared.dropping
    simp [hne]
  · intro n hn hnm
    have hne : n ≠ g.notify := fun heq => by
      rw [heq] at hnm
      exact hk (hnm.symm.trans hm)
    exact update_of_ne hne _ _
  · intro n
    show w.shared.calls n ≤ update w.shared.calls g.notify _ n
    rw [update_apply]
    split_ifs with hn
    · rw [hn]
      exact Nat.le_succ _
    · exact le_rfl
  · intro g' hg'
    by_cases hn : g'.notify = g.notify
    · right
      show 0 < update w.shared.calls g.notify _ g'.notify
      rw [hn, update_self]
      exact Nat.succ_pos _
    · left
      rcases mem_append.mp hg' with hg' | hg'
      · exact mem_append_left _ hg'
      · exact mem_append_right _ (mem_filter.mpr ⟨hg', decide_eq_true hn⟩)

theorem notified_triple :
    InflightTriple hash i j (Noticed key n) (notified key n) (fun _ _ => True) := by
  refine Triple.call Noticed.stable (fun _ _ _ _ _ _ _ => trivial) fun w b s r hi hw _ hx => ?_
  obtain ⟨rfl, -⟩ := some_mk_inj hx
  refine ⟨(), ⟨{ hi.1 with waits := fun w' hw' => ?_ }, hi.2⟩,
    fun k _ => { InflightRely.refl k w.shared with }, trivial⟩
  rcases mem_append.mp hw' with hw' | hw'
  · exact hi.1.waits w' hw'
  · obtain rfl := mem_singleton.mp hw'
    exact ⟨le_rfl, hw⟩

theorem awaitFuture_triple {seen : ℕ} :
    InflightTriple hash i j (fun _ => True) (awaitFuture n seen) (fun _ _ => True) := by
  have htrue : ((inflightLogic hash).contract i j).Stable fun _ => True :=
    fun _ _ _ _ _ _ => trivial
  refine Triple.call htrue (fun _ => htrue) fun w b s r hi hw _ hx => ?_
  have hexec : w.shared.exec i (.await n seen) = some (s, r) := hx
  rw [InflightState.exec] at hexec
  split_ifs at hexec
  obtain ⟨rfl, -⟩ := some_mk_inj hexec
  exact ⟨(), ⟨{ hi.1 with waits := fun w' hw' => hi.1.waits w' (mem_filter.mp hw').1 }, hi.2⟩,
    fun k _ => { InflightRely.refl k w.shared with }, trivial⟩

/-! ## The functions -/

theorem stable_true : ((inflightLogic hash).contract i j).Stable fun _ => True :=
  fun _ _ _ _ _ _ => trivial

/-- What a claim gives: a guard, or a notifier of a guard. -/
def ClaimResult (i : ℕ) (key : String) : Except NotifyId InflightGuard → InflightView → Prop
  | .ok g => Guarding i g
  | .error n => Noticed key n

theorem ClaimResult.stable (r : Except NotifyId InflightGuard) :
    ((inflightLogic hash).contract i j).Stable (ClaimResult i key r) := by
  cases r with
  | ok g => exact Guarding.stable
  | error n => exact Noticed.stable

/-- A notifier that is found in a shard belongs to a guard. -/
theorem InflightInv.noticed {w : InflightView} (h : InflightInv hash w.shared)
    (hget : (w.shared.shards sh).data.get key = some n) :
    Noticed key n w := .inl (mem_append_left _ ((h.shard sh key n).mp hget).2)

theorem claimLocked_triple (hsh : inflightShard hash key = some sh) :
    InflightTriple hash i j (fun _ => True) (claimLocked sh key) (ClaimResult i key) := by
  refine Triple.bind (lockShard_triple sh stable_true fun _ _ _ _ => trivial) fun _ => ?_
  have hlocked : ((inflightLogic hash).contract i j).Stable
      fun w => True ∧ ∃ data, LockedAt i sh data w := fun w w' hi hi' hr ⟨_, data, hw⟩ =>
    ⟨trivial, data, LockedAt.stable w w' hi hi' hr hw⟩
  refine Triple.bind (loadShard_triple (P := fun data w => LockedAt i sh data w ∧
    ∀ n, data.get key = some n → Noticed key n w) sh hlocked (fun data => ?_) ?_) fun data => ?_
  · exact stable_and LockedAt.stable fun w w' hi hi' hr hw n hn =>
      Noticed.stable w w' hi hi' hr (hw n hn)
  · rintro w hi ⟨-, data, hh, rfl⟩
    exact ⟨⟨hh, rfl⟩, fun n hn => hi.noticed hn⟩
  · cases hget : data.get key with
    | some n =>
      refine Triple.weaken_pre (Triple.bind (unlockShard_triple sh Noticed.stable
        fun _ _ _ hw => hw) fun _ => Triple.pure (ClaimResult.stable (.error n))) fun w _ hw => ?_
      exact ⟨hw.2 n rfl, data, hw.1⟩
    | none =>
      refine Triple.weaken_pre (Triple.bind (newNotify_triple LockedAt.stable
        fun _ _ hw => hw) fun n => ?_) fun w _ hw => hw.1
      refine Triple.bind (storeClaimed_triple hsh hget) fun _ => ?_
      exact Triple.bind (unlockShard_triple sh Guarding.stable fun _ _ _ hw => hw) fun _ =>
        Triple.pure (ClaimResult.stable (.ok ⟨key, n⟩))

theorem tryClaim_triple :
    InflightTriple hash i j (fun _ => True) (tryClaim hash key) (ClaimResult i key) := by
  have hsh := @inflightShard_eq hash key
  rw [tryClaim, hsh]
  generalize hash key % inflightShardCount = sh at hsh
  refine Triple.bind (loadShard_triple (P := fun data w =>
    ∀ n, data.get key = some n → Noticed key n w) _ stable_true (fun data => ?_) ?_) fun data => ?_
  · exact fun w w' hi hi' hr hw n hn => Noticed.stable w w' hi hi' hr (hw n hn)
  · exact fun w hi _ n hn => hi.noticed hn
  · cases hget : data.get key with
    | some n =>
      refine Triple.weaken_pre (Triple.pure (ClaimResult.stable (.error n))) fun w _ hw => ?_
      exact hw n rfl
    | none => exact Triple.weaken_pre (claimLocked_triple hsh) fun _ _ _ => trivial

theorem dropGuard_triple :
    InflightTriple hash i j (Guarding i g) (dropGuard hash g) (fun _ _ => True) := by
  have hsh := @inflightShard_eq hash g.key
  rw [dropGuard, hsh]
  generalize hash g.key % inflightShardCount = sh at hsh
  refine Triple.bind (lockShard_triple _ Guarding.stable fun _ _ _ hw => hw) fun _ => ?_
  refine Triple.bind (loadShard_triple (P := fun data w => Guarding i g w ∧ LockedAt i sh data w) sh
    (fun w w' hi hi' hr hw => ?_) (fun data => stable_and Guarding.stable LockedAt.stable) ?_)
    fun data => ?_
  · obtain ⟨hg, data, hl⟩ := hw
    exact ⟨Guarding.stable w w' hi hi' hr hg, data, LockedAt.stable w w' hi hi' hr hl⟩
  · rintro w _ ⟨hg, data, hh, rfl⟩
    exact ⟨hg, hh, rfl⟩
  · refine Triple.bind (storeReleased_triple hsh) fun _ => ?_
    exact Triple.bind (unlockShard_triple _ Dropping.stable fun _ _ _ hw => hw) fun _ =>
      notifyWaiters_triple

theorem inflightRequest_triple (key : String) (rounds : ℕ) :
    InflightTriple hash i j (fun _ => True) (inflightRequest hash key rounds)
      (fun _ _ => True) := by
  induction rounds with
  | zero => exact fun _ _ _ _ _ _ => trivial
  | succ rounds ih =>
    refine Triple.bind tryClaim_triple fun r => ?_
    cases r with
    | ok g => exact dropGuard_triple
    | error n =>
      have hwait : InflightTriple hash i j (Noticed key n) (awaitNotified key n)
          (fun _ _ => True) := Triple.bind notified_triple fun seen => awaitFuture_triple
      exact Triple.bind hwait fun _ => ih

/-- The proof outline is sound. -/
theorem inflightLogic_sound : (inflightLogic hash).Sound (inflightSystem hash) .free where
  guar_rely h _ _ hg := hg _ h
  spawn _ j hi _ := ⟨(), hi, fun _ => InflightRely.refl _ _,
    inflightRequest_triple j.key j.rounds _ ⟨hi, getElem?_concat_length⟩ trivial⟩
  leave _ _ _ hi _ := ⟨(), hi, fun _ _ => InflightRely.refl _ _⟩
  env _ e _ _ _ _ := nomatch e

end

/-! ## Results -/

theorem inflightInv_init (hash : String → ℕ) : InflightInv hash {} where
  shard sh key n := by
    show (SortedMap.empty : SortedMap String NotifyId).get key = some n ↔ _ ∧ _ ∈ []
    simp
  distinct := nodup_nil
  made _ hg := by cases hg
  quiet _ hg := by cases hg
  once _ := Nat.zero_le _
  unmade _ _ := rfl
  waits _ hw := by cases hw

variable {es : List (Event InflightJob Empty)}
variable {p : Pool InflightOp InflightOp.Reply InflightState InflightJob}

theorem inflight_inv {hash : String → ℕ}
    (h : (Pool.init {}).run (inflightSystem hash) .free es = some p) :
    InflightInv hash p.shared := by
  obtain ⟨_, hinv⟩ := inflightLogic_sound.run_inv (g := ()) (inflightInv_init hash) h
  exact hinv

/-- Under the condition, nobody has begun to wait after a notification. -/
theorem waiting_early {hash : String → ℕ}
    (h : (Pool.init {}).run (inflightSystem hash) inflightRules es = some p) :
    ∀ w ∈ p.shared.waiting, w.seen = 0 := by
  refine Pool.run_shared (P := fun s : InflightState => ∀ w ∈ s.waiting, w.seen = 0)
    (fun i j o b s s' r hs hr hx => ?_) (fun _ _ hs => hs) (fun _ e => nomatch e)
    (fun w hw => by cases hw) h
  have hexec : s.exec i o = some (s', r) := hx
  cases o with
  | notified key n =>
    obtain ⟨rfl, -⟩ := some_mk_inj hexec
    intro w hw
    rcases mem_append.mp hw with hw | hw
    · exact hs w hw
    · obtain rfl := mem_singleton.mp hw
      exact of_decide_eq_true hr
  | await n seen =>
    rw [InflightState.exec] at hexec
    split_ifs at hexec
    obtain ⟨rfl, -⟩ := some_mk_inj hexec
    exact fun w hw => hs w (mem_filter.mp hw).1
  | lock sh =>
    rw [InflightState.exec] at hexec
    split_ifs at hexec
    obtain ⟨rfl, -⟩ := some_mk_inj hexec
    exact hs
  | store sh data e =>
    obtain ⟨rfl, -⟩ := some_mk_inj hexec
    cases e with
    | claimed g => exact hs
    | released g => exact hs
  | _ =>
    obtain ⟨rfl, -⟩ := some_mk_inj hexec
    exact hs

/-- **Main theorem.** In every run in which nobody begins to wait after the
    notification: a key has one guard at most, the map holds exactly the keys of the
    guards, and whoever is suspended waits for a guard that is there or is about to wake
    its waiters. -/
theorem inflight_singleFlight (hash : String → ℕ) {es : List (Event InflightJob Empty)}
    {p : Pool InflightOp InflightOp.Reply InflightState InflightJob}
    (h : (Pool.init {}).run (inflightSystem hash) inflightRules es = some p) :
    SingleFlight p.shared := by
  have hinv := inflight_inv (Pool.run_free h)
  have hearly := waiting_early h
  refine ⟨fun g hg g' hg' => hinv.guard_eq hg hg', hinv.nodup, fun key n => ?_, fun w hw => ?_⟩
  · constructor
    · rintro ⟨sh, hget⟩
      exact ((hinv.shard sh key n).mp hget).2
    · exact fun hg => ⟨_, (hinv.shard _ key n).mpr ⟨inflightShard_eq key, hg⟩⟩
  · obtain ⟨hmem, hcalls⟩ := hw
    rcases (hinv.waits w hmem).2 with hg | hpos
    · exact hg
    · rw [hcalls, hearly w hmem] at hpos
      exact absurd hpos (lt_irrefl 0)

/-- **Main theorem.** In every run a key has one guard at most and the map holds the keys of the
    guards. Who is suspended waits for a guard exactly if it began to wait before the
    notification; who began later is suspended, now and in every later state. -/
theorem singleFlight_of_run (hash : String → ℕ)
    (h : (Pool.init {}).run (inflightSystem hash) .free es = some p) :
    (∀ g ∈ p.shared.guards, ∀ g' ∈ p.shared.guards, g.key = g'.key → g = g') ∧
      (∀ key n, p.shared.Holds key n ↔ ⟨key, n⟩ ∈ p.shared.guards) ∧
      (∀ w, p.shared.Suspended w →
        (⟨w.key, w.notify⟩ ∈ p.shared.guards ++ p.shared.dropping ↔ w.seen = 0)) ∧
      ∀ w ∈ p.shared.waiting, w.seen ≠ 0 → p.shared.Suspended w := by
  have hinv := inflight_inv h
  refine ⟨fun g hg g' hg' => hinv.guard_eq hg hg', fun key n => ⟨?_, fun hg =>
    ⟨_, (hinv.shard _ key n).mpr ⟨inflightShard_eq key, hg⟩⟩⟩, fun w hw => ⟨fun hg => ?_,
    fun hseen => ?_⟩, fun w hw hlate => ⟨hw, ?_⟩⟩
  · rintro ⟨sh, hget⟩
    exact ((hinv.shard sh key n).mp hget).2
  · exact hw.2.symm.trans (hinv.quiet _ hg)
  · refine (hinv.waits w hw.1).2.resolve_right fun hpos => ?_
    rw [hw.2, hseen] at hpos
    exact absurd hpos (lt_irrefl 0)
  · have hseen := (hinv.waits w hw).1
    have honce := hinv.once w.notify
    omega

/-! ## Runs -/

def twoRequests : List (Event InflightJob Empty) := [.spawn ⟨"raw:r:x", 1⟩, .spawn ⟨"raw:r:x", 1⟩]

/-- A number of steps of a task. -/
def inflightSteps (i n : ℕ) : List (Event InflightJob Empty) := replicate n (.step i true)

/-- The second request begins to wait before the guard is dropped, and is woken. -/
theorem inflight_singleFlight_two :
    ∃ p, (Pool.init {}).run (inflightSystem String.length) inflightRules (twoRequests ++
        inflightSteps 0 6 ++ inflightSteps 1 2 ++ inflightSteps 0 5 ++ inflightSteps 1 1) = some p ∧
      p.returned 1 = some ⟨"raw:r:x", 1⟩ ∧ SingleFlight p.shared := by
  refine ends_in (fun p => p.returned 1 = some ⟨"raw:r:x", 1⟩) (by decide +kernel)
    fun p hp hret => ?_
  exact ⟨hret, inflight_singleFlight String.length hp⟩

/-- **A lost wake-up.** The guard is dropped after the second request has got the
    notifier and before it begins to wait: it is suspended and there is no guard. -/
theorem wakeup_lost :
    ∃ p, (Pool.init {}).run (inflightSystem String.length) .free (twoRequests ++
        inflightSteps 0 6 ++ inflightSteps 1 1 ++ inflightSteps 0 5 ++ inflightSteps 1 1) = some p ∧
      p.returned 0 = some ⟨"raw:r:x", 1⟩ ∧ p.shared.guards = [] ∧ p.shared.dropping = [] ∧
      p.shared.Suspended ⟨1, "raw:r:x", 0, 1⟩ ∧ ¬SingleFlight p.shared := by
  refine ends_in (fun p => p.returned 0 = some ⟨"raw:r:x", 1⟩ ∧ p.shared.guards = [] ∧
    p.shared.dropping = [] ∧ p.shared.waiting = [⟨1, "raw:r:x", 0, 1⟩] ∧ p.shared.calls 0 = 1)
    (by decide +kernel) fun p _ hall => ?_
  obtain ⟨hret, hguards, hdropping, hwaiting, hcalls⟩ := hall
  have hsusp : p.shared.Suspended ⟨1, "raw:r:x", 0, 1⟩ :=
    ⟨by rw [hwaiting]; exact mem_singleton_self _, hcalls⟩
  refine ⟨hret, hguards, hdropping, hsusp, fun hflight => ?_⟩
  have hg := hflight.awake _ hsusp
  rw [hguards, hdropping] at hg
  cases hg

theorem singleFlight_of_run_lost :
    ∃ p, (Pool.init {}).run (inflightSystem String.length) .free (twoRequests ++
        inflightSteps 0 6 ++ inflightSteps 1 1 ++ inflightSteps 0 5 ++ inflightSteps 1 1) = some p ∧
      p.shared.Suspended ⟨1, "raw:r:x", 0, 1⟩ := by
  refine ends_in (fun p => p.shared.waiting = [⟨1, "raw:r:x", 0, 1⟩]) (by decide +kernel)
    fun p hp hw => ?_
  exact (singleFlight_of_run String.length hp).2.2.2 _ (by rw [hw]; exact mem_singleton_self _)
    Nat.one_ne_zero

end Depot
