import Depot.Core.Settings
import Mathlib.Data.List.Infix

/-!
# Durations in retention and garbage collection

Day counts, the collection interval and lease lifetimes are `u64` values that
no check bounds from above. They are cast to `i64` and handed to `chrono`,
whose ranges are much smaller.

Results:
* `durations_iff`: the four computations return the intended instants, the
  cut-offs lie at least a day back and a larger day count keeps more, exactly
  when the values fit `chrono`'s ranges.
* `cutoff_wraps`: the largest day count puts the cut-off a day into the
  future, which expires what was stored a moment ago; a smaller one panics.
-/

namespace Depot

/-! ## The computations -/

/-- `now - chrono::Duration::days(d as i64)` (`gc_pass.rs` lines 310–316,
    `repo_cleanup.rs` lines 145–151). -/
def cutoff (c : Chrono) (now : DateTime) (d : UInt64) : Option DateTime :=
  (c.days (asI64 d)).bind (c.sub now)

/-- `DEFAULT_GC_INTERVAL_SECS` (`blob_reaper/mod.rs`). -/
def defaultGcIntervalSecs : UInt64 := 86400

/-- `gc_due` (`gc_loop.rs` lines 33–57); `startTime` is nanoseconds after
    midnight. -/
def gcDue (c : Chrono) (last now : DateTime) (gcInterval gcMinInterval : UInt64)
    (startTime : Option TimeDelta) : Option Bool :=
  let elapsed := asU64 (max ((now - last).tdiv secondNs) 0)
  if elapsed < gcMinInterval then some false
  else
    match startTime with
    | some t =>
        let today := now - now % dayNs + t
        (if today ≤ now then some today else c.sub today dayNs).map fun sched =>
          decide (last < sched)
    | none => some (decide (gcInterval ≤ elapsed))

/-- `lease_ttl` (`gc_loop.rs` lines 122–126). -/
def leaseTtl (gcInterval : UInt64) (startTime : Option TimeDelta) : UInt64 :=
  if startTime.isSome then max gcInterval defaultGcIntervalSecs else gcInterval

/-- `retry_at`: `start_utc - chrono::Duration::seconds(gc_interval as i64 - 5)`
    (`gc_loop.rs` line 267). -/
def retryAt (c : Chrono) (startUtc : DateTime) (gcInterval : UInt64) : Option DateTime :=
  (c.seconds ((asI64 gcInterval - 5).bmod (2 ^ 64))).bind (c.sub startUtc)

/-- `record.renewed_at + chrono::Duration::seconds(record.ttl_secs as i64)`
    (`cluster.rs` line 155). -/
def leaseEnd (c : Chrono) (renewedAt : DateTime) (ttlSecs : UInt64) : Option DateTime :=
  (c.seconds (asI64 ttlSecs)).bind (c.add renewedAt)

/-! ## Expiry -/

/-- `ExpiryReason` (`repo_cleanup.rs` lines 45–49). -/
inductive ExpiryReason where
  | maxAge
  | unaccessed
  deriving DecidableEq

/-- `is_bookkeeping_path` (`format/docker/src/store.rs` lines 100–105). -/
def isBookkeepingPath (path : String) : Bool :=
  path.startsWith "_manifests/" || path.startsWith "_blobs/" ||
    decide ("/_manifests/".toList <:+: path.toList) || decide ("/_blobs/".toList <:+: path.toList)

/-- The decision of `record_expired` (`repo_cleanup.rs` lines 71–104);
    `accessedAt` is the access time it uses: the tree entry's, or the record's
    when there is none. -/
def expiryReason (sk : String) (record : ArtifactRecord) (isDocker : Bool)
    (maxAgeCutoff maxUnaccessedCutoff : Option DateTime) (accessedAt : DateTime) :
    Option ExpiryReason :=
  if record.internal || (isDocker && isBookkeepingPath sk) then none
  else if maxAgeCutoff.any fun t => decide (record.createdAt < t) then some .maxAge
  else if maxUnaccessedCutoff.any fun t => decide (accessedAt < t) then some .unaccessed
  else none

/-- `repo.cleanup_….map(|d| now - chrono::Duration::days(d as i64))`: the
    cut-off of an optional day count; the outer `none` is a panic. -/
def optCutoff (c : Chrono) (now : DateTime) : Option UInt64 → Option (Option DateTime)
  | none => some none
  | some d => (cutoff c now d).map some

/-- What a pass at `now` decides for a record of repository `r`, or `none` if
    a cut-off panics. -/
def decideExpiry (c : Chrono) (now : DateTime) (r : RepoConfig) (sk : String)
    (record : ArtifactRecord) (accessedAt : DateTime) : Option (Option ExpiryReason) :=
  (optCutoff c now r.cleanupMaxAgeDays).bind fun age =>
    (optCutoff c now r.cleanupMaxUnaccessedDays).map fun unaccessed =>
      expiryReason sk record (r.format = .docker) age unaccessed accessedAt

/-! ## What must hold of them -/

/-- Day count `d` is a lower or equal setting of the same kind as `d'`. -/
def DaysLe : Option UInt64 → Option UInt64 → Prop
  | none, none => True
  | some d, some d' => d ≤ d'
  | _, _ => False

/-- The cut-off of `d` neither panics nor wraps and is at least a day back. -/
def CutoffOk (c : Chrono) (now : DateTime) (d : UInt64) : Prop :=
  cutoff c now d = some (now - d.toNat * dayNs) ∧
    ∀ t, cutoff c now d = some t → t ≤ now - dayNs

/-- Raising day counts up to those of `r` never makes an artifact expire that
    the smaller counts keep. -/
def RaisingKeeps (c : Chrono) (now : DateTime) (r : RepoConfig) : Prop :=
  ∀ r', RepoConfig.Accepted r' → r'.format = r.format →
    DaysLe r'.cleanupMaxAgeDays r.cleanupMaxAgeDays →
    DaysLe r'.cleanupMaxUnaccessedDays r.cleanupMaxUnaccessedDays →
    ∀ sk record accessedAt reason, decideExpiry c now r sk record accessedAt = some (some reason) →
      ∃ reason', decideExpiry c now r' sk record accessedAt = some (some reason')

/-- The retention and collection computations are right for repository `r`,
    collection settings `gcInterval`, `gcMinInterval` and `startTime`, the last
    pass at `last`, the clock at `now`, a pass that started at `startUtc` and a
    lease renewed at `renewedAt`. -/
structure DurationsOk (c : Chrono) (r : RepoConfig) (gcInterval gcMinInterval : UInt64)
    (startTime : Option TimeDelta) (last now startUtc renewedAt : DateTime) : Prop where
  age : ∀ d, r.cleanupMaxAgeDays = some d → CutoffOk c now d
  unaccessed : ∀ d, r.cleanupMaxUnaccessedDays = some d → CutoffOk c now d
  raising : RaisingKeeps c now r
  retry : gcDue c last now gcInterval gcMinInterval startTime = some true →
    retryAt c startUtc gcInterval = some (startUtc - ((gcInterval.toNat : ℤ) - 5) * secondNs)
  lease : leaseEnd c renewedAt (leaseTtl gcInterval startTime) =
    some (renewedAt + (leaseTtl gcInterval startTime).toNat * secondNs)

/-! ## When it holds -/

/-- A span and the instant it leads to are in range. -/
def Fits (c : Chrono) (span : TimeDelta) (t : DateTime) : Prop :=
  -c.maxDelta ≤ span ∧ span ≤ c.maxDelta ∧ c.minUtc ≤ t ∧ t ≤ c.maxUtc

/-- The condition: day counts, the interval of a due pass and the lease
    lifetime fit the ranges of `chrono`. -/
structure DurationsFit (c : Chrono) (r : RepoConfig) (gcInterval gcMinInterval : UInt64)
    (startTime : Option TimeDelta) (last now startUtc renewedAt : DateTime) : Prop where
  age : ∀ d, r.cleanupMaxAgeDays = some d → Fits c (d.toNat * dayNs) (now - d.toNat * dayNs)
  unaccessed : ∀ d, r.cleanupMaxUnaccessedDays = some d →
    Fits c (d.toNat * dayNs) (now - d.toNat * dayNs)
  retry : gcDue c last now gcInterval gcMinInterval startTime = some true →
    Fits c (((gcInterval.toNat : ℤ) - 5) * secondNs)
      (startUtc - ((gcInterval.toNat : ℤ) - 5) * secondNs)
  lease : Fits c ((leaseTtl gcInterval startTime).toNat * secondNs)
    (renewedAt + (leaseTtl gcInterval startTime).toNat * secondNs)

variable {c : Chrono}

/-- A computation that casts `n` to `m`, builds a span of `m` units and moves an
    instant by it returns the intended instant exactly when everything fits. -/
theorem shifted_iff {unit m n : ℤ} {move : TimeDelta → DateTime} (hmove : Function.Injective move)
    (hm : n * unit ≤ c.maxDelta → m = n) :
    ((c.delta (m * unit)).bind fun δ => c.instant (move δ)) = some (move (n * unit)) ↔
      Fits c (n * unit) (move (n * unit)) := by
  rw [Option.bind_eq_some_iff]
  constructor
  · rintro ⟨δ, hδ, ht⟩
    obtain ⟨rfl, hlo, hhi⟩ := c.delta_eq_some.mp hδ
    obtain ⟨heq, hmin, hmax⟩ := c.instant_eq_some.mp ht
    rw [← hmove heq] at hlo hhi hmin hmax
    exact ⟨hlo, hhi, hmin, hmax⟩
  · rintro ⟨hlo, hhi, hmin, hmax⟩
    obtain rfl := hm hhi
    exact ⟨m * unit, c.delta_eq_some.mpr ⟨rfl, hlo, hhi⟩, c.instant_eq_some.mpr ⟨rfl, hmin, hmax⟩⟩

variable {d ttl : UInt64}

/-- A count of seconds or days that fits a span is not wrapped by the cast. -/
theorem asI64_of_fits {unit : ℤ} (hunit : secondNs ≤ unit)
    (h : d.toNat * unit ≤ c.maxDelta) : asI64 d = d.toNat := by
  rw [asI64_eq_iff]
  by_contra hge
  have h1 : (2 ^ 63 : ℤ) * secondNs ≤ d.toNat * unit :=
    mul_le_mul (by omega) hunit (by decide) (by omega)
  exact absurd (h1.trans h) (not_le.mpr c.maxDelta_lt)

variable {now : DateTime}

theorem cutoff_iff : cutoff c now d = some (now - d.toNat * dayNs) ↔
      Fits c (d.toNat * dayNs) (now - d.toNat * dayNs) :=
  shifted_iff sub_right_injective fun h => asI64_of_fits (by decide) h

theorem leaseEnd_iff {t : DateTime} : leaseEnd c t ttl = some (t + ttl.toNat * secondNs) ↔
      Fits c (ttl.toNat * secondNs) (t + ttl.toNat * secondNs) :=
  shifted_iff (add_right_injective t) fun h => asI64_of_fits le_rfl h

/-- A lifetime that the cast does not wrap ends when it should, if the end is
    representable. -/
theorem leaseEnd_of_lt {t e : DateTime} (httl : ttl.toNat < 2 ^ 63)
    (h : leaseEnd c t ttl = some e) : e = t + ttl.toNat * secondNs := by
  rw [leaseEnd, (asI64_eq_iff ttl).mpr httl, Option.bind_eq_some_iff] at h
  obtain ⟨δ, hδ, he⟩ := h
  rw [(c.instant_eq_some.mp he).1, (c.delta_eq_some.mp hδ).1]

theorem retryAt_iff {t : DateTime} {g : UInt64} :
    retryAt c t g = some (t - ((g.toNat : ℤ) - 5) * secondNs) ↔
      Fits c (((g.toNat : ℤ) - 5) * secondNs) (t - ((g.toNat : ℤ) - 5) * secondNs) := by
  refine shifted_iff sub_right_injective fun h => ?_
  have hlt : (g.toNat : ℤ) - 5 < 2 ^ 63 := by
    by_contra hge
    have h1 : (2 ^ 63 : ℤ) * secondNs ≤ ((g.toNat : ℤ) - 5) * secondNs :=
      mul_le_mul_of_nonneg_right (not_lt.mp hge) (by decide)
    exact absurd (h1.trans h) (not_le.mpr c.maxDelta_lt)
  rw [asI64_eq]
  split_ifs with hg
  · exact Int.bmod_eq_of_le (by omega) (by omega)
  · rw [show (g.toNat : ℤ) - 2 ^ 64 - 5 = ((g.toNat : ℤ) - 5) - (2 ^ 64 : ℕ) by omega,
      Int.sub_bmod_right]
    exact Int.bmod_eq_of_le (by omega) (by omega)

/-! ## A larger count keeps more -/

/-- Both cut-offs of one kind exist, and the one of the smaller count is later. -/
theorem optCutoff_anti {d d' : Option UInt64} (hle : DaysLe d' d)
    (h : ∀ n, d = some n → Fits c (n.toNat * dayNs) (now - n.toNat * dayNs))
    (hnow : now ≤ c.maxUtc) : ∃ t t', optCutoff c now d = some t ∧ optCutoff c now d' = some t' ∧
      ∀ x : DateTime, (t.any fun u => decide (x < u)) = true →
        (t'.any fun u => decide (x < u)) = true := by
  cases d with
  | none =>
    cases d' with
    | none => exact ⟨none, none, rfl, rfl, fun _ h => h⟩
    | some m => exact hle.elim
  | some n =>
    cases d' with
    | none => exact hle.elim
    | some m =>
      obtain ⟨-, hhi, hmin, -⟩ := h n rfl
      have hmn : (m.toNat : ℤ) * dayNs ≤ n.toNat * dayNs :=
        mul_le_mul_of_nonneg_right (by exact_mod_cast UInt64.le_iff_toNat_le.mp hle) (by decide)
      have hm0 : 0 ≤ (m.toNat : ℤ) * dayNs := mul_nonneg (by omega) (by decide)
      have hfit : Fits c (m.toNat * dayNs) (now - m.toNat * dayNs) := by
        refine ⟨?_, ?_, ?_, ?_⟩ <;> linarith
      refine ⟨some (now - n.toNat * dayNs), some (now - m.toNat * dayNs), ?_, ?_, fun x hx => ?_⟩
      · rw [optCutoff, cutoff_iff.mpr (h n rfl), Option.map_some]
      · rw [optCutoff, cutoff_iff.mpr hfit, Option.map_some]
      · simp only [Option.any_some, decide_eq_true_eq] at hx ⊢
        linarith

/-- What expires with earlier cut-offs expires with later ones. -/
theorem expiryReason_mono {sk : String} {record : ArtifactRecord} {isDocker : Bool}
    {age age' unaccessed unaccessed' : Option DateTime} {accessedAt : DateTime}
    (hage : (age.any fun t => decide (record.createdAt < t)) = true →
      (age'.any fun t => decide (record.createdAt < t)) = true)
    (hun : (unaccessed.any fun t => decide (accessedAt < t)) = true →
      (unaccessed'.any fun t => decide (accessedAt < t)) = true) {reason : ExpiryReason}
    (h : expiryReason sk record isDocker age unaccessed accessedAt = some reason) :
    ∃ reason', expiryReason sk record isDocker age' unaccessed' accessedAt = some reason' := by
  rw [expiryReason] at h ⊢
  split_ifs at h with h1 h2 h3
  · exact ⟨.maxAge, by rw [if_neg h1, if_pos (hage h2)]⟩
  · by_cases h2' : (age'.any fun t => decide (record.createdAt < t)) = true
    · exact ⟨.maxAge, by rw [if_neg h1, if_pos h2']⟩
    · exact ⟨.unaccessed, by rw [if_neg h1, if_neg h2', if_pos (hun h3)]⟩

theorem raisingKeeps_of_fits {r : RepoConfig} (hnow : now ≤ c.maxUtc)
    (hage : ∀ d, r.cleanupMaxAgeDays = some d → Fits c (d.toNat * dayNs) (now - d.toNat * dayNs))
    (hun : ∀ d, r.cleanupMaxUnaccessedDays = some d →
      Fits c (d.toNat * dayNs) (now - d.toNat * dayNs)) : RaisingKeeps c now r := by
  intro r' _ hformat hle hle' sk record accessedAt reason h
  obtain ⟨t, t', ht, ht', hmono⟩ := optCutoff_anti hle hage hnow
  obtain ⟨u, u', hu, hu', hmono'⟩ := optCutoff_anti hle' hun hnow
  rw [decideExpiry, ht, hu, Option.bind_some, Option.map_some, Option.some.injEq] at h
  obtain ⟨reason', h'⟩ := expiryReason_mono (hmono _) (hmono' _) h
  exact ⟨reason', by rw [decideExpiry, ht', hu', hformat, Option.bind_some, Option.map_some, h']⟩

/-! ## The claim about all values -/

theorem cutoffOk_iff (hd : d ≠ 0) :
    CutoffOk c now d ↔ Fits c (d.toNat * dayNs) (now - d.toNat * dayNs) := by
  rw [← cutoff_iff]
  refine ⟨fun h => h.1, fun h => ⟨h, fun t ht => ?_⟩⟩
  obtain rfl : now - d.toNat * dayNs = t := Option.some.inj (h.symm.trans ht)
  have hpos : (1 : ℤ) ≤ d.toNat := by
    have : d.toNat ≠ 0 := fun h0 => hd (UInt64.toNat_inj.mp h0)
    omega
  have := mul_le_mul_of_nonneg_right hpos (show (0 : ℤ) ≤ dayNs by decide)
  linarith

/-- **Main theorem.** For an accepted repository and a representable current
    time, the retention, retry and lease computations are right exactly when
    the values fit the ranges of `chrono`. -/
theorem durations_iff (c : Chrono) {r : RepoConfig} (hr : r.Accepted) {now : DateTime}
    (hnow : now ≤ c.maxUtc) (gcInterval gcMinInterval : UInt64) (startTime : Option TimeDelta)
    (last startUtc renewedAt : DateTime) :
    DurationsOk c r gcInterval gcMinInterval startTime last now startUtc renewedAt ↔
      DurationsFit c r gcInterval gcMinInterval startTime last now startUtc renewedAt := by
  obtain ⟨hr1, hr2⟩ := validateCleanup_eq_ok.mp hr
  have hage : ∀ d, r.cleanupMaxAgeDays = some d → d ≠ 0 := by
    rintro d hd rfl; exact hr1 hd
  have hun : ∀ d, r.cleanupMaxUnaccessedDays = some d → d ≠ 0 := by
    rintro d hd rfl; exact hr2 hd
  constructor
  · intro h
    exact {
      age := fun d hd => (cutoffOk_iff (hage d hd)).mp (h.age d hd)
      unaccessed := fun d hd => (cutoffOk_iff (hun d hd)).mp (h.unaccessed d hd)
      retry := fun hdue => retryAt_iff.mp (h.retry hdue)
      lease := leaseEnd_iff.mp h.lease }
  · intro h
    exact {
      age := fun d hd => (cutoffOk_iff (hage d hd)).mpr (h.age d hd)
      unaccessed := fun d hd => (cutoffOk_iff (hun d hd)).mpr (h.unaccessed d hd)
      raising := raisingKeeps_of_fits hnow h.age h.unaccessed
      retry := fun hdue => retryAt_iff.mpr (h.retry hdue)
      lease := leaseEnd_iff.mpr h.lease }

/-- Noon of a day in 2026. -/
def sampleNow : DateTime := 1780488000 * secondNs

/-- A repository with a clean-up policy. -/
def sampleRepo (age unaccessed : Option UInt64) : RepoConfig where
  name := "libs"
  store := "main"
  cleanupMaxAgeDays := age
  cleanupMaxUnaccessedDays := unaccessed

/-- The usual settings fit: 90 and 30 days, daily passes. -/
theorem durations_iff_daily :
    DurationsOk chrono (sampleRepo (some 90) (some 30)) 86400 3600 none (sampleNow - dayNs)
      sampleNow sampleNow sampleNow := by
  have hr : (sampleRepo (some 90) (some 30)).Accepted := rfl
  refine (durations_iff chrono hr (by decide) 86400 3600 none _ _ _).mpr ?_
  constructor
  · rintro d ⟨⟩
    exact ⟨by decide, by decide, by decide, by decide⟩
  · rintro d ⟨⟩
    exact ⟨by decide, by decide, by decide, by decide⟩
  · exact fun _ => ⟨by decide, by decide, by decide, by decide⟩
  · exact ⟨by decide, by decide, by decide, by decide⟩

/-- The largest day count and an interval of `2^64 - 1` seconds at a fixed
    hour are accepted. The cut-off lies a day ahead, so an artifact stored this
    instant expires, which a count of one day keeps; a count of `10^12` days
    panics; the retry time lies ahead and the lease is over before it starts. -/
theorem cutoff_wraps :
    (sampleRepo (some 18446744073709551615) none).Accepted ∧
    (∀ x : SettingsExt, (x.parseTime "07:00").isSome →
      Settings.validate x { gcIntervalSecs := some 18446744073709551615,
                            gcStartTime := some "07:00" } = .ok ()) ∧
    cutoff chrono sampleNow 18446744073709551615 = some (sampleNow + dayNs) ∧
    cutoff chrono sampleNow 1000000000000 = none ∧
    retryAt chrono sampleNow 18446744073709551615 = some (sampleNow + 6 * secondNs) ∧
    leaseEnd chrono sampleNow 18446744073709551615 = some (sampleNow - secondNs) ∧
    ¬ RaisingKeeps chrono sampleNow (sampleRepo (some 18446744073709551615) none) ∧
    ¬ DurationsOk chrono (sampleRepo (some 18446744073709551615) none) 18446744073709551615 3600
      (some (25200 * secondNs)) (sampleNow - 2 * dayNs) sampleNow sampleNow sampleNow := by
  have hraise : ¬ RaisingKeeps chrono sampleNow
      (sampleRepo (some 18446744073709551615) none) := by
    intro h
    obtain ⟨reason, hreason⟩ := h (sampleRepo (some 1) none) rfl rfl
      (show (1 : UInt64) ≤ 18446744073709551615 by decide) trivial "a.txt"
      { size := 1, createdAt := sampleNow, updatedAt := sampleNow, lastAccessedAt := sampleNow,
        blobId := none, contentHash := none } sampleNow .maxAge (by decide)
    exact absurd (Option.some.inj hreason) (by cases reason <;> decide)
  refine ⟨rfl, fun x hx => ?_, by decide, by decide, by decide, by decide, hraise,
    fun h => hraise h.raising⟩
  simp [Settings.validate, Option.isNone_iff_eq_none.not.mpr (Option.isSome_iff_ne_none.mp hx)]

end Depot
