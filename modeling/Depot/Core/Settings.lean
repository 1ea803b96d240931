import Depot.Core.Records
import Mathlib.Data.String.Basic

/-!
# Settings and repository requests

The settings an administrator may store (`server/src/server/config/settings.rs`)
and the clean-up policy of a repository request
(`server/src/server/api/conversions.rs`), with the checks that decide whether
they are accepted.

Results:
* `Settings.default_validate`: the default settings pass their own check.
* `validateCleanup_eq_ok`: a clean-up policy is accepted exactly when no day
  count is zero.
-/

namespace Depot

/-! ## Settings -/

/-- `RateLimitConfig`. -/
structure RateLimitConfig where
  requestsPerSecond : UInt64
  burstSize : UInt32
  deriving DecidableEq

/-- `CorsConfig`, with the one field that is checked. -/
structure CorsConfig where
  allowedMethods : List String
  deriving DecidableEq

/-- `Settings`, with the fields `validate` and the garbage collector read. -/
structure Settings where
  cors : Option CorsConfig := none
  rateLimit : Option RateLimitConfig := none
  gcIntervalSecs : Option UInt64 := some 86400
  jwtExpirySecs : UInt64 := 86400
  jwtRotationIntervalSecs : UInt64 := 604800
  gcMaxOrphanCandidates : Option ℕ := some 1000000
  gcMinIntervalSecs : Option UInt64 := some 3600
  gcStartTime : Option String := none
  baseUrl : Option String := none
  deriving DecidableEq

/-- The parsers and the formatter of other crates that `validate` calls. -/
structure SettingsExt where
  /-- `axum::http::Method::from_str` accepts the name. -/
  isMethod : String → Bool
  /-- `NaiveTime::parse_from_str(t, "%H:%M")`, as nanoseconds after midnight. -/
  parseTime : String → Option TimeDelta
  /-- The `{:?}` form of a string. -/
  debug : String → String

/-- `char::is_whitespace`: the code points with the property `White_Space`. -/
def isWhitespace (c : Char) : Bool :=
  let n := c.toNat
  (9 ≤ n && n ≤ 13) || n = 0x20 || n = 0x85 || n = 0xA0 || n = 0x1680 ||
    (0x2000 ≤ n && n ≤ 0x200A) || n = 0x2028 || n = 0x2029 || n = 0x202F || n = 0x205F || n = 0x3000

/-- `str::trim`. -/
def trim (s : String) : String := ((s.dropWhile isWhitespace).dropEndWhile isWhitespace).toString

/-- `Settings::validate` (`settings.rs`, lines 182–254): all errors at once. -/
def Settings.validate (x : SettingsExt) (s : Settings) : Except (List String) Unit :=
  let rateErrors :=
    match s.rateLimit with
    | some rl =>
        (if rl.requestsPerSecond = 0 then ["rate_limit.requests_per_second must be > 0"] else []) ++
        (if rl.burstSize = 0 then ["rate_limit.burst_size must be > 0"] else [])
    | none => []
  let corsErrors :=
    match s.cors with
    | some cors => (cors.allowedMethods.filter fun method => !x.isMethod method).map fun method =>
        "cors.allowed_methods: " ++ x.debug method ++ " is not a valid HTTP method"
    | none => []
  let jwtErrors :=
    (if s.jwtExpirySecs < 60 then ["jwt_expiry_secs must be >= 60"] else []) ++
    (if s.jwtRotationIntervalSecs < 3600 then ["jwt_rotation_interval_secs must be >= 3600"]
      else []) ++
    (if s.jwtRotationIntervalSecs < s.jwtExpirySecs then
      ["jwt_rotation_interval_secs should be >= jwt_expiry_secs"] else [])
  let gcErrors :=
    (match s.gcMinIntervalSecs with
      | some min => if min < 60 then ["gc_min_interval_secs must be >= 60"] else []
      | none => []) ++
    (match s.gcIntervalSecs, s.gcMinIntervalSecs with
      | some interval, some min =>
          if interval < min then ["gc_interval_secs must be >= gc_min_interval_secs"] else []
      | _, _ => []) ++
    (match s.gcStartTime with
      | some t =>
          if (x.parseTime t).isNone then
            ["gc_start_time must be a UTC time of day in HH:MM form (e.g. \"07:00\"), got " ++
              x.debug t]
          else []
      | none => [])
  let baseErrors :=
    match s.baseUrl with
    | some base =>
        let trimmed := trim base
        let scheme := trimmed.startsWith "http://" || trimmed.startsWith "https://"
        let host := ((trimmed.splitOn "://").tail.intersperse "://").foldl (· ++ ·) ""
        let host := (host.dropEndWhile '/').toString
        if !scheme || host.isEmpty || host.contains '/' then
          ["base_url must be an absolute origin like https://depot.example.com " ++
            "(scheme://host[:port], no path)"]
        else []
    | none => []
  match rateErrors ++ corsErrors ++ jwtErrors ++ gcErrors ++ baseErrors with
  | [] => .ok ()
  | errors => .error errors

/-- The default settings pass their own check. -/
theorem Settings.default_validate (x : SettingsExt) : ({} : Settings).validate x = .ok () := rfl

/-! ## Clean-up policies -/

/-- The checks of the day counts in `build_repo_kind_and_format`
    (`conversions.rs`, lines 112–121), which `create_repo` calls; `update_repo`
    repeats them for the counts it is given (`repositories.rs`, lines 557–563). -/
def validateCleanup (cleanupMaxAgeDays cleanupMaxUnaccessedDays : Option UInt64) :
    Except String Unit :=
  if cleanupMaxAgeDays = some 0 then .error "cleanup_max_age_days must be >= 1"
  else if cleanupMaxUnaccessedDays = some 0 then
    .error "cleanup_max_unaccessed_days must be >= 1"
  else .ok ()

theorem validateCleanup_eq_ok {age unaccessed : Option UInt64} :
    validateCleanup age unaccessed = .ok () ↔ age ≠ some 0 ∧ unaccessed ≠ some 0 := by
  rw [validateCleanup]
  split_ifs with h1 h2
  · simp [h1]
  · simp [h2]
  · simp [h1, h2]

/-- An accepted repository has passed the check. -/
def RepoConfig.Accepted (r : RepoConfig) : Prop :=
  validateCleanup r.cleanupMaxAgeDays r.cleanupMaxUnaccessedDays = .ok ()

end Depot
