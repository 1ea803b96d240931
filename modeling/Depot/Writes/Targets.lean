import Depot.Core.Async

/-!
# Write targets

A write that is addressed to a proxy is routed to one of its members
(`core/src/repo/mod.rs`). A handler then carries two configurations: the one of the
addressed repository and the one of the target.

Results:
* `resolveFormatWriteTarget_found`: what a target can be.
-/

namespace Depot

/-! ## Resolution -/

/-- The name of a format (`records.rs`, lines 543–557). -/
def ArtifactFormat.text : ArtifactFormat → String
  | .raw => "raw"
  | .docker => "docker"
  | .pypi => "pypi"
  | .apt => "apt"
  | .golang => "golang"
  | .helm => "helm"
  | .cargo => "cargo"
  | .yum => "yum"
  | .npm => "npm"

/-- The configurations that `get_repo` finds. -/
abbrev RepoLookup := String → Option RepoConfig

/-- `resolve_write_target` (`repo/mod.rs`, lines 176–195). -/
def resolveWriteTarget (config : RepoConfig) : Except DepotError String :=
  match config.kind with
  | .hosted => .ok config.name
  | .proxy _ (some writeMember) => .ok writeMember
  | .proxy _ none => .error (.notAllowed ("proxy repos require an explicit write_member for PUT " ++
      "uploads; configure one in the repository settings"))
  | .cache _ => .error (.notAllowed "only hosted and proxy repos accept uploads")

/-- A member that a write can be routed to: a hosted repository of the format. -/
def hostedMember (getRepo : RepoLookup) (expected : ArtifactFormat) (member : String) :
    Option (String × RepoConfig) :=
  match getRepo member with
  | some config =>
      if config.kind = .hosted ∧ config.format = expected then some (member, config) else none
  | none => none

/-- `resolve_format_write_target` (`repo/mod.rs`, lines 202–236). -/
def resolveFormatWriteTarget (getRepo : RepoLookup) (config : RepoConfig)
    (expected : ArtifactFormat) : Except DepotError (String × RepoConfig) :=
  match config.kind with
  | .hosted => .ok (config.name, config)
  | .proxy members writeMember =>
      match writeMember with
      | some wm =>
          match getRepo wm with
          | some wmConfig => .ok (wm, wmConfig)
          | none => .error (.notAllowed "write member repo config missing")
      | none =>
          match members.findSome? (hostedMember getRepo expected) with
          | some target => .ok target
          | none => .error (.badRequest ("no hosted " ++ expected.text ++ " member in proxy repo"))
  | .cache _ => .error (.badRequest "only hosted and proxy repos accept uploads")

/-- The target of a PUT upload with its configuration (`artifacts.rs`, lines 1098–1121). -/
def resolvePutTarget (getRepo : RepoLookup) (config : RepoConfig) :
    Except DepotError (String × RepoConfig) := do
  let targetRepo ← resolveWriteTarget config
  if targetRepo = config.name then pure (targetRepo, config)
  else
    match getRepo targetRepo with
    | some target => pure (targetRepo, target)
    | none => .error (.notFound ("target repository '" ++ targetRepo ++ "' not found"))

/-! ## Targets -/

variable {target : String × RepoConfig} {getRepo : RepoLookup}

variable {expected : ArtifactFormat}

theorem hostedMember_eq_some {member : String}
    (h : hostedMember getRepo expected member = some target) :
    target.1 = member ∧ getRepo member = some target.2 ∧ target.2.kind = .hosted ∧
      target.2.format = expected := by
  unfold hostedMember at h
  split at h
  · split_ifs at h with hk
    obtain rfl := Option.some.inj h
    exact ⟨rfl, by assumption, hk⟩
  · cases h

/-- A target is the repository itself or a repository that is found under its name. -/
theorem resolveFormatWriteTarget_found {config : RepoConfig}
    (h : resolveFormatWriteTarget getRepo config expected = .ok target) :
    target = (config.name, config) ∨ getRepo target.1 = some target.2 := by
  unfold resolveFormatWriteTarget at h
  split at h
  · exact .inl (Except.ok.inj h).symm
  · split at h
    · split at h
      · obtain rfl := Except.ok.inj h
        exact .inr (by assumption)
      · cases h
    · split at h
      next found hfind =>
        obtain rfl := Except.ok.inj h
        obtain ⟨member, -, hmember⟩ := List.exists_of_findSome?_eq_some hfind
        obtain ⟨hname, hget, -⟩ := hostedMember_eq_some hmember
        exact .inr (hname ▸ hget)
      next => cases h
  · cases h

theorem resolvePutTarget_found {config : RepoConfig}
    (h : resolvePutTarget getRepo config = .ok target) :
    target = (config.name, config) ∨ getRepo target.1 = some target.2 := by
  unfold resolvePutTarget at h
  cases hname : resolveWriteTarget config with
  | error e =>
    rw [hname] at h
    cases h
  | ok name =>
    rw [hname] at h
    change (if name = config.name then pure (name, config) else _) = _ at h
    split_ifs at h with heq
    · exact .inl ((Except.ok.inj h).symm.trans (by rw [heq]))
    · split at h
      · obtain rfl := Except.ok.inj h
        exact .inr (by assumption)
      · cases h

end Depot
