import Depot.Index.Lines
import Depot.Writes.Requests

/-!
# Which requests the formats handle

Whether a request goes to the dispatcher of its format is decided by `is_format_write_path`
(`server/src/server/api/artifacts.rs`, lines 156–187), before the `try_handle_repository_write`
of the format looks at it. A request that the dispatcher does not know then is answered with 404
and reaches no other handler.

Results:
* `dispatch_agrees_iff`: the two agree unless an npm name lacks its scope or its package, or what
  is yanked is not a name and a version.
-/

namespace Depot

open Lib List

/-! ## Handlers -/

/-- What a dispatcher does with a request. -/
inductive WriteHandler where
  | upload
  | snapshot
  | whoami
  | login
  | publish (package : String)
  | cratePublish
  | yank (name version : String)

/-- The tests of `try_handle_repository_write` of each format: `npm/src/api.rs`, lines 112–211;
    `cargo/src/api.rs`, lines 174–230; `pypi/src/api.rs`, lines 149–162; `golang/src/api.rs`,
    lines 54–67; `helm/src/api.rs`, lines 78–91; `apt/src/api.rs`, lines 155–171;
    `yum/src/api.rs`, lines 54–70. -/
def writeHandler (format : ArtifactFormat) (method path : String) : Option WriteHandler :=
  match format with
  | .apt | .yum =>
      if method = "POST" ∧ path = "upload" then some .upload
      else if method = "POST" ∧ path = "snapshots" then some .snapshot
      else none
  | .golang | .helm => if method = "POST" ∧ path = "upload" then some .upload else none
  | .pypi => if method = "POST" ∧ (path = "" ∨ path = "/") then some .upload else none
  | .npm =>
      if method = "GET" ∧ path = "-/whoami" then some .whoami
      else if method = "PUT" ∧ (dropStart "-/user/" path).isSome then some .login
      else if method = "PUT" then (npmPublishedPackage path).map .publish
      else none
  | .cargo =>
      if method = "PUT" ∧ path = "api/v1/crates/new" then some .cratePublish
      else (if method = "DELETE" then crateRoute path "/yank"
        else if method = "PUT" then crateRoute path "/unyank"
        else none).map fun e => .yank e.1 e.2
  | _ => none

/-! ## Segments -/

theorem dropEnd_isSome {stop text : String} :
    (dropEnd stop text).isSome = true ↔ stop.toList <:+ text.toList := by
  unfold dropEnd
  split_ifs with h
  · simp [h]
  · simp [h]

/-- Two segments with a slash between them. -/
def TwoSegments (cs : List Char) : Prop :=
  ∃ a b, a ≠ [] ∧ b ≠ [] ∧ '/' ∉ a ∧ '/' ∉ b ∧ cs = a ++ '/' :: b

variable {cs : List Char}

theorem twoSegments_iff : TwoSegments cs ↔ ∃ a b, cs.splitOn '/' = [a, b] ∧ ¬(a = [] ∨ b = []) := by
  constructor
  · rintro ⟨a, b, ha, hb, hslash, hslash', rfl⟩
    refine ⟨a, b, ?_, not_or_intro ha hb⟩
    rw [splitOn_append_cons_self_of_not_mem hslash, splitOn_eq_singleton hslash']
  · rintro ⟨a, b, hsplit, hne⟩
    rw [not_or] at hne
    have hjoin : ['/'].intercalate (cs.splitOn '/') = cs := intercalate_splitOn '/'
    have hmem : ∀ part ∈ [a, b], '/' ∉ part := fun part hpart =>
      notMem_of_mem_splitOn (hsplit ▸ hpart)
    rw [hsplit] at hjoin
    exact ⟨a, b, hne.1, hne.2, hmem a (by simp), hmem b (by simp), by simpa using hjoin.symm⟩

theorem twoSegments_of_splitOn {a b : List Char} (h : cs.splitOn '/' = [a, b]) :
    TwoSegments cs ↔ ¬(a = [] ∨ b = []) := by
  rw [twoSegments_iff, h]
  simp

theorem not_twoSegments (h : ∀ a b, cs.splitOn '/' = [a, b] → False) : ¬TwoSegments cs := by
  rintro hsegments
  obtain ⟨a, b, hsplit, -⟩ := twoSegments_iff.mp hsegments
  exact h a b hsplit

theorem TwoSegments.count (h : TwoSegments cs) : cs.count '/' = 1 := by
  obtain ⟨a, b, -, -, ha, hb, rfl⟩ := h
  rw [count_append, count_cons_self, count_eq_zero.mpr ha, count_eq_zero.mpr hb]

/-- What is yanked is a name and a version. -/
theorem crateRoute_isSome {path last : String} : (crateRoute path last).isSome = true ↔
    ∃ middle, TwoSegments middle ∧
      path.toList = "api/v1/crates/".toList ++ (middle ++ last.toList) := by
  unfold crateRoute
  cases hpre : "api/v1/crates/".toList.isPrefixOf? path.toList with
  | none =>
    refine ⟨nofun, ?_⟩
    rintro ⟨middle, -, hpath⟩
    rw [isPrefixOf?_eq_some_iff_append_eq.mpr hpath.symm] at hpre
    cases hpre
  | some rest =>
    have hpath := isPrefixOf?_eq_some_iff_append_eq.mp hpre
    dsimp only
    cases hsuf : last.toList.isSuffixOf? rest with
    | none =>
      refine ⟨nofun, ?_⟩
      rintro ⟨middle, -, hmiddle⟩
      rw [← hpath] at hmiddle
      rw [isSuffixOf?_eq_some_iff_append_eq.mpr (append_cancel_left hmiddle).symm] at hsuf
      cases hsuf
    | some middle =>
      have hrest := isSuffixOf?_eq_some_iff_append_eq.mp hsuf
      have hmiddle : (∃ other, TwoSegments other ∧ path.toList =
          "api/v1/crates/".toList ++ (other ++ last.toList)) ↔ TwoSegments middle := by
        rw [← hpath, ← hrest]
        constructor
        · rintro ⟨other, hother, heq⟩
          rwa [append_cancel_right (append_cancel_left heq)]
        · exact fun h => ⟨middle, h, rfl⟩
      rw [hmiddle]
      dsimp only
      split
      · rename_i hsplit
        rw [twoSegments_of_splitOn hsplit]
        split_ifs with hne
        · exact iff_of_false nofun (not_not_intro hne)
        · exact iff_of_true rfl hne
      · rename_i hno
        exact iff_of_false nofun (not_twoSegments hno)

/-- What is published under a name with an `@` is a scope and a package. -/
theorem npmPublishedPackage_scoped {path : String} {rest : List Char}
    (h : path.toList = '@' :: rest) :
    (npmPublishedPackage path).isSome = true ↔ TwoSegments rest := by
  have hdrop : dropStart "@" path = some (String.ofList rest) := by
    rw [← String.ofList_toList (s := path), h]
    exact (congrArg _ (@String.ofList_append ['@'] rest)).trans (dropStart_append "@" _)
  rw [npmPublishedPackage, hdrop]
  dsimp only
  rw [String.toList_ofList]
  split
  · rename_i hsplit
    rw [twoSegments_of_splitOn hsplit]
    split_ifs with hne
    · exact iff_of_false nofun (not_not_intro hne)
    · exact iff_of_true rfl hne
  · rename_i hno
    exact iff_of_false nofun (not_twoSegments hno)

/-! ## The predicate and the dispatchers -/

/-- A path with the ends of one to yank or unyank, and no name and version between them. -/
def MisjudgedYank (path last : String) : Prop :=
  "api/v1/crates/".toList <+: path.toList ∧ last.toList <:+ path.toList ∧
    ¬∃ middle, TwoSegments middle ∧
      path.toList = "api/v1/crates/".toList ++ (middle ++ last.toList)

/-- An npm name with an `@` and no more than one slash that is not a scope and a package, or a
    path of Cargo to yank or unyank what is not a name and a version. -/
def Misjudged (format : ArtifactFormat) (method path : String) : Prop :=
  match format with
  | .npm => method = "PUT" ∧
      ∃ rest, path.toList = '@' :: rest ∧ rest.count '/' ≤ 1 ∧ ¬TwoSegments rest
  | .cargo => (method = "DELETE" ∧ MisjudgedYank path "/yank") ∨
      (method = "PUT" ∧ MisjudgedYank path "/unyank")
  | _ => False

theorem npm_agrees_iff (method path : String) : (isFormatWritePath .npm method path = true ↔
    (writeHandler .npm method path).isSome = true) ↔ ¬Misjudged .npm method path := by
  by_cases hput : method = "PUT"
  · subst hput
    by_cases hat : ∃ rest, path.toList = '@' :: rest
    · obtain ⟨rest, hrest⟩ := hat
      have hlogin : (dropStart "-/user/" path).isSome = false := by
        rw [Bool.eq_false_iff, Ne, dropStart_isSome, hrest]
        rintro ⟨tail, htail⟩
        cases htail
      have hscope : (dropStart "@" path).isSome = true := by
        rw [dropStart_isSome, hrest]
        exact prefix_append ['@'] rest
      have hpredicate : isFormatWritePath .npm "PUT" path = true ↔ rest.count '/' ≤ 1 := by
        have hempty : path ≠ "" := by
          rintro rfl
          cases hrest
        simp [isFormatWritePath, hlogin, hscope, hempty, hrest]
        omega
      have hhandler : (writeHandler .npm "PUT" path).isSome = true ↔ TwoSegments rest := by
        simp [writeHandler, hlogin, npmPublishedPackage_scoped hrest]
      have hmisjudged : Misjudged .npm "PUT" path ↔
          rest.count '/' ≤ 1 ∧ ¬TwoSegments rest := by
        simp [Misjudged, hrest]
      have hcount : TwoSegments rest → rest.count '/' ≤ 1 := fun h => h.count.le
      rw [hpredicate, hhandler, hmisjudged]
      tauto
    · have hscope : dropStart "@" path = none := by
        rw [← Option.not_isSome_iff_eq_none, dropStart_isSome]
        rintro ⟨rest, hrest⟩
        exact hat ⟨rest, hrest.symm⟩
      have hmisjudged : ¬Misjudged .npm "PUT" path := by
        rintro ⟨-, rest, hrest, -⟩
        exact hat ⟨rest, hrest⟩
      by_cases hlogin : (dropStart "-/user/" path).isSome = true
      · simp [isFormatWritePath, writeHandler, hmisjudged, hlogin]
      · simp [isFormatWritePath, writeHandler, hmisjudged, hlogin, hscope, npmPublishedPackage,
          count_eq_zero]
  · simp [isFormatWritePath, writeHandler, Misjudged, hput]

/-- A path to yank or unyank is recognised by its ends alone. -/
theorem yank_agrees_iff (path last : String) :
    ((dropStart "api/v1/crates/" path).isSome = true ∧ (dropEnd last path).isSome = true ↔
      (crateRoute path last).isSome = true) ↔ ¬MisjudgedYank path last := by
  rw [dropStart_isSome, dropEnd_isSome, crateRoute_isSome, MisjudgedYank]
  constructor
  · rintro hiff ⟨hpre, hsuf, hno⟩
    exact hno (hiff.mp ⟨hpre, hsuf⟩)
  · intro hnot
    constructor
    · rintro ⟨hpre, hsuf⟩
      by_contra hno
      exact hnot ⟨hpre, hsuf, hno⟩
    · rintro ⟨middle, -, hpath⟩
      refine ⟨⟨_, hpath.symm⟩, "api/v1/crates/".toList ++ middle, ?_⟩
      rw [hpath, append_assoc]

theorem cargo_agrees_iff (method path : String) : (isFormatWritePath .cargo method path = true ↔
    (writeHandler .cargo method path).isSome = true) ↔ ¬Misjudged .cargo method path := by
  by_cases hdelete : method = "DELETE"
  · subst hdelete
    simpa [isFormatWritePath, writeHandler, Misjudged] using yank_agrees_iff path "/yank"
  · by_cases hput : method = "PUT"
    · subst hput
      by_cases hnew : path = "api/v1/crates/new"
      · subst hnew
        have hsuf : ¬MisjudgedYank "api/v1/crates/new" "/unyank" := fun h =>
          absurd h.2.1 (by decide)
        simp [isFormatWritePath, writeHandler, Misjudged, hsuf]
      · simpa [isFormatWritePath, writeHandler, Misjudged, hnew] using
          yank_agrees_iff path "/unyank"
    · simp [isFormatWritePath, writeHandler, Misjudged, hdelete, hput]

/-- **Main theorem.** The predicate recognises exactly the requests that the format handles,
    unless the path is one of the two kinds. -/
theorem dispatch_agrees_iff (format : ArtifactFormat) (method path : String) :
    (isFormatWritePath format method path = true ↔
      (writeHandler format method path).isSome = true) ↔ ¬Misjudged format method path := by
  cases format with
  | npm => exact npm_agrees_iff method path
  | cargo => exact cargo_agrees_iff method path
  | raw => simp [isFormatWritePath, writeHandler, Misjudged]
  | docker => simp [isFormatWritePath, writeHandler, Misjudged]
  | pypi => simp [isFormatWritePath, writeHandler, Misjudged]
  | golang => simp [isFormatWritePath, writeHandler, Misjudged]
  | helm => simp [isFormatWritePath, writeHandler, Misjudged]
  | apt =>
    simp only [isFormatWritePath, writeHandler, Misjudged, not_false_eq_true, iff_true]
    split_ifs <;> simp_all
  | yum =>
    simp only [isFormatWritePath, writeHandler, Misjudged, not_false_eq_true, iff_true]
    split_ifs <;> simp_all

/-- The name of a scope alone is recognised, and not handled. -/
theorem scope_misjudged : ¬∀ (format : ArtifactFormat) (method path : String),
    isFormatWritePath format method path = true ↔
      (writeHandler format method path).isSome = true := fun hall =>
  absurd ((hall .npm "PUT" "@scope").mp (by decide +kernel)) (by decide +kernel)

end Depot
