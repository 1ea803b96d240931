import Depot.Core.Async
import Depot.Core.Paths

/-!
# Key texts

The texts that a store sees for a key (`core/src/store/keys.rs`, lines 62–212), and which paths
have the same keys. What a path says are its segments; the slashes around them are redundant as
soon as there is more than one, or one at an end.

Results:
* `normalizeChars_slow`: the fast path of `normalize_path` gives what the slow path would.
* `normalizePath_eq_iff`: paths are normalised to the same path exactly when they have the same
  segments.
* `pkText_inj`: a partition key determines the scope and the shard.
* `keys_faithful`: keys are the same for the same segments, and differ for different ones.
-/

namespace Depot

open List

/-! ## The slow path -/

/-- The slow path of `normalize_path` (lines 128–142), taken on every path. -/
def slowPath (path : String) : String :=
  String.ofList (collapseSlashes false (trimSlashes path.toList))

theorem collapse_single {cs : List Char} (h : ¬ ['/', '/'] <:+: cs) :
    collapseSlashes false cs = cs ∧ (cs.head? ≠ some '/' → collapseSlashes true cs = cs) := by
  induction cs with
  | nil => exact ⟨rfl, fun _ => rfl⟩
  | cons c cs ih =>
    rw [infix_cons_iff, not_or] at h
    obtain ⟨hfalse, htrue⟩ := ih h.2
    by_cases hc : c = '/'
    · have hhead : cs.head? ≠ some '/' := by
        intro hhead
        obtain ⟨rest, rfl⟩ := head?_eq_some_iff.mp hhead
        exact h.1 ⟨rest, by rw [hc]; rfl⟩
      refine ⟨?_, fun hne => absurd (by rw [hc]; rfl) hne⟩
      rw [collapseSlashes, if_pos hc, if_neg Bool.false_ne_true, htrue hhead, hc]
    · refine ⟨?_, fun _ => ?_⟩
      · rw [collapseSlashes, if_neg hc, hfalse]
      · rw [collapseSlashes, if_neg hc, hfalse]

/-- The slow path changes nothing in a path that takes the fast path. -/
theorem normalizeChars_slow (cs : List Char) :
    normalizeChars cs = collapseSlashes false (trimSlashes cs) := by
  unfold normalizeChars
  dsimp only
  split_ifs with hdouble
  · rfl
  · exact (collapse_single hdouble).1.symm

theorem normalizePath_slow (path : String) : normalizePath path = slowPath path := by
  unfold normalizePath slowPath
  rw [normalizeChars_slow]

/-! ## Segments -/

/-- The segments of a path: what stands between slashes. -/
def segments (cs : List Char) : List (List Char) := (cs.splitOn '/').filter (· ≠ [])

/-- Two paths that differ only in redundant slashes. -/
def SameSegments (p q : String) : Prop := segments p.toList = segments q.toList

instance (p q : String) : Decidable (SameSegments p q) := inferInstanceAs (Decidable (_ = _))

theorem splitOn_cons (c : Char) (cs : List Char) :
    (c :: cs).splitOn '/' =
      if c = '/' then [] :: cs.splitOn '/' else (cs.splitOn '/').modifyHead (List.cons c) := by
  unfold splitOn
  rw [splitOnP_cons_eq_if_modifyHead]
  by_cases hc : c = '/' <;> simp [hc]

/-- The segments of a path after some characters of the first one. -/
def segmentsFrom (cur : List Char) : List Char → List (List Char)
  | [] => [cur].filter (· ≠ [])
  | c :: cs =>
      if c = '/' then [cur].filter (· ≠ []) ++ segmentsFrom [] cs else segmentsFrom (cur ++ [c]) cs

theorem segmentsFrom_eq (cur cs : List Char) :
    segmentsFrom cur cs = ((cs.splitOn '/').modifyHead (cur ++ ·)).filter (· ≠ []) := by
  induction cs generalizing cur with
  | nil => simp [segmentsFrom, splitOn]
  | cons c cs ih =>
    rw [segmentsFrom, splitOn_cons]
    split_ifs with hc
    · have hid : (cs.splitOn '/').modifyHead ([] ++ ·) = cs.splitOn '/' := by
        cases cs.splitOn '/' <;> rfl
      rw [ih, hid, modifyHead_cons, append_nil, ← filter_append, singleton_append]
    · rw [ih, modifyHead_modifyHead]
      congr 2
      funext s
      simp

theorem segments_eq (cs : List Char) : segments cs = segmentsFrom [] cs := by
  rw [segmentsFrom_eq]
  unfold segments
  congr 1
  cases cs.splitOn '/' <;> simp

theorem segmentsFrom_append_slash (cur cs ds : List Char) :
    segmentsFrom cur (cs ++ '/' :: ds) = segmentsFrom cur cs ++ segmentsFrom [] ds := by
  induction cs generalizing cur with
  | nil => simp [segmentsFrom]
  | cons c cs ih =>
    rw [cons_append, segmentsFrom, segmentsFrom]
    split_ifs
    · rw [ih, append_assoc]
    · exact ih _

theorem segments_append_slash (cs ds : List Char) :
    segments (cs ++ '/' :: ds) = segments cs ++ segments ds := by
  rw [segments_eq, segments_eq, segments_eq, segmentsFrom_append_slash]

theorem segmentsFrom_slash (cs : List Char) : segmentsFrom [] ('/' :: cs) = segmentsFrom [] cs := by
  rw [segmentsFrom, if_pos rfl]
  rfl

/-- Collapsing slashes keeps the segments. -/
theorem segmentsFrom_collapse (cs : List Char) :
    (∀ cur, segmentsFrom cur (collapseSlashes false cs) = segmentsFrom cur cs) ∧
      segmentsFrom [] (collapseSlashes true cs) = segmentsFrom [] cs := by
  induction cs with
  | nil => exact ⟨fun _ => rfl, rfl⟩
  | cons c cs ih =>
    by_cases hc : c = '/'
    · subst hc
      refine ⟨fun cur => ?_, ?_⟩
      · rw [collapseSlashes, if_pos rfl, if_neg Bool.false_ne_true, segmentsFrom, if_pos rfl, ih.2,
          segmentsFrom, if_pos rfl]
      · rw [collapseSlashes, if_pos rfl, if_pos rfl, ih.2, segmentsFrom_slash]
    · refine ⟨fun cur => ?_, ?_⟩
      · rw [collapseSlashes, if_neg hc, segmentsFrom, if_neg hc, ih.1, segmentsFrom, if_neg hc]
      · rw [collapseSlashes, if_neg hc, segmentsFrom, if_neg hc, ih.1, segmentsFrom, if_neg hc]

theorem segmentsFrom_dropWhile (cs : List Char) :
    segmentsFrom [] (cs.dropWhile (· = '/')) = segmentsFrom [] cs := by
  induction cs with
  | nil => rfl
  | cons c cs ih =>
    rw [dropWhile_cons]
    split_ifs with hc
    · rw [ih, of_decide_eq_true hc, segmentsFrom_slash]
    · rfl

theorem segmentsFrom_append_slashes {b : List Char} (hb : ∀ c ∈ b, c = '/') (cur cs : List Char) :
    segmentsFrom cur (cs ++ b) = segmentsFrom cur cs := by
  induction cs generalizing cur with
  | nil =>
    induction b generalizing cur with
    | nil => rfl
    | cons c b ih =>
      have hrest : segmentsFrom [] b = [] := ih (fun d hd => hb d (mem_cons_of_mem c hd)) []
      obtain rfl := hb c mem_cons_self
      show (if '/' = '/' then [cur].filter (· ≠ []) ++ segmentsFrom [] b else _) = _
      rw [if_pos rfl, hrest, append_nil]
      rfl
  | cons c cs ih => rw [cons_append, segmentsFrom, segmentsFrom, ih, ih]

/-- Normalising a path keeps its segments. -/
theorem segments_normalizeChars (cs : List Char) : segments (normalizeChars cs) = segments cs := by
  have hslashes : ∀ d : List Char, ∀ c ∈ d.rtakeWhile (· = '/'), c = '/' := fun d c hc =>
    of_decide_eq_true (mem_rtakeWhile_imp (p := (· = '/')) hc)
  have htrim : segmentsFrom [] (trimSlashes cs) = segmentsFrom [] cs := by
    rw [← segmentsFrom_dropWhile cs]
    conv_rhs => rw [← rdropWhile_append_rtakeWhile (p := (· = '/'))
      (l := cs.dropWhile (· = '/'))]
    rw [segmentsFrom_append_slashes (hslashes _)]
    rfl
  rw [segments_eq, segments_eq, normalizeChars_slow, (segmentsFrom_collapse _).1, htrim]

/-! ## Clean paths and their segments -/

/-- Segments with a slash between any two. -/
def joinSlash (ss : List (List Char)) : List Char := ['/'].intercalate ss

theorem joinSlash_cons (s : List Char) {ss : List (List Char)} (h : ss ≠ []) :
    joinSlash (s :: ss) = s ++ '/' :: joinSlash ss := by
  cases ss with
  | nil => exact absurd rfl h
  | cons t ss => simp [joinSlash, intercalate]

theorem joinSlash_segmentsFrom {cur cs : List Char} (hhead : cur = [] → cs.head? ≠ some '/')
    (hlast : cs.getLast? ≠ some '/') (hdouble : ¬ ['/', '/'] <:+: cs) :
    joinSlash (segmentsFrom cur cs) = cur ++ cs := by
  induction cs generalizing cur with
  | nil =>
    rw [append_nil]
    unfold segmentsFrom joinSlash
    by_cases hcur : cur = []
    · simp [hcur]
    · simp [hcur, intercalate]
  | cons c cs ih =>
    rw [infix_cons_iff, not_or] at hdouble
    by_cases hc : c = '/'
    · have hcur : cur ≠ [] := fun hcur => hhead hcur (by rw [hc]; rfl)
      have hne : cs ≠ [] := by
        intro hnil
        rw [hc, hnil] at hlast
        exact hlast rfl
      have hhead' : cs.head? ≠ some '/' := by
        intro hh
        obtain ⟨rest, rfl⟩ := head?_eq_some_iff.mp hh
        exact hdouble.1 ⟨rest, by rw [hc]; rfl⟩
      have hrest : joinSlash (segmentsFrom [] cs) = cs := by
        rw [getLast?_cons_of_ne_nil hne] at hlast
        exact ih (fun _ => hhead') hlast hdouble.2
      have hsegs : segmentsFrom [] cs ≠ [] := by
        intro hnil
        rw [hnil] at hrest
        exact hne hrest.symm
      have hfirst : [cur].filter (· ≠ []) = [cur] := by simp [hcur]
      rw [segmentsFrom, if_pos hc, hfirst, singleton_append, joinSlash_cons cur hsegs, hrest, hc]
    · have hlast' : cs.getLast? ≠ some '/' := by
        intro hl
        have hne : cs ≠ [] := by
          intro hnil
          rw [hnil] at hl
          cases hl
        rw [getLast?_cons_of_ne_nil hne] at hlast
        exact hlast hl
      have hcur : cur ++ [c] = [] → cs.head? ≠ some '/' := fun h => absurd h (by simp)
      rw [segmentsFrom, if_neg hc, ih hcur hlast' hdouble.2, append_assoc, singleton_append]

/-- A clean path is its segments with a slash between any two. -/
theorem joinSlash_segments {cs : List Char} (h : CleanChars cs) : joinSlash (segments cs) = cs := by
  rw [segments_eq, joinSlash_segmentsFrom (fun _ => h.head) h.last h.double, nil_append]

/-- Paths are normalised to the same path exactly when they have the same segments. -/
theorem normalizePath_eq_iff (p q : String) :
    normalizePath p = normalizePath q ↔ SameSegments p q := by
  unfold normalizePath SameSegments
  rw [String.ofList_inj]
  constructor
  · intro h
    rw [← segments_normalizeChars p.toList, h, segments_normalizeChars]
  · intro h
    rw [← joinSlash_segments (clean_normalizeChars p.toList),
      ← joinSlash_segments (clean_normalizeChars q.toList), segments_normalizeChars,
      segments_normalizeChars, h]

/-- **Main theorem.** `normalize_path` gives the one clean path with the segments of the path. -/
theorem normalizePath_eq_clean_iff (p q : String) :
    normalizePath p = q ↔ CleanPath q ∧ SameSegments p q := by
  constructor
  · rintro rfl
    exact ⟨clean_normalizePath p, (normalizePath_eq_iff _ _).mp (normalizePath_idem p).symm⟩
  · rintro ⟨hclean, hsame⟩
    rw [(normalizePath_eq_iff p q).mpr hsame, normalizePath, normalizeChars_clean hclean,
      String.ofList_toList]

/-! ## Texts -/

/-- The name of a table (lines 15–26). -/
def Table.text : Table → String
  | .repos => "repos"
  | .artifacts => "artifacts"
  | .blobs => "blobs"
  | .metadata => "meta"
  | .stores => "stores"
  | .dirEntries => "dir_entries"
  | .uploadSessions => "upload_sessions"
  | .leases => "leases"

/-- The text of a partition key: `SINGLE_PK` (line 81), or what `sharded_pk` and
    `artifact_shard_pk` write (lines 62–68, 96–100). -/
def Pk.text : Pk → String
  | .single => "0"
  | .sharded scope shard => scope ++ "/" ++ shard.repr

/-- `KeyTriple` (line 48). -/
def Key.triple (k : Key) : String × String × String := (k.part.table.text, k.part.pk.text, k.sk)

/-- The directory to which the blob of an artifact is counted: the partition of its entry and its
    path, as `dir_changed` computes them (`core/src/update.rs`, lines 137–141). -/
def dirDeltaKey (shardOf : String → ℕ) (repo path : String) : String × String :=
  let dirPath := parentDir (normalizePath path)
  ((Pk.sharded repo (shardOf (treeParent dirPath))).text, dirPath)

theorem slash_notMem_repr (n : ℕ) : '/' ∉ n.repr.toList := by
  intro h
  rw [Nat.toList_repr] at h
  have hdigit := Nat.isDigit_of_mem_toDigits (by omega) (by omega) h
  revert hdigit
  decide

theorem repr_injective {m n : ℕ} (h : m.repr = n.repr) : m = n := by
  have hlist := congrArg String.toList h
  rw [Nat.toList_repr, Nat.toList_repr] at hlist
  rw [← Nat.ofDigitChars_toDigits (by omega) (by omega) (b := 10) (n := m), hlist,
    Nat.ofDigitChars_toDigits (by omega) (by omega)]

/-- A partition key determines the scope and the shard. -/
theorem pkText_inj {scope scope' : String} {shard shard' : ℕ}
    (h : (Pk.sharded scope shard).text = (Pk.sharded scope' shard').text) :
    scope = scope' ∧ shard = shard' := by
  have hlist := congrArg String.toList h
  unfold Pk.text at hlist
  rw [String.toList_append, String.toList_append, String.toList_append, String.toList_append,
    append_assoc, append_assoc] at hlist
  have hsplit := congrArg splitLast hlist
  have hslash : "/".toList = ['/'] := rfl
  rw [hslash, singleton_append, singleton_append, splitLast_append (slash_notMem_repr _),
    splitLast_append (slash_notMem_repr _)] at hsplit
  obtain ⟨hscope, hshard⟩ := Prod.mk.inj hsplit
  exact ⟨String.toList_inj.mp (Option.some.inj hscope),
    repr_injective (String.toList_inj.mp hshard)⟩

/-! ## Keys -/

section

variable (shardOf : String → ℕ) {repo repo' p q : String}

theorem artifactKey_inj (hp : normalizePath p = p) (hq : normalizePath q = q)
    (h : (artifactKey shardOf repo p).triple = (artifactKey shardOf repo' q).triple) :
    repo = repo' ∧ p = q := by
  unfold artifactKey Key.triple at h
  rw [hp, hq] at h
  obtain ⟨_, htail⟩ := Prod.mk.inj h
  obtain ⟨hpk, hsk⟩ := Prod.mk.inj htail
  exact ⟨(pkText_inj hpk).1, hsk⟩

theorem treeEntryKey_inj (hp : normalizePath p = p) (hq : normalizePath q = q) (hnul : NulFree p)
    (h : (treeEntryKey shardOf repo p).triple = (treeEntryKey shardOf repo' q).triple) :
    repo = repo' ∧ p = q := by
  unfold treeEntryKey Key.triple at h
  rw [hp, hq] at h
  obtain ⟨_, htail⟩ := Prod.mk.inj h
  obtain ⟨hpk, hsk⟩ := Prod.mk.inj htail
  have hcleanp : CleanPath p := hp ▸ clean_normalizePath p
  have hcleanq : CleanPath q := hq ▸ clean_normalizePath q
  exact ⟨(pkText_inj hpk).1, treeSortKey_inj hcleanp hcleanq hnul hsk⟩

end

/-- **Main theorem.** Normalising is idempotent, and its fast path agrees with the slow one; paths
    that differ only in redundant slashes have the same keys; the keys of normalised paths
    without the separator determine the repository and the path; and a partition key determines
    its scope and its shard. -/
theorem keys_faithful (shardOf : String → ℕ) :
    (∀ p, normalizePath (normalizePath p) = normalizePath p ∧ normalizePath p = slowPath p) ∧
    (∀ repo p q, SameSegments p q →
      (artifactKey shardOf repo p).triple = (artifactKey shardOf repo q).triple ∧
      (treeEntryKey shardOf repo p).triple = (treeEntryKey shardOf repo q).triple ∧
      dirDeltaKey shardOf repo p = dirDeltaKey shardOf repo q) ∧
    (∀ repo p repo' q, normalizePath p = p → normalizePath q = q → NulFree p → NulFree q →
      ((artifactKey shardOf repo p).triple = (artifactKey shardOf repo' q).triple ∨
        (treeEntryKey shardOf repo p).triple = (treeEntryKey shardOf repo' q).triple) →
      repo = repo' ∧ p = q) ∧
    ∀ scope shard scope' shard', (Pk.sharded scope shard).text = (Pk.sharded scope' shard').text →
      scope = scope' ∧ shard = shard' := by
  refine ⟨fun p => ⟨normalizePath_idem p, normalizePath_slow p⟩, ?_, ?_, ?_⟩
  · intro repo p q h
    have hnorm : normalizePath p = normalizePath q := (normalizePath_eq_iff p q).mpr h
    unfold artifactKey treeEntryKey dirDeltaKey
    rw [hnorm]
    exact ⟨rfl, rfl, rfl⟩
  · rintro repo p repo' q hp hq hnul _ (h | h)
    · exact artifactKey_inj shardOf hp hq h
    · exact treeEntryKey_inj shardOf hp hq hnul h
  · intro scope shard scope' shard' h
    exact pkText_inj h

/-- Slashes at the ends and in the middle, a reserved name, and a repository with a slash. -/
theorem keys_faithful_slashes :
    (artifactKey String.length "r" "//a///ß/").triple =
        (artifactKey String.length "r" "a/ß").triple ∧
      (treeEntryKey String.length "r" "_root").triple ≠
        (treeEntryKey String.length "r" "").triple ∧
      (Pk.sharded "r/1" 2).text ≠ (Pk.sharded "r" 12).text := by
  obtain ⟨_, hsame, hinj, hpk⟩ := keys_faithful String.length
  refine ⟨(hsame "r" "//a///ß/" "a/ß" (by decide +kernel)).1, ?_, ?_⟩
  · intro h
    have heq := hinj "r" "_root" "r" "" (by decide +kernel) (by decide +kernel) (by decide +kernel)
      (by decide +kernel) (Or.inr h)
    exact absurd heq.2 (by decide)
  · intro h
    exact absurd (hpk "r/1" 2 "r" 12 h).2 (by decide)

end Depot
