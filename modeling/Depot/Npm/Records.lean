import Depot.Core.Json
import Depot.Core.Paths
import Depot.Core.World

/-!
# Npm packages

What an npm repository keeps of a package (`format/npm/src/store.rs`): the tarball of each
version, the document that describes it and the dist-tags, each under a path that is made of
the name of the package.

Results:
* `tags_tagsJson`: the dist-tags are read as they were written.
* `kind_ne`: the records of a package have different keys.
-/

namespace Depot

open Lib List
open SortedMap (ext_get get_empty get_insert insert)

/-! ## Documents -/

/-- `HashMap<String, String>`: the version that each dist-tag names. -/
abbrev Tags : Type := SortedMap String String

/-- Insert the entries of a list, one after the other. -/
def Tags.overlay (tags : Tags) (own : List (String × String)) : Tags :=
  own.foldl (fun m e => m.insert e.1 e.2) tags

/-- `serde_json::to_string` of dist-tags. -/
def tagsJson (tags : Tags) : Json := .object (tags.entries.map fun e => (e.1, .string e.2))

def stringEntry (e : String × Json) : Option (String × String) :=
  e.2.asStr.map fun s => (e.1, s)

/-- `serde_json::from_slice(..).unwrap_or_default()` as dist-tags. -/
def Json.tags (j : Json) : Tags :=
  match j.asObject.bind fun entries => entries.mapM stringEntry with
  | some entries => Tags.overlay .empty entries
  | none => .empty

/-- What is stored in the blob of a record. -/
inductive NpmContent where
  | tarball (data : Bytes)
  | document (j : Json)

/-- `NpmPackageMeta`. -/
structure NpmPackageMeta where
  name : String
  version : String
  filename : String
  sha1 : String
  sha512 : String
  upstreamUrl : Option String := none

/-- A record with the metadata in its `kind` and the content of its blob, if it has one. -/
structure NpmRecord where
  record : ArtifactRecord
  npm : Option NpmPackageMeta := none
  content : Option NpmContent := none

/-- `get_dist_tags` of a record that has been found (lines 383–399). -/
def NpmRecord.tags (r : NpmRecord) : Tags :=
  match r.content with
  | some (.document j) => j.tags
  | _ => .empty

/-! ## Paths -/

/-- The functions of other packages: lower case, the digests of a tarball and of the text of a
    document, the length of that text, and the decoding of an attachment. -/
structure NpmExt where
  toLowercase : String → String
  sha1 : Bytes → String
  sha512 : Bytes → String
  blake3 : NpmContent → String
  length : NpmContent → ℕ
  decode : String → Option Bytes

variable (x : NpmExt)

/-- `normalize_name` (lines 28–30). -/
def normalizeName (name : String) : String := x.toLowercase name

/-- `tarball_path` (lines 33–36). -/
def tarballPath (name version filename : String) : String :=
  "_tarballs/" ++ normalizeName x name ++ "/" ++ version ++ "/" ++ filename

/-- `version_path` (lines 39–42). -/
def versionPath (name version : String) : String :=
  "_versions/" ++ normalizeName x name ++ "/" ++ version

/-- `dist_tags_path` (lines 45–48). -/
def distTagsPath (name : String) : String := "_dist-tags/" ++ normalizeName x name

def npmStalePath : String := "_npm/metadata_stale"

/-! ## Lemmas -/

theorem Tags.get_overlay (tags : Tags) (own : List (String × String)) (tag : String) :
    (tags.overlay own).get tag =
      (SortedMap.get (Tags.overlay .empty own) tag).or (tags.get tag) := by
  induction own using reverseRecOn with
  | nil =>
    show tags.get tag = (SortedMap.get SortedMap.empty tag).or (tags.get tag)
    rw [get_empty, Option.none_or]
  | append_singleton own e ih =>
    unfold Tags.overlay at ih ⊢
    rw [List.foldl_append, List.foldl_append]
    show (insert _ e.1 e.2).get tag = ((insert _ e.1 e.2).get tag).or _
    rw [get_insert, get_insert]
    by_cases h : tag = e.1
    · rw [if_pos h, if_pos h, Option.some_or]
    · rw [if_neg h, if_neg h, ih]

/-- The entries of a map, inserted into an empty one, give the map. -/
theorem Tags.overlay_entries (tags : Tags) : Tags.overlay .empty tags.entries = tags := by
  refine ext_get fun tag => Option.ext fun v => ?_
  have hgen : ∀ es : List (String × String), es.Pairwise (fun a b => a.1 < b.1) →
      ((Tags.overlay .empty es).get tag = some v ↔ (tag, v) ∈ es) := by
    intro es
    induction es using reverseRecOn with
    | nil =>
      intro _
      show SortedMap.get SortedMap.empty tag = some v ↔ _
      rw [get_empty]
      simp
    | append_singleton es e ih =>
      intro hsorted
      obtain ⟨hes, -, hlt⟩ := pairwise_append.mp hsorted
      unfold Tags.overlay at ih ⊢
      rw [List.foldl_append]
      show (insert _ e.1 e.2).get tag = some v ↔ _
      rw [get_insert, mem_append, mem_singleton]
      by_cases h : tag = e.1
      · subst h
        have hnot : (e.1, v) ∉ es := fun hmem =>
          absurd (hlt _ hmem e mem_cons_self) (lt_irrefl _)
        rw [if_pos rfl, Option.some_inj]
        constructor
        · exact fun hv => .inr (Prod.ext rfl hv.symm)
        · intro hv
          rcases hv with hv | hv
          · exact absurd hv hnot
          · exact (congrArg Prod.snd hv).symm
      · have hne : (tag, v) ≠ e := fun he => h (congrArg Prod.fst he)
        rw [if_neg h, ih hes]
        simp [hne]
  rw [hgen tags.entries tags.sorted, SortedMap.mem_entries_iff]

/-- The dist-tags are read as they were written. -/
theorem tags_tagsJson (tags : Tags) : (tagsJson tags).tags = tags := by
  have hmap : (tags.entries.map fun e => (e.1, Json.string e.2)).mapM stringEntry =
      some tags.entries := by
    rw [mapM_map]
    exact (mapM_pure (m := Option) (l := tags.entries) (f := id)).trans (congrArg some (map_id _))
  unfold Json.tags tagsJson
  rw [Json.asObject, Option.bind_some, hmap]
  exact Tags.overlay_entries tags

/-- Paths in the directories of different kinds of records have different keys. -/
theorem kind_ne {p q a b r r' : String} (hp : p = a ++ "/" ++ r) (hq : q = b ++ "/" ++ r')
    (ha : '/' ∉ a.toList) (hb : '/' ∉ b.toList) (ha0 : a ≠ "") (hb0 : b ≠ "") (hab : a ≠ b) :
    normalizePath p ≠ normalizePath q := by
  refine normalizePath_ne (a := a) (b := b) ?_ ?_ ha hb ha0 hb0 hab
  · rw [hp, String.toList_append, String.toList_append]
    exact prefix_append _ _
  · rw [hq, String.toList_append, String.toList_append]
    exact prefix_append _ _

end Depot
