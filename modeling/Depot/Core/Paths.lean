import Depot.Core.Keys
import Mathlib.Data.List.Basic

/-!
# Clean paths

What `normalize_path` and `parent_dir` make of a path, and which entry of the
tree a directory has.

Results:
* `clean_normalizeChars`: normalised paths have no slash at the ends, and no two
  in a row.
* `clean_parent`: nor has the parent of such a path.
* `normalizePath_idem`: normalising a path again changes nothing.
* `treeSortKey_inj`: such a path is determined by its key in the tree, if there
  is no zero byte in it.
-/

namespace Depot

open List
open Option (getD_some some_inj)
open String (ofList_inj toList_inj toList_ofList)

/-! ## The last slash -/

variable {cs : List Char}

theorem splitLast_none (h : (splitLast cs).1 = none) : (splitLast cs).2 = cs := by
  unfold splitLast at h ⊢
  dsimp only at h ⊢
  split_ifs at h with hlen
  exact (rtakeWhile_suffix _ _).eq_of_length hlen.symm

theorem splitLast_some {parent : List Char} (h : (splitLast cs).1 = some parent) :
    cs = parent ++ '/' :: (splitLast cs).2 := by
  unfold splitLast at h ⊢
  dsimp only at h ⊢
  split_ifs at h with hlen
  have happ := rdropWhile_append_rtakeWhile (p := (· ≠ '/')) (l := cs)
  have hsum := congrArg List.length happ
  rw [length_append] at hsum
  have hne : cs.rdropWhile (· ≠ '/') ≠ [] := by
    intro hnil
    rw [hnil, length_nil] at hsum
    omega
  have hlast : (cs.rdropWhile (· ≠ '/')).getLast hne = '/' := by
    simpa using rdropWhile_last_not (· ≠ '/') cs hne
  have hsplit := dropLast_append_getLast hne
  rw [hlast] at hsplit
  have hparent : parent = (cs.rdropWhile (· ≠ '/')).dropLast := by
    rw [← some_inj.mp h, dropLast_eq_take,
      prefix_iff_eq_take.mp (List.rdropWhile_prefix (· ≠ '/') cs), take_take,
      length_take]
    congr 1
    omega
  rw [hparent, ← singleton_append, ← append_assoc, hsplit, happ]

theorem splitLast_name (hne : cs ≠ []) (hlast : cs.getLast? ≠ some '/') :
    (splitLast cs).2 ≠ [] := by
  intro hnil
  have hslash := rtakeWhile_eq_nil_iff.mp hnil hne
  rw [getLast?_eq_some_getLast hne] at hlast
  simp at hslash
  exact hlast (congrArg some hslash)

/-! ## Clean paths -/

/-- No slash at the ends, no two in a row. -/
structure CleanChars (cs : List Char) : Prop where
  head : cs.head? ≠ some '/'
  last : cs.getLast? ≠ some '/'
  double : ¬ ['/', '/'] <:+: cs

/-- A path as `normalize_path` leaves it. -/
def CleanPath (path : String) : Prop := CleanChars path.toList

theorem clean_parent (h : CleanChars cs) : CleanChars ((splitLast cs).1.getD []) := by
  cases hparent : (splitLast cs).1 with
  | none => exact ⟨by simp, by simp, by simp⟩
  | some parent =>
    have hcs := splitLast_some hparent
    refine ⟨fun hhead => h.head ?_, fun hlast => h.double ?_, fun hdouble => h.double ?_⟩
    · rw [getD_some] at hhead
      rw [hcs, head?_append, hhead]
      rfl
    · rw [getD_some] at hlast
      obtain ⟨front, hfront⟩ := getLast?_eq_some_iff.mp hlast
      rw [hcs, hfront, append_assoc]
      exact ⟨front, (splitLast cs).2, by simp⟩
    · rw [hcs]
      exact hdouble.trans (prefix_append _ _).isInfix

/-! ## Normalising -/

theorem collapse_head_true (cs : List Char) : (collapseSlashes true cs).head? ≠ some '/' := by
  induction cs with
  | nil => simp [collapseSlashes]
  | cons c cs ih =>
    rw [collapseSlashes, if_pos rfl]
    split_ifs with hc
    · exact ih
    · intro hhead
      exact hc (some_inj.mp hhead)

theorem collapse_head_false (cs : List Char) : (collapseSlashes false cs).head? = cs.head? := by
  cases cs with
  | nil => rfl
  | cons c cs =>
    rw [collapseSlashes, if_neg Bool.false_ne_true]
    split_ifs with hc
    · rw [hc, head?_cons, head?_cons]
    · rw [head?_cons, head?_cons]

theorem collapse_double (b : Bool) (cs : List Char) : ¬ ['/', '/'] <:+: collapseSlashes b cs := by
  induction cs generalizing b with
  | nil => simp [collapseSlashes]
  | cons c cs ih =>
    rw [collapseSlashes]
    split_ifs with hc hb
    · exact ih true
    · rw [infix_cons_iff, not_or]
      refine ⟨fun hpre => ?_, ih true⟩
      obtain ⟨rest, hrest⟩ := hpre
      refine collapse_head_true cs ?_
      rw [← (List.cons.inj hrest).2]
      rfl
    · rw [infix_cons_iff, not_or]
      refine ⟨fun hpre => ?_, ih false⟩
      obtain ⟨rest, hrest⟩ := hpre
      exact hc (List.cons.inj hrest).1.symm

theorem collapse_nil (h : collapseSlashes true cs = []) : ∀ c ∈ cs, c = '/' := by
  induction cs with
  | nil => simp
  | cons c cs ih =>
    rw [collapseSlashes] at h
    split_ifs at h with hc
    simpa [hc] using ih h

theorem collapse_last {b : Bool}
    (h : (collapseSlashes b cs).getLast? = some '/') : cs.getLast? = some '/' := by
  induction cs generalizing b with
  | nil => simp [collapseSlashes] at h
  | cons c cs ih =>
    have hstep : ∀ b', collapseSlashes b' cs ≠ [] ∧ (collapseSlashes b' cs).getLast? = some '/' →
        (c :: cs).getLast? = some '/' := by
      rintro b' ⟨_, hlast⟩
      rw [getLast?_cons, ih hlast]
      rfl
    rw [collapseSlashes] at h
    split_ifs at h with hc hb
    · refine hstep true ⟨fun hnil => ?_, h⟩
      rw [hnil] at h
      cases h
    · by_cases hnil : collapseSlashes true cs = []
      · have hall : ∀ d ∈ c :: cs, d = '/' := by simpa [hc] using collapse_nil hnil
        rw [getLast?_eq_some_getLast (cons_ne_nil c cs)]
        exact congrArg some (hall _ (getLast_mem _))
      · refine hstep true ⟨hnil, ?_⟩
        rwa [getLast?_cons_of_ne_nil hnil] at h
    · by_cases hnil : collapseSlashes false cs = []
      · rw [hnil] at h
        exact absurd (some_inj.mp h) hc
      · refine hstep false ⟨hnil, ?_⟩
        rwa [getLast?_cons_of_ne_nil hnil] at h

theorem trimSlashes_head (cs : List Char) : (trimSlashes cs).head? ≠ some '/' := by
  intro h
  have hpre : trimSlashes cs <+: cs.dropWhile (· = '/') := rdropWhile_prefix _ _
  obtain ⟨rest, hrest⟩ := hpre
  have hhead := head?_dropWhile_not (· = '/') cs
  rw [← hrest, head?_append, h] at hhead
  simp at hhead

theorem trimSlashes_last (cs : List Char) : (trimSlashes cs).getLast? ≠ some '/' := by
  intro h
  have hne : trimSlashes cs ≠ [] := by
    intro hnil
    rw [hnil] at h
    cases h
  rw [getLast?_eq_some_getLast hne] at h
  have hnot := rdropWhile_last_not (· = '/') _ hne
  exact hnot (decide_eq_true (some_inj.mp h))

/-- `normalize_path` cleans a path. -/
theorem clean_normalizeChars (cs : List Char) : CleanChars (normalizeChars cs) := by
  unfold normalizeChars
  dsimp only
  split_ifs with hdouble
  · refine ⟨?_, fun hlast => trimSlashes_last cs (collapse_last hlast), collapse_double _ _⟩
    rw [collapse_head_false]
    exact trimSlashes_head cs
  · exact ⟨trimSlashes_head cs, trimSlashes_last cs, hdouble⟩

/-- A clean path stays as it is. -/
theorem normalizeChars_clean (h : CleanChars cs) : normalizeChars cs = cs := by
  have htrim : trimSlashes cs = cs := by
    have hdrop : cs.dropWhile (· = '/') = cs := by
      rw [dropWhile_eq_self_iff]
      intro hpos hslash
      refine h.head ?_
      rw [head?_eq_getElem?, getElem?_eq_getElem hpos]
      exact congrArg some (of_decide_eq_true hslash)
    rw [trimSlashes, hdrop, rdropWhile_eq_self_iff]
    intro hne hslash
    refine h.last ?_
    rw [getLast?_eq_some_getLast hne]
    exact congrArg some (of_decide_eq_true hslash)
  rw [normalizeChars, htrim]
  exact if_neg h.double

/-- Normalising a path again changes nothing. -/
theorem normalizePath_idem (path : String) :
    normalizePath (normalizePath path) = normalizePath path := by
  rw [normalizePath, normalizePath, toList_ofList, normalizeChars_clean (clean_normalizeChars _)]

theorem normalizePath_clean {path : String} (h : CleanPath path) : normalizePath path = path := by
  rw [normalizePath, normalizeChars_clean h, String.ofList_toList]

theorem clean_normalizePath (path : String) : CleanPath (normalizePath path) := by
  unfold CleanPath
  rw [normalizePath, toList_ofList]
  exact clean_normalizeChars _

/-! ## First segments -/

variable {b front name : List Char}

theorem takeWhile_append_slashes (hb : ∀ c ∈ b, c = '/') (a : List Char) :
    (a ++ b).takeWhile (· ≠ '/') = a.takeWhile (· ≠ '/') := by
  induction a with
  | nil =>
    rw [nil_append, takeWhile_nil]
    cases b with
    | nil => rfl
    | cons c b => simp [hb c mem_cons_self]
  | cons c a ih =>
    by_cases hc : c = '/'
    · simp [hc]
    · rw [cons_append, takeWhile_cons, takeWhile_cons, ih]

theorem segment_collapse (cs : List Char) :
    (collapseSlashes false cs).takeWhile (· ≠ '/') = cs.takeWhile (· ≠ '/') := by
  induction cs with
  | nil => rfl
  | cons c cs ih =>
    rw [collapseSlashes]
    by_cases hc : c = '/'
    · simp [hc]
    · rw [if_neg hc, takeWhile_cons, takeWhile_cons, ih]

/-- `normalize_path` keeps the first segment of a path. -/
theorem segment_normalizeChars (h : cs.head? ≠ some '/') :
    (normalizeChars cs).takeWhile (· ≠ '/') = cs.takeWhile (· ≠ '/') := by
  have hdrop : cs.dropWhile (· = '/') = cs := by
    rw [dropWhile_eq_self_iff]
    intro hpos hslash
    refine h ?_
    rw [head?_eq_getElem?, getElem?_eq_getElem hpos]
    exact congrArg some (of_decide_eq_true hslash)
  have htrim : (trimSlashes cs).takeWhile (· ≠ '/') = cs.takeWhile (· ≠ '/') := by
    have happ := rdropWhile_append_rtakeWhile (p := (· = '/')) (l := cs)
    have hslashes : ∀ c ∈ cs.rtakeWhile (· = '/'), c = '/' := fun c hc =>
      of_decide_eq_true (mem_rtakeWhile_imp (p := (· = '/')) hc)
    have htake := takeWhile_append_slashes hslashes (cs.rdropWhile (· = '/'))
    rw [happ] at htake
    rw [trimSlashes, hdrop, htake]
  unfold normalizeChars
  dsimp only
  split_ifs
  · rw [segment_collapse, htrim]
  · exact htrim

theorem takeWhile_segment {a cs : List Char} (ha : '/' ∉ a) (h : a ++ ['/'] <+: cs) :
    cs.takeWhile (· ≠ '/') = a := by
  obtain ⟨rest, rfl⟩ := h
  induction a with
  | nil => simp
  | cons c a ih =>
    have hc : c ≠ '/' := fun hc => ha (hc ▸ mem_cons_self)
    have hrest := ih fun h => ha (mem_cons_of_mem c h)
    rw [cons_append, cons_append, takeWhile_cons, if_pos (decide_eq_true hc), hrest]

/-- The first segment of a path and what follows it are determined. -/
theorem segment_unique {a r r' : List Char} (ha : '/' ∉ a) (hb : '/' ∉ b)
    (h : a ++ '/' :: r = b ++ '/' :: r') : a = b ∧ r = r' := by
  have hpre : ∀ (c rest : List Char), c ++ ['/'] <+: c ++ '/' :: rest := fun c rest =>
    ⟨rest, by rw [append_assoc, singleton_append]⟩
  have hab : a = b := by
    rw [← takeWhile_segment ha (hpre a r), h, takeWhile_segment hb (hpre b r')]
  subst hab
  exact ⟨rfl, (List.cons.inj (append_cancel_left h)).2⟩

/-- The last segment of a path and what precedes it. -/
theorem splitLast_append {name : List Char} (h : '/' ∉ name) (dir : List Char) :
    splitLast (dir ++ '/' :: name) = (some dir, name) := by
  have hname : (dir ++ '/' :: name).rtakeWhile (· ≠ '/') = name := by
    have hrev : (dir ++ '/' :: name).reverse = name.reverse ++ '/' :: dir.reverse := by simp
    have htake := @takeWhile_segment name.reverse (name.reverse ++ '/' :: dir.reverse)
      (fun hmem => h (mem_reverse.mp hmem)) ⟨dir.reverse, by simp⟩
    rw [rtakeWhile, hrev, htake, reverse_reverse]
  unfold splitLast
  dsimp only
  rw [hname]
  have hlen : (dir ++ '/' :: name).length = dir.length + (name.length + 1) := by simp
  have htake : (dir ++ '/' :: name).length - name.length - 1 = dir.length := by omega
  rw [if_neg (by omega), htake, take_left']
  rfl

/-- Paths in different directories have different keys. -/
theorem normalizePath_ne {p q a b : String} (hp : a.toList ++ ['/'] <+: p.toList)
    (hq : b.toList ++ ['/'] <+: q.toList) (ha : '/' ∉ a.toList) (hb : '/' ∉ b.toList)
    (ha0 : a ≠ "") (hb0 : b ≠ "") (hab : a ≠ b) : normalizePath p ≠ normalizePath q := by
  have hseg : ∀ {p a : String}, a.toList ++ ['/'] <+: p.toList → '/' ∉ a.toList → a ≠ "" →
      (normalizePath p).toList.takeWhile (· ≠ '/') = a.toList := by
    intro p a hp ha ha0
    have hhead : p.toList.head? ≠ some '/' := by
      obtain ⟨rest, hrest⟩ := hp
      intro hs
      rw [← hrest, append_assoc] at hs
      cases hal : a.toList with
      | nil => exact ha0 (toList_inj.mp hal)
      | cons c cs =>
        rw [hal] at hs ha
        obtain rfl := some_inj.mp hs
        exact ha mem_cons_self
    rw [normalizePath, toList_ofList, segment_normalizeChars hhead]
    exact takeWhile_segment ha hp
  intro heq
  have h1 := hseg hp ha ha0
  have h2 := hseg hq hb hb0
  rw [heq] at h1
  exact hab (toList_inj.mp (h1.symm.trans h2))

/-! ## Keys in the tree -/

theorem toList_treeSortKey (p : String) :
    (treeSortKey p).toList = (treeParent p).toList ++ treeSkSep :: (treeName p).toList := by
  rw [treeSortKey, String.toList_append, String.toList_append, String.toList_singleton,
    append_assoc]
  rfl

variable {p : String}

theorem toList_ne_nil (h : p ≠ "") : p.toList ≠ [] := by
  intro hnil
  exact h (by rw [← String.ofList_toList (s := p), hnil])

theorem treeName_ne (hp : CleanPath p) (hne : p ≠ "") : (treeName p).toList ≠ [] := by
  rw [treeName, if_neg hne, toList_ofList]
  exact splitLast_name (toList_ne_nil hne) hp.last

/-- There is no zero byte in the path. -/
def NulFree (path : String) : Prop := treeSkSep ∉ path.toList

instance (path : String) : Decidable (NulFree path) := inferInstanceAs (Decidable (_ ∉ _))

theorem nulFree_treeParent (h : NulFree p) : NulFree (treeParent p) := by
  unfold NulFree at h ⊢
  rw [treeParent]
  split_ifs with hroot
  · decide
  · rw [toList_ofList]
    cases hparent : (splitLast p.toList).1 with
    | none => exact not_mem_nil
    | some parent =>
      rw [splitLast_some hparent] at h
      exact fun hmem => h (mem_append_left _ hmem)

theorem nulFree_treeName (h : NulFree p) : NulFree (treeName p) := by
  unfold NulFree at h ⊢
  rw [treeName]
  split_ifs with hroot
  · decide
  · rw [toList_ofList]
    exact fun hmem => h ((rtakeWhile_suffix _ _).mem hmem)

/-- A clean path is determined by its parent and its name. -/
theorem path_ext {q : String} (hp : CleanPath p) (hq : CleanPath q) (hproot : p ≠ "")
    (hqroot : q ≠ "") (hparent : treeParent p = treeParent q) (hname : treeName p = treeName q) :
    p = q := by
  rw [treeParent, treeParent, if_neg hproot, if_neg hqroot, ofList_inj] at hparent
  rw [treeName, treeName, if_neg hproot, if_neg hqroot, ofList_inj] at hname
  refine toList_inj.mp ?_
  cases hp' : (splitLast p.toList).1 with
  | none =>
    cases hq' : (splitLast q.toList).1 with
    | none => rw [← splitLast_none hp', ← splitLast_none hq', hname]
    | some parent =>
      rw [hp', hq'] at hparent
      obtain rfl : [] = parent := hparent
      refine absurd ?_ hq.head
      rw [splitLast_some hq']
      rfl
  | some parent =>
    cases hq' : (splitLast q.toList).1 with
    | none =>
      rw [hp', hq'] at hparent
      obtain rfl : parent = [] := hparent
      refine absurd ?_ hp.head
      rw [splitLast_some hp']
      rfl
    | some parent' =>
      rw [hp', hq'] at hparent
      rw [splitLast_some hp', splitLast_some hq', hname]
      exact congrArg (· ++ _) hparent

/-- A clean path is determined by its key in the tree. -/
theorem treeSortKey_inj {q : String} (hp : CleanPath p) (hq : CleanPath q) (hnul : NulFree p)
    (h : treeSortKey p = treeSortKey q) : p = q := by
  have hlist := congrArg String.toList h
  rw [toList_treeSortKey, toList_treeSortKey, append_cons_inj_of_notMem
    (nulFree_treeParent hnul) (nulFree_treeName hnul)] at hlist
  obtain ⟨hparent, -, hname⟩ := hlist
  by_cases hproot : p = ""
  · by_cases hqroot : q = ""
    · rw [hproot, hqroot]
    · refine absurd hname.symm ?_
      rw [hproot]
      exact treeName_ne hq hqroot
  · by_cases hqroot : q = ""
    · refine absurd hname ?_
      rw [hqroot]
      exact treeName_ne hp hproot
    · exact path_ext hp hq hproot hqroot (toList_inj.mp hparent) (toList_inj.mp hname)

/-- No two slashes meet where a name is put below a directory. -/
theorem no_double_append (hne : front ≠ [])
    (hlast : front.getLast? ≠ some '/') (hdouble : ¬ ['/', '/'] <:+: front)
    (hname : CleanChars name) : ¬ ['/', '/'] <:+: front ++ '/' :: name := by
  induction front with
  | nil => exact absurd rfl hne
  | cons c cs ih =>
    rw [cons_append, infix_cons_iff, not_or]
    cases cs with
    | nil =>
      refine ⟨fun hpre => hlast ?_, fun hin => ?_⟩
      · rw [← (cons_prefix_cons.mp hpre).1]
        rfl
      · rw [nil_append, infix_cons_iff] at hin
        rcases hin with hpre | hin
        · obtain ⟨tail, htail⟩ := (cons_prefix_cons.mp hpre).2
          exact hname.head (by rw [← htail]; rfl)
        · exact hname.double hin
    | cons d ds =>
      rw [infix_cons_iff, not_or] at hdouble
      refine ⟨fun hpre => hdouble.1 ?_, ih (cons_ne_nil d ds) ?_ hdouble.2⟩
      · obtain ⟨hc, htail⟩ := cons_prefix_cons.mp hpre
        have hd := (cons_prefix_cons.mp htail).1
        exact ⟨ds, by rw [← hc, ← hd]; rfl⟩
      · rwa [getLast?_cons_of_ne_nil (cons_ne_nil d ds)] at hlast

/-- A name below a directory. -/
theorem clean_append (h : CleanChars front) (hfront : front ≠ [])
    (hname : CleanChars name) (hne : name ≠ []) : CleanChars (front ++ '/' :: name) := by
  refine ⟨fun hhead => h.head ?_, fun hlast => hname.last ?_,
    no_double_append hfront h.last h.double hname⟩
  · rwa [head?_append_of_ne_nil _ hfront] at hhead
  · rwa [getLast?_append_of_ne_nil _ (cons_ne_nil _ _), getLast?_cons_of_ne_nil hne] at hlast

theorem clean_name {name : String} (h : '/' ∉ name.toList) : CleanChars name.toList := by
  refine ⟨fun hhead => h (mem_of_head? hhead), fun hlast => h (mem_of_getLast? hlast),
    fun hdouble => h (hdouble.subset mem_cons_self)⟩

end Depot
