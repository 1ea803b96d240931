import Depot.Index.Store
import Depot.Lib.Unordered
import Depot.Service.Table

/-!
# The order of the shards

The packages of an index are collected by scans of all shards, of which some run at a time, in
the order in which the scans finish (`fold_all_artifacts`, `core/src/service/artifact.rs` lines
388–432). Nothing sorts them afterwards.

Results:
* `Repository.indexes_eq_iff`: two lists of the same packages have the same indexes exactly when
  they list the same in the same order.
* `found_agree_iff`: what is listed is the same for all orders of the scans exactly when any two
  shards commute.
* `Repository.rebuild_stable_iff`: rebuilds of the same packages write the same indexes exactly
  then.

**The order shows.** Two packages of one index in different shards are listed in the order in
which the scans of their shards have finished (`packages_swapped`).
-/

namespace Depot

open Lib List
open String (toList_append toList_inj toList_join)

/-! ## Scans -/

/-- `SHARD_CONCURRENCY`. -/
def shardConcurrency : ℕ := 64

section

variable (x : IndexExt) (t : RecordTable StoredRecord)

/-- What the scan of a shard finds (`for_each_in_partition`), in the order of the keys. -/
def shardPart (select : StoredRecord → Bool) (skPrefix : String) (shard : ℕ) :
    List (String × StoredRecord) :=
  t.entries.filter fun e =>
    decide (x.shardOf e.1 = shard) && hasPrefix skPrefix e.1 && select e.2

/-- `fold_all_artifacts`, for the order in which the scans finish. -/
def foldInOrder (select : StoredRecord → Bool) (skPrefix : String) (order : List ℕ) :
    List (String × StoredRecord) :=
  order.flatMap (shardPart x t select skPrefix)

/-- The packages of an index, with the order for the scan of each prefix. -/
def foundPackages (f : IndexFormat) (key : String) (orders : String → List ℕ) :
    List (String × StoredRecord) :=
  f.prefixes.flatMap fun p => foldInOrder x t (f.lists key) p (orders p)

/-- The orders in which the scans of the shards can finish. -/
def ScanOrders (orders : String → List ℕ) : Prop :=
  ∀ p, Finishes shardConcurrency (List.range numShards) [] (orders p)

/-- What any two shards list comes out the same in both orders. -/
def ShardsCommute {β : Type} (select : StoredRecord → Bool) (skPrefix : String)
    (g : String × StoredRecord → List β) : Prop :=
  (List.range numShards).Pairwise fun i j =>
    (shardPart x t select skPrefix i).flatMap g ++ (shardPart x t select skPrefix j).flatMap g =
      (shardPart x t select skPrefix j).flatMap g ++ (shardPart x t select skPrefix i).flatMap g

end

variable {x : IndexExt} {t : RecordTable StoredRecord}

theorem foundPackages_perm (f : IndexFormat) (key : String) {orders orders' : String → List ℕ}
    (h : ScanOrders orders) (h' : ScanOrders orders') :
    (foundPackages x t f key orders).Perm (foundPackages x t f key orders') := by
  refine Perm.flatMap_left _ fun p _ => ?_
  have hperm := (h p).perm
  have hperm' := (h' p).perm
  exact (hperm.trans hperm'.symm).flatMap_right _

variable {β : Type}

/-- Pieces of the same lengths are the same if they are joined. -/
theorem flatMap_inj_of_length {ι : Type} {a b : ι → List β} {l : List ι}
    (hlen : ∀ i ∈ l, (a i).length = (b i).length) (h : l.flatMap a = l.flatMap b) :
    ∀ i ∈ l, a i = b i := by
  induction l with
  | nil => exact nofun
  | cons j l ih =>
    rw [flatMap_cons, flatMap_cons] at h
    obtain ⟨hhead, htail⟩ := append_inj h (hlen j mem_cons_self)
    intro i hi
    rcases mem_cons.mp hi with rfl | hi
    · exact hhead
    · exact ih (fun i hi => hlen i (mem_cons_of_mem _ hi)) htail i hi

theorem flatMap_foldInOrder (select : StoredRecord → Bool) (p : String)
    (order : List ℕ) (g : String × StoredRecord → List β) :
    (foldInOrder x t select p order).flatMap g =
      order.flatMap fun shard => (shardPart x t select p shard).flatMap g := by
  rw [foldInOrder, flatMap_assoc]

/-- What is listed does not depend on the orders exactly when the shards commute. -/
theorem found_agree_iff (f : IndexFormat) (key : String) (g : String × StoredRecord → List β) :
    (∀ orders orders', ScanOrders orders → ScanOrders orders' →
      (foundPackages x t f key orders).flatMap g = (foundPackages x t f key orders').flatMap g) ↔
      ∀ p ∈ f.prefixes, ShardsCommute x t (f.lists key) p g := by
  have hlimit : 2 ≤ shardConcurrency := by decide
  have hflat : ∀ orders, (foundPackages x t f key orders).flatMap g = f.prefixes.flatMap fun p =>
      (orders p).flatMap fun shard => (shardPart x t (f.lists key) p shard).flatMap g := by
    intro orders
    rw [foundPackages, flatMap_assoc]
    simp only [flatMap_foldInOrder]
  constructor
  · intro hagree p hp
    rw [ShardsCommute, ← flatMap_agree_iff hlimit]
    intro order order' horder horder'
    have heq := hagree (fun _ => order) (fun _ => order') (fun _ => horder) (fun _ => horder')
    rw [hflat, hflat] at heq
    refine flatMap_inj_of_length (fun q _ => ?_) heq p hp
    exact length_flatMap_perm _ (horder.perm.trans horder'.perm.symm)
  · intro hcomm orders orders' horders horders'
    rw [hflat, hflat]
    refine flatMap_congr fun p hp => ?_
    exact (flatMap_agree_iff hlimit _ _).mpr (hcomm p hp) _ _ (horders p) (horders' p)

/-! ## The indexes -/

/-- The files of a group of Yum packages. -/
inductive YumFile where
  | primary
  | filelists
  | other
  deriving DecidableEq

def YumFile.text (pfx : String) (group : List (String × StoredRecord)) : YumFile → String
  | .primary => generatePrimaryXml group pfx
  | .filelists => generateFilelistsXml group
  | .other => generateOtherXml group

/-- What it says about a package. -/
def YumFile.entry (pfx : String) : YumFile → RpmPackageMeta → ArtifactRecord → String → String
  | .primary => fun rpm record path => primaryEntryXml rpm record (locationHref path pfx)
  | .filelists => fun rpm _ _ =>
      packageIdXml rpm ++ String.join (rpm.files.map fileXml) ++ "</package>\n"
  | .other => fun rpm _ _ =>
      packageIdXml rpm ++ String.join (rpm.changelogs.map changelogXml) ++ "</package>\n"

/-- Around the entries there is only their number. -/
theorem YumFile.text_eq (file : YumFile) : ∃ (head : ℕ → String) (tail : String),
    ∀ pfx group, file.text pfx group =
      head group.length ++ rpmEntries (file.entry pfx) group ++ tail := by
  cases file with
  | primary => exact ⟨fun n => xmlHeader ++ _ ++ _ ++ toString n ++ _, _, fun _ _ => rfl⟩
  | filelists => exact ⟨fun n => xmlHeader ++ _ ++ toString n ++ _, _, fun _ _ => rfl⟩
  | other => exact ⟨fun n => xmlHeader ++ _ ++ toString n ++ _, _, fun _ _ => rfl⟩

/-- The `Packages` files of an Apt repository, by component and architecture. -/
def aptIndexes (pkgs : List (String × StoredRecord)) (name : String × String) : Option String :=
  if name.1 ∈ aptComponents pkgs ∧ name.2 ∈ concreteArchs pkgs then
    some (packagesText name.1 name.2 pkgs)
  else none

/-- The files of a Yum repository, by group. -/
def yumIndexes (depth : ℕ) (pkgs : List (String × StoredRecord)) (name : String × YumFile) :
    Option String :=
  if name.1 ∈ repodataGroups depth (pkgs.map Prod.fst) then
    some (name.2.text name.1 (pkgs.filter fun e => repodataPrefix e.1 depth = name.1))
  else none

/-- The entries of a Helm index, by chart. -/
def helmIndexes (x : IndexExt) (pkgs : List (String × StoredRecord)) (name : String) :
    Option (List HelmIndexEntry) :=
  if name ∈ chartNames pkgs then some (chartEntries x pkgs name) else none

/-- What the `Packages` file of a component and an architecture says about a package. -/
def aptEntry (name : String × String) (e : String × StoredRecord) : List Char :=
  if e.2.packageMeta.apt?.any fun apt =>
      apt.component = name.1 && apt.architecture = name.2 then
    (generatePackagesStanza e.2 e.1 ++ "\n").toList
  else []

/-- What a file of a group says about a package. -/
def yumEntry (depth : ℕ) (name : String × YumFile) (e : String × StoredRecord) : List Char :=
  if repodataPrefix e.1 depth = name.1 then
    match e.2.packageMeta with
    | .yum rpm => (name.2.entry name.1 rpm e.2.record e.1).toList
    | _ => []
  else []

/-- What the entries of a name have for a package. -/
def helmEntry (x : IndexExt) (name : String) (e : String × StoredRecord) : List HelmIndexEntry :=
  match e.2.packageMeta with
  | .helm helm => if helm.name = name then [helmIndexEntry x helm e.2.record] else []
  | _ => []

theorem flatMap_filter {α : Type} (l : List α) (p : α → Bool) (g : α → List β) :
    (l.filter p).flatMap g = l.flatMap fun a => if p a = true then g a else [] := by
  induction l with
  | nil => rfl
  | cons a l ih =>
    rw [filter_cons, flatMap_cons, ← ih]
    split_ifs
    · rw [flatMap_cons]
    · rw [nil_append]

theorem toList_packagesText (component arch : String) (pkgs : List (String × StoredRecord)) :
    (packagesText component arch pkgs).toList =
      pkgs.flatMap (aptEntry (component, arch)) ++ pkgs.flatMap (aptEntry (component, "all")) := by
  rw [packagesText, toList_join, flatMap_map, flatMap_append, aptGroup, aptGroup,
    flatMap_filter, flatMap_filter]
  rfl

theorem toList_rpmEntries (depth : ℕ) (name : String × YumFile)
    (pkgs : List (String × StoredRecord)) :
    (rpmEntries (name.2.entry name.1)
      (pkgs.filter fun e => repodataPrefix e.1 depth = name.1)).toList =
      pkgs.flatMap (yumEntry depth name) := by
  rw [rpmEntries, toList_join, flatMap_map, flatMap_filter]
  refine flatMap_congr fun e _ => ?_
  rw [yumEntry]
  simp only [decide_eq_true_eq]
  split_ifs
  · cases e.2.packageMeta <;> rfl
  · rfl

theorem chartEntries_eq (pkgs : List (String × StoredRecord)) (name : String) :
    chartEntries x pkgs name = pkgs.flatMap (helmEntry x name) := by
  rw [chartEntries, filterMap_eq_flatMap_toList]
  refine flatMap_congr fun e _ => ?_
  rw [helmEntry]
  cases e.2.packageMeta with
  | helm helm =>
    dsimp only
    split_ifs <;> rfl
  | _ => rfl

/-! ## The same packages in another order -/

section

variable {pkgs pkgs' : List (String × StoredRecord)} (hperm : pkgs.Perm pkgs')
include hperm

theorem flatMap_eq_of_nil {g : String × StoredRecord → List β}
    (h : ¬ ∃ e ∈ pkgs, g e ≠ []) : pkgs.flatMap g = pkgs'.flatMap g := by
  have hnil : ∀ e ∈ pkgs, g e = [] := by
    intro e he
    by_contra hne
    exact h ⟨e, he, hne⟩
  rw [flatMap_eq_nil_iff.mpr hnil]
  exact (flatMap_eq_nil_iff.mpr fun e he => hnil e (hperm.mem_iff.mpr he)).symm

theorem mem_aptComponents_iff (c : String) : c ∈ aptComponents pkgs ↔ c ∈ aptComponents pkgs' := by
  have hfound := (hperm.filterMap fun e : String × StoredRecord =>
    e.2.packageMeta.apt?.map AptPackageMeta.component)
  have hsorted : ∀ s, s ∈ sortedDistinct (pkgs.filterMap fun e =>
      e.2.packageMeta.apt?.map AptPackageMeta.component) ↔ s ∈ sortedDistinct
        (pkgs'.filterMap fun e => e.2.packageMeta.apt?.map AptPackageMeta.component) := by
    intro s
    rw [mem_sortedDistinct, mem_sortedDistinct, hfound.mem_iff]
  have hnil := (eq_nil_iff_forall_not_mem.trans
    ((forall_congr' fun s => not_congr (hsorted s)).trans eq_nil_iff_forall_not_mem.symm))
  unfold aptComponents
  simp only [hnil]
  split_ifs
  · exact Iff.rfl
  · exact hsorted c

theorem mem_concreteArchs_iff (arch : String) :
    arch ∈ concreteArchs pkgs ↔ arch ∈ concreteArchs pkgs' := by
  have hfound := (((hperm.filterMap fun e : String × StoredRecord =>
    e.2.packageMeta.apt?.map AptPackageMeta.architecture).dedup).filter (· ≠ "all"))
  have hnil := (eq_nil_iff_forall_not_mem.trans ((forall_congr' fun s =>
    not_congr hfound.mem_iff).trans eq_nil_iff_forall_not_mem.symm))
  unfold concreteArchs
  simp only [hnil]
  split_ifs
  · exact Iff.rfl
  · exact hfound.mem_iff

omit hperm in
theorem exists_concreteArch (pkgs : List (String × StoredRecord)) :
    ∃ arch, arch ∈ concreteArchs pkgs := by
  unfold concreteArchs
  dsimp only
  split_ifs with hnil
  · exact ⟨"amd64", mem_singleton_self _⟩
  · exact exists_mem_of_ne_nil _ hnil

omit hperm in
/-- A package that a `Packages` file lists has its component and its architecture. -/
theorem listed_of_aptEntry {name : String × String} {e : String × StoredRecord} (he : e ∈ pkgs)
    (h : aptEntry name e ≠ []) :
    name.1 ∈ aptComponents pkgs ∧ (name.2 = "all" ∨ name.2 ∈ concreteArchs pkgs) := by
  have hany : (e.2.packageMeta.apt?.any fun apt =>
      apt.component = name.1 && apt.architecture = name.2) = true := by
    by_contra hnot
    exact h (if_neg hnot)
  obtain ⟨apt, hapt, hboth⟩ := (Option.any_eq_true _ _).mp hany
  rw [Bool.and_eq_true, decide_eq_true_eq, decide_eq_true_eq] at hboth
  have hcomponent : name.1 ∈ pkgs.filterMap fun e =>
      e.2.packageMeta.apt?.map AptPackageMeta.component :=
    mem_filterMap.mpr ⟨e, he, by rw [hapt, Option.map_some, hboth.1]⟩
  have harch : name.2 ∈ pkgs.filterMap fun e =>
      e.2.packageMeta.apt?.map AptPackageMeta.architecture :=
    mem_filterMap.mpr ⟨e, he, by rw [hapt, Option.map_some, hboth.2]⟩
  constructor
  · have hmem := mem_sortedDistinct.mpr hcomponent
    unfold aptComponents
    dsimp only
    rw [if_neg (ne_nil_of_mem hmem)]
    exact hmem
  · by_cases hall : name.2 = "all"
    · exact .inl hall
    · have hmem : name.2 ∈ (pkgs.filterMap fun e =>
          e.2.packageMeta.apt?.map AptPackageMeta.architecture).dedup.filter (· ≠ "all") :=
        mem_filter.mpr ⟨mem_dedup.mpr harch, decide_eq_true hall⟩
      refine .inr ?_
      unfold concreteArchs
      dsimp only
      rw [if_neg (ne_nil_of_mem hmem)]
      exact hmem

theorem aptIndexes_eq_iff : aptIndexes pkgs = aptIndexes pkgs' ↔
    ∀ name, pkgs.flatMap (aptEntry name) = pkgs'.flatMap (aptEntry name) := by
  constructor
  · intro hsame
    -- Both parts of a file agree, as their lengths do.
    have hwritten : ∀ component arch, component ∈ aptComponents pkgs → arch ∈ concreteArchs pkgs →
        pkgs.flatMap (aptEntry (component, arch)) = pkgs'.flatMap (aptEntry (component, arch)) ∧
        pkgs.flatMap (aptEntry (component, "all")) =
          pkgs'.flatMap (aptEntry (component, "all")) := by
      intro component arch hcomponent harch
      have heq := congrFun hsame (component, arch)
      unfold aptIndexes at heq
      rw [if_pos ⟨hcomponent, harch⟩, if_pos ⟨(mem_aptComponents_iff hperm _).mp hcomponent,
        (mem_concreteArchs_iff hperm _).mp harch⟩, Option.some.injEq, ← toList_inj,
        toList_packagesText, toList_packagesText] at heq
      exact append_inj heq (length_flatMap_perm _ hperm)
    rintro ⟨component, arch⟩
    by_cases hlisted : ∃ e ∈ pkgs, aptEntry (component, arch) e ≠ []
    · obtain ⟨e, he, hentry⟩ := hlisted
      obtain ⟨hcomponent, hall | harch⟩ := listed_of_aptEntry he hentry
      · obtain ⟨arch', harch'⟩ := exists_concreteArch pkgs
        dsimp only at hall
        rw [hall]
        exact (hwritten component arch' hcomponent harch').2
      · exact (hwritten component arch hcomponent harch).1
    · exact flatMap_eq_of_nil hperm hlisted
  · intro hlist
    funext name
    have htext : packagesText name.1 name.2 pkgs = packagesText name.1 name.2 pkgs' := by
      rw [← toList_inj, toList_packagesText, toList_packagesText, hlist, hlist]
    unfold aptIndexes
    rw [htext]
    simp only [mem_aptComponents_iff hperm, mem_concreteArchs_iff hperm]

theorem mem_repodataGroups_iff (depth : ℕ) (pfx : String) :
    pfx ∈ repodataGroups depth (pkgs.map Prod.fst) ↔
      pfx ∈ repodataGroups depth (pkgs'.map Prod.fst) := by
  rw [mem_repodataGroups, mem_repodataGroups]
  simp only [(hperm.map Prod.fst).mem_iff]

theorem yumIndexes_eq_iff (depth : ℕ) : yumIndexes depth pkgs = yumIndexes depth pkgs' ↔
    ∀ name, pkgs.flatMap (yumEntry depth name) = pkgs'.flatMap (yumEntry depth name) := by
  have hlen : ∀ name : String × YumFile,
      (pkgs.filter fun e => repodataPrefix e.1 depth = name.1).length =
        (pkgs'.filter fun e => repodataPrefix e.1 depth = name.1).length :=
    fun name => (hperm.filter _).length_eq
  constructor
  · intro hsame name
    by_cases hlisted : ∃ e ∈ pkgs, yumEntry depth name e ≠ []
    · obtain ⟨e, he, hentry⟩ := hlisted
      have hgroup : name.1 ∈ repodataGroups depth (pkgs.map Prod.fst) := by
        unfold yumEntry at hentry
        split_ifs at hentry with hpfx
        · exact mem_repodataGroups.mpr (.inl ⟨e.1, mem_map_of_mem he, hpfx⟩)
        · exact absurd rfl hentry
      obtain ⟨head, tail, htext⟩ := name.2.text_eq
      have heq := congrFun hsame name
      unfold yumIndexes at heq
      rw [if_pos hgroup, if_pos ((mem_repodataGroups_iff hperm _ _).mp hgroup), Option.some.injEq,
        htext, htext, hlen] at heq
      have hchars := congrArg String.toList heq
      rw [toList_append, toList_append, toList_append, toList_append,
        toList_rpmEntries, toList_rpmEntries] at hchars
      exact append_cancel_left (append_cancel_right hchars)
    · exact flatMap_eq_of_nil hperm hlisted
  · intro hlist
    funext name
    have htext : name.2.text name.1 (pkgs.filter fun e => repodataPrefix e.1 depth = name.1) =
        name.2.text name.1 (pkgs'.filter fun e => repodataPrefix e.1 depth = name.1) := by
      obtain ⟨head, tail, htext⟩ := name.2.text_eq
      rw [htext, htext, hlen, ← toList_inj]
      simp only [toList_append, toList_rpmEntries, hlist]
    unfold yumIndexes
    rw [htext]
    simp only [mem_repodataGroups_iff hperm]

theorem helmIndexes_eq_iff (x : IndexExt) : helmIndexes x pkgs = helmIndexes x pkgs' ↔
    ∀ name, pkgs.flatMap (helmEntry x name) = pkgs'.flatMap (helmEntry x name) := by
  have hnames : ∀ name, name ∈ chartNames pkgs ↔ name ∈ chartNames pkgs' := fun name =>
    (hperm.filterMap _).mem_iff
  constructor
  · intro hsame name
    by_cases hlisted : ∃ e ∈ pkgs, helmEntry x name e ≠ []
    · obtain ⟨e, he, hentry⟩ := hlisted
      have hname : name ∈ chartNames pkgs := by
        refine mem_filterMap.mpr ⟨e, he, ?_⟩
        unfold helmEntry at hentry
        cases hmeta : e.2.packageMeta with
        | helm helm =>
          rw [hmeta] at hentry
          dsimp only at hentry
          split_ifs at hentry with heq
          · exact congrArg some heq
          · exact absurd rfl hentry
        | _ =>
          rw [hmeta] at hentry
          exact absurd rfl hentry
      have heq := congrFun hsame name
      unfold helmIndexes at heq
      rw [if_pos hname, if_pos ((hnames name).mp hname), Option.some.injEq, chartEntries_eq,
        chartEntries_eq] at heq
      exact heq
    · exact flatMap_eq_of_nil hperm hlisted
  · intro hlist
    funext name
    unfold helmIndexes
    rw [chartEntries_eq, chartEntries_eq, hlist]
    simp only [hnames]

end

/-! ## Rebuilds -/

/-- The repositories whose packages have an index: a distribution of an Apt repository, a Yum
    repository with its depth, a Helm repository. -/
inductive Repository where
  | apt (distribution : String)
  | yum (depth : ℕ)
  | helm

namespace Repository

def format (x : IndexExt) : Repository → IndexFormat
  | apt _ => aptFormat x
  | yum depth => yumFormat x depth
  | helm => helmFormat x

/-- The index that is rebuilt. -/
def key : Repository → String
  | apt distribution => distribution
  | yum _ => ""
  | helm => ""

/-- The names of the package indexes. -/
def Name : Repository → Type
  | apt _ => String × String
  | yum _ => String × YumFile
  | helm => String

/-- What they consist of. -/
def Item : Repository → Type
  | apt _ => Char
  | yum _ => Char
  | helm => HelmIndexEntry

/-- What a rebuild writes for the packages it has found: the `Packages` files, those of the
    groups, the entries of the charts. -/
def SameIndexes (x : IndexExt) (pkgs pkgs' : List (String × StoredRecord)) : Repository → Prop
  | apt _ => aptIndexes pkgs = aptIndexes pkgs'
  | yum depth => yumIndexes depth pkgs = yumIndexes depth pkgs'
  | helm => helmIndexes x pkgs = helmIndexes x pkgs'

/-- What an index lists for a package. -/
def entry (x : IndexExt) : (r : Repository) → r.Name → String × StoredRecord → List r.Item
  | apt _ => aptEntry
  | yum depth => yumEntry depth
  | helm => helmEntry x

/-- The packages a rebuild finds. -/
def found (x : IndexExt) (r : Repository) (t : RecordTable StoredRecord)
    (orders : String → List ℕ) : List (String × StoredRecord) :=
  foundPackages x t (r.format x) r.key orders

/-- Lists of the same packages have the same indexes exactly when they list the same. -/
theorem indexes_eq_iff (r : Repository) {pkgs pkgs' : List (String × StoredRecord)}
    (hperm : pkgs.Perm pkgs') : r.SameIndexes x pkgs pkgs' ↔
      ∀ name, pkgs.flatMap (r.entry x name) = pkgs'.flatMap (r.entry x name) := by
  cases r with
  | apt distribution => exact aptIndexes_eq_iff hperm
  | yum depth => exact yumIndexes_eq_iff hperm depth
  | helm => exact helmIndexes_eq_iff hperm x

/-- Rebuilds of the same packages write the same indexes, whatever the orders in which the scans
    finish, exactly when what any two shards list for an index comes out the same in both
    orders. -/
theorem rebuild_stable_iff (x : IndexExt) (r : Repository) (t : RecordTable StoredRecord) :
    (∀ orders orders', ScanOrders orders → ScanOrders orders' →
      r.SameIndexes x (r.found x t orders) (r.found x t orders')) ↔
      ∀ name, ∀ p ∈ (r.format x).prefixes,
        ShardsCommute x t ((r.format x).lists r.key) p (r.entry x name) := by
  have hname : ∀ name, (∀ orders orders', ScanOrders orders → ScanOrders orders' →
      (r.found x t orders).flatMap (r.entry x name) =
        (r.found x t orders').flatMap (r.entry x name)) ↔ ∀ p ∈ (r.format x).prefixes,
          ShardsCommute x t ((r.format x).lists r.key) p (r.entry x name) :=
    fun name => found_agree_iff (r.format x) r.key (r.entry x name)
  constructor
  · intro hstable name
    rw [← hname]
    intro orders orders' h h'
    have hperm := foundPackages_perm (x := x) (t := t) (r.format x) r.key h h'
    exact (r.indexes_eq_iff hperm).mp (hstable orders orders' h h') name
  · intro hcomm orders orders' h h'
    have hperm := foundPackages_perm (x := x) (t := t) (r.format x) r.key h h'
    exact (r.indexes_eq_iff hperm).mpr fun name => (hname name).mpr (hcomm name) orders orders' h h'

end Repository

/-! ## Two packages -/

def stablePackage (name : String) : StoredRecord where
  record := recordAt 0 1 "application/vnd.debian.binary-package" .aptPackage false none
  packageMeta := .apt { package := name, distribution := "stable" }
  content := some [0]

/-- Two packages in different shards. -/
def twoPackages : RecordTable StoredRecord where
  entries := [("pool/main/a/a/a.deb", stablePackage "a"), ("pool/main/b/b/b.deb", stablePackage "b")]
  sorted := by
    rw [pairwise_pair]
    decide +kernel

/-- Shards for them. -/
def twoShards : IndexExt :=
  { IndexExt.sample with
    shardOf := fun sk => if sk = "pool/main/a/a/a.deb" then 0 else 1
    shardOf_lt := fun sk => by split_ifs <;> decide }

/-- A stanza starts with the name of the package. -/
theorem packagesStanza_start (apt : AptPackageMeta) (size : ℕ) (path : String) :
    ∃ rest, packagesStanza apt size path = "Package: " ++ (apt.package ++ rest) := by
  unfold packagesStanza
  simp only [String.append_assoc]
  exact ⟨_, rfl⟩

theorem aptEntry_stablePackage (name path : String) :
    ∃ rest, aptEntry ("main", "amd64") (path, stablePackage name) =
      "Package: ".toList ++ (name.toList ++ rest) := by
  have hlisted : ((stablePackage name).packageMeta.apt?.any fun apt =>
      apt.component = "main" && apt.architecture = "amd64") = true := rfl
  obtain ⟨rest, hrest⟩ := packagesStanza_start { package := name, distribution := "stable" } 1 path
  have hstanza : generatePackagesStanza (stablePackage name) path =
      "Package: " ++ (name ++ rest) := hrest
  refine ⟨rest.toList ++ "\n".toList, ?_⟩
  rw [aptEntry, if_pos hlisted, hstanza, toList_append, toList_append,
    toList_append, append_assoc, append_assoc]

/-- They are listed in either order. -/
theorem packages_swapped : ¬ ∀ (x : IndexExt) (r : Repository) (t : RecordTable StoredRecord)
    (orders orders' : String → List ℕ), ScanOrders orders → ScanOrders orders' →
    r.SameIndexes x (r.found x t orders) (r.found x t orders') := by
  intro hstable
  have hagree : ∀ orders orders', ScanOrders orders → ScanOrders orders' →
      (foundPackages twoShards twoPackages (aptFormat twoShards) "stable" orders).flatMap
          (aptEntry ("main", "amd64")) =
        (foundPackages twoShards twoPackages (aptFormat twoShards) "stable" orders').flatMap
          (aptEntry ("main", "amd64")) := by
    intro orders orders' h h'
    have hperm := foundPackages_perm (x := twoShards) (t := twoPackages) (aptFormat twoShards)
      "stable" h h'
    have hsame := hstable twoShards (.apt "stable") twoPackages orders orders' h h'
    exact (aptIndexes_eq_iff hperm).mp hsame ("main", "amd64")
  have hcomm := (found_agree_iff _ _ _).mp hagree "pool/" mem_cons_self
  have hpair := pairwise_iff_forall_sublist.mp hcomm
    (show Sublist [0, 1] (List.range numShards) by decide +kernel)
  have ha : shardPart twoShards twoPackages ((aptFormat twoShards).lists "stable") "pool/" 0 =
      [("pool/main/a/a/a.deb", stablePackage "a")] := by decide +kernel
  have hb : shardPart twoShards twoPackages ((aptFormat twoShards).lists "stable") "pool/" 1 =
      [("pool/main/b/b/b.deb", stablePackage "b")] := by decide +kernel
  obtain ⟨rest, hresta⟩ := aptEntry_stablePackage "a" "pool/main/a/a/a.deb"
  obtain ⟨rest', hrestb⟩ := aptEntry_stablePackage "b" "pool/main/b/b/b.deb"
  rw [ha, hb, flatMap_singleton, flatMap_singleton, hresta, hrestb, append_assoc,
    append_assoc, append_assoc, append_assoc] at hpair
  have htail := append_cancel_left hpair
  have hchars : "a".toList = ['a'] ∧ "b".toList = ['b'] := by decide
  rw [hchars.1, hchars.2] at htail
  have hne : 'a' ≠ 'b' := by decide
  exact hne (List.cons.inj htail).1

end Depot
