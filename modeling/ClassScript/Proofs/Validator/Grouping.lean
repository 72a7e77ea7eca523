/-
  File:      ClassScript/Proofs/Validator/Grouping.lean
  Subject:   The diagnostics of each file, in a map and in groups.

  A validator keeps the diagnostics of files in a map that is ordered by path.
  A report groups its diagnostics by the path that each of them names, in the
  order in which paths come up. Both take a file's diagnostics in one by one,
  and both let the first spelling of a path stand for all of them.

  What a file adds to either is said in one way (`extendAt`): its diagnostics
  come behind those of the same path, or they are a new entry. So the map and
  the groups have the same entries, and differ in their order only.

  * `extendAt`, `DistinctKeys`, `SortedKeys`: entries under paths;
  * `addEntries_perm_cons`, `foldl_addToGroup_of_hasKey`: one file in the two views;
  * `foldl_addFound_perm_groups`: all files, by induction over them;
  * `not_hasKey_checkEach_iff`: which paths have an entry;
  * `unit_views`: the two views and the accepted files.
-/
import ClassScript.Proofs.Validator.InputOrder

namespace ClassScript

open Std (OrientedCmp TransCmp)
open Rules

/-! ## 1. Entries under paths -/

section Entries

variable {α : Type} {path key : FilePath} {values : List α}
  {entries groups : List (FilePath × List α)}

/-- More values behind those that an entry has, if its path is `path`. -/
def extendAt (path : FilePath) (values : List α) (entry : FilePath × List α) :
    FilePath × List α :=
  if entry.1.same path then (entry.1, entry.2 ++ values) else entry

/-- Some entry is under `path`, in whichever spelling. -/
def HasKey (path : FilePath) (entries : List (FilePath × List α)) : Prop :=
  ∃ entry ∈ entries, entry.1.same path = true

/-- No two entries are under one path. -/
def DistinctKeys (entries : List (FilePath × List α)) : Prop :=
  entries.Pairwise fun a b => a.1.same b.1 = false

/-- The paths of the entries are in their order, each of them once. -/
def SortedKeys (entries : List (FilePath × List α)) : Prop :=
  entries.Pairwise fun a b => a.1.order b.1 = .lt

theorem SortedKeys.distinct (h : SortedKeys entries) : DistinctKeys entries := by
  refine h.imp fun {a b} hlt => ?_
  rw [← Bool.not_eq_true, ← FilePath.order_eq_eq_iff, hlt]
  exact nofun

theorem DistinctKeys.perm (h : DistinctKeys entries) (hperm : entries.Perm groups) :
    DistinctKeys groups :=
  hperm.pairwise h fun {a b} hab => (FilePath.same_comm b.1 a.1).trans hab

theorem HasKey.perm_iff (hperm : entries.Perm groups) : HasKey path entries ↔ HasKey path groups :=
  exists_congr fun _ => and_congr_left' hperm.mem_iff

theorem hasKey_cons_iff {entry : FilePath × List α} :
    HasKey path (entry :: entries) ↔ entry.1.same path = true ∨ HasKey path entries := by
  simp [HasKey]

theorem fst_extendAt (entry : FilePath × List α) : (extendAt path values entry).1 = entry.1 := by
  unfold extendAt
  split <;> rfl

theorem extendAt_of_same {old : List α} (h : key.same path = true) :
    extendAt path values (key, old) = (key, old ++ values) :=
  if_pos h

theorem extendAt_of_other {old : List α} (h : key.same path = false) :
    extendAt path values (key, old) = (key, old) :=
  if_neg (Bool.eq_false_iff.mp h)

/-- Values and then more values are all of them at once. -/
theorem extendAt_extendAt (more : List α) (entry : FilePath × List α) :
    extendAt path more (extendAt path values entry) = extendAt path (values ++ more) entry := by
  obtain ⟨key, old⟩ := entry
  cases h : key.same path with
  | true => rw [extendAt_of_same h, extendAt_of_same h, extendAt_of_same h, List.append_assoc]
  | false => rw [extendAt_of_other h, extendAt_of_other h, extendAt_of_other h]

/-- Where no entry is under the path, none gets more. -/
theorem map_extendAt_of_absent (h : ¬HasKey path entries) :
    entries.map (extendAt path values) = entries := by
  refine List.map_congr_left (fun entry hentry => ?_) |>.trans (List.map_id entries)
  refine extendAt_of_other (Bool.eq_false_iff.mpr fun hsame => h ⟨entry, hentry, hsame⟩)

theorem hasKey_map_extendAt_iff {other : FilePath} :
    HasKey other (entries.map (extendAt path values)) ↔ HasKey other entries := by
  constructor
  · rintro ⟨_, hmem, hsame⟩
    obtain ⟨entry, hentry, rfl⟩ := List.mem_map.mp hmem
    exact ⟨entry, hentry, by rwa [fst_extendAt] at hsame⟩
  · rintro ⟨entry, hentry, hsame⟩
    exact ⟨_, List.mem_map_of_mem hentry, by rwa [fst_extendAt]⟩

theorem DistinctKeys.map_extendAt (h : DistinctKeys entries) :
    DistinctKeys (entries.map (extendAt path values)) :=
  List.pairwise_map.mpr (h.imp fun {a b} hab => by rwa [fst_extendAt, fst_extendAt])

theorem SortedKeys.map_extendAt (h : SortedKeys entries) :
    SortedKeys (entries.map (extendAt path values)) :=
  List.pairwise_map.mpr (h.imp fun {a b} hab => by rwa [fst_extendAt, fst_extendAt])

/-! ## 2. The map that is ordered by path -/

namespace Validator

/-- Entries that come after a path are not under it. -/
theorem not_hasKey_of_lt (h : SortedKeys ((key, values) :: entries)) (hlt : path.order key = .lt) :
    ¬HasKey path ((key, values) :: entries) := by
  rintro ⟨entry, hentry, hsame⟩
  have hle : path.order entry.1 = .lt := by
    rcases List.mem_cons.mp hentry with rfl | hrest
    · exact hlt
    · exact TransCmp.lt_trans hlt ((List.pairwise_cons.mp h).1 entry hrest)
  rw [FilePath.same_comm, ← FilePath.order_eq_eq_iff, hle] at hsame
  cases hsame

/-- Values for a path with an entry come behind what the entry has. -/
theorem addEntries_of_hasKey (hsorted : SortedKeys entries) (h : HasKey path entries) :
    addEntries path values entries = entries.map (extendAt path values) := by
  induction entries with
  | nil => exact absurd h (by simp [HasKey])
  | cons entry rest ih =>
    obtain ⟨key, old⟩ := entry
    rw [addEntries, List.map_cons]
    cases horder : path.order key with
    | lt => exact absurd h (not_hasKey_of_lt hsorted horder)
    | eq =>
      have hsame : key.same path = true := by
        rw [FilePath.same_comm]
        exact FilePath.order_eq_eq_iff.mp horder
      have habsent : ¬HasKey path rest := by
        rintro ⟨entry, hentry, hentrySame⟩
        have hdistinct := (List.pairwise_cons.mp hsorted.distinct).1 entry hentry
        rw [FilePath.same_congr hsame, FilePath.same_comm, hentrySame] at hdistinct
        cases hdistinct
      rw [extendAt_of_same hsame, map_extendAt_of_absent habsent]
    | gt =>
      have hother : key.same path = false := by
        rw [FilePath.same_comm, ← Bool.not_eq_true, ← FilePath.order_eq_eq_iff, horder]
        decide
      have hrest : HasKey path rest :=
        (hasKey_cons_iff.mp h).resolve_left (Bool.eq_false_iff.mp hother)
      rw [extendAt_of_other hother, ih (List.pairwise_cons.mp hsorted).2 hrest]

/-- Values for a path without an entry are one more entry. -/
theorem addEntries_perm_cons (h : ¬HasKey path entries) :
    (addEntries path values entries).Perm ((path, values) :: entries) := by
  induction entries with
  | nil => exact .refl _
  | cons entry rest ih =>
    obtain ⟨key, old⟩ := entry
    obtain ⟨hkey, hrest⟩ := not_or.mp (mt hasKey_cons_iff.mpr h)
    rw [addEntries]
    cases horder : path.order key with
    | lt => exact .refl _
    | eq =>
      rw [FilePath.same_comm] at hkey
      exact absurd (FilePath.order_eq_eq_iff.mp horder) hkey
    | gt => exact ((ih hrest).cons _).trans (.swap _ _ rest)

theorem fst_of_mem_addEntries {entry : FilePath × List α}
    (h : entry ∈ addEntries path values entries) :
    entry.1 = path ∨ ∃ old ∈ entries, entry.1 = old.1 := by
  induction entries with
  | nil => exact .inl (congrArg Prod.fst (List.mem_singleton.mp h))
  | cons first rest ih =>
    obtain ⟨key, old⟩ := first
    rw [addEntries] at h
    cases horder : path.order key <;> simp only [horder, List.mem_cons] at h
    case lt =>
      rcases h with rfl | h
      · exact .inl rfl
      · exact .inr ⟨entry, List.mem_cons.mpr h, rfl⟩
    case eq =>
      rcases h with rfl | h
      · exact .inr ⟨(key, old), List.mem_cons_self, rfl⟩
      · exact .inr ⟨entry, List.mem_cons_of_mem _ h, rfl⟩
    case gt =>
      rcases h with rfl | h
      · exact .inr ⟨(key, old), List.mem_cons_self, rfl⟩
      · rcases ih h with hpath | ⟨e, he, heq⟩
        · exact .inl hpath
        · exact .inr ⟨e, List.mem_cons_of_mem _ he, heq⟩

theorem SortedKeys.addEntries (h : SortedKeys entries) :
    SortedKeys (addEntries path values entries) := by
  induction entries with
  | nil => exact List.pairwise_singleton _ _
  | cons first rest ih =>
    obtain ⟨key, old⟩ := first
    obtain ⟨hfirst, hrest⟩ := List.pairwise_cons.mp h
    rw [Validator.addEntries]
    cases horder : path.order key with
    | lt =>
      refine List.pairwise_cons.mpr ⟨fun entry hentry => ?_, h⟩
      rcases List.mem_cons.mp hentry with rfl | hentry
      · exact horder
      · exact TransCmp.lt_trans horder (hfirst entry hentry)
    | eq => exact List.pairwise_cons.mpr ⟨hfirst, hrest⟩
    | gt =>
      refine List.pairwise_cons.mpr ⟨fun entry hentry => ?_, ih hrest⟩
      rcases fst_of_mem_addEntries hentry with heq | ⟨old, hold, heq⟩
      · show key.order entry.1 = .lt
        rw [heq]
        exact OrientedCmp.lt_of_gt horder
      · show key.order entry.1 = .lt
        rw [heq]
        exact hfirst old hold

end Validator

/-! ## 3. The groups of a report -/

namespace Report

/-- One more value for a path with a group comes behind those of the group. -/
theorem addToGroup_of_hasKey {a : α} (hdistinct : DistinctKeys groups) (h : HasKey path groups) :
    addToGroup path a groups = groups.map (extendAt path [a]) := by
  induction groups with
  | nil => exact absurd h (by simp [HasKey])
  | cons group rest ih =>
    obtain ⟨key, old⟩ := group
    obtain ⟨hfirst, hrest⟩ := List.pairwise_cons.mp hdistinct
    rw [addToGroup, List.map_cons]
    cases hsame : key.same path with
    | true =>
      have habsent : ¬HasKey path rest := by
        rintro ⟨entry, hentry, hentrySame⟩
        have hother := hfirst entry hentry
        rw [FilePath.same_congr hsame, FilePath.same_comm, hentrySame] at hother
        cases hother
      rw [if_pos rfl, extendAt_of_same hsame, map_extendAt_of_absent habsent]
    | false =>
      have hkey : HasKey path rest :=
        (hasKey_cons_iff.mp h).resolve_left (Bool.eq_false_iff.mp hsame)
      rw [if_neg Bool.false_ne_true, extendAt_of_other hsame, ih hrest hkey]

/-- One more value for a path without a group is a new last group. -/
theorem addToGroup_of_not_hasKey {a : α} (h : ¬HasKey path groups) :
    addToGroup path a groups = groups ++ [(path, [a])] := by
  induction groups with
  | nil => rfl
  | cons group rest ih =>
    obtain ⟨key, old⟩ := group
    obtain ⟨hkey, hrest⟩ := not_or.mp (mt hasKey_cons_iff.mpr h)
    rw [addToGroup, if_neg hkey, ih hrest]
    rfl

/-- Several values for a path with a group, one after the other. -/
theorem foldl_addToGroup_of_hasKey (hdistinct : DistinctKeys groups) (h : HasKey path groups) :
    values.foldl (fun gs a => addToGroup path a gs) groups =
      groups.map (extendAt path values) := by
  induction values generalizing groups with
  | nil =>
    refine (List.map_id groups).symm.trans (List.map_congr_left fun group _ => ?_)
    show group = extendAt path [] group
    unfold extendAt
    split
    · rw [List.append_nil]
    · rfl
  | cons a values ih =>
    rw [List.foldl_cons, addToGroup_of_hasKey hdistinct h,
      ih hdistinct.map_extendAt (hasKey_map_extendAt_iff.mpr h), List.map_map]
    exact List.map_congr_left fun group _ => extendAt_extendAt values group

/-- Several values for a path without a group, of which the first one makes it. -/
theorem foldl_addToGroup_of_not_hasKey {a : α} (hdistinct : DistinctKeys groups)
    (h : ¬HasKey path groups) :
    (a :: values).foldl (fun gs b => addToGroup path b gs) groups =
      groups ++ [(path, a :: values)] := by
  have hsame : path.same path = true := FilePath.same_iff.mpr rfl
  have hnew : DistinctKeys (groups ++ [(path, [a])]) := by
    refine List.pairwise_append.mpr ⟨hdistinct, List.pairwise_singleton _ _, ?_⟩
    intro group hgroup entry hentry
    rw [List.mem_singleton.mp hentry]
    exact Bool.eq_false_iff.mpr fun hs => h ⟨group, hgroup, hs⟩
  have hkey : HasKey path (groups ++ [(path, [a])]) :=
    ⟨(path, [a]), List.mem_append_right _ (List.mem_singleton_self _), hsame⟩
  rw [List.foldl_cons, addToGroup_of_not_hasKey h, foldl_addToGroup_of_hasKey hnew hkey,
    List.map_append, map_extendAt_of_absent h, List.map_singleton, extendAt_of_same hsame]
  rfl

end Report

/-! ## 4. One more file -/

open Validator Report

/-- **A file's values come into the map and into the groups** as the same entries. -/
theorem addEntries_perm_foldl_addToGroup {a : α} (hsorted : SortedKeys entries)
    (hperm : entries.Perm groups) :
    (addEntries path (a :: values) entries).Perm
      ((a :: values).foldl (fun gs b => addToGroup path b gs) groups) := by
  have hdistinct : DistinctKeys groups := hsorted.distinct.perm hperm
  by_cases h : HasKey path entries
  · rw [addEntries_of_hasKey hsorted h,
      foldl_addToGroup_of_hasKey hdistinct ((HasKey.perm_iff hperm).mp h)]
    exact hperm.map _
  · rw [foldl_addToGroup_of_not_hasKey hdistinct (mt (HasKey.perm_iff hperm).mpr h)]
    calc addEntries path (a :: values) entries
      _ |>.Perm ((path, a :: values) :: entries) := addEntries_perm_cons h
      _ |>.Perm ((path, a :: values) :: groups) := hperm.cons _
      _ |>.Perm (groups ++ [(path, a :: values)]) := (List.perm_append_singleton _ groups).symm

/-- After values for a path, the paths with an entry are that path and those before. -/
theorem hasKey_addEntries_iff {other : FilePath} (hsorted : SortedKeys entries) :
    HasKey other (addEntries path values entries) ↔
      path.same other = true ∨ HasKey other entries := by
  by_cases h : HasKey path entries
  · rw [addEntries_of_hasKey hsorted h, hasKey_map_extendAt_iff]
    refine (or_iff_right_of_imp fun hsame => ?_).symm
    obtain ⟨entry, hentry, hkey⟩ := h
    exact ⟨entry, hentry, (FilePath.same_congr hkey other).trans hsame⟩
  · rw [HasKey.perm_iff (addEntries_perm_cons h), hasKey_cons_iff]

end Entries

/-! ## 5. All files -/

namespace Validator

variable {v : Validator} {loaded units : List CompilationUnit}
  {found groups : List (FilePath × List Diagnostic)}

/-- The diagnostics of a file name its path, in its spelling. -/
theorem file_of_mem_checkUnitIn (hv : ∀ r ∈ v.rules, r ∈ allRules) {u : CompilationUnit}
    {d : Diagnostic} (hd : d ∈ v.checkUnitIn loaded u) : d.file = u.path := by
  obtain ⟨r, hr, hdr⟩ := List.mem_flatMap.mp hd
  exact (attributed_of_mem_check (hv _ (mem_running_unit_iff.mp hr).1) hdr).file

theorem SortedKeys.addFound (h : SortedKeys found) (u : CompilationUnit) :
    SortedKeys (v.addFound loaded found u) := by
  unfold Validator.addFound
  split
  · exact h
  · exact SortedKeys.addEntries h

/-- One more file: the map stays ordered, and has the entries that the groups have. -/
theorem addFound_perm (hv : ∀ r ∈ v.rules, r ∈ allRules) (hsorted : SortedKeys found)
    (hperm : found.Perm groups) (u : CompilationUnit) :
    (v.addFound loaded found u).Perm
      ((v.checkUnitIn loaded u).foldl (fun gs d => Report.addToGroup d.file d gs) groups) := by
  have hfile : ∀ d ∈ v.checkUnitIn loaded u, d.file = u.path :=
    fun d hd => file_of_mem_checkUnitIn hv hd
  have hfold : (v.checkUnitIn loaded u).foldl (fun gs d => Report.addToGroup d.file d gs) groups =
      (v.checkUnitIn loaded u).foldl (fun gs d => Report.addToGroup u.path d gs) groups :=
    List.foldl_ext _ _ _ fun gs d hd => by rw [hfile d hd]
  rw [hfold]
  unfold addFound
  cases v.checkUnitIn loaded u with
  | nil => exact hperm
  | cons d ds => exact addEntries_perm_foldl_addToGroup hsorted hperm

theorem sortedKeys_foldl_addFound (h : SortedKeys found) :
    SortedKeys (units.foldl (v.addFound loaded) found) := by
  induction units generalizing found with
  | nil => exact h
  | cons u rest ih => exact ih (SortedKeys.addFound h u)

/-- **All files**, by induction over them: the map and the groups so far have the same entries. -/
theorem foldl_addFound_perm_groups (hv : ∀ r ∈ v.rules, r ∈ allRules) (hsorted : SortedKeys found)
    (hperm : found.Perm groups) :
    (units.foldl (v.addFound loaded) found).Perm
      ((units.flatMap (v.checkUnitIn loaded)).foldl
        (fun gs d => Report.addToGroup d.file d gs) groups) := by
  induction units generalizing found groups with
  | nil => exact hperm
  | cons u rest ih =>
    rw [List.foldl_cons, List.flatMap_cons, List.foldl_append]
    exact ih (SortedKeys.addFound hsorted u) (addFound_perm hv hsorted hperm u)

/-- The paths with an entry are those of the files with diagnostics. -/
theorem hasKey_foldl_addFound_iff {path : FilePath} (hsorted : SortedKeys found) :
    HasKey path (units.foldl (v.addFound loaded) found) ↔
      (∃ u ∈ units, u.path.same path = true ∧ v.checkUnitIn loaded u ≠ []) ∨
        HasKey path found := by
  induction units generalizing found with
  | nil => simp
  | cons u rest ih =>
    rw [List.foldl_cons, ih (SortedKeys.addFound hsorted u)]
    have hstep : HasKey path (v.addFound loaded found u) ↔
        (u.path.same path = true ∧ v.checkUnitIn loaded u ≠ []) ∨ HasKey path found := by
      unfold addFound
      cases v.checkUnitIn loaded u with
      | nil => simp
      | cons d ds => simp [hasKey_addEntries_iff hsorted]
    rw [hstep, ← or_assoc]
    refine or_congr_left ?_
    simp only [List.mem_cons, or_and_right, exists_or, exists_eq_left]
    exact or_comm

theorem not_hasKey_checkEach_iff {path : FilePath} :
    (¬HasKey path (v.checkEach units)) ↔
      ∀ u ∈ units, u.path.same path = true → u ∈ v.accepted units := by
  rw [checkEach_eq_foldl, hasKey_foldl_addFound_iff List.Pairwise.nil]
  simp only [HasKey, List.not_mem_nil, false_and, exists_false, or_false, not_exists, not_and,
    not_not]
  refine forall₂_congr fun u hu => imp_congr_right fun _ => ?_
  rw [mem_accepted_iff]
  exact (and_iff_right hu).symm

/-- Dropping elements leaves all images of those in `p` exactly when none of these is dropped. -/
theorem map_filter_filter_eq_iff {α β : Type} {f : α → β} {p q : α → Bool} {as : List α} :
    ((as.filter q).filter p).map f = (as.filter p).map f ↔
      ∀ a ∈ as, p a = true → q a = true := by
  have hcomm : (as.filter q).filter p = (as.filter p).filter q := by
    rw [List.filter_filter, List.filter_filter]
    exact List.filter_congr fun a _ => Bool.and_comm _ _
  rw [hcomm]
  constructor
  · intro h a ha hp
    have hlength := congrArg List.length h
    rw [List.length_map, List.length_map] at hlength
    exact List.length_filter_eq_length_iff.mp hlength a (List.mem_filter.mpr ⟨ha, hp⟩)
  · intro h
    rw [List.filter_eq_self.mpr fun a ha => h a (List.mem_filter.mp ha).1 (List.mem_filter.mp ha).2]

/-- The accepted paths of a report have all files of a path exactly when all of them are
    accepted. -/
theorem accepted_filter_eq_iff {path : FilePath} :
    (v.checkAll units).accepted.filter (·.same path) =
        (units.map (·.path)).filter (·.same path) ↔
      ∀ u ∈ units, u.path.same path = true → u ∈ v.accepted units := by
  show ((units.filter (v.accepts units)).map (·.path)).filter (·.same path) = _ ↔ _
  rw [List.filter_map, List.filter_map, map_filter_filter_eq_iff]
  refine forall₂_congr fun u hu => imp_congr_right fun _ => ?_
  rw [accepts_iff, mem_accepted_iff]
  exact (and_iff_right hu).symm

/-- Without project rules, the diagnostics of a report are those of the files. -/
theorem diagnostics_checkAll_of_units (hv : ∀ r ∈ v.rules, r.project? = none) :
    (v.checkAll units).diagnostics = units.flatMap (v.checkUnitIn units) := by
  have hproject : v.checkProject (v.accepted units) = [] := by
    refine checkProject_eq_nil_iff.mpr fun r hr _ => ?_
    exact absurd (hv _ hr) (Option.some_ne_none r)
  show units.flatMap (v.checkUnitIn units) ++ v.checkProject (v.accepted units) = _
  rw [hproject, List.append_nil]

/-- **The map, the groups and the accepted files agree.** Under unit rules of the catalogue and any
    configuration, for any files, of which several may have one path in several spellings: the map
    of files with diagnostics has the groups of the report as its entries, each under the same
    spelling and with the same diagnostics in their order. It has them in the order of their paths,
    each path once. A path has no entry exactly when every file of that path is accepted, and so
    exactly when the report has as many accepted files of that path as there are. -/
theorem unit_views (v : Validator)
    (hv : ∀ r ∈ v.rules, r ∈ allRules ∧ r.project? = none) (units : List CompilationUnit) :
    (v.checkEach units).Perm (v.checkAll units).byUnit ∧
      ((v.checkEach units).map Prod.fst).Pairwise (fun p q => p.order q = .lt) ∧
      ∀ path : FilePath,
        ((∀ entry ∈ v.checkEach units, entry.1.same path = false) ↔
          ∀ u ∈ units, u.path.same path = true → u ∈ v.accepted units) ∧
        ((∀ entry ∈ v.checkEach units, entry.1.same path = false) ↔
          (v.checkAll units).accepted.filter (·.same path) =
            (units.map (·.path)).filter (·.same path)) := by
  have hcatalogue : ∀ r ∈ v.rules, r ∈ allRules := fun r hr => (hv r hr).1
  have hempty : ∀ path, (∀ entry ∈ v.checkEach units, entry.1.same path = false) ↔
      ¬HasKey path (v.checkEach units) := by
    intro path
    simp [HasKey]
  refine ⟨?_, List.pairwise_map.mpr (sortedKeys_foldl_addFound List.Pairwise.nil), fun path => ?_⟩
  · unfold Report.byUnit Report.groupsOf
    rw [diagnostics_checkAll_of_units fun r hr => (hv r hr).2]
    exact foldl_addFound_perm_groups hcatalogue List.Pairwise.nil (.refl [])
  · rw [hempty, accepted_filter_eq_iff]
    exact ⟨not_hasKey_checkEach_iff, not_hasKey_checkEach_iff⟩

/-- A file without declarations. -/
def emptyFile (path : String) : CompilationUnit := ⟨⟨path⟩, "", []⟩

/-- Two files have one path in two spellings, and a file of another path stands between them. The
    map has that path last and the groups have it first; both have the two diagnostics of the
    other path under its first spelling. A path of no file has no entry. -/
theorem unit_views_spellings :
    let v : Validator := ⟨[.unit requireClass], {}⟩
    let units := [emptyFile "b", emptyFile "a//c", emptyFile "b", emptyFile "a/c"]
    (v.checkEach units).Perm (v.checkAll units).byUnit ∧
      (v.checkEach units).map (fun e => (e.1.text, e.2.length)) = [("a//c", 2), ("b", 2)] ∧
      (v.checkAll units).byUnit.map (fun e => (e.1.text, e.2.length)) = [("b", 2), ("a//c", 2)] ∧
      ∀ entry ∈ v.checkEach units, entry.1.same ⟨"d"⟩ = false := by
  intro v units
  have hv : ∀ r ∈ v.rules, r ∈ allRules ∧ r.project? = none := by
    intro r hr
    rw [List.mem_singleton.mp hr]
    exact ⟨mem_allRules_unit_iff.mpr (by simp only [true_or, or_true]), rfl⟩
  obtain ⟨hperm, -, hpaths⟩ := unit_views v hv units
  refine ⟨hperm, by decide +kernel, by decide +kernel, (hpaths ⟨"d"⟩).1.mpr ?_⟩
  intro u hu hsame
  have hother : ∀ u ∈ units, u.path.same ⟨"d"⟩ = false := by decide +kernel
  rw [hother u hu] at hsame
  cases hsame

end Validator
end ClassScript
