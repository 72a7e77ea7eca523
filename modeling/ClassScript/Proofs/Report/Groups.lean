/-
  File:      ClassScript/Proofs/Report/Groups.lean
  Subject:   What the groups and the counts of a report are, and how they add up.

  A report takes its diagnostics one by one into groups. The groups so far are
  at any time those of the diagnostics so far: the paths in order of first
  occurrence, and under each the diagnostics with an equal path, in order
  (`groupsOf_eq`). This says what the groups of a whole report are, and what
  becomes of them when another report comes behind it.

  * `groupsOf_eq`, `fileGroups_append`: the groups of a report, and of two;
  * `lookup_ruleCounts`: how often a rule is counted;
  * `report_laws`: groups, counts and joined reports.
-/
import Mathlib.Algebra.GroupWithZero.Nat
import Mathlib.Data.List.Basic
import ClassScript.Proofs.Json
import ClassScript.Proofs.Text.Spellings
import ClassScript.Proofs.Validator.Grouping

namespace ClassScript

open Std (OrientedCmp TransCmp LawfulEqCmp)

/-! ## 1. The groups of a report -/

namespace Report

variable {ds es : List Diagnostic} {d : Diagnostic} {p : FilePath}

/-- The files that diagnostics name. -/
def filesOf (ds : List Diagnostic) : List FilePath := ds.map (·.file)

/-- The diagnostics of one file, in order. -/
def ofFile (ds : List Diagnostic) (p : FilePath) : List Diagnostic := ds.filter (·.file.same p)

theorem filesOf_concat : filesOf (ds ++ [d]) = filesOf ds ++ [d.file] := List.map_append

theorem occurs_filesOf_iff :
    FilePath.occurs (filesOf ds) p = true ↔ ∃ d ∈ ds, d.file.same p = true := by
  unfold filesOf
  rw [FilePath.occurs_iff]
  simp only [List.mem_map, exists_exists_and_eq_and]

/-- A file that does not come up has no diagnostics. -/
theorem ofFile_eq_nil (h : FilePath.occurs (filesOf ds) p = false) : ofFile ds p = [] := by
  refine List.filter_eq_nil_iff.mpr fun d hd hsame => ?_
  rw [occurs_filesOf_iff.mpr ⟨d, hd, hsame⟩] at h
  cases h

theorem ofFile_append : ofFile (ds ++ es) p = ofFile ds p ++ ofFile es p :=
  List.filter_append _ _

theorem ofFile_singleton : ofFile [d] p = if d.file.same p then [d] else [] := List.filter_cons

/-- A diagnostic of a file that did not come up is the first of its file. -/
theorem ofFile_concat_of_new (h : FilePath.occurs (filesOf ds) d.file = false) :
    ofFile (ds ++ [d]) d.file = [d] := by
  rw [ofFile_append, ofFile_eq_nil h, ofFile_singleton, if_pos (FilePath.same_iff.mpr rfl),
    List.nil_append]

/-- The groups that the diagnostics of a report should have. -/
def fileGroups (ds : List Diagnostic) : List (FilePath × List Diagnostic) :=
  (FilePath.firstSpellings (filesOf ds)).map fun p => (p, ofFile ds p)

theorem distinctKeys_fileGroups (ds : List Diagnostic) : DistinctKeys (fileGroups ds) :=
  List.pairwise_map.mpr (FilePath.pairwise_firstSpellings _)

theorem hasKey_fileGroups_iff :
    HasKey p (fileGroups ds) ↔ FilePath.occurs (filesOf ds) p = true := by
  rw [← FilePath.occurs_firstSpellings, FilePath.occurs_iff]
  unfold HasKey fileGroups
  simp only [List.mem_map, exists_exists_and_eq_and]

/-- One more diagnostic comes behind those of its file, and of no other. -/
theorem extendAt_ofFile :
    extendAt d.file [d] (p, ofFile ds p) = (p, ofFile (ds ++ [d]) p) := by
  rw [ofFile_append, ofFile_singleton, FilePath.same_comm]
  cases hsame : p.same d.file with
  | true => exact extendAt_of_same hsame
  | false => rw [extendAt_of_other hsame, if_neg Bool.false_ne_true, List.append_nil]

theorem mem_fileGroups_iff {g : FilePath × List Diagnostic} :
    g ∈ fileGroups ds ↔ g.1 ∈ FilePath.firstSpellings (filesOf ds) ∧ g.2 = ofFile ds g.1 := by
  unfold fileGroups
  rw [List.mem_map]
  constructor
  · rintro ⟨p, hp, rfl⟩
    exact ⟨hp, rfl⟩
  · rintro ⟨hp, hgroup⟩
    exact ⟨g.1, hp, Prod.ext rfl hgroup.symm⟩

theorem map_fst_fileGroups (ds : List Diagnostic) :
    (fileGroups ds).map Prod.fst = FilePath.firstSpellings (filesOf ds) := by
  unfold fileGroups
  rw [List.map_map]
  exact List.map_id _

/-- **One more diagnostic**: the groups that should be there are those that are made. -/
theorem addToGroup_fileGroups (ds : List Diagnostic) (d : Diagnostic) :
    addToGroup d.file d (fileGroups ds) = fileGroups (ds ++ [d]) := by
  have hextend : (fileGroups ds).map (extendAt d.file [d]) =
      (FilePath.firstSpellings (filesOf ds)).map fun p => (p, ofFile (ds ++ [d]) p) := by
    unfold fileGroups
    rw [List.map_map]
    exact List.map_congr_left fun p _ => extendAt_ofFile
  have hgroups : fileGroups (ds ++ [d]) = (fileGroups ds).map (extendAt d.file [d]) ++
      (if FilePath.occurs (filesOf ds) d.file then [] else [d.file]).map
        fun p => (p, ofFile (ds ++ [d]) p) := by
    rw [hextend, ← List.map_append, ← FilePath.firstSpellings_concat, ← filesOf_concat]
    rfl
  rw [hgroups]
  cases h : FilePath.occurs (filesOf ds) d.file with
  | true =>
    rw [if_pos rfl, List.map_nil, List.append_nil]
    exact addToGroup_of_hasKey (distinctKeys_fileGroups ds) (hasKey_fileGroups_iff.mpr h)
  | false =>
    have hnew : ¬HasKey d.file (fileGroups ds) :=
      mt hasKey_fileGroups_iff.mp (Bool.eq_false_iff.mp h)
    rw [if_neg Bool.false_ne_true, map_extendAt_of_absent hnew, List.map_singleton,
      ofFile_concat_of_new h]
    exact addToGroup_of_not_hasKey hnew

/-- **The groups of a report.** -/
theorem groupsOf_eq (ds : List Diagnostic) : groupsOf ds = fileGroups ds := by
  induction ds using List.reverseRecOn with
  | nil => rfl
  | append_singleton ds d ih =>
    unfold groupsOf at ih ⊢
    rw [List.foldl_concat, ih]
    exact addToGroup_fileGroups ds d

/-- A file's group holds its diagnostics, and has the file's name from the first of them. -/
theorem exists_cons_ofFile (h : p ∈ FilePath.firstSpellings (filesOf ds)) :
    ∃ d rest, ofFile ds p = d :: rest ∧ d.file = p := by
  induction ds using List.reverseRecOn with
  | nil => exact absurd h List.not_mem_nil
  | append_singleton ds d ih =>
    rw [filesOf_concat, FilePath.firstSpellings_concat, List.mem_append] at h
    rcases h with hold | hnew
    · obtain ⟨first, rest, hfile, hfirst⟩ := ih hold
      exact ⟨first, rest ++ ofFile [d] p, by rw [ofFile_append, hfile, List.cons_append], hfirst⟩
    · cases hoccurs : FilePath.occurs (filesOf ds) d.file with
      | true =>
        rw [hoccurs] at hnew
        exact absurd hnew List.not_mem_nil
      | false =>
        rw [hoccurs] at hnew
        obtain rfl := List.mem_singleton.mp hnew
        exact ⟨d, [], ofFile_concat_of_new hoccurs, rfl⟩

/-- **The groups of two reports**, one behind the other. -/
theorem fileGroups_append (ds es : List Diagnostic) :
    fileGroups (ds ++ es) =
      ((fileGroups ds).map fun g => (g.1, g.2 ++ ofFile es g.1)) ++
        (fileGroups es).filter fun g => !FilePath.occurs (filesOf ds) g.1 := by
  have hfiles : filesOf (ds ++ es) = filesOf ds ++ filesOf es := List.map_append
  unfold fileGroups
  rw [hfiles, FilePath.firstSpellings_append, List.map_append, List.map_map, List.filter_map]
  congr 1
  · exact List.map_congr_left fun p _ => congrArg (Prod.mk p) ofFile_append
  · refine List.map_congr_left fun p hp => congrArg (Prod.mk p) ?_
    obtain ⟨-, hnew⟩ := List.mem_filter.mp hp
    rw [ofFile_append, ofFile_eq_nil ((Bool.not_eq_true' _).mp hnew), List.nil_append]

/-- **Every diagnostic is in one group**, and in no other. -/
theorem existsUnique_group (hd : d ∈ ds) : ∃! g, g ∈ fileGroups ds ∧ d ∈ g.2 := by
  have hfile : ∀ g ∈ fileGroups ds, d ∈ g.2 ↔ g.1.same d.file = true := by
    intro g hg
    rw [(mem_fileGroups_iff.mp hg).2, ofFile, List.mem_filter, FilePath.same_comm]
    exact and_iff_right hd
  obtain ⟨g, hg, hsame⟩ :=
    hasKey_fileGroups_iff.mpr (occurs_filesOf_iff.mpr ⟨d, hd, FilePath.same_iff.mpr rfl⟩)
  have hsymm : Std.Symm fun a b : FilePath × List Diagnostic => a.1.same b.1 = false :=
    ⟨fun a b hab => (FilePath.same_comm b.1 a.1).trans hab⟩
  refine ⟨g, ⟨hg, (hfile g hg).mpr hsame⟩, fun h hh => ?_⟩
  have hother : h.1.same d.file = true := (hfile h hh.1).mp hh.2
  by_contra hne
  have hdistinct : h.1.same g.1 = false :=
    List.Pairwise.forall (distinctKeys_fileGroups ds) hh.1 hg hne
  rw [FilePath.same_congr hother, FilePath.same_comm, hsame] at hdistinct
  cases hdistinct

theorem flatMap_addToGroup_perm {α : Type} (path : FilePath) (a : α)
    (groups : List (FilePath × List α)) :
    ((addToGroup path a groups).flatMap (·.2)).Perm (groups.flatMap (·.2) ++ [a]) := by
  induction groups with
  | nil => exact .refl _
  | cons group groups ih =>
    obtain ⟨key, values⟩ := group
    rw [addToGroup]
    split
    · simp only [List.flatMap_cons, List.append_assoc]
      exact List.perm_append_comm.append_left values
    · simp only [List.flatMap_cons, List.append_assoc]
      exact ih.append_left values

/-- The groups hold the diagnostics, each as often as the report has it. -/
theorem flatMap_groupsOf_perm (ds : List Diagnostic) : ((groupsOf ds).flatMap (·.2)).Perm ds := by
  induction ds using List.reverseRecOn with
  | nil => exact .refl _
  | append_singleton ds d ih =>
    unfold groupsOf at ih ⊢
    rw [List.foldl_concat]
    exact (flatMap_addToGroup_perm d.file d _).trans (ih.append_right [d])

/-! ## 2. The counts of a report -/

/-- The order of names. -/
def nameOrder (a b : String) : Ordering := Text.byCodePoint a.toList b.toList

instance : TransCmp Text.byCodePoint := by
  rw [Text.byCodePoint_eq]
  infer_instance

instance : LawfulEqCmp Text.byCodePoint := by
  rw [Text.byCodePoint_eq]
  infer_instance

instance : TransCmp nameOrder where
  eq_swap {a b} := @OrientedCmp.eq_swap _ Text.byCodePoint _ a.toList b.toList
  isLE_trans {a b c} := @TransCmp.isLE_trans _ Text.byCodePoint _ a.toList b.toList c.toList

/-- The counts are in the order of their names, each name once. -/
def SortedNames (counts : List (String × Nat)) : Prop :=
  counts.Pairwise fun a b => nameOrder a.1 b.1 = .lt

variable {name key : String} {counts : List (String × Nat)} {n : Nat}

theorem nameOrder_trans {a b c : String} (hab : nameOrder a b = .lt) (hbc : nameOrder b c = .lt) :
    nameOrder a c = .lt :=
  TransCmp.lt_trans hab hbc

theorem nameOrder_lt_of_gt {a b : String} (h : nameOrder a b = .gt) : nameOrder b a = .lt :=
  OrientedCmp.lt_of_gt h

theorem nameOrder_eq_iff {a b : String} : nameOrder a b = .eq ↔ a = b := by
  unfold nameOrder
  rw [LawfulEqCmp.compare_eq_iff_eq, String.toList_inj]

/-- One more occurrence is one more in all. -/
theorem sum_addCount (name : String) (counts : List (String × Nat)) :
    ((addCount name counts).map (·.2)).sum = (counts.map (·.2)).sum + 1 := by
  induction counts with
  | nil => rfl
  | cons entry counts ih =>
    obtain ⟨key, n⟩ := entry
    rw [addCount]
    split
    · simp only [List.map_cons, List.sum_cons]
      omega
    · simp only [List.map_cons, List.sum_cons]
      omega
    · rw [List.map_cons, List.sum_cons, ih, List.map_cons, List.sum_cons]
      omega

/-- The names with a count are those before, and the new one. -/
theorem forall_mem_addCount {P : String → Prop} (hname : P name) (h : ∀ e ∈ counts, P e.1) :
    ∀ e ∈ addCount name counts, P e.1 := by
  induction counts with
  | nil => exact List.forall_mem_singleton.mpr hname
  | cons entry counts ih =>
    obtain ⟨key, n⟩ := entry
    obtain ⟨hkey, hrest⟩ := List.forall_mem_cons.mp h
    rw [addCount]
    split
    · exact List.forall_mem_cons.mpr ⟨hname, h⟩
    · exact List.forall_mem_cons.mpr ⟨hkey, hrest⟩
    · exact List.forall_mem_cons.mpr ⟨hkey, ih hrest⟩

theorem SortedNames.addCount (h : SortedNames counts) : SortedNames (addCount name counts) := by
  induction counts with
  | nil => exact List.pairwise_singleton _ _
  | cons entry counts ih =>
    obtain ⟨key, n⟩ := entry
    obtain ⟨hfirst, hrest⟩ := List.pairwise_cons.mp h
    rw [Report.addCount]
    split
    next hlt =>
      refine List.pairwise_cons.mpr ⟨List.forall_mem_cons.mpr ⟨hlt, fun e he => ?_⟩, h⟩
      exact nameOrder_trans hlt (hfirst e he)
    next => exact List.pairwise_cons.mpr ⟨hfirst, hrest⟩
    next hgt =>
      refine List.pairwise_cons.mpr ⟨?_, ih hrest⟩
      exact forall_mem_addCount (P := fun other => nameOrder key other = .lt)
        (nameOrder_lt_of_gt hgt) hfirst

/-- No count stands under a name that comes before all. -/
theorem lookup_of_lt (h : ∀ e ∈ counts, nameOrder name e.1 = .lt) : counts.lookup name = none := by
  refine List.lookup_eq_none_iff.mpr fun e he => bne_iff_ne.mpr fun heq => ?_
  have hlt := h e he
  rw [nameOrder_eq_iff.mpr heq] at hlt
  cases hlt

/-- **One more occurrence** of a name counts for that name alone. -/
theorem lookup_addCount (h : SortedNames counts) (other : String) :
    (addCount name counts).lookup other =
      if other = name then some ((counts.lookup name).getD 0 + 1) else counts.lookup other := by
  induction counts with
  | nil => exact lookup_cons_eq other name 1 []
  | cons entry counts ih =>
    obtain ⟨key, n⟩ := entry
    obtain ⟨hfirst, hrest⟩ := List.pairwise_cons.mp h
    rw [addCount]
    split
    next hlt =>
      have hnone : ((key, n) :: counts).lookup name = none :=
        lookup_of_lt (List.forall_mem_cons.mpr
          ⟨hlt, fun e he => nameOrder_trans hlt (hfirst e he)⟩)
      rw [hnone, lookup_cons_eq]
      rfl
    next heq =>
      obtain rfl := nameOrder_eq_iff.mp heq
      rw [lookup_cons_eq, lookup_cons_eq, lookup_cons_eq, if_pos rfl]
      split <;> rfl
    next hgt =>
      have hne : name ≠ key := by
        intro heq
        replace hgt : nameOrder name key = .gt := hgt
        rw [nameOrder_eq_iff.mpr heq] at hgt
        cases hgt
      rw [lookup_cons_eq, ih hrest, lookup_cons_eq name, if_neg hne, lookup_cons_eq]
      by_cases hother : other = key
      · rw [if_pos hother, if_neg (hother ▸ hne.symm), if_pos hother]
      · rw [if_neg hother, if_neg hother]

/-- The counts of diagnostics. -/
def ruleCounts (ds : List Diagnostic) : List (String × Nat) :=
  ds.foldl (fun counts d => addCount d.rule counts) []

theorem ruleCounts_concat (ds : List Diagnostic) (d : Diagnostic) :
    ruleCounts (ds ++ [d]) = addCount d.rule (ruleCounts ds) :=
  List.foldl_concat ..

theorem sum_ruleCounts (ds : List Diagnostic) : ((ruleCounts ds).map (·.2)).sum = ds.length := by
  induction ds using List.reverseRecOn with
  | nil => rfl
  | append_singleton ds d ih =>
    rw [ruleCounts_concat, sum_addCount, ih, List.length_append, List.length_singleton]

theorem sortedNames_ruleCounts (ds : List Diagnostic) : SortedNames (ruleCounts ds) := by
  induction ds using List.reverseRecOn with
  | nil => exact List.Pairwise.nil
  | append_singleton ds d ih =>
    rw [ruleCounts_concat]
    exact ih.addCount

/-- A number of occurrences as a count: there is none for a name that does not occur. -/
def countOf (n : Nat) : Option Nat := if n = 0 then none else some n

theorem countOf_add (m n : Nat) :
    countOf (m + n) = Option.merge (· + ·) (countOf m) (countOf n) := by
  cases m <;> cases n <;> simp [countOf, Option.merge]

theorem getD_countOf (n : Nat) : (countOf n).getD 0 = n := by
  cases n <;> rfl

/-- **The count of a rule** is how many diagnostics have its name. -/
theorem lookup_ruleCounts (ds : List Diagnostic) (name : String) :
    (ruleCounts ds).lookup name = countOf (ds.countP (·.rule == name)) := by
  induction ds using List.reverseRecOn with
  | nil => rfl
  | append_singleton ds d ih =>
    rw [ruleCounts_concat, lookup_addCount (sortedNames_ruleCounts ds), List.countP_append,
      List.countP_singleton]
    by_cases hname : name = d.rule
    · rw [if_pos hname, if_pos (beq_iff_eq.mpr hname.symm), ← hname, ih, getD_countOf]
      rfl
    · rw [if_neg hname, ih, if_neg (mt beq_iff_eq.mp (Ne.symm hname)), Nat.add_zero]

/-! ## 3. Reports one behind the other -/

theorem append_assoc (a b c : Report) : a ++ b ++ c = a ++ (b ++ c) := by
  show Report.mk _ _ _ = Report.mk _ _ _
  congr 1
  · exact List.append_assoc ..
  · exact Nat.add_assoc ..
  · exact List.append_assoc ..

theorem empty_append (a : Report) : .empty ++ a = a := by
  show Report.mk _ _ _ = a
  rw [empty, Nat.zero_add]
  rfl

theorem append_empty (a : Report) : a ++ .empty = a := by
  show Report.mk _ _ _ = a
  rw [empty, List.append_nil, List.append_nil]
  rfl

/-- **The laws of reports.** The groups of a report are under pairwise different paths, in order of
    first occurrence and in the first spelling. None is empty, and each holds the diagnostics of
    its path in order; so every diagnostic is in exactly one group. The counts of a report add up
    to its diagnostics. Putting reports one behind the other is associative, with the empty report
    as its unit. Then the counts add up name by name, and the groups of the first report go on
    with what the second one has of their paths, before the other groups of the second one. -/
theorem report_laws :
    (∀ r : Report,
      r.byUnit.Pairwise (fun g h => g.1.same h.1 = false) ∧
      r.byUnit.map Prod.fst = (r.diagnostics.map (·.file)).eraseDupsBy FilePath.same ∧
      (∀ g ∈ r.byUnit, g.2 = r.diagnostics.filter (·.file.same g.1) ∧
        ∃ first rest, g.2 = first :: rest ∧ g.1 = first.file) ∧
      (∀ d ∈ r.diagnostics, ∃! g, g ∈ r.byUnit ∧ d ∈ g.2) ∧
      (r.byUnit.flatMap (·.2)).Perm r.diagnostics ∧
      SortedNames r.countByRule ∧ (r.countByRule.map (·.2)).sum = r.diagnostics.length) ∧
    (∀ a b c : Report, a ++ b ++ c = a ++ (b ++ c)) ∧
    (∀ a : Report, .empty ++ a = a ∧ a ++ .empty = a) ∧
    ∀ a b : Report,
      (∀ name, (a ++ b).countByRule.lookup name =
        Option.merge (· + ·) (a.countByRule.lookup name) (b.countByRule.lookup name)) ∧
      (a ++ b).byUnit =
        (a.byUnit.map fun g => (g.1, g.2 ++ b.diagnostics.filter (·.file.same g.1))) ++
          b.byUnit.filter fun g => !a.byUnit.any fun h => g.1.same h.1 := by
  refine ⟨fun r => ?_, append_assoc, fun a => ⟨empty_append a, append_empty a⟩, fun a b => ⟨?_, ?_⟩⟩
  · have hgroups : r.byUnit = fileGroups r.diagnostics := groupsOf_eq r.diagnostics
    refine ⟨?_, ?_, fun g hg => ?_, fun d hd => ?_, flatMap_groupsOf_perm r.diagnostics,
      sortedNames_ruleCounts r.diagnostics, sum_ruleCounts r.diagnostics⟩
    · rw [hgroups]
      exact distinctKeys_fileGroups r.diagnostics
    · rw [hgroups]
      exact map_fst_fileGroups r.diagnostics
    · rw [hgroups] at hg
      obtain ⟨hkey, hvalues⟩ := mem_fileGroups_iff.mp hg
      obtain ⟨first, rest, hfirst, hfile⟩ := exists_cons_ofFile hkey
      exact ⟨hvalues, first, rest, hvalues.trans hfirst, hfile.symm⟩
    · rw [hgroups]
      exact existsUnique_group hd
  · intro name
    show (ruleCounts (a.diagnostics ++ b.diagnostics)).lookup name = _
    rw [lookup_ruleCounts, List.countP_append, countOf_add, ← lookup_ruleCounts,
      ← lookup_ruleCounts]
    rfl
  · have ha : a.byUnit = fileGroups a.diagnostics := groupsOf_eq a.diagnostics
    have hb : b.byUnit = fileGroups b.diagnostics := groupsOf_eq b.diagnostics
    have hany : ∀ p : FilePath, a.byUnit.any (fun h => p.same h.1) =
        FilePath.occurs (filesOf a.diagnostics) p := by
      intro p
      rw [← FilePath.occurs_firstSpellings, ← map_fst_fileGroups, ha]
      unfold FilePath.occurs
      rw [List.any_map]
      rfl
    simp only [hany]
    rw [ha, hb]
    exact (groupsOf_eq _).trans (fileGroups_append a.diagnostics b.diagnostics)

/-- A diagnostic of the rule `rule` at the start of a file. -/
def startsWith (rule path : String) : Diagnostic := ⟨"JT000", rule, .fileStart ⟨path⟩, "", none⟩

/-- The diagnostics of two files come up in turns, those of the second one in two spellings. -/
def turns : Report :=
  ⟨[startsWith "x" "b", startsWith "y" "a//c", startsWith "x" "b/", startsWith "x" "a/c"], 2, []⟩

/-- There are two groups; the second one has the file's first spelling, and the diagnostic in the
    other spelling belongs to it alone. -/
theorem report_laws_turns :
    ((⟨"a//c"⟩, [startsWith "y" "a//c", startsWith "x" "a/c"]) : FilePath × List Diagnostic) ∈
        turns.byUnit ∧
      turns.byUnit.map Prod.fst = [⟨"b"⟩, ⟨"a//c"⟩] ∧
      [startsWith "y" "a//c", startsWith "x" "a/c"] =
        turns.diagnostics.filter (·.file.same ⟨"a//c"⟩) ∧
      startsWith "x" "a/c" ∈ turns.diagnostics ∧
      (∃! g, g ∈ turns.byUnit ∧ startsWith "x" "a/c" ∈ g.2) ∧
      (turns ++ turns).countByRule.lookup "x" = some 6 := by
  obtain ⟨hone, -, -, htwo⟩ := report_laws
  obtain ⟨-, hpaths, hgroup, hunique, -⟩ := hone turns
  have hg : ((⟨"a//c"⟩, [startsWith "y" "a//c", startsWith "x" "a/c"]) :
      FilePath × List Diagnostic) ∈ turns.byUnit := by decide +kernel
  have hd : startsWith "x" "a/c" ∈ turns.diagnostics := by decide
  refine ⟨hg, hpaths.trans (by decide +kernel), (hgroup _ hg).1, hd, hunique _ hd, ?_⟩
  rw [(htwo turns turns).1]
  decide +kernel

end Report
end ClassScript
