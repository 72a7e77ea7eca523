/-
  File:      ClassScript/Proofs/Validator/InputOrder.lean
  Subject:   What the other files have to do with a file, and the order they
             come in.

  A rule of the catalogue looks at other files for one thing only: the names
  of the members of the interfaces that a class implements. So two lists of
  loaded files in which these are the same give the same diagnostics.

  The last interface of a name counts. Where no name is declared twice it is
  the only one, and the order of the files does not matter: for the files with
  diagnostics, for the files that are accepted, and for the entry point.

  * `SameInterfaces`, `checkUnitIn_congr`: what is looked at;
  * `findInterface?_perm`: a lookup in files in another order;
  * `addEntries_comm`, `checkEach_perm`: the map of files with diagnostics;
  * `accepted_perm`, `reports_project_iff`: the rest of the report;
  * `input_order_laws`: all of it.
-/
import Mathlib.Data.List.Pairwise
import ClassScript.Proofs.Rule.Silence
import ClassScript.Proofs.Text.PathOrder
import ClassScript.Proofs.Validator.Registration

namespace ClassScript

open Std (OrientedCmp TransCmp)
open Rules

/-! ## 1. What is looked at -/

/-- A name that a class of `u` implements stands for no interface among `loaded` and none among
    `loaded'`, or for interfaces with the same names of members. -/
def SameInterfaces (u : CompilationUnit) (loaded loaded' : List CompilationUnit) : Prop :=
  ∀ c ∈ u.classes, ∀ r ∈ c.implemented,
    (findInterface? loaded r.name).map InterfaceDecl.memberNames =
      (findInterface? loaded' r.name).map InterfaceDecl.memberNames

/-- What is found under a name has that name. -/
theorem name_of_findInterface? {loaded : List CompilationUnit} {name : String} {i : InterfaceDecl}
    (h : findInterface? loaded name = some i) : i.name = name := by
  obtain ⟨_, _, _, hname, _⟩ := findInterface?_eq_some_iff.mp h
  exact hname

variable {loaded loaded' units units' : List CompilationUnit} {u : CompilationUnit}

/-- Of an interface, its name and the names of its members count. -/
theorem Rules.checkInterface_congr {c : ClassDecl} {i j : InterfaceDecl} (hname : i.name = j.name)
    (hmembers : i.memberNames = j.memberNames) : checkInterface u c i = checkInterface u c j := by
  unfold checkInterface missingMember
  rw [hname, hmembers]

theorem Rules.checkReference_congr {c : ClassDecl} {r : TypeRef}
    (h : (findInterface? loaded r.name).map InterfaceDecl.memberNames =
      (findInterface? loaded' r.name).map InterfaceDecl.memberNames) :
    checkReference loaded u c r = checkReference loaded' u c r := by
  unfold checkReference
  cases hi : findInterface? loaded r.name with
  | none =>
    rw [hi, Option.map_none] at h
    rw [Option.map_eq_none_iff.mp h.symm]
  | some i =>
    rw [hi, Option.map_some] at h
    obtain ⟨j, hj, hmembers⟩ := Option.map_eq_some_iff.mp h.symm
    rw [hj]
    exact checkInterface_congr ((name_of_findInterface? hi).trans (name_of_findInterface? hj).symm)
      hmembers.symm

theorem Rules.interfaceImplementation_congr (h : SameInterfaces u loaded loaded') :
    interfaceImplementation.check loaded u = interfaceImplementation.check loaded' u := by
  refine List.flatMap_congr fun c hc => List.flatMap_congr fun r hr => ?_
  exact checkReference_congr (h c hc r hr)

/-- Of all rules of the catalogue, one looks at other files. -/
theorem check_congr {r : UnitRule} (hr : Rule.unit r ∈ allRules)
    (h : SameInterfaces u loaded loaded') : r.check loaded u = r.check loaded' u := by
  rcases mem_allRules_unit_iff.mp hr with
    rfl | rfl | rfl | rfl | rfl | rfl | rfl | rfl | rfl | rfl
  case inr.inr.inr.inr.inr.inr.inr.inr.inr => exact interfaceImplementation_congr h
  all_goals rfl

namespace Validator

variable {v : Validator}

/-- **Two lists of loaded files** with the same interfaces give a file the same diagnostics. -/
theorem checkUnitIn_congr (hv : ∀ r ∈ v.rules, r ∈ allRules)
    (h : SameInterfaces u loaded loaded') : v.checkUnitIn loaded u = v.checkUnitIn loaded' u := by
  refine List.flatMap_congr fun r hr => ?_
  exact check_congr (hv _ (mem_running_unit_iff.mp hr).1) h

end Validator

/-! ## 2. Files in another order -/

/-- No two of the files declare interfaces of one name, nor does one of them declare two. -/
def DistinctInterfaces (units : List CompilationUnit) : Prop :=
  ((units.flatMap CompilationUnit.interfaces).map InterfaceDecl.name).Nodup

/-- No two of the files have the same path, in whichever spelling. -/
def DistinctPaths (units : List CompilationUnit) : Prop :=
  units.Pairwise fun a b => a.path.same b.path = false

instance (units : List CompilationUnit) : Decidable (DistinctInterfaces units) :=
  inferInstanceAs (Decidable (List.Nodup _))

instance (units : List CompilationUnit) : Decidable (DistinctPaths units) :=
  inferInstanceAs (Decidable (List.Pairwise _ _))

/-- A list with at most one element has no other order. -/
theorem eq_of_perm_of_length_le_one {α : Type} {as bs : List α} (h : as.Perm bs)
    (hlength : as.length ≤ 1) : as = bs := by
  match as, hlength with
  | [], _ => exact h.nil_eq
  | [a], _ => exact (List.perm_singleton.mp h.symm).symm

/-- Where no name is declared twice, a name is found in files in any order. -/
theorem findInterface?_perm (h : units.Perm units') (hdistinct : DistinctInterfaces units)
    (name : String) : findInterface? units name = findInterface? units' name := by
  have hperm := (h.flatMap_right CompilationUnit.interfaces).filter (·.name == name)
  have hone : ((units.flatMap CompilationUnit.interfaces).filter (·.name == name)).length ≤ 1 := by
    have hcount := List.nodup_iff_count.mp hdistinct name
    rwa [List.count, List.countP_map, List.countP_eq_length_filter] at hcount
  unfold findInterface?
  rw [eq_of_perm_of_length_le_one hperm hone]

theorem sameInterfaces_perm (h : units.Perm units') (hdistinct : DistinctInterfaces units)
    (u : CompilationUnit) : SameInterfaces u units units' :=
  fun _ _ r _ => congrArg _ (findInterface?_perm h hdistinct r.name)

namespace Validator

/-! ## 3. The files with diagnostics -/

/-- Entries under the smaller of two keys may come in first or last. -/
theorem addEntries_comm_of_lt {α : Type} {p q : FilePath} (h : p.order q = .lt) (as bs : List α)
    (entries : List (FilePath × List α)) :
    addEntries p as (addEntries q bs entries) = addEntries q bs (addEntries p as entries) := by
  have hqp : q.order p = .gt := OrientedCmp.gt_of_lt h
  induction entries with
  | nil => simp only [addEntries, h, hqp]
  | cons entry rest ih =>
    obtain ⟨key, old⟩ := entry
    cases hp : p.order key with
    | lt => cases hq : q.order key <;> simp only [addEntries, hp, hq, h, hqp]
    | eq =>
      have hq : q.order key = .gt := (TransCmp.congr_right hp).symm.trans hqp
      simp only [addEntries, hp, hq]
    | gt =>
      have hq : q.order key = .gt :=
        OrientedCmp.gt_of_lt (TransCmp.lt_trans (OrientedCmp.lt_of_gt hp) h)
      simp only [addEntries, hp, hq, ih]

/-- Entries under two keys may come in in either order. -/
theorem addEntries_comm {α : Type} {p q : FilePath} (h : p.same q = false) (as bs : List α)
    (entries : List (FilePath × List α)) :
    addEntries p as (addEntries q bs entries) = addEntries q bs (addEntries p as entries) := by
  cases horder : p.order q with
  | lt => exact addEntries_comm_of_lt horder as bs entries
  | eq =>
    rw [FilePath.order_eq_eq_iff.mp horder] at h
    exact absurd h Bool.noConfusion
  | gt => exact (addEntries_comm_of_lt (OrientedCmp.lt_of_gt horder) bs as entries).symm

variable {v : Validator}

/-- The map of files with diagnostics after one more file. -/
def addFound (v : Validator) (loaded : List CompilationUnit)
    (found : List (FilePath × List Diagnostic)) (u : CompilationUnit) :
    List (FilePath × List Diagnostic) :=
  match v.checkUnitIn loaded u with
  | [] => found
  | diagnostics => addEntries u.path diagnostics found

theorem checkEach_eq_foldl : v.checkEach units = units.foldl (v.addFound units) [] := rfl

theorem addFound_congr (h : v.checkUnitIn loaded u = v.checkUnitIn loaded' u)
    (found : List (FilePath × List Diagnostic)) :
    v.addFound loaded found u = v.addFound loaded' found u := by
  unfold addFound
  rw [h]

theorem addFound_comm {a b : CompilationUnit} (h : a.path.same b.path = false)
    (found : List (FilePath × List Diagnostic)) :
    v.addFound loaded (v.addFound loaded found a) b =
      v.addFound loaded (v.addFound loaded found b) a := by
  unfold addFound
  cases v.checkUnitIn loaded a with
  | nil => rfl
  | cons d ds =>
    cases v.checkUnitIn loaded b with
    | nil => rfl
    | cons e es => exact (addEntries_comm h _ _ found).symm

/-- Files with distinct paths come into the map in any order. -/
theorem foldl_addFound_perm (h : units.Perm units') (hpaths : DistinctPaths units)
    (found : List (FilePath × List Diagnostic)) :
    units.foldl (v.addFound loaded) found = units'.foldl (v.addFound loaded) found := by
  have : Std.Symm fun a b : CompilationUnit => a.path.same b.path = false :=
    ⟨fun _ _ h => decide_eq_false fun he => of_decide_eq_false h he.symm⟩
  refine h.foldl_eq' (fun a ha b hb found => ?_) found
  by_cases hab : a = b
  · rw [hab]
  · exact addFound_comm (hpaths.forall ha hb hab) found

section

variable (hv : ∀ r ∈ v.rules, r ∈ allRules) (h : units.Perm units')
  (hdistinct : DistinctInterfaces units)

include hv h hdistinct

theorem checkUnitIn_perm (u : CompilationUnit) : v.checkUnitIn units u = v.checkUnitIn units' u :=
  checkUnitIn_congr hv (sameInterfaces_perm h hdistinct u)

theorem checkEach_perm (hpaths : DistinctPaths units) : v.checkEach units = v.checkEach units' := by
  have hstep : v.addFound units = v.addFound units' := by
    funext found u
    exact addFound_congr (checkUnitIn_perm hv h hdistinct u) found
  rw [checkEach_eq_foldl, checkEach_eq_foldl, ← hstep]
  exact foldl_addFound_perm h hpaths []

/-! ## 4. Accepted files, and the entry point -/

theorem accepted_perm : (v.accepted units).Perm (v.accepted units') := by
  have haccepts : v.accepts units = v.accepts units' := by
    funext u
    exact congrArg List.isEmpty (checkUnitIn_perm hv h hdistinct u)
  unfold accepted
  rw [← haccepts]
  exact h.filter _

end

/-- No unit rule has the name of the project rule. -/
theorem name_ne_of_unit {r : UnitRule} (hr : Rule.unit r ∈ allRules) :
    r.info.name ≠ projectMainMethodInfo.name := by
  rcases mem_allRules_unit_iff.mp hr with
    rfl | rfl | rfl | rfl | rfl | rfl | rfl | rfl | rfl | rfl <;> decide

theorem rule_of_mem_checkUnitIn (hv : ∀ r ∈ v.rules, r ∈ allRules) {d : Diagnostic}
    (hd : d ∈ v.checkUnitIn loaded u) : d.rule ≠ projectMainMethodInfo.name := by
  obtain ⟨r, hr, hdr⟩ := List.mem_flatMap.mp hd
  have hcatalogue := hv _ (mem_running_unit_iff.mp hr).1
  rw [(attributed_of_mem_check hcatalogue hdr).rule]
  exact name_ne_of_unit hcatalogue

theorem rule_of_mem_checkProject (hv : ∀ r ∈ v.rules, r ∈ allRules) {d : Diagnostic}
    (hd : d ∈ v.checkProject units) : d.rule = projectMainMethodInfo.name := by
  obtain ⟨r, hr, hdr⟩ := List.mem_flatMap.mp hd
  obtain rfl := mem_allRules_project_iff.mp (hv _ (mem_running_project_iff.mp hr).1)
  exact (projectMainMethod_attributed units d hdr).rule

/-- A report of a validation has a diagnostic of the name of the project rule exactly when a
    project rule complains about the accepted files. -/
theorem reports_project_iff (hv : ∀ r ∈ v.rules, r ∈ allRules) :
    (∃ d ∈ (v.checkAll units).diagnostics, d.rule = projectMainMethodInfo.name) ↔
      v.checkProject (v.accepted units) ≠ [] := by
  show (∃ d ∈ units.flatMap (v.checkUnitIn units) ++ v.checkProject (v.accepted units), _) ↔ _
  constructor
  · rintro ⟨d, hd, hrule⟩
    rcases List.mem_append.mp hd with hd | hd
    · obtain ⟨u, _, hdu⟩ := List.mem_flatMap.mp hd
      exact absurd hrule (rule_of_mem_checkUnitIn hv hdu)
    · exact List.ne_nil_of_mem hd
  · intro hne
    obtain ⟨d, hd⟩ := List.exists_mem_of_ne_nil _ hne
    exact ⟨d, List.mem_append_right _ hd, rule_of_mem_checkProject hv hd⟩

/-- Whether the project rules complain depends on which files there are, not on their order. -/
theorem checkProject_eq_nil_iff_of_perm (hv : ∀ r ∈ v.rules, r ∈ allRules)
    (h : units.Perm units') : v.checkProject units = [] ↔ v.checkProject units' = [] := by
  rw [checkProject_eq_nil_iff, checkProject_eq_nil_iff]
  refine forall₃_congr fun r hr _ => ?_
  obtain rfl := mem_allRules_project_iff.mp (hv _ hr)
  rw [projectMainMethod_eq_nil_iff, projectMainMethod_eq_nil_iff]
  exact exists_congr fun u => and_congr_left' h.mem_iff

/-- **Files see each other through interfaces, and in no order.** Under the rules of the catalogue
    and any configuration, a file has the same diagnostics among any loaded files in which the
    names it implements stand for the same names of members, or for nothing. So when no two
    interfaces share a name and no two files a path, files in another order give the same map of
    files with diagnostics, the same accepted files, and both or neither a diagnostic about the
    entry point of the project. -/
theorem input_order_laws (v : Validator) (hv : ∀ r ∈ v.rules, r ∈ allRules) :
    (∀ u loaded loaded', SameInterfaces u loaded loaded' →
        v.checkUnitIn loaded u = v.checkUnitIn loaded' u) ∧
      ∀ units units', units.Perm units' → DistinctInterfaces units → DistinctPaths units →
        v.checkEach units = v.checkEach units' ∧
        (v.accepted units).Perm (v.accepted units') ∧
        (v.checkAll units).accepted.Perm (v.checkAll units').accepted ∧
        ((∃ d ∈ (v.checkAll units).diagnostics, d.rule = projectMainMethodInfo.name) ↔
          ∃ d ∈ (v.checkAll units').diagnostics, d.rule = projectMainMethodInfo.name) := by
  refine ⟨fun u loaded loaded' h => checkUnitIn_congr hv h,
    fun units units' h hdistinct hpaths => ?_⟩
  have haccepted := accepted_perm hv h hdistinct
  refine ⟨checkEach_perm hv h hdistinct hpaths, haccepted, haccepted.map _, ?_⟩
  rw [reports_project_iff hv, reports_project_iff hv]
  exact not_congr (checkProject_eq_nil_iff_of_perm hv haccepted)

/-- A file with an interface. -/
def speakerFile : CompilationUnit where
  path := ⟨"Speaker.javats"⟩
  text := "interface Speaker\x7bspeak():void\x7d"
  items := [.interfaceItem ⟨"Speaker", ⟨1, 1⟩, false, [⟨"speak", .method, ⟨1, 19⟩⟩]⟩]

/-- A file with a class that does not have what that interface asks for. -/
def muteFile : CompilationUnit where
  path := ⟨"Mute.javats"⟩
  text := "class Mute implements Speaker\x7b\x7d"
  items :=
    [.classItem ⟨some "Mute", ⟨1, 1⟩, ⟨1, 7⟩, false, false, none, [⟨"Speaker", ⟨1, 23⟩⟩], []⟩]

/-- With the interface before the class or after it, the class has one diagnostic, the interface
    is accepted, and the project has no entry point; without the interface it is an external one,
    also when another class is there. -/
theorem input_order_laws_speaker :
    let v := ofPreset .mature {}
    let here := [speakerFile, muteFile]
    let there := [muteFile, speakerFile]
    (v.checkUnitIn [] muteFile = v.checkUnitIn [muteFile] muteFile) ∧
      v.checkEach here = v.checkEach there ∧
      (v.checkEach here).map (fun e => (e.1.text, e.2.length)) = [("Mute.javats", 1)] ∧
      (v.accepted here).Perm (v.accepted there) ∧
      ((v.checkAll here).accepted.Perm (v.checkAll there).accepted ∧
        (v.checkAll here).accepted = [speakerFile.path]) ∧
      ((∃ d ∈ (v.checkAll here).diagnostics, d.rule = projectMainMethodInfo.name) ↔
        ∃ d ∈ (v.checkAll there).diagnostics, d.rule = projectMainMethodInfo.name) := by
  intro v here there
  have hv : ∀ r ∈ v.rules, r ∈ allRules := fun r hr =>
    @Preset.mem_allRules .mature _ hr
  obtain ⟨hlookup, horder⟩ := input_order_laws v hv
  have hsame : SameInterfaces muteFile [] [muteFile] := by
    intro c _ r _
    rfl
  obtain ⟨heach, haccepted, hpaths, hproject⟩ :=
    horder here there (List.Perm.swap muteFile speakerFile []) (by decide +kernel)
      (by decide +kernel)
  exact ⟨hlookup muteFile [] [muteFile] hsame, heach, by decide +kernel, haccepted,
    ⟨hpaths, by decide +kernel⟩, hproject⟩

end Validator
end ClassScript
