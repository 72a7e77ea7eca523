/-
  File:      ClassScript/Proofs/Build/Accounting.lean
  Subject:   What a build has written, and what it says about it.

  A report lists the files that were written and the units that came to an end
  early. Both lists are accounts of one run: unit by unit a first part of what
  was asked for, and a fault for each unit of which something is missing. Units
  of one name write the same file, which then holds what was written last.

  * `BatchRuns.map_fault_unit`: the units with a fault are those of which
    something is missing;
  * `Pipeline.accepted_of_isSuccess`: a success accepts every unit;
  * `Pipeline.fails_of_mem_faults`: what a fault stands for;
  * `Account`: a report, and the files it speaks of;
  * `Pipeline.build_accounts`: every build has its account.
-/
import ClassScript.Proofs.Build.Writing

namespace ClassScript

variable {σ : Type}

/-! ## 1. The two lists of a report -/

/-- The files of a unit that were written. -/
def UnitTrace.files (outDir : FilePath) (t : UnitTrace) : List FilePath :=
  t.artifacts.map (·.path outDir t.unit)

theorem UnitTrace.map_writes (outDir : FilePath) (t : UnitTrace) :
    (t.writes outDir).map (·.1) = t.files outDir := by
  unfold writes files artifacts
  simp only [List.map_map, Function.comp_def]

theorem map_flatMap_writes (outDir : FilePath) (ts : List UnitTrace) :
    (ts.flatMap (·.writes outDir)).map (·.1) = ts.flatMap (·.files outDir) := by
  simp only [List.map_flatMap, UnitTrace.map_writes]

theorem reportOf_written (validation : Report) (outDir : FilePath) (ts : List UnitTrace) :
    (Pipeline.reportOf validation (ts.map fun t => (t.unit.path, t.outcome outDir))).written =
      ts.flatMap (·.files outDir) := by
  unfold Pipeline.reportOf UnitTrace.outcome
  simp only [List.flatMap_map, UnitTrace.map_writes]

/-- **The units with a fault**, in their order, are those of which something is missing. -/
theorem BatchRuns.map_fault_unit {save : Save (StateM σ)} {c : Compiler} {outDir : FilePath}
    {targets : Targets} {us : List CompilationUnit} {s s' : σ} {ts : List UnitTrace}
    (h : BatchRuns save c outDir targets us s ts s') (validation : Report) :
    (Pipeline.reportOf validation
        (ts.map fun t => (t.unit.path, t.outcome outDir))).faults.map (·.unit) =
      (ts.filter fun t => t.artifacts ≠ targets.artifacts).map (·.unit.path) := by
  show (((ts.map fun t => (t.unit.path, t.outcome outDir)).filterMap fun o =>
    o.2.fault.map fun cause => UnitFault.mk o.1 cause)).map (·.unit) = _
  induction h with
  | finished s => rfl
  | unit u us s s₁ s₂ done fault ts hu _ ih =>
    have hf : fault = none ↔ (UnitTrace.mk u done fault).artifacts = targets.artifacts :=
      hu.fault_eq_none_iff
    cases fault with
    | none =>
      have hdone := hf.mp rfl
      rw [List.filter_cons_of_neg (by simp [hdone])]
      exact ih
    | some e =>
      have hdone : (UnitTrace.mk u done (some e)).artifacts ≠ targets.artifacts :=
        fun he => Option.some_ne_none e (hf.mpr he)
      rw [List.filter_cons_of_pos (by simp [hdone])]
      exact congrArg (u.path :: ·) ih

/-- The faults of a report are those of its units. -/
theorem mem_faults_reportOf_iff {validation : Report} {outDir : FilePath} {ts : List UnitTrace}
    {f : UnitFault} :
    f ∈ (Pipeline.reportOf validation
        (ts.map fun t => (t.unit.path, t.outcome outDir))).faults ↔
      ∃ t ∈ ts, f.unit = t.unit.path ∧ t.fault = some f.cause := by
  show f ∈ ((ts.map fun t => (t.unit.path, t.outcome outDir)).filterMap fun o =>
    o.2.fault.map fun cause => UnitFault.mk o.1 cause) ↔ _
  rw [List.mem_filterMap]
  constructor
  · intro h
    obtain ⟨o, ho, hf⟩ := h
    obtain ⟨t, ht, rfl⟩ := List.mem_map.mp ho
    obtain ⟨cause, hcause, rfl⟩ := Option.map_eq_some_iff.mp hf
    exact ⟨t, ht, rfl, hcause⟩
  · intro h
    obtain ⟨t, ht, hunit, hcause⟩ := h
    refine ⟨_, List.mem_map_of_mem ht, Option.map_eq_some_iff.mpr ⟨f.cause, hcause, ?_⟩⟩
    rw [← hunit]

/-- If nothing is missing of any unit, all that was asked for is written. -/
theorem flatMap_files_of_complete {outDir : FilePath} {targets : Targets} {ts : List UnitTrace}
    (h : ∀ t ∈ ts, t.artifacts = targets.artifacts) :
    ts.flatMap (·.files outDir) =
      (ts.map (·.unit)).flatMap fun u => targets.artifacts.map (·.path outDir u) := by
  rw [List.flatMap_map, List.flatMap_def, List.flatMap_def]
  refine congrArg List.flatten (List.map_congr_left fun t ht => ?_)
  unfold UnitTrace.files
  rw [h t ht]

/-! ## 2. Successes and faults -/

namespace Pipeline

variable {p : Pipeline} {units : List CompilationUnit}

/-- A build that succeeds accepts every unit, and no project rule complains. -/
theorem accepted_of_isSuccess {save : Save (StateM σ)} {outDir : FilePath} {targets : Targets}
    {s : σ} (h : ((p.build save units outDir targets).run s).1.isSuccess = true) :
    p.validator.accepted units = units ∧
      p.validator.checkProject (p.validator.accepted units) = [] := by
  unfold BuildReport.isSuccess at h
  rw [run_build_validation, Bool.and_eq_true, Bool.not_eq_true'] at h
  have hnil : (p.validator.checkAll units).diagnostics = [] := by
    have hd := h.1
    unfold Report.hasDiagnostics at hd
    rw [Bool.not_eq_false'] at hd
    exact List.isEmpty_iff.mp hd
  obtain ⟨hunits, hproject⟩ := Validator.checkAll_eq_nil_iff.mp hnil
  have hall := Validator.accepted_eq_self_iff.mpr hunits
  exact ⟨hall, by rw [hall]; exact hproject⟩

/-- **Every fault of a build** is the failure of an artifact of a unit that was accepted. -/
theorem fails_of_mem_faults {save : Save (StateM σ)} {outDir : FilePath} {targets : Targets}
    {s : σ} {f : UnitFault} (hf : f ∈ ((p.build save units outDir targets).run s).1.faults) :
    ∃ u ∈ p.validator.accepted units, f.unit = u.path ∧
      ∃ a ∈ targets.artifacts, ∃ s₁ s₂, ArtifactFails save p.compiler outDir u a s₁ f.cause s₂ := by
  by_cases h : p.validator.checkProject (p.validator.accepted units) = []
  · obtain ⟨ts, s', hrun, he⟩ := runs_build h save outDir targets s
    rw [he, mem_faults_reportOf_iff] at hf
    obtain ⟨t, ht, hunit, hcause⟩ := hf
    obtain ⟨s₁, s₂, hu⟩ := hrun.unitRuns ht
    refine ⟨t.unit, ?_, hunit, hu.fails hcause⟩
    rw [← hrun.map_unit]
    exact List.mem_map_of_mem ht
  · rw [build_of_complaint h] at hf
    exact absurd hf List.not_mem_nil

end Pipeline

/-! ## 3. The account of a build -/

/-- **The account of a run over units**: what a report says of it, and what the files hold
    afterwards. Paths that name one file in two ways are one path here. -/
structure Account (files : FileSystem (StateM σ)) (c : Compiler) (outDir : FilePath)
    (targets : Targets) (units : List CompilationUnit) (s : σ) (ts : List UnitTrace)
    (r : BuildReport) (s' : σ) : Prop where
  /-- Every unit is gone through once, in order. -/
  units : ts.map (·.unit) = units
  /-- Of each unit a first part of what is asked for is written. -/
  started : ∀ t ∈ ts, t.artifacts <+: targets.artifacts
  /-- The texts are those that the compiler gives. -/
  texts : ∀ t ∈ ts, ∀ d ∈ t.done, c.text t.unit d.1 = .ok d.2
  written : r.written = ts.flatMap (·.files outDir)
  /-- There is one fault for each unit of which something is missing. -/
  faults : r.faults.map (·.unit) =
    (ts.filter fun t => t.artifacts ≠ targets.artifacts).map (·.unit.path)
  /-- A path that was written holds the text that was written to it LAST. -/
  last : ∀ path, (∃ q ∈ r.written, q.same path = true) →
    ∃ before w later, ts.flatMap (·.writes outDir) = before ++ w :: later ∧
      w.1.same path = true ∧ (∀ x ∈ later, x.1.same path = false) ∧
      files.textAt s' path = some w.2
  untouched : ∀ path, (∀ q ∈ r.written, q.same path = false) →
    files.textAt s' path = files.textAt s path

/-- A run over units has an account, and a report that agrees with it. -/
theorem BatchRuns.account {files : FileSystem (StateM σ)} (hfiles : files.ActsAsMap)
    {c : Compiler} {outDir : FilePath} {targets : Targets} {us : List CompilationUnit} {s s' : σ}
    {ts : List UnitTrace} (h : BatchRuns files.save c outDir targets us s ts s')
    (validation : Report) :
    Account files c outDir targets us s ts
      (Pipeline.reportOf validation (ts.map fun t => (t.unit.path, t.outcome outDir))) s' where
  units := h.map_unit
  started t ht := by
    obtain ⟨_, _, hu⟩ := h.unitRuns ht
    exact hu.isPrefix
  texts t ht := by
    obtain ⟨_, _, hu⟩ := h.unitRuns ht
    exact hu.text_eq
  written := reportOf_written validation outDir ts
  faults := h.map_fault_unit validation
  last path hpath := by
    rw [reportOf_written, ← map_flatMap_writes] at hpath
    rw [h.textAt hfiles.save]
    exact Contents.putAll_of_written _ hpath
  untouched path hpath := by
    rw [reportOf_written, ← map_flatMap_writes] at hpath
    rw [h.textAt hfiles.save]
    exact Contents.putAll_untouched _ fun w hw => hpath w.1 (List.mem_map_of_mem hw)

/-- Without a fault nothing is missing of any unit. -/
theorem Account.complete {files : FileSystem (StateM σ)} {c : Compiler} {outDir : FilePath}
    {targets : Targets} {us : List CompilationUnit} {s s' : σ} {ts : List UnitTrace}
    {r : BuildReport} (h : Account files c outDir targets us s ts r s') (hr : r.faults = []) :
    r.written = us.flatMap fun u => targets.artifacts.map (·.path outDir u) := by
  have hcomplete : ∀ t ∈ ts, t.artifacts = targets.artifacts := by
    intro t ht
    refine Classical.byContradiction fun hne => ?_
    have hmem : t ∈ ts.filter fun t => t.artifacts ≠ targets.artifacts :=
      List.mem_filter.mpr ⟨ht, decide_eq_true hne⟩
    have hnone := h.faults
    rw [hr] at hnone
    rw [List.map_eq_nil_iff.mp hnone.symm] at hmem
    exact List.not_mem_nil hmem
  rw [h.written, flatMap_files_of_complete hcomplete, h.units]

namespace Pipeline

/-- **The account of a build.** In a file system that acts as a map, and in which any write may
    fail, a build that is not aborted goes through the accepted units in their order: of each it
    writes a first part of the artifacts that are asked for, it has a fault for those of which
    something is missing, and every path holds what was written to it last, or else what it held
    before. A build that succeeds accepts every unit, and writes all that is asked for. -/
theorem build_accounts {files : FileSystem (StateM σ)} (hfiles : files.ActsAsMap) (p : Pipeline)
    (units : List CompilationUnit) (outDir : FilePath) (targets : Targets) (s : σ) :
    let r := (p.build files.save units outDir targets).run s
    (r.1.aborted = false →
      ∃ ts, Account files p.compiler outDir targets (p.validator.accepted units) s ts r.1 r.2) ∧
    (r.1.isSuccess = true →
      p.validator.accepted units = units ∧
        r.1.written = units.flatMap fun u => targets.artifacts.map (·.path outDir u)) := by
  intro r
  constructor
  · intro habort
    have hsilent := checkProject_of_not_aborted habort
    obtain ⟨ts, s', hrun, he⟩ := runs_build hsilent files.save outDir targets s
    have hr : r = _ := he
    rw [hr]
    exact ⟨ts, hrun.account hfiles _⟩
  · intro hsuccess
    obtain ⟨hall, hsilent⟩ := accepted_of_isSuccess hsuccess
    obtain ⟨ts, s', hrun, he⟩ := runs_build hsilent files.save outDir targets s
    have hr : r = _ := he
    have hfaults : r.1.faults = [] := List.isEmpty_iff.mp (Bool.and_eq_true_iff.mp hsuccess).2
    refine ⟨hall, ?_⟩
    rw [hr] at hfaults ⊢
    rw [(hrun.account hfiles _).complete hfaults, hall]

/-- A pipeline without rules, whose scripts are the texts they are made of. -/
def echoing : Pipeline where
  validator := ⟨[], {}⟩
  compiler := ⟨fun _ text => .ok [⟨⟨"Echo.js"⟩, text⟩], { enforcesMain := false }⟩

/-- Two units of one name, and a third one. -/
def namesakes : List CompilationUnit :=
  [⟨⟨"a/User.javats"⟩, "first", []⟩, ⟨⟨"b/User.javats"⟩, "second", []⟩,
   ⟨⟨"b/Order.javats"⟩, "third", []⟩]

/-- The second namesake wins, and the third unit misses the file that cannot be written. With no
    such file the build succeeds. -/
theorem build_accounts_namesakes :
    let run := fun refuses =>
      (echoing.build (mapFiles refuses).save namesakes ⟨"out"⟩ ⟨true, true⟩).run fun _ => none
    let accepted := echoing.validator.accepted namesakes
    let locked := fun path : FilePath => path.text == "out/Order.js"
    ((run locked).1.aborted = false ∧
      (∃ ts, Account (mapFiles locked) echoing.compiler ⟨"out"⟩ ⟨true, true⟩ accepted
        (fun _ => none) ts (run locked).1 (run locked).2) ∧
      (run locked).1.faults.map (·.unit.text) = ["b/Order.javats"] ∧
      (run locked).2 ⟨"out/User.js"⟩ = some "second") ∧
    ((run fun _ => false).1.isSuccess = true ∧ accepted = namesakes ∧
      (run fun _ => false).1.written =
        namesakes.flatMap fun u => [Artifact.typed, .script].map (·.path ⟨"out"⟩ u)) := by
  intro run accepted locked
  have haborted : (run locked).1.aborted = false := by decide +kernel
  have hsuccess : (run fun _ => false).1.isSuccess = true := by decide +kernel
  have hlocked := build_accounts (mapFiles_actsAsMap locked) echoing namesakes ⟨"out"⟩
    ⟨true, true⟩ fun _ => none
  have hopen := build_accounts (mapFiles_actsAsMap fun _ => false) echoing namesakes ⟨"out"⟩
    ⟨true, true⟩ fun _ => none
  exact ⟨⟨haborted, hlocked.1 haborted, by decide +kernel, by decide +kernel⟩,
    hsuccess, hopen.2 hsuccess⟩

end Pipeline
end ClassScript
