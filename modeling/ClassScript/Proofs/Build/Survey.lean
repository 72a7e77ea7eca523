/-
  File:      ClassScript/Proofs/Build/Survey.lean
  Subject:   A build validates what a check validates.

  A check asks three questions of a list of files: what is wrong with them,
  how many there are, which are accepted. A build answers all three in one
  pass, file by file, and stops before it writes if a project rule complains.

  * `Survey.Covers`: what a survey has to say after some units; one more unit
    keeps it (`Survey.Covers.add`), and so does the whole pass
    (`Survey.Covers.foldl`);
  * `Pipeline.build_of_silent`, `Pipeline.build_of_complaint`: the two ways a
    build goes;
  * `Pipeline.build_validation`: the report of a build is the report of a check.
-/
import ClassScript.Build.Pipeline
import ClassScript.Proofs.Validator

namespace ClassScript

/-! ## 1. One pass over the units -/

namespace Survey

variable {v : Validator} {loaded : List CompilationUnit}

/-- What a survey has to say after the units `us`. -/
structure Covers (v : Validator) (loaded us : List CompilationUnit) (s : Survey) : Prop where
  diagnostics : s.report.diagnostics = us.flatMap (v.checkUnitIn loaded)
  unitsChecked : s.report.unitsChecked = us.length
  paths : s.report.accepted = (us.filter (v.accepts loaded)).map (·.path)
  accepted : s.accepted = us.filter (v.accepts loaded)

/-- **One more unit**: a survey that covers `us` covers `us` and `u` after looking at `u`. -/
theorem Covers.add {us : List CompilationUnit} {s : Survey} (h : Covers v loaded us s)
    (u : CompilationUnit) : Covers v loaded (us ++ [u]) (s.add v loaded u) := by
  unfold Survey.add
  cases hu : v.checkUnitIn loaded u with
  | nil =>
    have ha : v.accepts loaded u = true := Validator.accepts_iff.mpr hu
    constructor
    · simp [h.diagnostics, hu]
    · simp [h.unitsChecked]
    · simp [h.paths, ha]
    · simp [h.accepted, ha]
  | cons d ds =>
    have ha : v.accepts loaded u = false := by
      rw [← Bool.not_eq_true, Validator.accepts_iff, hu]
      exact List.cons_ne_nil d ds
    constructor
    · simp [h.diagnostics, hu]
    · simp [h.unitsChecked]
    · simp [h.paths, ha]
    · simp [h.accepted, ha]

/-- The whole pass. -/
theorem Covers.foldl {done : List CompilationUnit} {s : Survey} (h : Covers v loaded done s)
    (us : List CompilationUnit) :
    Covers v loaded (done ++ us) (us.foldl (Survey.add v loaded) s) := by
  induction us generalizing done s with
  | nil => simpa using h
  | cons u us ih =>
    have hstep := ih (h.add u)
    rw [List.append_assoc, List.singleton_append] at hstep
    exact hstep

/-- A survey of some units covers them. -/
theorem covers_ofUnits (v : Validator) (units : List CompilationUnit) :
    Covers v units units (ofUnits v units) := by
  have hstart : Covers v units [] {} := ⟨rfl, rfl, rfl, rfl⟩
  exact hstart.foldl units

@[simp] theorem ofUnits_report (v : Validator) (units : List CompilationUnit) :
    (ofUnits v units).report = v.checkUnits units := by
  have h := covers_ofUnits v units
  cases hr : (ofUnits v units).report with
  | mk diagnostics unitsChecked accepted =>
    have hd := h.diagnostics
    have hn := h.unitsChecked
    have hp := h.paths
    rw [hr] at hd hn hp
    unfold Validator.checkUnits Validator.accepted
    rw [← hd, ← hn, ← hp]

@[simp] theorem ofUnits_accepted (v : Validator) (units : List CompilationUnit) :
    (ofUnits v units).accepted = v.accepted units := (covers_ofUnits v units).accepted

end Survey

/-! ## 2. The two ways a build goes -/

namespace Pipeline

section

variable {m : Type → Type} [Monad m] {p : Pipeline} {units : List CompilationUnit}

/-- Without a complaint of a project rule the accepted units are written. -/
theorem build_of_silent (h : p.validator.checkProject (p.validator.accepted units) = [])
    (save : Save m) (outDir : FilePath) (targets : Targets) :
    p.build save units outDir targets = do
      let outcomes ← writeUnits save p.compiler outDir targets (p.validator.accepted units)
      return reportOf (p.validator.checkAll units) outcomes := by
  have hall : p.validator.checkAll units = p.validator.checkUnits units := by
    unfold Validator.checkAll
    simp only [h, List.append_nil]
  unfold build
  rw [hall]
  simp only [Survey.ofUnits_report, Survey.ofUnits_accepted, h]

/-- A complaint of a project rule ends the build. -/
theorem build_of_complaint (h : p.validator.checkProject (p.validator.accepted units) ≠ [])
    (save : Save m) (outDir : FilePath) (targets : Targets) :
    p.build save units outDir targets =
      pure { validation := p.validator.checkAll units, aborted := true } := by
  unfold build
  -- by `h` the branch for no complaint is not taken, whatever the complaints are
  simp only [Survey.ofUnits_report, Survey.ofUnits_accepted]
  rfl

end

/-! ## 3. The report of a build -/

variable {σ : Type} {p : Pipeline} {save : Save (StateM σ)} {units : List CompilationUnit}
  {outDir : FilePath} {targets : Targets} {s : σ}

theorem run_build_validation :
    ((p.build save units outDir targets).run s).1.validation = p.validator.checkAll units := by
  by_cases h : p.validator.checkProject (p.validator.accepted units) = []
  · rw [build_of_silent h]
    rfl
  · rw [build_of_complaint h]
    rfl

theorem run_build_aborted_iff :
    ((p.build save units outDir targets).run s).1.aborted = true ↔
      p.validator.checkProject (p.validator.accepted units) ≠ [] := by
  by_cases h : p.validator.checkProject (p.validator.accepted units) = []
  · rw [build_of_silent h]
    exact iff_of_false Bool.false_ne_true (not_not_intro h)
  · rw [build_of_complaint h]
    exact iff_of_true rfl h

/-- No project rule complains about what a build accepts that is not aborted. -/
theorem checkProject_of_not_aborted
    (h : ((p.build save units outDir targets).run s).1.aborted = false) :
    p.validator.checkProject (p.validator.accepted units) = [] := by
  refine Classical.byContradiction fun hne => ?_
  rw [run_build_aborted_iff.mpr hne] at h
  exact Bool.false_ne_true h.symm

/-- **A build validates what a check validates.** Whatever the rules, their order and the
    configuration, and whatever is written how: the validation of a build is that of a check of
    the same units. The build is aborted exactly when a project rule complains about the accepted
    units; then no file is listed, no fault is recorded, and the files are as they were. -/
theorem build_validation (p : Pipeline) (save : Save (StateM σ)) (units : List CompilationUnit)
    (outDir : FilePath) (targets : Targets) (s : σ) :
    let r := (p.build save units outDir targets).run s
    r.1.validation = p.validator.checkAll units ∧
      (r.1.aborted = true ↔ p.validator.checkProject (p.validator.accepted units) ≠ []) ∧
      (r.1.aborted = true → r.1.written = [] ∧ r.1.faults = [] ∧ r.2 = s) := by
  intro r
  refine ⟨run_build_validation, run_build_aborted_iff, fun habort => ?_⟩
  have hcomplaint := run_build_aborted_iff.mp habort
  have hr : r = ({ validation := p.validator.checkAll units, aborted := true }, s) := by
    show (p.build save units outDir targets).run s = _
    rw [build_of_complaint hcomplaint]
    rfl
  rw [hr]
  exact ⟨rfl, rfl, rfl⟩

/-- A project without files has no entry point: its build is aborted, and no write is counted. -/
theorem build_validation_empty_project :
    let p := ofPreset .mature {}
    let counting : Save (StateM Nat) := fun _ _ => modifyGet fun n => (.ok (), n + 1)
    let r := (p.build counting [] ⟨"out"⟩ {}).run 0
    r.1.validation = p.validator.checkAll [] ∧ r.1.aborted = true ∧
      r.1.written = [] ∧ r.1.faults = [] ∧ r.2 = 0 := by
  intro p counting r
  obtain ⟨hvalidation, _, hnothing⟩ := build_validation p counting [] ⟨"out"⟩ {} 0
  have habort : r.1.aborted = true := by decide +kernel
  exact ⟨hvalidation, habort, hnothing habort⟩

end Pipeline
end ClassScript
