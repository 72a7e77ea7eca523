/-
  File:      ClassScript/Proofs/Validator.lean
  Subject:   When the scopes of a validator are silent.

  A scope is silent when every rule of it that runs is silent. A whole
  validation is silent when every file is, and the project rules are silent on
  ALL files: with no diagnostic nothing is left out of the accepted files.

  * `checkUnitIn_eq_nil_iff`, `checkProject_eq_nil_iff`: one scope;
  * `mem_accepted_iff`, `accepted_eq_self_iff`: the accepted files;
  * `checkAll_eq_nil_iff`: the whole validation.
-/
import ClassScript.Validator
import ClassScript.Proofs.Declaration

namespace ClassScript

theorem Rule.unit?_eq_some_iff {rule : Rule} {r : UnitRule} :
    rule.unit? = some r ↔ rule = .unit r := by
  cases rule <;> simp [Rule.unit?]

theorem Rule.project?_eq_some_iff {rule : Rule} {r : ProjectRule} :
    rule.project? = some r ↔ rule = .project r := by
  cases rule <;> simp [Rule.project?]

namespace Validator

variable {v : Validator} {loaded units : List CompilationUnit} {u : CompilationUnit}

/-! ## 1. One scope -/

theorem mem_running_unit_iff {r : UnitRule} :
    r ∈ (v.rules.filter v.runs).filterMap Rule.unit? ↔
      Rule.unit r ∈ v.rules ∧ v.config.enables r.info.name = true :=
  (mem_filterMap_iff fun _ _ => Rule.unit?_eq_some_iff).trans List.mem_filter

theorem mem_running_project_iff {r : ProjectRule} :
    r ∈ (v.rules.filter v.runs).filterMap Rule.project? ↔
      Rule.project r ∈ v.rules ∧ v.config.enables r.info.name = true :=
  (mem_filterMap_iff fun _ _ => Rule.project?_eq_some_iff).trans List.mem_filter

/-- A file has no diagnostic exactly when every unit rule that runs is silent on it. -/
theorem checkUnitIn_eq_nil_iff :
    v.checkUnitIn loaded u = [] ↔
      ∀ r, Rule.unit r ∈ v.rules → v.config.enables r.info.name = true → r.check loaded u = [] := by
  unfold checkUnitIn
  rw [List.flatMap_eq_nil_iff]
  simp only [mem_running_unit_iff, and_imp]

/-- A project has no diagnostic exactly when every project rule that runs is silent on it. -/
theorem checkProject_eq_nil_iff :
    v.checkProject units = [] ↔
      ∀ r, Rule.project r ∈ v.rules → v.config.enables r.info.name = true →
        r.check units = [] := by
  unfold checkProject
  rw [List.flatMap_eq_nil_iff]
  simp only [mem_running_project_iff, and_imp]

/-! ## 2. Accepted files -/

theorem accepts_iff : v.accepts loaded u = true ↔ v.checkUnitIn loaded u = [] :=
  List.isEmpty_iff

/-- The accepted files are those without a diagnostic of a unit rule. -/
theorem mem_accepted_iff : u ∈ v.accepted units ↔ u ∈ units ∧ v.checkUnitIn units u = [] := by
  unfold accepted
  rw [List.mem_filter, accepts_iff]

/-- All files are accepted exactly when no unit rule complains about any of them. -/
theorem accepted_eq_self_iff :
    v.accepted units = units ↔ ∀ u ∈ units, v.checkUnitIn units u = [] := by
  unfold accepted
  rw [List.filter_eq_self]
  constructor
  · intro h u hu
    exact accepts_iff.mp (h u hu)
  · intro h u hu
    exact accepts_iff.mpr (h u hu)

/-! ## 3. The whole validation -/

/-- **A validation without diagnostics**: no unit rule complains about any file, and no project
    rule about all of them. -/
theorem checkAll_eq_nil_iff :
    (v.checkAll units).diagnostics = [] ↔
      (∀ u ∈ units, v.checkUnitIn units u = []) ∧ v.checkProject units = [] := by
  show units.flatMap (v.checkUnitIn units) ++ v.checkProject (v.accepted units) = [] ↔ _
  rw [List.append_eq_nil_iff, List.flatMap_eq_nil_iff]
  constructor
  · intro h
    obtain ⟨hunits, hproject⟩ := h
    rw [accepted_eq_self_iff.mpr hunits] at hproject
    exact ⟨hunits, hproject⟩
  · intro h
    obtain ⟨hunits, hproject⟩ := h
    rw [accepted_eq_self_iff.mpr hunits]
    exact ⟨hunits, hproject⟩

end Validator
end ClassScript
