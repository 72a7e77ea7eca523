/-
  File:      ClassScript/Proofs/Validator/Registration.lean
  Subject:   Which rules run, and in which order.

  Rules come into a validator one by one or in lists, before it is built and
  after. In whichever way they came, they run in the order they came in, and
  the diagnostics of a validator are those of its rules, one rule after the
  other. A configuration takes rules out of this, and puts nothing in.

  * `Assembled`: the ways to put a validator together; `Assembled.eq`: they
    all come to the same;
  * `checkUnitIn_append`, `checkProject_append`: rules after rules;
  * `checkUnitIn_config`, `checkProject_config`: a configuration as a filter
    of diagnostics;
  * `accepted_sublist`: turning unit rules off keeps what is accepted.
-/
import Mathlib.Data.List.Basic
import ClassScript.Proofs.Rule.Attribution
import ClassScript.Proofs.Rule.Mature

namespace ClassScript

open ClassScript.Rules

/-! ## 1. Putting a validator together -/

namespace Validator

/-- The builder `b` was given the rules `rs` in this order, and the configuration `given`. -/
inductive Gathered : Option Config → List Rule → Builder → Prop where
  | start : Gathered none [] {}
  | rule {given : Option Config} {rs : List Rule} {b : Builder} (h : Gathered given rs b)
      (r : Rule) : Gathered given (rs ++ [r]) (b.rule r)
  | ruleSet {given : Option Config} {rs : List Rule} {b : Builder} (h : Gathered given rs b)
      (more : List Rule) : Gathered given (rs ++ more) (b.ruleSet more)
  | withConfig {given : Option Config} {rs : List Rule} {b : Builder} (h : Gathered given rs b)
      (c : Config) : Gathered (some c) rs (b.withConfig c)

/-- The validator `v` was given the rules `rs` in this order, before it was built under the
    configuration `c` or after. -/
inductive Assembled (c : Config) : List Rule → Validator → Prop where
  | built {given : Option Config} {rs : List Rule} {b : Builder} (h : Gathered given rs b)
      (hc : given.getD {} = c) : Assembled c rs b.build
  | register {rs : List Rule} {v : Validator} (h : Assembled c rs v) (r : Rule) :
      Assembled c (rs ++ [r]) (v.register r)
  | registerAll {rs : List Rule} {v : Validator} (h : Assembled c rs v) (more : List Rule) :
      Assembled c (rs ++ more) (v.registerAll more)

theorem Builder.ruleSet_eq (b : Builder) (rs : List Rule) :
    b.ruleSet rs = ⟨b.rules ++ rs, b.config⟩ := by
  unfold ruleSet
  induction rs generalizing b with
  | nil => rw [List.foldl_nil, List.append_nil]
  | cons r rs ih =>
    rw [List.foldl_cons, ih]
    show (⟨b.rules ++ [r] ++ rs, b.config⟩ : Builder) = _
    rw [List.append_assoc, List.singleton_append]

theorem Gathered.eq {given : Option Config} {rs : List Rule} {b : Builder}
    (h : Gathered given rs b) : b = ⟨rs, given⟩ := by
  induction h with
  | start => rfl
  | rule _ r ih => rw [ih]; rfl
  | ruleSet _ more ih => rw [ih, Builder.ruleSet_eq]
  | withConfig _ c ih => rw [ih]; rfl

/-- In whichever way the rules came, the validator holds them in their order. -/
theorem Assembled.eq {c : Config} {rs : List Rule} {v : Validator} (h : Assembled c rs v) :
    v = ⟨rs, c⟩ := by
  induction h with
  | built h hc => rw [h.eq, ← hc]; rfl
  | register _ r ih => rw [ih]; rfl
  | registerAll _ more ih => rw [ih]; rfl

theorem assembled_iff {c : Config} {rs : List Rule} {v : Validator} :
    Assembled c rs v ↔ v = ⟨rs, c⟩ := by
  refine ⟨Assembled.eq, ?_⟩
  rintro rfl
  have h := Assembled.built ((Gathered.start.ruleSet rs).withConfig c) rfl
  rwa [Builder.ruleSet_eq] at h

end Validator

/-! ## 2. One rule after the other -/

/-- What a rule finds in the file `u`: a project rule finds nothing. -/
def Rule.onUnit (loaded : List CompilationUnit) (u : CompilationUnit) : Rule → List Diagnostic
  | .unit r => r.check loaded u
  | .project _ => []

/-- What a rule finds in the files `units` together: a unit rule finds nothing. -/
def Rule.onProject (units : List CompilationUnit) : Rule → List Diagnostic
  | .unit _ => []
  | .project r => r.check units

namespace Validator

variable {v : Validator} {rs rs₁ rs₂ : List Rule} {c c' : Config}
  {loaded units : List CompilationUnit} {u : CompilationUnit}

/-- The diagnostics of a file are those of each rule that runs, in the order of the rules. -/
theorem checkUnitIn_eq_flatMap :
    v.checkUnitIn loaded u = (v.rules.filter v.runs).flatMap (Rule.onUnit loaded u) := by
  unfold checkUnitIn
  induction v.rules.filter v.runs with
  | nil => rfl
  | cons r rs ih =>
    cases r with
    | unit r => exact congrArg (r.check loaded u ++ ·) ih
    | project r => exact ih

/-- The diagnostics of a project are those of each rule that runs, in the order of the rules. -/
theorem checkProject_eq_flatMap :
    v.checkProject units = (v.rules.filter v.runs).flatMap (Rule.onProject units) := by
  unfold checkProject
  induction v.rules.filter v.runs with
  | nil => rfl
  | cons r rs ih =>
    cases r with
    | unit r => exact ih
    | project r => exact congrArg (r.check units ++ ·) ih

/-- The diagnostics of rules after others come after those of the others. -/
theorem checkUnitIn_append :
    (⟨rs₁ ++ rs₂, c⟩ : Validator).checkUnitIn loaded u =
      (⟨rs₁, c⟩ : Validator).checkUnitIn loaded u ++
        (⟨rs₂, c⟩ : Validator).checkUnitIn loaded u := by
  simp only [checkUnitIn_eq_flatMap]
  rw [List.filter_append, List.flatMap_append]
  rfl

theorem checkProject_append :
    (⟨rs₁ ++ rs₂, c⟩ : Validator).checkProject units =
      (⟨rs₁, c⟩ : Validator).checkProject units ++ (⟨rs₂, c⟩ : Validator).checkProject units := by
  simp only [checkProject_eq_flatMap]
  rw [List.filter_append, List.flatMap_append]
  rfl

/-! ## 3. Configurations -/

/-- If everything that comes of an `a` shows whether `a` passes, it can be sorted out before and
    after. -/
theorem flatMap_filter_of_shown {α β : Type} {p : α → Bool} {q : β → Bool} {f : α → List β}
    {as : List α} (h : ∀ a ∈ as, ∀ b ∈ f a, q b = p a) :
    (as.filter p).flatMap f = (as.flatMap f).filter q := by
  induction as with
  | nil => rfl
  | cons a as ih =>
    have ih := ih fun b hb => h b (List.mem_cons_of_mem a hb)
    have ha : (f a).filter q = if p a then f a else [] := by
      split
      · rename_i hp
        exact List.filter_eq_self.mpr fun b hb => (h a List.mem_cons_self b hb).trans hp
      · rename_i hp
        exact List.filter_eq_nil_iff.mpr fun b hb hq =>
          hp ((h a List.mem_cons_self b hb).symm.trans hq)
    rw [List.flatMap_cons, List.filter_append, ha, ← ih, List.filter_cons]
    split
    · rw [List.flatMap_cons]
    · rw [List.nil_append]

/-- Under the empty configuration all rules run. -/
theorem filter_runs_default : rs.filter (⟨rs, {}⟩ : Validator).runs = rs :=
  List.filter_eq_self.mpr fun _ _ => rfl

/-- The diagnostics of a rule of the catalogue carry its name. -/
theorem rule_of_mem_onUnit {r : Rule} (hr : r ∈ allRules) {d : Diagnostic}
    (hd : d ∈ r.onUnit loaded u) : d.rule = r.name := by
  cases r with
  | unit r => exact (attributed_of_mem_check hr hd).rule
  | project r => exact absurd hd List.not_mem_nil

theorem rule_of_mem_onProject {r : Rule} (hr : r ∈ allRules) {d : Diagnostic}
    (hd : d ∈ r.onProject units) : d.rule = r.name := by
  cases r with
  | unit r => exact absurd hd List.not_mem_nil
  | project r =>
    obtain rfl := mem_allRules_project_iff.mp hr
    exact (projectMainMethod_attributed units d hd).rule

/-- To turn rules of the catalogue off is to leave their diagnostics out. -/
theorem checkUnitIn_config (h : ∀ r ∈ rs, r ∈ allRules) :
    (⟨rs, c⟩ : Validator).checkUnitIn loaded u =
      ((⟨rs, {}⟩ : Validator).checkUnitIn loaded u).filter fun d => c.enables d.rule := by
  rw [checkUnitIn_eq_flatMap, checkUnitIn_eq_flatMap, filter_runs_default]
  refine flatMap_filter_of_shown fun r hr d hd => ?_
  exact congrArg c.enables (rule_of_mem_onUnit (h r hr) hd)

theorem checkProject_config (h : ∀ r ∈ rs, r ∈ allRules) :
    (⟨rs, c⟩ : Validator).checkProject units =
      ((⟨rs, {}⟩ : Validator).checkProject units).filter fun d => c.enables d.rule := by
  rw [checkProject_eq_flatMap, checkProject_eq_flatMap, filter_runs_default]
  refine flatMap_filter_of_shown fun r hr d hd => ?_
  exact congrArg c.enables (rule_of_mem_onProject (h r hr) hd)

/-- The configuration `c'` turns off each unit rule of `rs` that `c` turns off. -/
def DisablesMore (rs : List Rule) (c c' : Config) : Prop :=
  ∀ r, Rule.unit r ∈ rs → c'.enables r.info.name = true → c.enables r.info.name = true

/-- A file that is accepted stays so when more unit rules are turned off. -/
theorem accepts_of_disablesMore (h : DisablesMore rs c c')
    (ha : (⟨rs, c⟩ : Validator).accepts loaded u = true) :
    (⟨rs, c'⟩ : Validator).accepts loaded u = true := by
  rw [accepts_iff, checkUnitIn_eq_nil_iff] at ha ⊢
  exact fun r hr hruns => ha r hr (h r hr hruns)

theorem accepted_sublist (h : DisablesMore rs c c') :
    ((⟨rs, c⟩ : Validator).accepted units).Sublist ((⟨rs, c'⟩ : Validator).accepted units) :=
  List.monotone_filter_right units fun _ => accepts_of_disablesMore h

/-- **How rules run.** In whichever way two lists of rules came into a validator one after the
    other, it runs them like this: the diagnostics of the second list come after those of the
    first, for files and for projects. A configuration that turns rules of the catalogue off
    leaves exactly their diagnostics out. One that turns more unit rules off accepts what was
    accepted before, in the same order. -/
theorem registration_laws (rs₁ rs₂ : List Rule) (c : Config) :
    (∀ v, Assembled c (rs₁ ++ rs₂) v ↔ v = ⟨rs₁ ++ rs₂, c⟩) ∧
      (∀ v v₁ v₂, Assembled c (rs₁ ++ rs₂) v → Assembled c rs₁ v₁ → Assembled c rs₂ v₂ →
        (∀ loaded u,
          v.checkUnitIn loaded u = v₁.checkUnitIn loaded u ++ v₂.checkUnitIn loaded u) ∧
        ∀ units, v.checkProject units = v₁.checkProject units ++ v₂.checkProject units) ∧
      ((∀ r ∈ rs₁, r ∈ allRules) →
        (∀ loaded u, (⟨rs₁, c⟩ : Validator).checkUnitIn loaded u =
          ((⟨rs₁, {}⟩ : Validator).checkUnitIn loaded u).filter fun d => c.enables d.rule) ∧
        ∀ units, (⟨rs₁, c⟩ : Validator).checkProject units =
          ((⟨rs₁, {}⟩ : Validator).checkProject units).filter fun d => c.enables d.rule) ∧
      ∀ c', DisablesMore rs₁ c c' → ∀ units,
        ((⟨rs₁, c⟩ : Validator).accepted units).Sublist ((⟨rs₁, c'⟩ : Validator).accepted units) ∧
        ((⟨rs₁, c⟩ : Validator).checkAll units).accepted.Sublist
          ((⟨rs₁, c'⟩ : Validator).checkAll units).accepted := by
  refine ⟨fun v => assembled_iff, fun v v₁ v₂ h h₁ h₂ => ?_, fun h => ?_, fun c' h units => ?_⟩
  · rw [h.eq, h₁.eq, h₂.eq]
    exact ⟨fun _ _ => checkUnitIn_append, fun _ => checkProject_append⟩
  · exact ⟨fun _ _ => checkUnitIn_config h, fun _ => checkProject_config h⟩
  · exact ⟨accepted_sublist h, (accepted_sublist h).map _⟩

/-- A file with a function and a class without a method. -/
def strayFunction : CompilationUnit where
  path := ⟨"Main.javats"⟩
  text := "function f()\x7b\x7dclass Main\x7b\x7d"
  items :=
    [.functionItem ⟨some "f", ⟨1, 1⟩, false⟩,
      .classItem ⟨some "Main", ⟨1, 15⟩, ⟨1, 21⟩, false, false, none, [], []⟩]

/-- One rule before and one after the validator is built, and then the first one turned off: its
    diagnostic goes, and the file is accepted. -/
theorem registration_laws_strayFunction :
    let here := strayFunction
    let rules₁ : List Rule := [.unit noProceduralCode]
    let rules₂ : List Rule := [.project projectMainMethod]
    let c : Config := { rules := [("no-procedural-code", ⟨some false⟩)] }
    let v := (({} : Builder).rule (.unit noProceduralCode)).build.registerAll rules₂
    (v = ⟨rules₁ ++ rules₂, {}⟩ ∧
        v.checkProject [here] = (⟨rules₁, {}⟩ : Validator).checkProject [here] ++
          (⟨rules₂, {}⟩ : Validator).checkProject [here] ∧
        (v.checkProject [here]).length = 1) ∧
      ((⟨rules₁, c⟩ : Validator).checkUnitIn [] here =
          ((⟨rules₁, {}⟩ : Validator).checkUnitIn [] here).filter (fun d => c.enables d.rule) ∧
        ((⟨rules₁, {}⟩ : Validator).checkUnitIn [] here).length = 1 ∧
        (⟨rules₁, c⟩ : Validator).checkUnitIn [] here = []) ∧
      ((⟨rules₁, {}⟩ : Validator).checkAll [here]).accepted.Sublist
        ((⟨rules₁, c⟩ : Validator).checkAll [here]).accepted ∧
      ((⟨rules₁, c⟩ : Validator).checkAll [here]).accepted = [here.path] := by
  intro here rules₁ rules₂ c v
  have hv : Assembled {} (rules₁ ++ rules₂) v :=
    .registerAll (.built (.rule .start _) rfl) rules₂
  have hcatalogue : ∀ r ∈ rules₁, r ∈ allRules := by
    intro r hr
    obtain rfl := List.mem_singleton.mp hr
    exact mem_allRules_unit_iff.mpr (.inl rfl)
  have hmore : DisablesMore rules₁ {} c := fun _ _ _ => rfl
  obtain ⟨hall, happend, _⟩ := registration_laws rules₁ rules₂ {}
  obtain ⟨_, _, hfilter, _⟩ := registration_laws rules₁ rules₂ c
  obtain ⟨_, _, _, hkeeps⟩ := registration_laws rules₁ rules₂ {}
  refine ⟨⟨(hall v).mp hv, ?_, by decide +kernel⟩,
    ⟨(hfilter hcatalogue).1 [] here, by decide +kernel, by decide +kernel⟩,
    (hkeeps c hmore [here]).2, by decide +kernel⟩
  exact (happend v _ _ hv (assembled_iff.mpr rfl) (assembled_iff.mpr rfl)).2 [here]

end Validator
end ClassScript
