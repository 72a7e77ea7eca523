/-
  File:      ClassScript/Proofs/Build/Recheck.lean
  Subject:   The check before writing agrees with the rules.

  What the rules accept is checked once more before it is written, by a
  function that knows nothing of them. Its options say which rules run. It
  never refuses what a preset accepts under the same configuration, with one
  exception: a variable statement without variables, which no text contains.

  * `recheck_eq_ok_iff`: what the check asks for;
  * `Validator.recheck_of_accepted_iff`: what it adds to the rules;
  * `Pipeline.build_never_violates`: no fault of a build is a violation.
-/
import ClassScript.Proofs.Build.Accounting
import ClassScript.Proofs.Rule.Silence

namespace ClassScript

open ClassScript.Rules

/-! ## 1. What the check asks for -/

/-- A name is given exactly when the access modifier is missing. -/
theorem unless_modified_eq_none_iff {v : Option Visibility} {name : String} :
    (if v.isNone then some name else none) = none ↔ v.isSome = true := by
  cases v with
  | none => exact iff_of_false (Option.some_ne_none name) Bool.false_ne_true
  | some _ => exact iff_of_true rfl rfl

/-- No member is found exactly when the rule on access modifiers is silent. -/
theorem firstUnmodified?_eq_none_iff {loaded : List CompilationUnit} {u : CompilationUnit} :
    firstUnmodified? u.classes = none ↔ requireModifiers.check loaded u = [] := by
  unfold firstUnmodified?
  rw [requireModifiers_eq_nil_iff, List.findSome?_eq_none_iff]
  refine forall₂_congr fun c _ => ?_
  rw [Option.map_eq_none_iff, List.findSome?_eq_none_iff,
    ClassDecl.forall_members_iff (fun _ => rfl) fun _ => rfl]
  simp only [Member.unmodified?, unless_modified_eq_none_iff]

/-- A guard lets pass what it does not ask for, and what has not the fault it asks for. -/
theorem guard_eq_ok_iff {ε α : Type} {asked fault : Bool} {e : ε} {x : Except ε α} {a : α} :
    (if asked && fault then .error e else x) = .ok a ↔
      (asked = true → fault = false) ∧ x = .ok a := by
  cases asked <;> cases fault <;> simp

/-- **The check lets a unit pass**, and gives its text as it is, exactly when each invariant that
    its options name holds. -/
theorem recheck_eq_ok_iff {options : RecheckOptions} {u : CompilationUnit} :
    recheck options u = .ok u.text ↔
      (options.forbidsProceduralCode = true → u.functions = [] ∧ u.variableDecls = []) ∧
      (options.requiresModifiers = true → firstUnmodified? u.classes = none) ∧
      (options.enforcesMain = true → u.declaresEntryPoint = true) := by
  have hstray : (!u.functions.isEmpty || !u.variableDecls.isEmpty) = false ↔
      u.functions = [] ∧ u.variableDecls = [] := by
    rw [Bool.or_eq_false_iff, Bool.not_eq_false', Bool.not_eq_false', List.isEmpty_iff,
      List.isEmpty_iff]
  have hfound : (if options.requiresModifiers then firstUnmodified? u.classes else none) = none ↔
      (options.requiresModifiers = true → firstUnmodified? u.classes = none) := ite_eq_right_iff
  unfold recheck
  rw [guard_eq_ok_iff, hstray, ← hfound]
  refine and_congr_right fun _ => ?_
  cases (if options.requiresModifiers then firstUnmodified? u.classes else none) with
  | some found =>
    refine iff_of_false (fun h => ?_) fun h => Option.some_ne_none found h.1
    cases h
  | none =>
    dsimp only
    rw [guard_eq_ok_iff, Bool.not_eq_false', and_iff_left rfl, and_iff_right rfl]

/-! ## 2. What the rules leave to it -/

namespace Validator

variable {preset : Preset} {config : Config} {units : List CompilationUnit} {u : CompilationUnit}

theorem noProceduralCode_mem_rules (preset : Preset) : .unit noProceduralCode ∈ preset.rules := by
  cases preset <;> exact List.mem_cons_self

theorem requireModifiers_mem_rules (preset : Preset) : .unit requireModifiers ∈ preset.rules := by
  cases preset <;> simp [Preset.rules]

/-- A preset that asks for an entry point in every file has the rule for it. -/
theorem mainMethod_mem_rules (h : preset.checksMainPerUnit = true) :
    .unit mainMethod ∈ preset.rules := by
  cases preset with
  | mature => cases h
  | legacy => simp [Preset.rules]

/-- A rule that runs is silent on what is accepted. -/
theorem check_eq_nil_of_accepted (hu : u ∈ (ofPreset preset config).accepted units)
    {r : UnitRule} (hr : .unit r ∈ preset.rules) (hruns : config.enables r.info.name = true) :
    r.check units u = [] :=
  checkUnitIn_eq_nil_iff.mp (mem_accepted_iff.mp hu).2 r hr hruns

/-- **What the check adds to the rules.** It lets an accepted unit pass exactly when the unit has
    no variable statement at all, be it one without variables; and only if the rule against
    procedural code runs. -/
theorem recheck_of_accepted_iff (hu : u ∈ (ofPreset preset config).accepted units) :
    recheck (.ofPreset preset config) u = .ok u.text ↔
      (config.enables noProceduralCode.info.name = true → u.variableDecls = []) := by
  rw [recheck_eq_ok_iff]
  constructor
  · intro h hruns
    obtain ⟨hprocedural, _⟩ := h
    exact (hprocedural hruns).2
  · intro h
    refine ⟨fun hruns => ⟨?_, h hruns⟩, fun hruns => ?_, fun hruns => ?_⟩
    · exact (noProceduralCode_eq_nil_iff.mp
        (check_eq_nil_of_accepted hu (noProceduralCode_mem_rules preset) hruns)).1
    · exact firstUnmodified?_eq_none_iff.mpr
        (check_eq_nil_of_accepted hu (requireModifiers_mem_rules preset) hruns)
    · obtain ⟨hperUnit, hruns⟩ := Bool.and_eq_true_iff.mp hruns
      exact mainMethod_eq_nil_iff.mp
        (check_eq_nil_of_accepted hu (mainMethod_mem_rules hperUnit) hruns)

/-- With variables in every variable statement, the check lets every accepted unit pass. -/
theorem recheck_of_accepted (hu : u ∈ (ofPreset preset config).accepted units)
    (hdeclares : ∀ v ∈ u.variableDecls, v.declarators ≠ []) :
    recheck (.ofPreset preset config) u = .ok u.text := by
  refine (recheck_of_accepted_iff hu).mpr fun hruns => ?_
  have hsilent := (noProceduralCode_eq_nil_iff.mp
    (check_eq_nil_of_accepted hu (noProceduralCode_mem_rules preset) hruns)).2
  exact List.eq_nil_iff_forall_not_mem.mpr fun v hv => hdeclares v hv (hsilent v hv)

end Validator

/-! ## 3. Faults from outside -/

variable {σ : Type}

/-- Why a unit is not written although its text is fit for it: the toolchain fails, or gives no
    script, or a file cannot be saved. -/
inductive OutsideFault (save : Save (StateM σ)) (c : Compiler) (outDir : FilePath)
    (u : CompilationUnit) : BuildError → Prop where
  | toolchain (cause : ToolchainError)
      (h : c.toolchain (Compiler.hostName u) u.text = .error cause) :
      OutsideFault save c outDir u (.toolchain cause)
  | noScript (emitted : List EmittedFile)
      (h : c.toolchain (Compiler.hostName u) u.text = .ok emitted)
      (hnone : Compiler.scriptAmong? emitted = none) :
      OutsideFault save c outDir u (.noScript u.path)
  | unwritable (a : Artifact) (text : String) (s s' : σ) (cause : IoError)
      (h : (save (a.path outDir u) text).run s = (.error cause, s')) :
      OutsideFault save c outDir u (.unwritable (a.path outDir u) cause)

theorem OutsideFault.not_violated {save : Save (StateM σ)} {c : Compiler} {outDir : FilePath}
    {u : CompilationUnit} {e : BuildError} (h : OutsideFault save c outDir u e)
    (cause : RecheckError) : e ≠ .violated cause := by
  cases h <;> exact fun he => BuildError.noConfusion he

/-- A script is made of the typed text. -/
theorem Compiler.script_of_typedText {c : Compiler} {u : CompilationUnit} {text : String}
    (h : c.typedText u = .ok text) :
    c.script u = ((c.toolchain (hostName u) text).mapError .toolchain).bind fun emitted =>
      (scriptAmong? emitted).elim (.error (.noScript u.path)) fun found =>
        .ok (withRunner u found) := by
  unfold Compiler.script
  rw [h]
  refine congrArg (((c.toolchain (hostName u) text).mapError BuildError.toolchain).bind ·)
    (funext fun emitted => ?_)
  cases scriptAmong? emitted <;> rfl

/-- A unit whose text is fit for writing lacks a script for a reason from outside. -/
theorem Compiler.script_outside {save : Save (StateM σ)} {c : Compiler} {outDir : FilePath}
    {u : CompilationUnit} {e : BuildError} (htyped : c.typedText u = .ok u.text)
    (he : c.script u = .error e) : OutsideFault save c outDir u e := by
  rw [Compiler.script_of_typedText htyped] at he
  cases htool : c.toolchain (hostName u) u.text with
  | error cause =>
    rw [htool] at he
    cases he
    exact .toolchain cause htool
  | ok emitted =>
    rw [htool] at he
    have hfound : (scriptAmong? emitted).elim (.error (.noScript u.path))
        (fun found => .ok (withRunner u found)) = Except.error e := he
    cases hscript : scriptAmong? emitted with
    | some found =>
      rw [hscript] at hfound
      cases hfound
    | none =>
      rw [hscript] at hfound
      cases hfound
      exact .noScript emitted htool hscript

/-- An artifact of a unit that passes the check fails for a reason from outside. -/
theorem ArtifactFails.outside {save : Save (StateM σ)} {c : Compiler} {outDir : FilePath}
    {u : CompilationUnit} {a : Artifact} {s s' : σ} {e : BuildError}
    (h : ArtifactFails save c outDir u a s e s') (hcheck : recheck c.options u = .ok u.text) :
    OutsideFault save c outDir u e := by
  have htyped : c.typedText u = .ok u.text := by
    unfold Compiler.typedText
    rw [hcheck]
    rfl
  cases h with
  | unsaved _ text cause _ hs => exact .unwritable a text s s' cause hs
  | noText _ ht =>
    cases a with
    | typed =>
      have he : Except.ok u.text = Except.error e := htyped.symm.trans ht
      cases he
    | script => exact Compiler.script_outside htyped ht

namespace Pipeline

/-- **No fault of a build is a violation.** Under any preset and configuration, for units whose
    variable statements all have variables: every unit that is accepted passes the check before
    writing, with its text as it is. Every fault of a build is one from outside, of an accepted
    unit. -/
theorem build_never_violates (preset : Preset) (config : Config) (units : List CompilationUnit)
    (hdeclares : ∀ u ∈ units, ∀ v ∈ u.variableDecls, v.declarators ≠ [])
    (save : Save (StateM σ)) (outDir : FilePath) (targets : Targets) (s : σ) :
    let p := ofPreset preset config
    (∀ u ∈ p.validator.accepted units, recheck p.compiler.options u = .ok u.text) ∧
    ∀ f ∈ ((p.build save units outDir targets).run s).1.faults,
      (∀ cause, f.cause ≠ .violated cause) ∧
        ∃ u ∈ p.validator.accepted units, f.unit = u.path ∧
          OutsideFault save p.compiler outDir u f.cause := by
  intro p
  have hcheck : ∀ u ∈ p.validator.accepted units, recheck p.compiler.options u = .ok u.text :=
    fun u hu => Validator.recheck_of_accepted hu
      (hdeclares u (Validator.mem_accepted_iff.mp hu).1)
  refine ⟨hcheck, fun f hf => ?_⟩
  obtain ⟨u, hu, hunit, a, _, s₁, s₂, hfails⟩ := fails_of_mem_faults hf
  have houtside := hfails.outside (hcheck u hu)
  exact ⟨houtside.not_violated, u, hu, hunit, houtside⟩

/-- An entry class next to a variable. -/
def mixedUnit : CompilationUnit where
  path := ⟨"Main.javats"⟩
  text := "const limit = 1;\nclass Main \x7b public static main(): void \x7b\x7d \x7d\n"
  items :=
    [.variableItem ⟨⟨1, 1⟩, false, [⟨"limit", ⟨1, 7⟩⟩]⟩,
     .classItem ⟨some "Main", ⟨2, 1⟩, ⟨2, 7⟩, false, false, none, [],
      [.method ⟨"main", ⟨2, 14⟩, ⟨2, 28⟩, ⟨some .pub, true, false, false⟩, some "void", []⟩]⟩]

/-- With the rule against procedural code turned off, a variable is no violation; with a full
    disk, the unit has a fault nevertheless. -/
theorem build_never_violates_full_disk :
    let p := ofPreset .mature { rules := [("no-procedural-code", ⟨some false⟩)] }
    let full : Save (StateM Unit) := fun _ _ =>
      pure (.error (.other "No space left on device (os error 28)"))
    let r := ((p.build full [mixedUnit] ⟨"out"⟩ {}).run ()).1
    (∀ v ∈ mixedUnit.variableDecls, v.declarators ≠ []) ∧
      (p.validator.accepted [mixedUnit]).map (·.path.text) = ["Main.javats"] ∧
      (∀ u ∈ p.validator.accepted [mixedUnit], recheck p.compiler.options u = .ok u.text) ∧
      r.faults.map (·.unit.text) = ["Main.javats"] ∧
      ∀ f ∈ r.faults, ∀ cause, f.cause ≠ .violated cause := by
  intro p full r
  have hdeclares : ∀ v ∈ mixedUnit.variableDecls, v.declarators ≠ [] := by decide
  have h := build_never_violates .mature { rules := [("no-procedural-code", ⟨some false⟩)] }
    [mixedUnit] (List.forall_mem_singleton.mpr hdeclares) full ⟨"out"⟩ {} ()
  exact ⟨hdeclares, by decide +kernel, h.1, by decide +kernel, fun f hf => (h.2 f hf).1⟩

end Pipeline
end ClassScript
