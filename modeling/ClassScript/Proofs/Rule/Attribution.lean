/-
  File:      ClassScript/Proofs/Rule/Attribution.lean
  Subject:   Whose diagnostic it is.

  Reports are grouped by file, filtered by rule and shown in the text of a
  file. All of this goes by what a diagnostic says of itself, so it has to be
  the code and the name of the rule that made it, the path of the file that
  was checked, and a place of something that the file declares. A rule about
  the whole file uses the file's first character.

  * `CompilationUnit.Records`: the places a file's declarations have;
  * `Attributed`: a diagnostic of a rule for a file;
  * `attributed_of_mem_check`: every diagnostic of every unit rule is one;
  * `catalogue_attributes`: the same of the whole catalogue, the project rule
    included.
-/
import ClassScript.Proofs.Validator

namespace ClassScript

/-! ## 1. Places -/

/-- A place that is kept of something the file declares. -/
inductive CompilationUnit.Records (u : CompilationUnit) : Position → Prop where
  | classDecl {c : ClassDecl} (hc : c ∈ u.classes) : Records u c.position
  | className {c : ClassDecl} (hc : c ∈ u.classes) : Records u c.namePosition
  | interface {i : InterfaceDecl} (hi : i ∈ u.interfaces) : Records u i.position
  | enum {e : NamedDecl} (he : e ∈ u.enums) : Records u e.position
  | function {f : FunctionDecl} (hf : f ∈ u.functions) : Records u f.position
  | declarator {v : VariableDecl} (hv : v ∈ u.variableDecls) {d : Declarator}
      (hd : d ∈ v.declarators) : Records u d.position
  | method {c : ClassDecl} (hc : c ∈ u.classes) {m : Method} (hm : m ∈ c.methods) :
      Records u m.position
  | methodName {c : ClassDecl} (hc : c ∈ u.classes) {m : Method} (hm : m ∈ c.methods) :
      Records u m.namePosition
  | property {c : ClassDecl} (hc : c ∈ u.classes) {p : Property} (hp : p ∈ c.properties) :
      Records u p.position
  | propertyName {c : ClassDecl} (hc : c ∈ u.classes) {p : Property} (hp : p ∈ c.properties) :
      Records u p.namePosition
  | parameter {c : ClassDecl} (hc : c ∈ u.classes) {m : Method} (hm : m ∈ c.methods)
      {p : Parameter} (hp : p ∈ m.parameters) : Records u p.position

/-- The diagnostic `d` says that the rule `info` made it for the file `u`, and where in it. -/
structure Attributed (info : RuleInfo) (u : CompilationUnit) (d : Diagnostic) : Prop where
  code : d.code = info.code
  rule : d.rule = info.name
  file : d.location.file = u.path
  place : d.location.position = .start ∨ u.Records d.location.position

namespace Rules

variable {info : RuleInfo} {loaded units : List CompilationUnit} {u : CompilationUnit}
  {message : String} {suggestion : Option String}

theorem attributed_at {p : Position} (h : u.Records p) :
    Attributed info u (info.report u.path p message suggestion) :=
  ⟨rfl, rfl, rfl, .inr h⟩

theorem attributed_start : Attributed info u (info.report u.path .start message suggestion) :=
  ⟨rfl, rfl, rfl, .inl rfl⟩

/-- A check with one diagnostic. -/
theorem attributed_demand {p : Prop} [Decidable p] {d : Diagnostic} (h : Attributed info u d) :
    ∀ e ∈ (if p then [] else [d]), Attributed info u e := by
  intro e he
  split at he
  · exact absurd he List.not_mem_nil
  · rwa [List.mem_singleton.mp he]

/-- The diagnostics of two checks. -/
theorem attributed_append {ds es : List Diagnostic} (hds : ∀ d ∈ ds, Attributed info u d)
    (hes : ∀ e ∈ es, Attributed info u e) : ∀ d ∈ ds ++ es, Attributed info u d := by
  intro d hd
  exact (List.mem_append.mp hd).elim (hds d) (hes d)

/-- A diagnostic for each of some parts of a file. -/
theorem attributed_map {α : Type} {f : α → Diagnostic} {as : List α}
    (h : ∀ a ∈ as, Attributed info u (f a)) : ∀ d ∈ as.map f, Attributed info u d := by
  intro d hd
  obtain ⟨a, ha, rfl⟩ := List.mem_map.mp hd
  exact h a ha

/-- Diagnostics for each of some parts of a file. -/
theorem attributed_flatMap {α : Type} {f : α → List Diagnostic} {as : List α}
    (h : ∀ a ∈ as, ∀ d ∈ f a, Attributed info u d) :
    ∀ d ∈ as.flatMap f, Attributed info u d := by
  intro d hd
  obtain ⟨a, ha, hda⟩ := List.mem_flatMap.mp hd
  exact h a ha d hda

/-! ## 2. The top level -/

theorem noProceduralCode_attributed :
    ∀ d ∈ noProceduralCode.check loaded u, Attributed noProceduralCodeInfo u d := by
  refine attributed_append ?_ ?_
  · exact attributed_map fun f hf => attributed_at (.function hf)
  · refine attributed_map fun d hd => ?_
    obtain ⟨v, hv, hdv⟩ := List.mem_flatMap.mp hd
    exact attributed_at (.declarator hv hdv)

theorem requireType_attributed :
    ∀ d ∈ requireType.check loaded u, Attributed requireTypeInfo u d :=
  attributed_demand attributed_start

theorem requireClass_attributed :
    ∀ d ∈ requireClass.check loaded u, Attributed requireClassInfo u d := by
  intro d hd
  change d ∈ if u.classes.isEmpty = true then [_] else [] at hd
  split at hd
  · rw [List.mem_singleton.mp hd]
    exact attributed_start
  · exact absurd hd List.not_mem_nil

theorem singlePublicClass_attributed :
    ∀ d ∈ singlePublicClass.check loaded u, Attributed singlePublicClassInfo u d := by
  have hclass : ∀ c ∈ u.classes.filter (·.exported), c ∈ u.classes :=
    fun c hc => (List.mem_filter.mp hc).1
  unfold singlePublicClass
  dsimp only
  cases hexported : u.classes.filter (·.exported) with
  | nil => exact fun d hd => absurd hd List.not_mem_nil
  | cons c surplus =>
    rw [hexported] at hclass
    cases surplus with
    | nil =>
      dsimp only
      cases c.name with
      | none => exact fun d hd => absurd hd List.not_mem_nil
      | some name =>
        exact attributed_demand (attributed_at (.classDecl (hclass c List.mem_cons_self)))
    | cons second rest =>
      exact attributed_map fun other hother =>
        attributed_at (.classDecl (hclass other (List.mem_cons_of_mem c hother)))

/-! ## 3. Names -/

theorem checkTypeName_attributed {name : String} {p : Position} (h : u.Records p) :
    ∀ d ∈ checkTypeName u name p, Attributed namingConventionInfo u d :=
  attributed_demand (attributed_at h)

theorem checkClassName_attributed {c : ClassDecl} (hc : c ∈ u.classes) :
    ∀ d ∈ checkClassName u c, Attributed namingConventionInfo u d := by
  unfold checkClassName
  cases c.name with
  | none => exact fun d hd => absurd hd List.not_mem_nil
  | some name => exact checkTypeName_attributed (.className hc)

theorem checkPropertyName_attributed {c : ClassDecl} (hc : c ∈ u.classes) {p : Property}
    (hp : p ∈ c.properties) :
    ∀ d ∈ checkPropertyName u p, Attributed namingConventionInfo u d := by
  unfold checkPropertyName
  dsimp only
  split
  · exact attributed_demand (attributed_at (.propertyName hc hp))
  · exact attributed_demand (attributed_at (.propertyName hc hp))

theorem checkMemberNames_attributed {c : ClassDecl} (hc : c ∈ u.classes) :
    ∀ d ∈ checkMemberNames u c, Attributed namingConventionInfo u d := by
  refine attributed_append ?_ ?_
  · exact attributed_flatMap fun m hm => attributed_demand (attributed_at (.methodName hc hm))
  · exact attributed_flatMap fun p hp => checkPropertyName_attributed hc hp

theorem namingConvention_attributed :
    ∀ d ∈ namingConvention.check loaded u, Attributed namingConventionInfo u d := by
  refine attributed_append (attributed_append (attributed_append ?_ ?_) ?_) ?_
  · exact attributed_flatMap fun c hc => checkClassName_attributed hc
  · exact attributed_flatMap fun i hi => checkTypeName_attributed (.interface hi)
  · exact attributed_flatMap fun e he => checkTypeName_attributed (.enum he)
  · exact attributed_flatMap fun c hc => checkMemberNames_attributed hc

/-! ## 4. Members -/

/-- A check of each member of each class that asks nothing of constructors and accessors. -/
theorem attributed_members {check : Member → List Diagnostic}
    (hinitializer : ∀ k, check (.initializer k) = []) (haccessor : ∀ a, check (.accessor a) = [])
    (hmethod : ∀ c ∈ u.classes, ∀ m ∈ c.methods, ∀ d ∈ check (.method m), Attributed info u d)
    (hproperty : ∀ c ∈ u.classes, ∀ p ∈ c.properties, ∀ d ∈ check (.property p),
      Attributed info u d) :
    ∀ d ∈ u.classes.flatMap (fun c => c.members.flatMap check), Attributed info u d := by
  refine attributed_flatMap fun c hc => attributed_flatMap ?_
  refine (ClassDecl.forall_members_iff (fun k d hd => ?_) fun a d hd => ?_).mpr
    ⟨hmethod c hc, hproperty c hc⟩
  · rw [hinitializer] at hd
    exact absurd hd List.not_mem_nil
  · rw [haccessor] at hd
    exact absurd hd List.not_mem_nil

theorem requireModifiers_attributed :
    ∀ d ∈ requireModifiers.check loaded u, Attributed requireModifiersInfo u d :=
  attributed_members (fun _ => rfl) (fun _ => rfl)
    (fun _ hc _ hm => attributed_demand (attributed_at (.method hc hm)))
    (fun _ hc _ hp => attributed_demand (attributed_at (.property hc hp)))

theorem checkSignature_attributed {c : ClassDecl} (hc : c ∈ u.classes) {m : Method}
    (hm : m ∈ c.methods) : ∀ d ∈ checkSignature u m, Attributed explicitTypingInfo u d := by
  refine attributed_append (attributed_demand (attributed_at (.method hc hm))) ?_
  exact attributed_map fun p hp =>
    attributed_at (.parameter hc hm (List.mem_filter.mp hp).1)

theorem explicitTyping_attributed :
    ∀ d ∈ explicitTyping.check loaded u, Attributed explicitTypingInfo u d :=
  attributed_members (fun _ => rfl) (fun _ => rfl)
    (fun _ hc _ hm => checkSignature_attributed hc hm)
    (fun _ hc _ hp => attributed_demand (attributed_at (.property hc hp)))

/-! ## 5. The entry point and interfaces -/

theorem mainModifier_attributed :
    ∀ d ∈ mainModifier.check loaded u, Attributed mainModifierInfo u d := by
  refine attributed_flatMap fun m hmain => ?_
  obtain ⟨c, hc, hm⟩ := List.mem_filterMap.mp hmain
  have hplace : u.Records m.position := .method hc (List.mem_of_find?_eq_some hm)
  exact attributed_append (attributed_demand (attributed_at hplace))
    (attributed_demand (attributed_at hplace))

theorem mainMethod_attributed : ∀ d ∈ mainMethod.check loaded u, Attributed mainMethodInfo u d :=
  attributed_demand attributed_start

theorem interfaceImplementation_attributed :
    ∀ d ∈ interfaceImplementation.check loaded u, Attributed interfaceImplementationInfo u d := by
  refine attributed_flatMap fun c hc => attributed_flatMap fun r _ => ?_
  unfold checkReference
  cases findInterface? loaded r.name with
  | none => exact fun d hd => absurd hd List.not_mem_nil
  | some i => exact attributed_map fun member _ => attributed_at (.classDecl hc)

end Rules

open Rules

/-! ## 6. The catalogue -/

/-- The unit rules of the catalogue. -/
theorem mem_allRules_unit_iff {r : UnitRule} :
    Rule.unit r ∈ allRules ↔
      r = noProceduralCode ∨ r = requireType ∨ r = requireClass ∨ r = singlePublicClass ∨
      r = namingConvention ∨ r = requireModifiers ∨ r = explicitTyping ∨ r = mainModifier ∨
      r = mainMethod ∨ r = interfaceImplementation := by
  simp only [allRules, List.mem_cons, List.not_mem_nil, Rule.unit.injEq, reduceCtorEq, or_false,
    false_or]

/-- There is one project rule. -/
theorem mem_allRules_project_iff {r : ProjectRule} :
    Rule.project r ∈ allRules ↔ r = projectMainMethod := by
  simp only [allRules, List.mem_cons, List.not_mem_nil, Rule.project.injEq, reduceCtorEq, or_false,
    false_or]

/-- The presets are made of rules of the catalogue. -/
theorem Preset.mem_allRules {preset : Preset} {r : Rule} (h : r ∈ preset.rules) :
    r ∈ allRules := by
  have hsubset : preset.rules ⊆ allRules := by
    cases preset <;> simp [rules, allRules]
  exact hsubset h

/-- **A diagnostic of a unit rule** says that this rule made it for the file that was checked. -/
theorem attributed_of_mem_check {r : UnitRule} (hr : Rule.unit r ∈ allRules)
    {loaded : List CompilationUnit} {u : CompilationUnit} {d : Diagnostic}
    (hd : d ∈ r.check loaded u) : Attributed r.info u d := by
  rcases mem_allRules_unit_iff.mp hr with
    rfl | rfl | rfl | rfl | rfl | rfl | rfl | rfl | rfl | rfl
  · exact noProceduralCode_attributed d hd
  · exact requireType_attributed d hd
  · exact requireClass_attributed d hd
  · exact singlePublicClass_attributed d hd
  · exact namingConvention_attributed d hd
  · exact requireModifiers_attributed d hd
  · exact explicitTyping_attributed d hd
  · exact mainModifier_attributed d hd
  · exact mainMethod_attributed d hd
  · exact interfaceImplementation_attributed d hd

/-- The diagnostic `d` says that the project rule `info` made it, for the first of the accepted
    files, or for no file if none was accepted. -/
structure AttributedToProject (info : RuleInfo) (accepted : List CompilationUnit)
    (d : Diagnostic) : Prop where
  code : d.code = info.code
  rule : d.rule = info.name
  first : ∀ u others, accepted = u :: others → d.location = .fileStart u.path
  nowhere : accepted = [] → d.location = .fileStart ⟨""⟩

theorem projectMainMethod_attributed (accepted : List CompilationUnit) :
    ∀ d ∈ projectMainMethod.check accepted,
      AttributedToProject projectMainMethodInfo accepted d := by
  intro d hd
  change d ∈ if accepted.any CompilationUnit.declaresEntryPoint = true then [] else [_] at hd
  split at hd
  · exact absurd hd List.not_mem_nil
  · rw [List.mem_singleton.mp hd]
    refine ⟨rfl, rfl, ?_, ?_⟩
    · rintro u others rfl
      rfl
    · rintro rfl
      rfl

theorem projectMainMethod_length_le (accepted : List CompilationUnit) :
    (projectMainMethod.check accepted).length ≤ 1 := by
  change (if accepted.any CompilationUnit.declaresEntryPoint = true then [] else [_]).length ≤ 1
  split
  · exact Nat.zero_le 1
  · exact Nat.le_refl 1

/-- **Every diagnostic of the catalogue can be attributed.** One of a unit rule carries the code
    and the name of that rule, the path of the file that was checked, and its first character or a
    place kept of something it declares. A project rule has at most one, with its own code and
    name, at the start of the first accepted file, or of the empty path if none was accepted. No
    two rules share a code or a name. -/
theorem catalogue_attributes :
    (∀ r, Rule.unit r ∈ allRules → ∀ loaded u, ∀ d ∈ r.check loaded u, Attributed r.info u d) ∧
      (∀ r, Rule.project r ∈ allRules → ∀ accepted, (r.check accepted).length ≤ 1 ∧
        ∀ d ∈ r.check accepted, AttributedToProject r.info accepted d) ∧
      (allRules.map Rule.code).Nodup ∧ (allRules.map Rule.name).Nodup := by
  refine ⟨fun r hr loaded u d hd => attributed_of_mem_check hr hd, fun r hr accepted => ?_,
    by decide, by decide⟩
  obtain rfl := mem_allRules_project_iff.mp hr
  exact ⟨projectMainMethod_length_le accepted, projectMainMethod_attributed accepted⟩

/-- A file with an untyped parameter of a method of its second class. -/
def untypedParameter : CompilationUnit where
  path := ⟨"src/Main.javats"⟩
  text := "class A\x7b\x7dclass B\x7bpublic f(x):void\x7b\x7d\x7d"
  items :=
    [.classItem ⟨some "A", ⟨1, 1⟩, ⟨1, 7⟩, false, false, none, [], []⟩,
      .classItem ⟨some "B", ⟨1, 10⟩, ⟨1, 16⟩, false, false, none, [],
        [.method ⟨"f", ⟨1, 18⟩, ⟨1, 25⟩, ⟨some .pub, false, false, false⟩, some "void",
          [⟨"x", ⟨1, 27⟩, none⟩]⟩]⟩]

/-- The parameter has its diagnostic at its own place, and the missing entry point has one at the
    start of the file that is accepted first. -/
theorem catalogue_attributes_untypedParameter :
    let here := untypedParameter
    let untyped := explicitTypingInfo.report here.path ⟨1, 27⟩
      "Parameter 'x' in method 'f' must have an explicit type"
    let missing := projectMainMethodInfo.report here.path .start
      "The project must declare at least one main() method."
    (explicitTyping.check [here] here = [untyped] ∧ Attributed explicitTypingInfo here untyped) ∧
      projectMainMethod.check [here] = [missing] ∧
        AttributedToProject projectMainMethodInfo [here] missing := by
  intro here untyped missing
  have hunit : Rule.unit explicitTyping ∈ allRules :=
    mem_allRules_unit_iff.mpr (by simp only [true_or, or_true])
  have hproject : Rule.project projectMainMethod ∈ allRules := mem_allRules_project_iff.mpr rfl
  have huntyped : explicitTyping.check [here] here = [untyped] := by decide +kernel
  have hmissing : projectMainMethod.check [here] = [missing] := by decide +kernel
  obtain ⟨hunits, hprojects, _⟩ := catalogue_attributes
  refine ⟨⟨huntyped, hunits explicitTyping hunit [here] here untyped ?_⟩, hmissing,
    (hprojects projectMainMethod hproject [here]).2 missing ?_⟩
  · rw [huntyped]
    exact List.mem_cons_self
  · rw [hmissing]
    exact List.mem_cons_self

end ClassScript
