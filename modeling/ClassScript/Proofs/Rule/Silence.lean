/-
  File:      ClassScript/Proofs/Rule/Silence.lean
  Subject:   When a rule is silent.

  A rule has no diagnostic for a file exactly when the file has the shape that
  the rule is about. There is one theorem for each rule, and none of them
  speaks of diagnostics any more.

  * unit rules on the top level, on names, on members, on the entry point and
    on interfaces;
  * `projectMainMethod_eq_nil_iff`: the project rule.
-/
import ClassScript.Rule.Catalogue
import ClassScript.Proofs.Declaration
import ClassScript.Proofs.Naming.Pattern

namespace ClassScript.Rules

open ClassScript.Naming

variable {loaded units : List CompilationUnit} {u : CompilationUnit}

/-- A check with one diagnostic is silent exactly when what it asks for holds. -/
theorem demand_eq_nil_iff {p : Prop} [Decidable p] {d : Diagnostic} :
    (if p then [] else [d]) = [] ↔ p := by
  by_cases h : p
  · rw [if_pos h]
    exact iff_of_true rfl h
  · rw [if_neg h]
    exact iff_of_false (List.cons_ne_nil d []) h

/-! ## 1. The top level -/

/-- No functions, and no variables. -/
theorem noProceduralCode_eq_nil_iff :
    noProceduralCode.check loaded u = [] ↔
      u.functions = [] ∧ ∀ v ∈ u.variableDecls, v.declarators = [] := by
  show u.functions.map _ ++ (u.variableDecls.flatMap _).map _ = [] ↔ _
  rw [List.append_eq_nil_iff, List.map_eq_nil_iff, List.map_eq_nil_iff, List.flatMap_eq_nil_iff]

/-- Some type. -/
theorem requireType_eq_nil_iff :
    requireType.check loaded u = [] ↔
      u.classes ≠ [] ∨ u.interfaces ≠ [] ∨ u.enums ≠ [] ∨ u.aliases ≠ [] :=
  demand_eq_nil_iff.trans CompilationUnit.declaresType_iff

theorem misnamedFile_eq_nil_iff {c : ClassDecl} {name : String} :
    misnamedFile u c name = [] ↔ u.baseName = name ++ ".javats" := by
  have hexpected : s!"{name}.{sourceExtension}" = name ++ ".javats" := by
    show name ++ "." ++ "javats" = name ++ ".javats"
    rw [String.append_assoc]
    rfl
  unfold misnamedFile
  rw [hexpected]
  exact demand_eq_nil_iff

/-- At most one exported class, and the file is named like it. -/
theorem singlePublicClass_eq_nil_iff :
    singlePublicClass.check loaded u = [] ↔
      (u.classes.filter (·.exported)).length ≤ 1 ∧
        ∀ c name, u.classes.filter (·.exported) = [c] → c.name = some name →
          u.baseName = name ++ ".javats" := by
  unfold singlePublicClass
  dsimp only
  cases u.classes.filter (·.exported) with
  | nil =>
    refine iff_of_true rfl ⟨Nat.zero_le 1, fun c name h => ?_⟩
    exact absurd h (List.cons_ne_nil c []).symm
  | cons c surplus =>
    cases surplus with
    | nil =>
      dsimp only
      cases hname : c.name with
      | none =>
        refine iff_of_true rfl ⟨Nat.le_refl 1, fun d name hd hn => ?_⟩
        obtain rfl := (List.cons.inj hd).1
        rw [hname] at hn
        cases hn
      | some name =>
        constructor
        · intro h
          refine ⟨Nat.le_refl 1, fun d other hd hn => ?_⟩
          obtain rfl := (List.cons.inj hd).1
          rw [hname] at hn
          cases hn
          exact misnamedFile_eq_nil_iff.mp h
        · intro h
          obtain ⟨_, h⟩ := h
          exact misnamedFile_eq_nil_iff.mpr (h c name rfl hname)
    | cons d surplus =>
      refine iff_of_false (List.cons_ne_nil _ _) fun h => ?_
      have hlength : surplus.length + 2 ≤ 1 := h.1
      omega

/-! ## 2. Names -/

theorem checkTypeName_eq_nil_iff {name : String} {p : Position} :
    checkTypeName u name p = [] ↔ Fits pascalPattern name :=
  demand_eq_nil_iff.trans isPascalCase_iff

theorem checkClassName_eq_nil_iff {c : ClassDecl} :
    checkClassName u c = [] ↔ ∀ name, c.name = some name → Fits pascalPattern name := by
  unfold checkClassName
  cases c.name with
  | none => exact iff_of_true rfl fun name h => absurd h (Option.some_ne_none name).symm
  | some name =>
    rw [checkTypeName_eq_nil_iff]
    constructor
    · intro h other he
      cases he
      exact h
    · exact fun h => h name rfl

theorem checkMethodName_eq_nil_iff {m : Method} :
    checkMethodName u m = [] ↔ Fits camelPattern (publicName m.name) :=
  demand_eq_nil_iff.trans isCamelCase_iff

/-- Constants have their own letter case. -/
theorem checkPropertyName_eq_nil_iff {p : Property} :
    checkPropertyName u p = [] ↔
      ((p.modifiers.isStatic = true ∧ p.modifiers.isReadonly = true) →
        Fits upperSnakePattern (publicName p.name)) ∧
      (¬ (p.modifiers.isStatic = true ∧ p.modifiers.isReadonly = true) →
        Fits camelPattern (publicName p.name)) := by
  unfold checkPropertyName
  rw [← Property.isConstant_iff]
  by_cases h : p.isConstant = true
  · rw [if_pos h, demand_eq_nil_iff, isUpperSnakeCase_iff]
    exact ⟨fun hn => ⟨fun _ => hn, fun hc => absurd h hc⟩, fun hn => hn.1 h⟩
  · rw [if_neg h, demand_eq_nil_iff, isCamelCase_iff]
    exact ⟨fun hn => ⟨fun hc => absurd hc h, fun _ => hn⟩, fun hn => hn.2 h⟩

/-- Types, methods, properties and constants in their letter cases. -/
theorem namingConvention_eq_nil_iff :
    namingConvention.check loaded u = [] ↔
      (∀ c ∈ u.classes, ∀ name, c.name = some name → Fits pascalPattern name) ∧
      (∀ i ∈ u.interfaces, Fits pascalPattern i.name) ∧
      (∀ e ∈ u.enums, Fits pascalPattern e.name) ∧
      ∀ c ∈ u.classes, (∀ m ∈ c.methods, Fits camelPattern (publicName m.name)) ∧
        ∀ p ∈ c.properties,
          ((p.modifiers.isStatic = true ∧ p.modifiers.isReadonly = true) →
            Fits upperSnakePattern (publicName p.name)) ∧
          (¬ (p.modifiers.isStatic = true ∧ p.modifiers.isReadonly = true) →
            Fits camelPattern (publicName p.name)) := by
  show u.classes.flatMap (checkClassName u) ++ u.interfaces.flatMap _ ++ u.enums.flatMap _ ++
    u.classes.flatMap (checkMemberNames u) = [] ↔ _
  simp only [List.append_eq_nil_iff, List.flatMap_eq_nil_iff, checkMemberNames,
    checkClassName_eq_nil_iff, checkTypeName_eq_nil_iff, checkMethodName_eq_nil_iff,
    checkPropertyName_eq_nil_iff, and_assoc]

/-! ## 3. Members -/

/-- Every method and property has an access modifier. -/
theorem requireModifiers_eq_nil_iff :
    requireModifiers.check loaded u = [] ↔
      ∀ c ∈ u.classes, (∀ m ∈ c.methods, m.modifiers.visibility.isSome = true) ∧
        ∀ p ∈ c.properties, p.modifiers.visibility.isSome = true := by
  show (u.classes.flatMap fun c => c.members.flatMap (checkModifier u)) = [] ↔ _
  simp only [List.flatMap_eq_nil_iff]
  refine forall₂_congr fun c _ => ?_
  rw [ClassDecl.forall_members_iff (fun _ => rfl) fun _ => rfl]
  simp only [checkModifier, demand_eq_nil_iff]

theorem checkSignature_eq_nil_iff {m : Method} :
    checkSignature u m = [] ↔
      m.returnType.isSome = true ∧ ∀ p ∈ m.parameters, p.declaredType.isSome = true := by
  unfold checkSignature
  rw [List.append_eq_nil_iff, demand_eq_nil_iff, List.map_eq_nil_iff, List.filter_eq_nil_iff]
  simp only [Option.isNone_iff_eq_none, Option.isSome_iff_ne_none]

/-- Every method has a return type and typed parameters, and every property has a type. -/
theorem explicitTyping_eq_nil_iff :
    explicitTyping.check loaded u = [] ↔
      ∀ c ∈ u.classes,
        (∀ m ∈ c.methods, m.returnType.isSome = true ∧
          ∀ p ∈ m.parameters, p.declaredType.isSome = true) ∧
        ∀ p ∈ c.properties, p.declaredType.isSome = true := by
  show (u.classes.flatMap fun c => c.members.flatMap (checkTyping u)) = [] ↔ _
  simp only [List.flatMap_eq_nil_iff]
  refine forall₂_congr fun c _ => ?_
  rw [ClassDecl.forall_members_iff (fun _ => rfl) fun _ => rfl]
  simp only [checkTyping, checkSignature_eq_nil_iff, demand_eq_nil_iff]

/-! ## 4. The entry point -/

theorem checkMain_eq_nil_iff {m : Method} :
    checkMain u m = [] ↔ m.modifiers.visibility = some .pub ∧ m.modifiers.isStatic = true := by
  unfold checkMain
  rw [List.append_eq_nil_iff, demand_eq_nil_iff, demand_eq_nil_iff, Modifiers.isPublic_iff]

/-- The first `main` of each class is public and static. -/
theorem mainModifier_eq_nil_iff :
    mainModifier.check loaded u = [] ↔
      ∀ c ∈ u.classes, ∀ m, c.mainMethod? = some m →
        m.modifiers.visibility = some .pub ∧ m.modifiers.isStatic = true := by
  show (u.classes.filterMap ClassDecl.mainMethod?).flatMap (checkMain u) = [] ↔ _
  rw [List.flatMap_eq_nil_iff]
  simp only [List.mem_filterMap, checkMain_eq_nil_iff]
  constructor
  · exact fun h c hc m hm => h m ⟨c, hc, hm⟩
  · intro h m hfound
    obtain ⟨c, hc, hm⟩ := hfound
    exact h c hc m hm

/-- The file has an entry class. -/
theorem mainMethod_eq_nil_iff :
    mainMethod.check loaded u = [] ↔ u.declaresEntryPoint = true := demand_eq_nil_iff

/-- Some file has a class with a `public static` method `main`. -/
theorem projectMainMethod_eq_nil_iff :
    projectMainMethod.check units = [] ↔
      ∃ u ∈ units, ∃ c ∈ u.classes, ∃ m ∈ c.methods, m.name = "main" ∧
        m.modifiers.visibility = some .pub ∧ m.modifiers.isStatic = true := by
  refine demand_eq_nil_iff.trans ?_
  simp only [List.any_eq_true, CompilationUnit.declaresEntryPoint_iff]

/-! ## 5. Interfaces -/

theorem checkInterface_eq_nil_iff {c : ClassDecl} {i : InterfaceDecl} :
    checkInterface u c i = [] ↔ ∀ s ∈ i.members, ∃ m ∈ c.members, m.name? = some s.name := by
  unfold checkInterface
  rw [List.map_eq_nil_iff, List.filter_eq_nil_iff]
  simp only [Bool.not_eq_true', Bool.not_eq_false, ClassDecl.hasMember_iff,
    InterfaceDecl.mem_memberNames_iff]
  constructor
  · exact fun h s hs => h s.name ⟨s, hs, rfl⟩
  · intro h name hfound
    obtain ⟨s, hs, rfl⟩ := hfound
    exact h s hs

/-- Every member of an implemented interface is there, by its name. -/
theorem interfaceImplementation_eq_nil_iff :
    interfaceImplementation.check loaded u = [] ↔
      ∀ c ∈ u.classes, ∀ r ∈ c.implemented, ∀ i, findInterface? loaded r.name = some i →
        ∀ s ∈ i.members, ∃ m ∈ c.members, m.name? = some s.name := by
  show (u.classes.flatMap fun c => c.implemented.flatMap (checkReference loaded u c)) = [] ↔ _
  simp only [List.flatMap_eq_nil_iff]
  refine forall₂_congr fun c _ => forall₂_congr fun r _ => ?_
  unfold checkReference
  cases findInterface? loaded r.name with
  | none => exact iff_of_true rfl fun i h => absurd h (Option.some_ne_none i).symm
  | some i =>
    rw [checkInterface_eq_nil_iff]
    constructor
    · intro h other he
      cases he
      exact h
    · exact fun h => h i rfl

end ClassScript.Rules
