/-
  File:      ClassScript/Proofs/Rule/Mature.lean
  Subject:   What the mature preset accepts.

  The rules of the preset look at a file one after the other. What they let
  pass together is said here by what a file declares, from the outside in: the
  file, its classes, their methods and properties. No rule and no diagnostic
  occurs in it.

  * `IsUnmarked`: a name without the marks in front of it;
  * `MatureMethod`, `MatureProperty`, `MatureClass`, `MatureUnit`: the shape;
  * `Validator.checkUnitIn_mature_eq_nil_iff`: one file;
  * `Validator.checkAll_mature_eq_nil_iff`: a whole project.
-/
import ClassScript.Proofs.Rule.Silence
import ClassScript.Proofs.Text.Strip
import ClassScript.Proofs.Validator

namespace ClassScript

open ClassScript.Naming ClassScript.Rules

/-! ## 1. The shape of a file -/

/-- What is left of the name `whole` is `name` if all marks `#` in front of it are taken away. -/
def IsUnmarked (whole name : String) : Prop :=
  ∃ n, whole.toList = List.replicate n '#' ++ name.toList ∧ name.toList.head? ≠ some '#'

/-- A method with all that is asked for. -/
structure MatureMethod (m : Method) : Prop where
  named : ∀ name, IsUnmarked m.name name → Fits camelPattern name
  visible : m.modifiers.visibility.isSome = true
  returns : m.returnType.isSome = true
  typed : ∀ p ∈ m.parameters, p.declaredType.isSome = true

/-- A property with all that is asked for. -/
structure MatureProperty (p : Property) : Prop where
  constant : (p.modifiers.isStatic = true ∧ p.modifiers.isReadonly = true) →
    ∀ name, IsUnmarked p.name name → Fits upperSnakePattern name
  named : ¬ (p.modifiers.isStatic = true ∧ p.modifiers.isReadonly = true) →
    ∀ name, IsUnmarked p.name name → Fits camelPattern name
  visible : p.modifiers.visibility.isSome = true
  typed : p.declaredType.isSome = true

/-- A class with all that is asked for, when the files `loaded` are there. -/
structure MatureClass (loaded : List CompilationUnit) (c : ClassDecl) : Prop where
  named : ∀ name, c.name = some name → Fits pascalPattern name
  methods : ∀ m ∈ c.methods, MatureMethod m
  properties : ∀ p ∈ c.properties, MatureProperty p
  /-- The first `main` starts programs. -/
  main : ∀ before m after, c.methods = before ++ m :: after → m.name = "main" →
    (∀ n ∈ before, n.name ≠ "main") →
    m.modifiers.visibility = some .pub ∧ m.modifiers.isStatic = true
  /-- The last interface of a name that is implemented has its members here, whatever they are. -/
  implemented : ∀ r ∈ c.implemented, ∀ before i after,
    loaded.flatMap CompilationUnit.interfaces = before ++ i :: after → i.name = r.name →
    (∀ j ∈ after, j.name ≠ r.name) →
    ∀ s ∈ i.members, ∃ m ∈ c.members, m.name? = some s.name

/-- A file with all that is asked for, when the files `loaded` are there. -/
structure MatureUnit (loaded : List CompilationUnit) (u : CompilationUnit) : Prop where
  noFunction : ∀ f, Item.functionItem f ∉ u.items
  noVariable : ∀ v ∈ u.variableDecls, v.declarators = []
  someType : u.classes ≠ [] ∨ u.interfaces ≠ [] ∨ u.enums ≠ [] ∨ u.aliases ≠ []
  oneExported : (u.classes.filter (·.exported)).length ≤ 1
  baseName : ∀ c name, u.classes.filter (·.exported) = [c] → c.name = some name →
    u.baseName = name ++ ".javats"
  classes : ∀ c ∈ u.classes, MatureClass loaded c
  interfaces : ∀ i ∈ u.interfaces, Fits pascalPattern i.name
  enums : ∀ e ∈ u.enums, Fits pascalPattern e.name

/-- A name has one form without marks. -/
theorem isUnmarked_iff {whole name : String} :
    IsUnmarked whole name ↔ name = publicName whole := by
  have hname : name = publicName whole ↔ name.toList = whole.toList.dropWhile (· = '#') := by
    rw [publicName, ← String.toList_inj, String.toList_ofList]
  rw [hname]
  constructor
  · rintro ⟨n, hwhole, hhead⟩
    have hmarks : ∀ c ∈ List.replicate n '#', decide (c = '#') = true := fun c hc =>
      decide_eq_true (List.eq_of_mem_replicate hc)
    rw [hwhole, List.dropWhile_append_of_pos hmarks]
    refine (Text.dropWhile_of_head fun c hc => decide_eq_false fun he => hhead ?_).symm
    rw [← he]
    exact hc
  · intro hname
    have hmarks : ∀ c ∈ whole.toList.takeWhile (· = '#'), c = '#' := fun c hc =>
      of_decide_eq_true (List.all_eq_true.mp List.all_takeWhile c hc)
    refine ⟨(whole.toList.takeWhile (· = '#')).length, ?_, ?_⟩
    · rw [← List.eq_replicate_of_mem hmarks, hname, List.takeWhile_append_dropWhile]
    · intro hhead
      rw [hname] at hhead
      have hmark := List.head?_dropWhile_not (fun c => decide (c = '#')) whole.toList
      rw [hhead] at hmark
      exact absurd hmark (by decide)

/-- What is asked of the one form of a name without marks. -/
theorem forall_isUnmarked {whole : String} {p : String → Prop} :
    (∀ name, IsUnmarked whole name → p name) ↔ p (publicName whole) := by
  simp only [isUnmarked_iff, forall_eq]

theorem functions_eq_nil_iff {u : CompilationUnit} :
    u.functions = [] ↔ ∀ f, Item.functionItem f ∉ u.items := by
  rw [CompilationUnit.functions, List.filterMap_eq_nil_iff]
  constructor
  · exact fun h f hf => Option.some_ne_none f (h _ hf)
  · intro h item hitem
    cases item with
    | functionItem f => exact absurd hitem (h f)
    | _ => rfl

/-! ## 2. One file -/

/-- Nothing is turned off by default. -/
@[simp] theorem Config.enables_default (rule : String) : ({} : Config).enables rule = true := rfl

namespace Validator

variable {loaded units : List CompilationUnit} {u : CompilationUnit}

/-- The unit rules of the mature preset, one by one. -/
theorem checkUnitIn_mature_eq_nil_iff_rules :
    (ofPreset .mature {}).checkUnitIn loaded u = [] ↔
      noProceduralCode.check loaded u = [] ∧ requireType.check loaded u = [] ∧
      singlePublicClass.check loaded u = [] ∧ namingConvention.check loaded u = [] ∧
      requireModifiers.check loaded u = [] ∧ explicitTyping.check loaded u = [] ∧
      mainModifier.check loaded u = [] ∧ interfaceImplementation.check loaded u = [] := by
  rw [checkUnitIn_eq_nil_iff]
  simp only [ofPreset, Preset.rules, Config.enables_default, List.mem_cons, List.not_mem_nil,
    Rule.unit.injEq, reduceCtorEq, or_false, forall_const, forall_eq_or_imp, forall_eq]

/-- A class of a file that passes has the mature shape. -/
theorem matureClass_of_silent (h : (ofPreset .mature {}).checkUnitIn loaded u = []) {c : ClassDecl}
    (hc : c ∈ u.classes) : MatureClass loaded c := by
  obtain ⟨_, _, _, hnaming, hmodifiers, htyping, hmain, himplemented⟩ :=
    checkUnitIn_mature_eq_nil_iff_rules.mp h
  obtain ⟨hclasses, _, _, hmembers⟩ := namingConvention_eq_nil_iff.mp hnaming
  have hvisible := requireModifiers_eq_nil_iff.mp hmodifiers c hc
  have htyped := explicitTyping_eq_nil_iff.mp htyping c hc
  refine ⟨hclasses c hc, fun m hm => ?_, fun p hp => ?_, ?_, ?_⟩
  · obtain ⟨hreturns, hparameters⟩ := htyped.1 m hm
    exact ⟨forall_isUnmarked.mpr ((hmembers c hc).1 m hm), hvisible.1 m hm, hreturns,
      hparameters⟩
  · obtain ⟨hconstant, hnamed⟩ := (hmembers c hc).2 p hp
    exact ⟨fun h => forall_isUnmarked.mpr (hconstant h),
      fun h => forall_isUnmarked.mpr (hnamed h), hvisible.2 p hp, htyped.2 p hp⟩
  · intro before m after hsplit hm hbefore
    exact mainModifier_eq_nil_iff.mp hmain c hc m
      (ClassDecl.mainMethod?_eq_some_iff.mpr ⟨before, after, hsplit, hm, hbefore⟩)
  · intro r hr before i after hsplit hi hafter
    exact interfaceImplementation_eq_nil_iff.mp himplemented c hc r hr i
      (findInterface?_eq_some_iff.mpr ⟨before, after, hsplit, hi, hafter⟩)

/-- A file that passes has the mature shape. -/
theorem matureUnit_of_silent (h : (ofPreset .mature {}).checkUnitIn loaded u = []) :
    MatureUnit loaded u := by
  obtain ⟨hprocedural, htypes, hpublic, hnaming, _⟩ := checkUnitIn_mature_eq_nil_iff_rules.mp h
  obtain ⟨hfunctions, hvariables⟩ := noProceduralCode_eq_nil_iff.mp hprocedural
  obtain ⟨hexported, hbase⟩ := singlePublicClass_eq_nil_iff.mp hpublic
  obtain ⟨_, hinterfaces, henums, _⟩ := namingConvention_eq_nil_iff.mp hnaming
  exact ⟨functions_eq_nil_iff.mp hfunctions, hvariables, requireType_eq_nil_iff.mp htypes,
    hexported, hbase, fun c hc => matureClass_of_silent h hc, hinterfaces, henums⟩

/-- A file of the mature shape passes. -/
theorem silent_of_matureUnit (h : MatureUnit loaded u) :
    (ofPreset .mature {}).checkUnitIn loaded u = [] := by
  rw [checkUnitIn_mature_eq_nil_iff_rules, noProceduralCode_eq_nil_iff, requireType_eq_nil_iff,
    singlePublicClass_eq_nil_iff, namingConvention_eq_nil_iff, requireModifiers_eq_nil_iff,
    explicitTyping_eq_nil_iff, mainModifier_eq_nil_iff, interfaceImplementation_eq_nil_iff]
  have hmethod : ∀ c ∈ u.classes, ∀ m ∈ c.methods, MatureMethod m :=
    fun c hc => (h.classes c hc).methods
  have hproperty : ∀ c ∈ u.classes, ∀ p ∈ c.properties, MatureProperty p :=
    fun c hc => (h.classes c hc).properties
  refine ⟨⟨functions_eq_nil_iff.mpr h.noFunction, h.noVariable⟩, h.someType,
    ⟨h.oneExported, h.baseName⟩,
    ⟨fun c hc => (h.classes c hc).named, h.interfaces, h.enums, fun c hc => ⟨?_, ?_⟩⟩,
    fun c hc => ⟨?_, ?_⟩, fun c hc => ⟨?_, ?_⟩, fun c hc m hm => ?_, fun c hc r hr i hi => ?_⟩
  · exact fun m hm => forall_isUnmarked.mp (hmethod c hc m hm).named
  · exact fun p hp => ⟨fun hconst => forall_isUnmarked.mp ((hproperty c hc p hp).constant hconst),
      fun hplain => forall_isUnmarked.mp ((hproperty c hc p hp).named hplain)⟩
  · exact fun m hm => (hmethod c hc m hm).visible
  · exact fun p hp => (hproperty c hc p hp).visible
  · exact fun m hm => ⟨(hmethod c hc m hm).returns, (hmethod c hc m hm).typed⟩
  · exact fun p hp => (hproperty c hc p hp).typed
  · obtain ⟨before, after, hsplit, hmain, hbefore⟩ := ClassDecl.mainMethod?_eq_some_iff.mp hm
    exact (h.classes c hc).main before m after hsplit hmain hbefore
  · obtain ⟨before, after, hsplit, hname, hafter⟩ := findInterface?_eq_some_iff.mp hi
    exact (h.classes c hc).implemented r hr before i after hsplit hname hafter

/-- **A file passes the mature rules** exactly when it has the mature shape. -/
theorem checkUnitIn_mature_eq_nil_iff :
    (ofPreset .mature {}).checkUnitIn loaded u = [] ↔ MatureUnit loaded u :=
  ⟨matureUnit_of_silent, silent_of_matureUnit⟩

/-! ## 3. A project -/

/-- The project rules of the mature preset: there is an entry point. -/
theorem checkProject_mature_eq_nil_iff :
    (ofPreset .mature {}).checkProject units = [] ↔ projectMainMethod.check units = [] := by
  rw [checkProject_eq_nil_iff]
  simp only [ofPreset, Preset.rules, Config.enables_default, List.mem_cons, List.not_mem_nil,
    Rule.project.injEq, reduceCtorEq, false_or, or_false, forall_const, forall_eq]

/-- **What the mature preset accepts**: a project has no diagnostic exactly when every file has
    the mature shape among all of them, and some class of a file starts the program with a
    `public static` method `main`. -/
theorem checkAll_mature_eq_nil_iff (units : List CompilationUnit) :
    ((ofPreset .mature {}).checkAll units).diagnostics = [] ↔
      (∀ u ∈ units, MatureUnit units u) ∧
        ∃ u ∈ units, ∃ c ∈ u.classes, ∃ m ∈ c.methods, m.name = "main" ∧
          m.modifiers.visibility = some .pub ∧ m.modifiers.isStatic = true := by
  rw [checkAll_eq_nil_iff, checkProject_mature_eq_nil_iff, projectMainMethod_eq_nil_iff]
  simp only [checkUnitIn_mature_eq_nil_iff]

/-- A file that is nothing but an entry class. -/
example :
    ((ofPreset .mature {}).checkAll
      [⟨⟨"Main.javats"⟩, "",
        [.classItem ⟨some "Main", .start, .start, true, false, none, [],
          [.method ⟨"main", .start, .start, ⟨some .pub, true, false, false⟩, some "void", []⟩]⟩]⟩]
      ).diagnostics = [] := by decide +kernel

end Validator
end ClassScript
