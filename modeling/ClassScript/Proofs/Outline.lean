/-
  File:      ClassScript/Proofs/Outline.lean
  Subject:   An outline tells what the rules will say.

  The outline of a file and the rules go through the same declarations apart
  from each other. They agree all the same: from the outline alone one can
  tell which names are reported at the top level, how many members lack an
  access modifier or a type, and what is said of each `main`.

  Rules go through the members of a class in source order, where methods and
  properties stand in between each other; an outline lists the methods and then
  the properties. Counting does not see the difference (`countP_members`).

  * `strayName?`: the name in a message about a top-level declaration;
  * `requireModifiers_length`, `explicitTyping_countP`: the two counts;
  * `mainModifier_messages`: the messages on `main`, class by class;
  * `outline_foretells`: all of it for any file.
-/
import Mathlib.Data.List.Basic
import ClassScript.Outline
import ClassScript.Rule.Structure
import ClassScript.Rule.Members
import ClassScript.Rule.EntryPoint
import ClassScript.Proofs.Declaration
import ClassScript.Proofs.Text.FilePath
import ClassScript.Proofs.Text.Strip

namespace ClassScript

open Rules

variable {loaded : List CompilationUnit} {u : CompilationUnit}

/-! ## 1. Names at the top level -/

/-- A message about a top-level declaration: what stands before its name, and the name. -/
def strayMessage (head name : String) : String :=
  head ++ (name ++ "' must be declared inside a class")

/-- The name in a message about a top-level declaration. -/
def strayName? (message : String) : Option String :=
  ((Text.dropHead? "Function '" message).or (Text.dropHead? "Variable '" message)).bind
    (Text.dropTail? "' must be declared inside a class")

theorem strayName?_function (name : String) :
    strayName? (strayMessage "Function '" name) = some name := by
  unfold strayName? strayMessage
  rw [Text.dropHead?_eq_some_iff.mpr rfl, Option.some_or, Option.bind_some,
    Text.dropTail?_eq_some_iff.mpr rfl]

theorem strayName?_variable (name : String) :
    strayName? (strayMessage "Variable '" name) = some name := by
  have hfunction : Text.dropHead? "Function '" (strayMessage "Variable '" name) = none := by
    unfold strayMessage Text.dropHead?
    simp
  unfold strayName?
  rw [hfunction, Option.none_or]
  unfold strayMessage
  rw [Text.dropHead?_eq_some_iff.mpr rfl, Option.bind_some, Text.dropTail?_eq_some_iff.mpr rfl]

/-- **The messages on top-level declarations**: on the functions of the outline, then on its
    variables. -/
theorem noProceduralCode_messages :
    (noProceduralCode.check loaded u).map (·.message) =
      (Outline.ofUnit u).topLevelFunctions.map (strayMessage "Function '") ++
        (Outline.ofUnit u).topLevelVariables.map (strayMessage "Variable '") := by
  have hfunctions : (u.functions.map (straysFunction u)).map (·.message) =
      (u.functions.map FunctionDecl.displayName).map (strayMessage "Function '") := by
    rw [List.map_map, List.map_map]
    exact List.map_congr_left fun f _ => String.append_assoc
  have hvariables : ((u.variableDecls.flatMap (·.declarators)).map (straysVariable u)).map
      (·.message) =
      (u.variableDecls.flatMap fun v => v.declarators.map (·.name)).map
        (strayMessage "Variable '") := by
    rw [← List.map_flatMap, List.map_map, List.map_map]
    exact List.map_congr_left fun d _ => String.append_assoc
  show (_ ++ _ : List Diagnostic).map _ = _
  rw [List.map_append, hfunctions, hvariables]
  rfl

/-- Each of these messages gives back its name. -/
theorem noProceduralCode_names :
    (noProceduralCode.check loaded u).map (fun d => strayName? d.message) =
      ((Outline.ofUnit u).topLevelFunctions ++ (Outline.ofUnit u).topLevelVariables).map some := by
  calc (noProceduralCode.check loaded u).map (fun d => strayName? d.message)
    _ = ((noProceduralCode.check loaded u).map (·.message)).map strayName? := by
      rw [List.map_map]
      rfl
    _ = _ := by
      rw [noProceduralCode_messages, List.map_append, List.map_append, List.map_map, List.map_map]
      exact congrArg₂ (· ++ ·) (List.map_congr_left fun name _ => strayName?_function name)
        (List.map_congr_left fun name _ => strayName?_variable name)

/-! ## 2. Members -/

/-- All methods of an outline. -/
def Outline.methods (o : Outline) : List MethodOutline := o.classes.flatMap (·.methods)

/-- All properties of an outline. -/
def Outline.properties (o : Outline) : List PropertyOutline := o.classes.flatMap (·.properties)

/-- The members of all classes, in source order. -/
def CompilationUnit.classMembers (u : CompilationUnit) : List Member :=
  u.classes.flatMap (·.members)

theorem Outline.methods_ofUnit (u : CompilationUnit) :
    (Outline.ofUnit u).methods =
      (u.classMembers.filterMap Member.method?).map MethodOutline.ofMethod := by
  show (u.classes.map ClassOutline.ofClass).flatMap (·.methods) = _
  unfold CompilationUnit.classMembers
  rw [List.flatMap_map, List.filterMap_flatMap, List.map_flatMap]
  rfl

theorem Outline.properties_ofUnit (u : CompilationUnit) :
    (Outline.ofUnit u).properties =
      (u.classMembers.filterMap Member.property?).map PropertyOutline.ofProperty := by
  show (u.classes.map ClassOutline.ofClass).flatMap (·.properties) = _
  unfold CompilationUnit.classMembers
  rw [List.flatMap_map, List.filterMap_flatMap, List.map_flatMap]
  rfl

/-- **Counting member by member**: what a check finds in methods and properties that stand in
    between each other is what it finds in the methods, and what it finds in the properties. -/
theorem countP_members {check : Member → List Diagnostic} {counts : Diagnostic → Bool}
    {lacksMethod : Method → Bool} {lacksProperty : Property → Bool}
    (hmethod : ∀ m, (check (.method m)).countP counts = if lacksMethod m then 1 else 0)
    (hproperty : ∀ p, (check (.property p)).countP counts = if lacksProperty p then 1 else 0)
    (hinitializer : ∀ k, check (.initializer k) = []) (haccessor : ∀ a, check (.accessor a) = [])
    (members : List Member) :
    (members.flatMap check).countP counts =
      (members.filterMap Member.method?).countP lacksMethod +
        (members.filterMap Member.property?).countP lacksProperty := by
  induction members with
  | nil => rfl
  | cons member members ih =>
    rw [List.flatMap_cons, List.countP_append, ih]
    cases member with
    | method m =>
      simp only [List.filterMap_cons, Member.method?, Member.property?, List.countP_cons]
      rw [hmethod]
      omega
    | property p =>
      simp only [List.filterMap_cons, Member.method?, Member.property?, List.countP_cons]
      rw [hproperty]
      omega
    | initializer k =>
      rw [hinitializer]
      exact Nat.zero_add _
    | accessor a =>
      rw [haccessor]
      exact Nat.zero_add _

/-- **How many access modifiers are missing.** -/
theorem requireModifiers_length :
    (requireModifiers.check loaded u).length =
      (Outline.ofUnit u).methods.countP (·.visibility.isNone) +
        (Outline.ofUnit u).properties.countP (·.visibility.isNone) := by
  have hcheck : requireModifiers.check loaded u = u.classMembers.flatMap (checkModifier u) :=
    List.flatMap_assoc.symm
  rw [hcheck, ← List.countP_true, Outline.methods_ofUnit, Outline.properties_ofUnit,
    List.countP_map, List.countP_map]
  refine countP_members (fun m => ?_) (fun p => ?_) (fun _ => rfl) (fun _ => rfl) _
  · cases h : m.modifiers.visibility <;> simp [checkModifier, MethodOutline.ofMethod, h]
  · cases h : p.modifiers.visibility <;> simp [checkModifier, PropertyOutline.ofProperty, h]

/-- The message is about a parameter of a method, and not about a method or property. -/
def isAboutParameter (message : String) : Bool := (Text.dropHead? "Parameter '" message).isSome

theorem isAboutParameter_append (rest : String) : isAboutParameter ("Parameter '" ++ rest) = true :=
  Option.isSome_iff_exists.mpr ⟨rest, Text.dropHead?_eq_some_iff.mpr rfl⟩

theorem isAboutParameter_method (rest : String) :
    isAboutParameter ("Method '" ++ rest) = false := by
  unfold isAboutParameter Text.dropHead?
  simp

theorem isAboutParameter_property (rest : String) :
    isAboutParameter ("Property '" ++ rest) = false := by
  unfold isAboutParameter Text.dropHead?
  simp

/-- A method adds what its return type lacks; its parameters do not count here. -/
theorem checkSignature_countP (m : Method) :
    (checkSignature u m).countP (fun d => !isAboutParameter d.message) =
      if m.returnType.isNone then 1 else 0 := by
  have hparameter (p : Parameter) :
      isAboutParameter s!"Parameter '{p.name}' in method '{m.name}' must have an explicit type" =
        true := by
    simp only [toString, String.append_assoc]
    exact isAboutParameter_append _
  have hmethod :
      isAboutParameter s!"Method '{m.name}' must have an explicit return type" = false := by
    simp only [toString, String.append_assoc]
    exact isAboutParameter_method _
  unfold checkSignature
  rw [List.countP_append, List.countP_map]
  simp only [Function.comp_def, RuleInfo.report, hparameter]
  cases m.returnType <;> simp [hmethod]

/-- **How many return and property types are missing.** -/
theorem explicitTyping_countP :
    (explicitTyping.check loaded u).countP (fun d => !isAboutParameter d.message) =
      (Outline.ofUnit u).methods.countP (·.returnType.isNone) +
        (Outline.ofUnit u).properties.countP (·.declaredType.isNone) := by
  have hproperty (p : Property) :
      isAboutParameter s!"Property '{p.name}' must have an explicit type" = false := by
    simp only [toString, String.append_assoc]
    exact isAboutParameter_property _
  have hcheck : explicitTyping.check loaded u = u.classMembers.flatMap (checkTyping u) :=
    List.flatMap_assoc.symm
  rw [hcheck, Outline.methods_ofUnit, Outline.properties_ofUnit, List.countP_map, List.countP_map]
  refine countP_members (fun m => checkSignature_countP m) (fun p => ?_) (fun _ => rfl)
    (fun _ => rfl) _
  cases h : p.declaredType <;>
    simp [checkTyping, RuleInfo.report, PropertyOutline.ofProperty, hproperty, h]

/-! ## 3. The entry point -/

/-- What is said of the `main` of a class, as far as its outline goes. -/
def ClassOutline.mainMessages (c : ClassOutline) : List String :=
  (if c.hasMain && !c.mainIsPublic then ["main() method must be declared as public"] else []) ++
  (if c.hasMain && !c.mainIsStatic then ["main() method must be declared as static"] else [])

theorem checkMain_messages (c : ClassDecl) :
    (c.mainMethod?.toList.flatMap (checkMain u)).map (·.message) =
      (ClassOutline.ofClass c).mainMessages := by
  unfold ClassOutline.mainMessages ClassOutline.ofClass
  cases c.mainMethod? with
  | none => rfl
  | some m =>
    rw [Option.toList_some, List.flatMap_singleton]
    unfold checkMain
    rw [List.map_append]
    cases hpublic : m.modifiers.isPublic <;> cases hstatic : m.modifiers.isStatic <;>
      simp [RuleInfo.report, hpublic, hstatic]

/-- **The messages on `main`**, class by class. -/
theorem mainModifier_messages :
    (mainModifier.check loaded u).map (·.message) =
      (Outline.ofUnit u).classes.flatMap ClassOutline.mainMessages := by
  show ((u.classes.filterMap ClassDecl.mainMethod?).flatMap (checkMain u)).map (·.message) =
    (u.classes.map ClassOutline.ofClass).flatMap ClassOutline.mainMessages
  rw [List.filterMap_eq_flatMap_toList, List.flatMap_assoc, List.map_flatMap, List.flatMap_map]
  simp only [checkMain_messages]

/-- A class whose first `main` is public and static is an entry class. -/
theorem ClassDecl.isEntry_of_outline {c : ClassDecl}
    (hmain : (ClassOutline.ofClass c).hasMain = true)
    (hpublic : (ClassOutline.ofClass c).mainIsPublic = true)
    (hstatic : (ClassOutline.ofClass c).mainIsStatic = true) : c.isEntry = true := by
  obtain ⟨m, hm⟩ := Option.isSome_iff_exists.mp hmain
  replace hpublic : c.mainMethod?.any (·.modifiers.isPublic) = true := hpublic
  replace hstatic : c.mainMethod?.any (·.modifiers.isStatic) = true := hstatic
  rw [hm] at hpublic hstatic
  obtain ⟨before, after, hmethods, hname, -⟩ := ClassDecl.mainMethod?_eq_some_iff.mp hm
  refine ClassDecl.isEntry_iff.mpr ⟨m, ?_, hname, Modifiers.isPublic_iff.mp hpublic, hstatic⟩
  rw [hmethods]
  exact List.mem_append_right before List.mem_cons_self

/-! ## 4. Any file -/

/-- **The outline of a file tells what the rules will say.** Whatever else is loaded: the names
    in the diagnostics on top-level code are those of the functions and then of the variables of
    the outline, in order. As many access modifiers are missing as methods and properties have
    none; and as many types besides those of parameters as methods have no return type, and
    properties no type. Each class in order has the message on a `main` that is not public, and
    then the one on a `main` that is not static. A class with a public and static `main` is an
    entry class. -/
theorem outline_foretells (loaded : List CompilationUnit) (u : CompilationUnit) :
    let o := Outline.ofUnit u
    (noProceduralCode.check loaded u).map (fun d => strayName? d.message) =
        (o.topLevelFunctions ++ o.topLevelVariables).map some ∧
      (noProceduralCode.check loaded u).map (·.message) =
        o.topLevelFunctions.map (strayMessage "Function '") ++
          o.topLevelVariables.map (strayMessage "Variable '") ∧
      (requireModifiers.check loaded u).length =
        o.methods.countP (·.visibility.isNone) + o.properties.countP (·.visibility.isNone) ∧
      (explicitTyping.check loaded u).countP (fun d => !isAboutParameter d.message) =
        o.methods.countP (·.returnType.isNone) + o.properties.countP (·.declaredType.isNone) ∧
      (mainModifier.check loaded u).map (·.message) =
        (o.classes.flatMap fun c =>
          (if c.hasMain && !c.mainIsPublic then
            ["main() method must be declared as public"] else []) ++
          (if c.hasMain && !c.mainIsStatic then
            ["main() method must be declared as static"] else [])) ∧
      o.classes = u.classes.map ClassOutline.ofClass ∧
      ∀ c ∈ u.classes, (ClassOutline.ofClass c).hasMain = true →
        (ClassOutline.ofClass c).mainIsPublic = true →
        (ClassOutline.ofClass c).mainIsStatic = true → c.isEntry = true :=
  ⟨noProceduralCode_names, noProceduralCode_messages, requireModifiers_length,
    explicitTyping_countP, mainModifier_messages, rfl,
    fun _ _ hmain hpublic hstatic => ClassDecl.isEntry_of_outline hmain hpublic hstatic⟩

/-- A method without parameters. -/
def bareMethod (name : String) (visibility : Option Visibility) (isStatic : Bool)
    (returnType : Option String) : Member :=
  .method ⟨name, ⟨1, 1⟩, ⟨1, 1⟩, { visibility := visibility, isStatic := isStatic }, returnType, []⟩

/-- A class without a name, whose first `main` of three is public and static, and a class whose
    first `main` of two is neither. Properties stand in between the methods, and a function
    without a name stands before a variable. -/
def mixedFile : CompilationUnit where
  path := ⟨"Main.javats"⟩
  text := ""
  items :=
    [.classItem ⟨none, ⟨1, 1⟩, ⟨1, 1⟩, true, false, none, [],
        [bareMethod "main" (some .pub) true none,
          .property ⟨"total", ⟨1, 1⟩, ⟨1, 1⟩, {}, none⟩,
          bareMethod "main" none false (some "void"), bareMethod "main" (some .priv) true none]⟩,
      .variableItem ⟨⟨1, 1⟩, false, [⟨"'x'", ⟨1, 1⟩⟩]⟩,
      .functionItem ⟨none, ⟨1, 1⟩, true⟩,
      .classItem ⟨some "Other", ⟨1, 1⟩, ⟨1, 1⟩, false, false, none, [],
        [bareMethod "main" none false none, bareMethod "main" (some .pub) true none]⟩]

/-- The nameless class is an entry class; the other one has both messages on its first `main`, and
    the name of the variable is read with its quotes. -/
theorem outline_foretells_mixed :
    (noProceduralCode.check [] mixedFile).map (fun d => strayName? d.message) =
        [some "anonymous", some "'x'"] ∧
      (requireModifiers.check [] mixedFile).length = 3 ∧
      (explicitTyping.check [] mixedFile).countP (fun d => !isAboutParameter d.message) = 5 ∧
      (mainModifier.check [] mixedFile).map (·.message) =
        ["main() method must be declared as public", "main() method must be declared as static"] ∧
      ∃ c ∈ mixedFile.classes, c.name = none ∧ (ClassOutline.ofClass c).hasMain = true ∧
        (ClassOutline.ofClass c).mainIsPublic = true ∧
        (ClassOutline.ofClass c).mainIsStatic = true ∧ c.isEntry = true := by
  obtain ⟨hnames, -, hmodifiers, htypes, hmessages, -, hentry⟩ := outline_foretells [] mixedFile
  refine ⟨hnames.trans (by decide), hmodifiers.trans (by decide), htypes.trans (by decide),
    hmessages.trans (by decide), _, List.mem_cons_self, rfl, rfl, rfl, rfl, ?_⟩
  exact hentry _ List.mem_cons_self rfl rfl rfl

end ClassScript
