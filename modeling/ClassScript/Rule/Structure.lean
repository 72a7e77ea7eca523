/-
  File:      ClassScript/Rule/Structure.lean
  Subject:   Rules on what a file may declare at its top level.

  * `noProceduralCode`: no functions and no variables outside of classes;
  * `requireType`, `requireClass`: some type, or some class, in each file;
  * `singlePublicClass`: one exported class per file, named like the file.
-/
import ClassScript.Rule.Basic

namespace ClassScript.Rules

/-! ## 1. Behaviour lives in classes -/

def noProceduralCodeInfo : RuleInfo :=
  ⟨"JT001", "no-procedural-code", "Forbids top-level functions and variables"⟩

/-- The diagnostic for a top-level function. -/
def straysFunction (u : CompilationUnit) (f : FunctionDecl) : Diagnostic :=
  noProceduralCodeInfo.report u.path f.position
    s!"Function '{f.displayName}' must be declared inside a class"

/-- The diagnostic for a top-level variable. -/
def straysVariable (u : CompilationUnit) (d : Declarator) : Diagnostic :=
  noProceduralCodeInfo.report u.path d.position
    s!"Variable '{d.name}' must be declared inside a class"

/-- Every top-level function, then every top-level variable. -/
def noProceduralCode : UnitRule where
  info := noProceduralCodeInfo
  check _ u :=
    u.functions.map (straysFunction u) ++
      (u.variableDecls.flatMap (·.declarators)).map (straysVariable u)

/-! ## 2. Something must be declared -/

def requireTypeInfo : RuleInfo :=
  ⟨"JT002", "require-type", "Requires each file to declare at least one type"⟩

/-- Files without a class, interface, enum or type alias. -/
def requireType : UnitRule where
  info := requireTypeInfo
  check _ u :=
    if u.declaresType then []
    else
      [requireTypeInfo.report u.path .start
        "File must declare at least one type (class, interface, enum or type alias)."]

def requireClassInfo : RuleInfo :=
  ⟨"JT003", "require-class", "Requires each file to declare at least one class"⟩

/-- Files without a class. -/
def requireClass : UnitRule where
  info := requireClassInfo
  check _ u :=
    if u.classes.isEmpty then
      [requireClassInfo.report u.path .start "File must contain at least one class"]
    else []

/-! ## 3. One exported class per file -/

def singlePublicClassInfo : RuleInfo :=
  ⟨"JT004", "single-public-class", "Allows one exported class per file, named after the file"⟩

/-- The diagnostic for an exported class that is not the first one. -/
def surplusClass (u : CompilationUnit) (c : ClassDecl) : Diagnostic :=
  singlePublicClassInfo.report u.path c.position
    s!"Class '{c.displayName}' is exported, but a file may declare only one exported class."
    s!"Move '{c.displayName}' into its own file"

/-- The diagnostic for a file that is not named like its exported class `name`. -/
def misnamedFile (u : CompilationUnit) (c : ClassDecl) (name : String) : List Diagnostic :=
  let expected := s!"{name}.{sourceExtension}"
  if u.baseName = expected then []
  else
    [singlePublicClassInfo.report u.path c.position
      s!"File name must match the exported class: expected '{expected}'."
      s!"Rename the file to '{expected}'"]

/-- Of several exported classes all but the first; of one with a name, a file of another name. -/
def singlePublicClass : UnitRule where
  info := singlePublicClassInfo
  check _ u :=
    match u.classes.filter (·.exported) with
    | [] => []
    | [c] =>
      match c.name with
      | none => []
      | some name => misnamedFile u c name
    | _ :: surplus => surplus.map (surplusClass u)

end ClassScript.Rules
