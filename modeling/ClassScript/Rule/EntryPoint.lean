/-
  File:      ClassScript/Rule/EntryPoint.lean
  Subject:   Rules on the program's entry point.

  * `mainModifier`: a declared `main` is public and static;
  * `mainMethod`: every file has an entry class;
  * `projectMainMethod`: some accepted file has an entry class.
-/
import ClassScript.Rule.Basic

namespace ClassScript.Rules

def mainModifierInfo : RuleInfo :=
  ⟨"JT008", "main-modifier", "Requires main() to be public and static"⟩

/-- What the first `main` of a class lacks. -/
def checkMain (u : CompilationUnit) (m : Method) : List Diagnostic :=
  (if m.modifiers.isPublic then []
   else [mainModifierInfo.report u.path m.position "main() method must be declared as public"]) ++
  (if m.modifiers.isStatic then []
   else [mainModifierInfo.report u.path m.position "main() method must be declared as static"])

/-- Every class whose first `main` is not public, or not static. -/
def mainModifier : UnitRule where
  info := mainModifierInfo
  check _ u := (u.classes.filterMap ClassDecl.mainMethod?).flatMap (checkMain u)

def mainMethodInfo : RuleInfo :=
  ⟨"JT009", "main-method", "Requires each file to declare a public static main()"⟩

/-- Files without an entry class. -/
def mainMethod : UnitRule where
  info := mainMethodInfo
  check _ u :=
    if u.declaresEntryPoint then []
    else
      [mainMethodInfo.report u.path .start "At least one class must define a main() method"]

def projectMainMethodInfo : RuleInfo :=
  ⟨"JT010", "project-main-method", "Requires the project to declare a public static main()"⟩

/-- The file a diagnostic about the whole project is put on: the first one, or none at all. -/
def projectFile (units : List CompilationUnit) : FilePath :=
  (units.head?.map (·.path)).getD ⟨""⟩

/-- Projects without an entry class in any accepted file. -/
def projectMainMethod : ProjectRule where
  info := projectMainMethodInfo
  check units :=
    if units.any CompilationUnit.declaresEntryPoint then []
    else
      [projectMainMethodInfo.report (projectFile units) .start
        "The project must declare at least one main() method."]

end ClassScript.Rules
