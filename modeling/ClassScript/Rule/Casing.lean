/-
  File:      ClassScript/Rule/Casing.lean
  Subject:   The rule on letter case.

  Classes, interfaces and enums are `PascalCase`; methods and properties are
  `camelCase`; constants are `UPPER_SNAKE_CASE`. A leading `#` of a private
  name does not count.

  * `namingConvention`: the rule.
-/
import ClassScript.Rule.Basic
import ClassScript.Naming

namespace ClassScript.Rules

open ClassScript.Naming

def namingConventionInfo : RuleInfo :=
  ⟨"JT005", "naming-convention",
    "Enforces PascalCase types, camelCase members and UPPER_SNAKE_CASE constants"⟩

/-- A diagnostic that suggests another name. -/
def misspelled (u : CompilationUnit) (p : Position) (message better : String) : Diagnostic :=
  namingConventionInfo.report u.path p message s!"Rename to '{better}'"

/-- A member's name without its leading `#`. -/
def publicName (name : String) : String := String.ofList (name.toList.dropWhile (· = '#'))

/-- What is wrong with the name of a type. -/
def checkTypeName (u : CompilationUnit) (name : String) (p : Position) : List Diagnostic :=
  if isPascalCase name then []
  else [misspelled u p s!"Type name '{name}' must be in PascalCase." (toPascalCase name)]

/-- What is wrong with the name of a method. -/
def checkMethodName (u : CompilationUnit) (m : Method) : List Diagnostic :=
  let name := publicName m.name
  if isCamelCase name then []
  else
    [misspelled u m.namePosition s!"Method name '{name}' must be in camelCase."
      (toCamelCase name)]

/-- What is wrong with the name of a property. -/
def checkPropertyName (u : CompilationUnit) (p : Property) : List Diagnostic :=
  let name := publicName p.name
  if p.isConstant then
    if isUpperSnakeCase name then []
    else
      [misspelled u p.namePosition s!"Constant '{name}' must be in UPPER_SNAKE_CASE."
        (toUpperSnakeCase name)]
  else if isCamelCase name then []
  else
    [misspelled u p.namePosition s!"Property name '{name}' must be in camelCase."
      (toCamelCase name)]

/-- What is wrong with the name of a class; one without a name is never wrong. -/
def checkClassName (u : CompilationUnit) (c : ClassDecl) : List Diagnostic :=
  match c.name with
  | none => []
  | some name => checkTypeName u name c.namePosition

/-- What is wrong with the names in a class: its methods' first, then its properties'. -/
def checkMemberNames (u : CompilationUnit) (c : ClassDecl) : List Diagnostic :=
  c.methods.flatMap (checkMethodName u) ++ c.properties.flatMap (checkPropertyName u)

/-- The names of types, then those of members. -/
def namingConvention : UnitRule where
  info := namingConventionInfo
  check _ u :=
    u.classes.flatMap (checkClassName u) ++
      u.interfaces.flatMap (fun i => checkTypeName u i.name i.position) ++
      u.enums.flatMap (fun e => checkTypeName u e.name e.position) ++
      u.classes.flatMap (checkMemberNames u)

end ClassScript.Rules
