/-
  File:      ClassScript/Rule/Interfaces.lean
  Subject:   The rule on implemented interfaces.

  A class provides every member of the interfaces it implements. Interfaces
  are found by name among all loaded files, members are matched by name only,
  and a name that no loaded file declares is taken for an external type.

  * `interfaceImplementation`: the rule.
-/
import ClassScript.Rule.Basic

namespace ClassScript.Rules

def interfaceImplementationInfo : RuleInfo :=
  ⟨"JT011", "interface-implementation",
    "Requires classes to declare every member of implemented interfaces"⟩

/-- The diagnostic for a member of an interface that a class does not have. -/
def missingMember (u : CompilationUnit) (c : ClassDecl) (i : InterfaceDecl) (member : String) :
    Diagnostic :=
  interfaceImplementationInfo.report u.path c.position
    s!"Class '{c.displayName}' is missing '{member}' required by interface '{i.name}'."
    s!"Declare '{member}' in '{c.displayName}'"

/-- The members of `i` that `c` does not have. -/
def checkInterface (u : CompilationUnit) (c : ClassDecl) (i : InterfaceDecl) : List Diagnostic :=
  (i.memberNames.filter fun member => !c.hasMember member).map (missingMember u c i)

/-- The members `c` does not have of one of its interfaces. -/
def checkReference (loaded : List CompilationUnit) (u : CompilationUnit) (c : ClassDecl)
    (r : TypeRef) : List Diagnostic :=
  match findInterface? loaded r.name with
  | none => []
  | some i => checkInterface u c i

/-- Every member of an implemented interface that a class does not have. -/
def interfaceImplementation : UnitRule where
  info := interfaceImplementationInfo
  check loaded u :=
    u.classes.flatMap fun c => c.implemented.flatMap (checkReference loaded u c)

end ClassScript.Rules
