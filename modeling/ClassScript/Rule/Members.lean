/-
  File:      ClassScript/Rule/Members.lean
  Subject:   Rules on the members of classes.

  * `requireModifiers`: every method and property says who may use it;
  * `explicitTyping`: every method, parameter and property says its type.

  Constructors and accessors are free of both. No type is inferred: what is
  not written is missing.
-/
import ClassScript.Rule.Basic

namespace ClassScript.Rules

/-! ## 1. Access modifiers -/

def requireModifiersInfo : RuleInfo :=
  ⟨"JT006", "require-modifiers", "Requires explicit visibility on methods and properties"⟩

/-- The diagnostic for a member without access modifier. -/
def lacksModifier (u : CompilationUnit) (kind name : String) (p : Position) : Diagnostic :=
  requireModifiersInfo.report u.path p
    s!"{kind} '{name}' must have a visibility modifier (public, private, or protected)"
    s!"Add 'public' or 'private' to '{name}'"

/-- What a member lacks. -/
def checkModifier (u : CompilationUnit) : Member → List Diagnostic
  | .method m =>
    if m.modifiers.visibility.isSome then [] else [lacksModifier u "Method" m.name m.position]
  | .property p =>
    if p.modifiers.visibility.isSome then [] else [lacksModifier u "Property" p.name p.position]
  | .initializer _ => []
  | .accessor _ => []

/-- Every method and property without access modifier. -/
def requireModifiers : UnitRule where
  info := requireModifiersInfo
  check _ u := u.classes.flatMap fun c => c.members.flatMap (checkModifier u)

/-! ## 2. Type annotations -/

def explicitTypingInfo : RuleInfo :=
  ⟨"JT007", "explicit-typing", "Requires explicit return, parameter and property types"⟩

/-- What a method's signature lacks: the return type, then the types of parameters. -/
def checkSignature (u : CompilationUnit) (m : Method) : List Diagnostic :=
  (if m.returnType.isSome then []
   else
    [explicitTypingInfo.report u.path m.position
      s!"Method '{m.name}' must have an explicit return type"]) ++
  ((m.parameters.filter (·.declaredType.isNone)).map fun p =>
    explicitTypingInfo.report u.path p.position
      s!"Parameter '{p.name}' in method '{m.name}' must have an explicit type")

/-- What a member lacks. -/
def checkTyping (u : CompilationUnit) : Member → List Diagnostic
  | .method m => checkSignature u m
  | .property p =>
    if p.declaredType.isSome then []
    else
      [explicitTypingInfo.report u.path p.position
        s!"Property '{p.name}' must have an explicit type"]
  | .initializer _ => []
  | .accessor _ => []

/-- Every missing return, parameter and property type. -/
def explicitTyping : UnitRule where
  info := explicitTypingInfo
  check _ u := u.classes.flatMap fun c => c.members.flatMap (checkTyping u)

end ClassScript.Rules
