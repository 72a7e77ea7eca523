/-
  File:      ClassScript/Emission/Initialization.lean
  Subject:   Parameters of a constructor that declare properties.

  A parameter with an access modifier or `readonly` is a property too. The
  constructor assigns it: right after the call of the constructor of the
  superclass, if that is the first statement, and else first of all.

  * `propertyParameters`: the names of these parameters;
  * `initialization`: the edit that assigns them.
-/
import ClassScript.Emission.Basic

namespace ClassScript.Emission

open Syntax (Source Tree)

/-- A parameter, by its kind. -/
def isParameter (t : Tree) : Bool := t.kind == .requiredParameter || t.kind == .optionalParameter

/-- A parameter declares a property. -/
def declaresProperty (t : Tree) : Bool :=
  t.children.any fun c => c.kind == .accessModifier || c.kind == .token "readonly"

/-- The names of the parameters that declare properties. -/
def propertyParameters (src : Source) (constructor_ : Tree) : List String :=
  match constructor_.part? .parameters with
  | some list =>
    ((list.named.filter isParameter).filter declaresProperty).filterMap (·.partText? src .pattern)
  | none => []

/-- A statement calls the constructor of the superclass. -/
def isSuperCall (statement : Tree) : Bool :=
  statement.kind == .expressionStatement &&
    match statement.named with
    | call :: _ =>
      call.kind == .callExpression && (call.part? .function).any (·.kind == .superRef)
    | [] => false

/-- The place where the body of a constructor assigns properties. -/
def initializationPlace (body : Tree) : Nat :=
  match body.named with
  | first :: _ => if isSuperCall first then first.stop else body.start + 1
  | [] => body.start + 1

/-- The assignments of properties, a line each. -/
def propertyAssignments (indent : String) (names : List String) : String :=
  String.join (names.map fun name => "\n" ++ indent ++ "this." ++ name ++ " = " ++ name ++ ";")

/-- The edit that assigns the properties that parameters of a constructor declare. -/
def initialization (src : Source) (constructor_ : Tree) : List Edit :=
  match propertyParameters src constructor_, constructor_.part? .body with
  | [], _ => []
  | _ :: _, none => []
  | names, some body =>
    [.insertion (initializationPlace body)
      (propertyAssignments (indentation src constructor_ ++ "    ") names)]

end ClassScript.Emission
