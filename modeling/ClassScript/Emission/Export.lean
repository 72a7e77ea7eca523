/-
  File:      ClassScript/Emission/Export.lean
  Subject:   Exports as assignments to `exports`.

  A declaration that is exported stays, and an assignment follows it for each
  name it binds. A list of names becomes assignments alone.

  * `boundNames`: the names a pattern binds;
  * `declaredNames`: the names a declaration binds;
  * `exportLines`: the lines of an export that declares nothing.
-/
import ClassScript.Emission.Import

namespace ClassScript.Emission

open Syntax (Source Tree)

/-! ## 1. Bound names -/

mutual

/-- The names a pattern binds, in order. -/
def boundNames (src : Source) : Tree → List String
  | .node kind _ start stop parts =>
    match kind with
    | .identifier | .shorthandPattern => [src.text start stop]
    | .objectAssignmentPattern | .assignmentPattern => boundNamesOfRole src .left parts
    | .pairPattern => boundNamesOfRole src .value parts
    | .objectPattern | .arrayPattern | .restPattern => boundNamesOfParts src parts
    | _ => []

/-- The names that the first part in the role `role` binds. -/
def boundNamesOfRole (src : Source) (role : Syntax.Field) : List Tree → List String
  | [] => []
  | c :: cs => if c.field = some role then boundNames src c else boundNamesOfRole src role cs

/-- The names that all parts bind. -/
def boundNamesOfParts (src : Source) : List Tree → List String
  | [] => []
  | c :: cs => (if c.isNamed then boundNames src c else []) ++ boundNamesOfParts src cs

end

/-- The names that the declarators of a declaration of variables bind. -/
def declaratorNames (src : Source) (t : Tree) : List String :=
  t.named.flatMap fun declarator =>
    match declarator.part? .name with
    | some pattern => boundNames src pattern
    | none => []

/-- The names a declaration binds. -/
def declaredNames (src : Source) (t : Tree) : List String :=
  match t.kind with
  | .lexicalDecl | .variableDecl => declaratorNames src t
  | _ => (t.partText? src .name).toList

/-! ## 2. Assignments -/

/-- An assignment of the value `value` to the export `name`. -/
def exportLine (name value : String) : String := "exports." ++ name ++ " = " ++ value ++ ";"

/-- The assignments that follow a declaration, a line each. -/
def exportTail (isDefault : Bool) (names : List String) : String :=
  if isDefault then
    match names with
    | [] => ""
    | name :: _ => "\n" ++ exportLine "default" name
  else String.join (names.map fun name => "\n" ++ exportLine name name)

/-- The assignment of one of several exported names; nothing of a type. -/
def specifierLine? (src : Source) (source : Option String) (t : Tree) : Option String :=
  if t.kind == .exportSpecifier && !t.hasToken "type" then
    (t.partText? src .name).map fun name =>
      let value :=
        match source with
        | some source => requireCall source ++ "." ++ name
        | none => name
      exportLine ((t.partText? src .renamed).getD name) value
  else none

/-- The lines of an export that declares nothing and has no value. -/
def exportLines (src : Source) (t : Tree) : List String :=
  let source := sourceName? src t
  match namedPart? .exportClause t, namedPart? .namespaceExport t, source with
  | some clause, _, _ => clause.named.filterMap (specifierLine? src source)
  | none, some whole, some source =>
    [exportLine ((whole.named.head?.map (Tree.text src)).getD "") (requireCall source)]
  | none, none, some source => ["Object.assign(exports, " ++ requireCall source ++ ");"]
  | none, _, none => []

/-- The edit for an export that declares nothing and has no value. -/
def exportNamesEdit (src : Source) (t : Tree) : Edit :=
  match exportLines src t with
  | [] => dropStatement src t
  | lines => ⟨t.start, t.stop, "\n".intercalate lines⟩

end ClassScript.Emission
