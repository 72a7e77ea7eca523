/-
  File:      ClassScript/Emission/Basic.lean
  Subject:   What emission of a tree comes to, and the ways to take text out.

  Emission of a part gives edits, and says what the emitted script needs.
  Emissions are put one after the other by `++`. It fails at the first part
  that has no counterpart in a script.

  * `Emission`, `EmissionError`;
  * `dropWord`, `dropLines`, `dropMember`: edits that take text out;
  * `indentation`: the blanks a line starts with.
-/
import ClassScript.Emission.Edit
import ClassScript.Syntax.Tree

namespace ClassScript

open Syntax (Source Tree)

/-! ## 1. Results -/

/-- The edits of a part, and what it needs of the script. -/
structure Emission where
  edits : List Emission.Edit := []
  /-- Something is imported or exported. -/
  usesModules : Bool := false
  /-- A default export of another module is imported. -/
  importsDefault : Bool := false
  deriving DecidableEq, Repr

namespace Emission

/-- One emission after the other. -/
def append (a b : Emission) : Emission :=
  ⟨a.edits ++ b.edits, a.usesModules || b.usesModules, a.importsDefault || b.importsDefault⟩

instance : Append Emission := ⟨append⟩

/-- A single edit. -/
def ofEdit (e : Edit) : Emission := { edits := [e] }

/-- Several edits. -/
def ofEdits (es : List Edit) : Emission := { edits := es }

/-- No edit, but something is imported or exported. -/
def modules : Emission := { usesModules := true }

/-- The constructs without a counterpart in a script. -/
inductive Construct where
  | decorator
  | namespaceBlock
  | importAlias
  deriving DecidableEq, Repr

/-- The word for a construct. -/
def Construct.word : Construct → String
  | .decorator => "decorator"
  | .namespaceBlock => "namespace"
  | .importAlias => "import alias"

end Emission

/-- Why a text has no script. -/
inductive EmissionError where
  | badSyntax (position : Position)
  | unsupported (construct : Emission.Construct) (position : Position)
  /-- A member of an enum without a value follows one with a text as its value. -/
  | missingValue (member : String) (position : Position)
  deriving DecidableEq, Repr

/-- The line and the column of a place. -/
def Position.shown (p : Position) : String := toString p.line ++ ":" ++ toString p.column

/-- The message of an error. -/
def EmissionError.message : EmissionError → String
  | .badSyntax p => "Syntax error at " ++ p.shown
  | .unsupported construct p =>
    "Unsupported construct '" ++ construct.word ++ "' at " ++ p.shown
  | .missingValue member p =>
    "Enum member '" ++ member ++ "' at " ++ p.shown ++ " must have an initializer"

namespace Emission

/-! ## 2. Lines and blanks -/

/-- Nothing but blank characters stands from `a` up to `b`. -/
def isBlankBetween (src : Source) (a b : Nat) : Bool :=
  decide (a ≤ b) &&
    match String.fromUTF8? (src.slice a b) with
    | some gap => Text.allBlank gap
    | none => false

/-- The blanks at the start of the line in which `t` starts, up to `t`. -/
def indentation (src : Source) (t : Tree) : String :=
  Text.leadingBlank (src.text (src.lineStart t.start) t.start)

/-! ## 3. Taking text out -/

/-- Takes a tree out. -/
def drop (t : Tree) : Edit := .removal t.start t.stop

/-- Takes a word out, with the blanks up to the next part of its parent. -/
def dropWord (src : Source) (t : Tree) (following : List Tree) : Edit :=
  match following with
  | [] => drop t
  | next :: _ =>
    if isBlankBetween src t.stop next.start then .removal t.start next.start else drop t

/-- Takes a range out, with its lines if nothing else stands on them. -/
def dropLines (src : Source) (start stop : Nat) : Edit :=
  let first := src.lineStart start
  let last := src.lineEnd stop
  if isBlankBetween src first start && isBlankBetween src stop last then .removal first last
  else .removal start stop

/-- Takes a statement out. -/
def dropStatement (src : Source) (t : Tree) : Edit := dropLines src t.start t.stop

/-- A part is a mark that ends a member. -/
def endsMember (t : Tree) : Bool := t.kind == .token ";" || t.kind == .token ","

/-- Takes a member out, with the mark that ends it. -/
def dropMember (src : Source) (t : Tree) (following : List Tree) : Edit :=
  match following with
  | [] => dropStatement src t
  | next :: _ => dropLines src t.start (if endsMember next then next.stop else t.stop)

end Emission
end ClassScript
