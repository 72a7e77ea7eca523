/-
  File:      ClassScript/Emission/Enum.lean
  Subject:   Enums as objects that map names to values and back.

  An enum becomes a function that fills an object, one assignment per member.
  A member without a value counts on from the member before it: from a known
  integer by an integer, from anything else by an addition in the script, and
  after a text not at all. Members that a value refers to are qualified by the
  name of the enum.

  * `EnumMember`, `EnumMember.ofTree?`: what is known of a member;
  * `Assignment`, `assignments`: the assignments of an enum, as data;
  * `lowerEnum`: the edit that puts them in the place of the enum.
-/
import ClassScript.Emission.Basic
import ClassScript.Emission.Integer

namespace ClassScript.Emission

open Syntax (Source Tree Kind)

/-! ## 1. Values -/

/-- A part of a value: a copied text, or a reference to a member. -/
inductive Piece where
  | copied (text : String)
  | reference (member : String)
  deriving DecidableEq, Repr

/-- The text of a piece in the enum `enum`. -/
def Piece.text (enum : String) : Piece → String
  | .copied text => text
  | .reference member => enum ++ "." ++ member

/-- What the source gives as the value of a member. -/
inductive Given where
  | nothing
  | literalText (text : String)
  | template (pieces : List Piece)
  | expression (pieces : List Piece) (integer : Option Int)
  deriving DecidableEq, Repr

/-- A member of an enum. -/
structure EnumMember where
  key : String
  position : Position
  given : Given
  deriving DecidableEq, Repr

/-! ## 2. Members in a tree -/

mutual

/-- The names a value refers to: not those of properties, and none in a function or a class. -/
def referencesIn : Tree → List Tree
  | .node kind field start stop parts =>
    if kind = .identifier then [.node kind field start stop parts]
    else if kind = .arrowFunction ∨ kind = .functionExpression ∨ kind = .classExpression then []
    else referencesInParts parts

/-- The names that the named ones of some parts refer to. -/
def referencesInParts : List Tree → List Tree
  | [] => []
  | c :: cs => (if c.isNamed then referencesIn c else []) ++ referencesInParts cs

end

/-- The text from `start` up to `stop`, with those of the references that name a member apart. -/
def piecesFrom (src : Source) (members : List String) (stop : Nat) : Nat → List Tree → List Piece
  | start, [] => [.copied (src.text start stop)]
  | start, r :: rs =>
    if members.contains (r.text src) then
      .copied (src.text start r.start) :: .reference (r.text src) ::
        piecesFrom src members stop r.stop rs
    else piecesFrom src members stop start rs

/-- The value `value` in pieces. -/
def pieces (src : Source) (members : List String) (value : Tree) : List Piece :=
  piecesFrom src members value.stop value.start (referencesIn value)

/-- A character is a quote. -/
def isQuote (c : Char) : Bool := c = '"' || c = '\''

/-- The key of a member: the text of its name without quotes. -/
def memberKey? (src : Source) (t : Tree) : Option String :=
  let name := if t.kind = .enumAssignment then t.part? .name else some t
  name.map fun n => Text.strip isQuote (n.text src)

/-- The value given to a member. -/
def givenValue (src : Source) (members : List String) (t : Tree) : Given :=
  match if t.kind = .enumAssignment then t.part? .value else none with
  | none => .nothing
  | some value =>
    if value.kind = .stringLiteral then .literalText (value.text src)
    else if value.kind = .templateLiteral then .template (pieces src members value)
    else .expression (pieces src members value) (readInteger? (value.text src))

/-- The member a part of the body stands for. -/
def EnumMember.ofTree? (src : Source) (members : List String) (t : Tree) : Option EnumMember :=
  (memberKey? src t).map fun key => ⟨key, t.position src, givenValue src members t⟩

/-- The members of an enum. -/
def enumMembers (src : Source) (t : Tree) : List EnumMember :=
  let parts := t.bodyParts
  let keys := parts.filterMap (memberKey? src)
  parts.filterMap (EnumMember.ofTree? src keys)

/-! ## 3. Assignments -/

/-- The value that is assigned to a member. -/
inductive Value where
  | written (pieces : List Piece)
  | integer (n : Int)
  /-- One more than the value of the member `key`. -/
  | oneMoreThan (key : String)
  deriving DecidableEq, Repr

/-- The text of a value in the enum `enum`. -/
def Value.text (enum : String) : Value → String
  | .written pieces => String.join (pieces.map (Piece.text enum))
  | .integer n => toString n
  | .oneMoreThan key => enum ++ "[\"" ++ key ++ "\"] + 1"

/-- An assignment to a member; of a value that is no text, the object also maps back. -/
structure Assignment where
  key : String
  value : Value
  mapsBack : Bool
  deriving DecidableEq, Repr

/-- The line of an assignment in the enum `enum`. -/
def Assignment.line (enum : String) (a : Assignment) : String :=
  let entry := enum ++ "[\"" ++ a.key ++ "\"] = " ++ a.value.text enum
  if a.mapsBack then enum ++ "[" ++ entry ++ "] = \"" ++ a.key ++ "\";" else entry ++ ";"

/-- What a member without a value counts on from. -/
inductive Counter where
  | integer (n : Int)
  | oneMoreThan (key : String)
  | unknown
  deriving DecidableEq, Repr

/-- The counter after the member `key` with the integer `n`, if it has one. -/
def Counter.after (key : String) (n : Option Int) : Counter :=
  match n.bind plusOne? with
  | some next => .integer next
  | none => .oneMoreThan key

/-- The assignment to a member, and the counter after it; nothing if the member has to have a
    value and has none. -/
def assignment? (counter : Counter) (m : EnumMember) : Option (Assignment × Counter) :=
  match m.given with
  | .literalText text => some (⟨m.key, .written [.copied text], false⟩, .unknown)
  | .template pieces => some (⟨m.key, .written pieces, false⟩, .unknown)
  | .expression pieces integer => some (⟨m.key, .written pieces, true⟩, .after m.key integer)
  | .nothing =>
    match counter with
    | .integer n => some (⟨m.key, .integer n, true⟩, .after m.key (some n))
    | .oneMoreThan key => some (⟨m.key, .oneMoreThan key, true⟩, .oneMoreThan m.key)
    | .unknown => none

/-- The assignments to members, from a counter on. -/
def assignmentsFrom : Counter → List EnumMember → Except EmissionError (List Assignment)
  | _, [] => .ok []
  | counter, m :: ms =>
    match assignment? counter m with
    | some (a, next) => (assignmentsFrom next ms).map (a :: ·)
    | none => .error (.missingValue m.key m.position)

/-- The assignments of an enum. -/
def assignments (members : List EnumMember) : Except EmissionError (List Assignment) :=
  assignmentsFrom (.integer 0) members

/-! ## 4. The lowered enum -/

/-- The text that stands for an enum. -/
def enumText (name indent : String) (body : List Assignment) : String :=
  let head := ["var " ++ name ++ ";", indent ++ "(function (" ++ name ++ ") \x7b"]
  let lines := body.map fun a => indent ++ "    " ++ a.line name
  let foot := [indent ++ "\x7d)(" ++ name ++ " || (" ++ name ++ " = \x7b\x7d));"]
  "\n".intercalate (head ++ lines ++ foot)

/-- The emission of an enum. -/
def lowerEnum (src : Source) (t : Tree) : Except EmissionError Emission :=
  (assignments (enumMembers src t)).map fun body =>
    .ofEdit ⟨t.start, t.stop, enumText (t.nameText src) (indentation src t) body⟩

end ClassScript.Emission
