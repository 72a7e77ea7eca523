/-
  File:      ClassScript/Syntax/Grammar.lean
  Subject:   The notation the grammar is written in.

  A `Grammar` reads trees from a place in the source. Grammars are put
  together by `++` (one after the other), `<|>` (the first one that fits),
  `opt`, `many` and `separated`. A grammar that does not fit leaves the place
  as it was, and remembers the furthest token that was refused.

  Constructs nest through `Phrase`: the rules below take the reader of nested
  phrases as an argument, and the parser ties the knot with a bound on the
  depth.

  * `Grammar`, `Context`, `Cursor`, `Outcome`;
  * `keyword`, `mark`, `node`, `opt`, `many`, `separated`;
  * `statementEnd`, `optionalEnd`: how statements end.
-/
import ClassScript.Syntax.Tree
import ClassScript.Syntax.Token

namespace ClassScript.Syntax

/-! ## 1. Reading -/

/-- What is known about the surroundings of a phrase. -/
structure Context where
  source : Source
  /-- A line break may end the statement here: no bracket is open in it. -/
  mayEnd : Bool := true
  /-- `in` is an operator here. -/
  allowIn : Bool := true
  /-- An expression may end in type arguments here. -/
  allowInstance : Bool := true
  /-- Between `?` and `:` of a conditional expression. -/
  beforeColon : Bool := false

/-- Inside of brackets. -/
def Context.bracketed (c : Context) : Context := { source := c.source, mayEnd := false }

/-- In a body of statements. -/
def Context.statements (c : Context) : Context := { source := c.source }

/-- The place of reading: the end of the last token read, and the furthest token refused. -/
structure Cursor where
  place : Nat
  furthest : Nat

/-- What reading comes to. -/
inductive Outcome (α : Type) where
  | found (value : α) (cursor : Cursor)
  | refused (furthest : Nat)

/-- A reader of values. -/
def Reader (α : Type) : Type := Context → Cursor → Outcome α

/-- A reader of a sequence of trees. -/
abbrev Grammar : Type := Reader (List Tree)

namespace Reader

variable {α β : Type}

protected def pure (a : α) : Reader α := fun _ cursor => .found a cursor

protected def bind (r : Reader α) (f : α → Reader β) : Reader β := fun context cursor =>
  match r context cursor with
  | .found a cursor => f a context cursor
  | .refused furthest => .refused furthest

instance : Monad Reader where
  pure := Reader.pure
  bind := Reader.bind

/-- The first reader, or else the second one from the same place. -/
protected def orElse (r : Reader α) (s : Unit → Reader α) : Reader α := fun context cursor =>
  match r context cursor with
  | .found a cursor => .found a cursor
  | .refused furthest => s () context { cursor with furthest := max cursor.furthest furthest }

instance : OrElse (Reader α) := ⟨Reader.orElse⟩

/-- The surroundings. -/
def context : Reader Context := fun context cursor => .found context cursor

/-- The end of the last token read. -/
def place : Reader Nat := fun _ cursor => .found cursor.place cursor

/-- Goes on from the place `i`. -/
def moveTo (i : Nat) : Reader Unit := fun _ cursor => .found () { cursor with place := i }

/-- Reads `r` in other surroundings. -/
def within (change : Context → Context) (r : Reader α) : Reader α := fun context cursor =>
  r (change context) cursor

/-- The next token, which stays to be read. -/
def peek : Reader Token := fun context cursor =>
  .found (Token.scan context.source cursor.place) cursor

/-- The token after the next one. -/
def peekSecond : Reader Token := fun context cursor =>
  let first := Token.scan context.source cursor.place
  .found (Token.scan context.source first.stop) cursor

/-- Nothing fits: the next token is refused. -/
def refuse : Reader α := fun context cursor =>
  .refused (max cursor.furthest (tokenStart context.source cursor.place))

/-- What `r` would read, without reading it. -/
def ahead (r : Reader α) : Reader (Option α) := fun context cursor =>
  match r context cursor with
  | .found a after => .found (some a) { cursor with furthest := max cursor.furthest after.furthest }
  | .refused furthest => .found none { cursor with furthest := max cursor.furthest furthest }

end Reader

open Reader

/-! ## 2. Grammars -/

/-- One grammar after the other. -/
def Grammar.append (p q : Grammar) : Grammar := do
  let ps ← p
  let qs ← q
  return ps ++ qs

instance : Append Grammar := ⟨Grammar.append⟩

/-- Nothing at all. -/
def nothing : Grammar := pure []

/-- The grammar, or nothing. -/
def opt (p : Grammar) : Grammar := p <|> nothing

/-- The grammar as often as it fits, at most `fuel` times. -/
def manyUpTo (p : Grammar) : Nat → Grammar
  | 0 => nothing
  | fuel + 1 => fun context cursor =>
    match p context cursor with
    | .refused furthest => .found [] { cursor with furthest := max cursor.furthest furthest }
    | .found trees after =>
      if after.place ≤ cursor.place then .found trees after
      else
        match manyUpTo p fuel context after with
        | .refused furthest => .refused furthest
        | .found more last => .found (trees ++ more) last

/-- The grammar as often as it fits. -/
def many (p : Grammar) : Grammar := fun context cursor =>
  manyUpTo p (context.source.size + 1) context cursor

/-- The grammar once or more often, with separators in between. -/
def separated (separator p : Grammar) : Grammar := p ++ many (separator ++ p)

/-- The tree of a token. -/
def Token.tree (kind : Kind) (t : Token) : Tree := .node kind none t.start t.stop []

/-- Reads the next token as a leaf of the kind `kind`, if it passes. -/
def leaf (kind : Token → Kind) (passes : Token → Bool) : Grammar := do
  let t ← peek
  if passes t then
    moveTo t.stop
    return [t.tree (kind t)]
  else refuse

/-- The word `text`, as a keyword. -/
def keyword (text : String) : Grammar :=
  leaf (fun t => .token t.text) fun t => t.lexeme == .word && t.text == text

/-- One of the words `texts`, as a keyword. -/
def keywordOf (texts : List String) : Grammar :=
  leaf (fun t => .token t.text) fun t => t.lexeme == .word && texts.contains t.text

/-- The mark `text`. -/
def mark (text : String) : Grammar :=
  leaf (fun t => .token t.text) fun t => t.lexeme == .mark && t.text == text

/-- One of the marks `texts`. -/
def markOf (texts : List String) : Grammar :=
  leaf (fun t => .token t.text) fun t => t.lexeme == .mark && texts.contains t.text

/-- A single `>`, also at the start of a longer mark. -/
def closeAngle : Grammar := do
  let t ← peek
  let c ← context
  if c.source.byte t.start = 62 then
    moveTo (t.start + 1)
    return [.node (.token ">") none t.start (t.start + 1) []]
  else refuse

/-- Any word, as a tree of the kind `kind`. -/
def word (kind : Kind) : Grammar := leaf (fun _ => kind) fun t => t.lexeme == .word

/-- The trees of `p` as the children of one tree. It ends where reading stands. -/
def node (kind : Kind) (p : Grammar) : Grammar := do
  let trees ← p
  let stop ← place
  match trees with
  | [] => refuse
  | first :: _ => return [.node kind none first.start stop trees]

/-- The trees of `p` in a role of their parent. -/
def role (field : Field) (p : Grammar) : Grammar := do
  let trees ← p
  return trees.map (Tree.inRole field)

/-- `p` between brackets. -/
def between (opening : String) (p : Grammar) (closing : String) : Grammar :=
  mark opening ++ within Context.bracketed p ++ mark closing

/-- Items separated by commas, possibly none, possibly with a comma at the end. -/
def commaList (item : Grammar) : Grammar :=
  opt (separated (mark ",") item ++ opt (mark ","))

/-! ## 3. Looking ahead -/

/-- The next token is the mark `text`. -/
def atMark (text : String) : Reader Bool := do
  let t ← peek
  return t.lexeme == .mark && t.text == text

/-- The next token is the word `text`. -/
def atWord (text : String) : Reader Bool := do
  let t ← peek
  return t.lexeme == .word && t.text == text

/-- No line break lets the statement end before the next token. -/
def sameStatement (afterExpression : Bool) : Reader Bool := fun context cursor =>
  let ends := context.mayEnd &&
    (autoSemicolon? context.source ⟨afterExpression, false⟩ cursor.place).isSome
  .found (!ends) cursor

/-! ## 4. The end of a statement -/

/-- The semicolon that stands for a line break: no tree, but the statement goes up to it. -/
def lineEnd (end_ : EndContext) : Grammar := do
  let c ← context
  let i ← place
  match autoSemicolon? c.source end_ i with
  | some j =>
    moveTo j
    return []
  | none => refuse

/-- A semicolon, or a line break in its place. -/
def statementEnd (afterExpression : Bool) : Grammar :=
  mark ";" <|> lineEnd ⟨afterExpression, false⟩

/-- A line break that belongs to a declaration which needs no end. -/
def optionalEnd : Grammar := opt (lineEnd ⟨false, false⟩)

/-! ## 5. Nested phrases -/

/-- The constructs that nest in others. -/
inductive Phrase where
  | statement
  /-- One expression, assignments and arrow functions included. -/
  | expression
  /-- An operand with its prefix operators. -/
  | unary
  /-- The operand of `new`. -/
  | newTarget
  | type
  /-- A type with its prefix operators, without `|`, `&` and conditions. -/
  | typeOperand
  /-- What a declaration binds: a name or a pattern. -/
  | pattern

/-- A reader of nested phrases. -/
abbrev Nested : Type := Phrase → Grammar

end ClassScript.Syntax
