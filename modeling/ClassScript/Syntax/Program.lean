/-
  File:      ClassScript/Syntax/Program.lean
  Subject:   The tree of a whole text.

  A program is a sequence of statements. The rules of the grammar call each
  other through `phrase`, whose depth is bounded by the length of the text:
  between two nested phrases without a token in between there are only a few
  steps.

  Comments are read apart. Each one is a child of the smallest tree that goes
  on after it. Comments in the form of HTML, `<!--` and `-->`, are left out:
  their marks are read as operators, or refused where none can stand.

  * `Tree.ofSource`: the tree, or the place of the first error;
  * `Tree.withComments`: a tree and the comments between its parts.
-/
import ClassScript.Syntax.Grammar.Statements

namespace ClassScript.Syntax

open Reader

/-! ## 1. Nested phrases -/

/-- The phrases, nested at most `depth` deep. -/
def phrase : Nat → Nested
  | 0, _ => refuse
  | depth + 1, .statement => statementRule (phrase depth)
  | depth + 1, .expression => expressionRule (phrase depth)
  | depth + 1, .unary => unaryRule classExpression (phrase depth)
  | depth + 1, .newTarget => newTargetRule classExpression (phrase depth)
  | depth + 1, .type => typeRule (phrase depth)
  | depth + 1, .typeOperand => typeOperandRule (phrase depth)
  | depth + 1, .pattern => patternRule (phrase depth)

/-- A depth no text of `src`'s size needs. -/
def depthFor (src : Source) : Nat := 8 * (src.size + 2)

/-- A statement of the outermost level. -/
def topStatement (src : Source) : Grammar := phrase (depthFor src) .statement

/-! ## 2. Comments -/

/-- The comments between two offsets, as trees. -/
def commentTrees (src : Source) (start stop : Nat) : List Tree :=
  (commentsBetween src stop (stop - start + 1) start).map fun c =>
    .node .comment none c.1 c.2 []

mutual

/-- The tree with the comments between its parts among them. -/
def Tree.withComments (src : Source) : Tree → Tree
  | .node kind field start stop [] => .node kind field start stop []
  | .node kind field start stop (c :: cs) =>
    .node kind field start stop (partsWithComments src stop start (c :: cs))

/-- The parts from the offset `i` to `stop`, and the comments before, between and after them. -/
def partsWithComments (src : Source) (stop : Nat) : Nat → List Tree → List Tree
  | i, [] => commentTrees src i stop
  | i, c :: cs =>
    commentTrees src i c.start ++ c.withComments src :: partsWithComments src stop c.stop cs

end

/-! ## 3. Programs -/

/-- The line for the system that runs a script, if the text starts with one. -/
def scriptLine (src : Source) : List Tree :=
  let i := tokenStart src 0
  if src.byte i = 35 && src.byte (i + 1) = 33 then
    let stop := min src.size (lineBreakFrom src (src.size - i) i)
    [.node (.other "hash_bang_line") none i stop []]
  else []

/-- The statements from the offset `i` to the end of the text, or where the first one that does
    not fit starts and the furthest token in it that was refused. -/
def statementsFrom (src : Source) : Nat → Nat → Except (Nat × Nat) (List Tree)
  | 0, i => .error (i, i)
  | fuel + 1, i =>
    let start := tokenStart src i
    if src.size ≤ start then .ok []
    else
      match topStatement src { source := src } ⟨i, start⟩ with
      | .refused furthest => .error (start, furthest)
      | .found trees cursor => (statementsFrom src fuel cursor.place).map (trees ++ ·)

/-- The starts of the tokens from `i` up to `stop`. -/
def tokenStarts (src : Source) (stop : Nat) : Nat → Nat → List Nat
  | 0, _ => []
  | fuel + 1, i =>
    let t := Token.scan src i
    if stop ≤ t.start then [] else t.start :: tokenStarts src stop fuel t.stop

/-- The text with blanks from `start` up to `stop`. -/
def Source.blanked (src : Source) (start stop : Nat) : Source :=
  ⟨src.slice 0 start ++ ⟨Array.replicate (stop - start) 32⟩ ++ src.slice stop src.size⟩

/-- With the text from `cut` up to the refused token left out, that token fits. -/
def fitsWithout (src : Source) (start furthest cut : Nat) : Bool :=
  let shorter := src.blanked cut furthest
  match topStatement shorter { source := shorter } ⟨start, start⟩ with
  | .refused next => furthest < next
  | .found _ cursor => furthest < cursor.place

/-- How many tokens before a refused one may be at fault. -/
def maxCut : Nat := 64

/-- The place of an error in the statement that starts at `start`: the tokens to leave out for
    the refused token to fit, or else that token. -/
def errorOffset (src : Source) (start furthest : Nat) : Nat :=
  let cuts := (tokenStarts src furthest (src.size + 1) start).reverse.take maxCut
  (cuts.find? (fitsWithout src start furthest)).getD furthest

/-- The tree of a text, or the place of its first syntax error. -/
def Tree.ofSource (src : Source) : Except Position Tree :=
  let lead := scriptLine src
  let first := (lead.getLast?.map Tree.stop).getD 0
  match statementsFrom src (src.size + 1) first with
  | .ok trees => .ok (.withComments src (.node .program none 0 src.size (lead ++ trees)))
  | .error (start, furthest) => .error (src.position (errorOffset src start furthest))

end ClassScript.Syntax
