/-
  File:      ClassScript/Syntax/Grammar/Patterns.lean
  Subject:   What declarations bind: names, and patterns of them.

  A pattern takes an object or an array apart. Its leaves are names; where an
  assignment reads it, they may be members too.

  * `patternRule`: the nested phrase;
  * `bindingTarget`: a name or a pattern, nothing else.
-/
import ClassScript.Syntax.Grammar.Signatures

namespace ClassScript.Syntax

open Reader

/-- A first value of a part of a pattern. -/
def partDefault (nested : Nested) : Grammar := mark "=" ++ nested .expression

/-- A pattern, perhaps with a first value. -/
def patternWithDefault (nested : Nested) : Grammar := do
  let target ← nested .pattern
  if ← atMark "=" then
    node .assignmentPattern (pure (target.map (Tree.inRole .left)) ++ partDefault nested)
  else return target

/-- What is left over, as one part. -/
def restPattern (nested : Nested) : Grammar :=
  node .restPattern (mark "..." ++ nested .pattern)

/-- One part of an object. -/
def objectPart (nested : Nested) : Grammar :=
  restPattern nested <|>
    node .pairPattern
      (propertyName nested ++ mark ":" ++ role .value (patternWithDefault nested)) <|>
    node .objectAssignmentPattern
      (role .left (word .shorthandPattern) ++ partDefault nested) <|>
    word .shorthandPattern

/-- One part of an array. -/
def arrayPart (nested : Nested) : Grammar := restPattern nested <|> patternWithDefault nested

/-- Parts separated by commas; between two commas there may be none. -/
def partList (part : Grammar) : Grammar := opt part ++ many (mark "," ++ opt part)

/-- A name, an object's pattern, or an array's pattern. -/
def bindingTarget (nested : Nested) : Grammar := do
  let t ← peek
  if t.lexeme == .mark && t.text == "\x7b" then
    node .objectPattern (between "\x7b" (partList (objectPart nested)) "\x7d")
  else if t.lexeme == .mark && t.text == "[" then
    node .arrayPattern (between "[" (partList (arrayPart nested)) "]")
  else identifier

/-- A pattern: a binding target that no member access follows, or an operand. -/
def patternRule (nested : Nested) : Grammar := do
  let t ← peek
  let next ← peekSecond
  let isMember := next.lexeme == .mark && [".", "["].contains next.text
  if t.lexeme == .word && (t.text == "this" || isMember) then nested .unary
  else bindingTarget nested

end ClassScript.Syntax
