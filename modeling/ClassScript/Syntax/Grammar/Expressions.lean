/-
  File:      ClassScript/Syntax/Grammar/Expressions.lean
  Subject:   Expressions.

  An expression is an arrow function, a `yield`, or a chain of operands and
  operators with an optional condition or assignment. An operand is a primary
  expression with prefix operators before it and members, calls and `!`
  behind it.

  A `<` after an operand opens type arguments when they close again and what
  follows can only follow them; otherwise it is the comparison.

  * `expressionRule`, `unaryRule`, `newTargetRule`: the nested phrases;
  * `sequence`: expressions separated by commas;
  * `block`: statements between braces.
-/
import ClassScript.Syntax.Grammar.Types

namespace ClassScript.Syntax

open Reader

/-- Expressions separated by commas. -/
def sequence (nested : Nested) : Grammar := do
  let first ← nested .expression
  let more ← many (mark "," ++ nested .expression)
  if more.isEmpty then return first
  else node (.other "sequence_expression") (pure (first ++ more))

/-- Statements between braces. -/
def block (nested : Nested) : Grammar :=
  node (.other "statement_block")
    (mark "\x7b" ++ within Context.statements (many (nested .statement)) ++ mark "\x7d")

/-- An expression in brackets, which may carry a type. -/
def parenthesized (nested : Nested) : Grammar :=
  node (.other "parenthesized_expression")
    (between "(" (sequence nested ++ opt (typeClause nested)) ")")

/-! ## 1. Objects and arrays -/

/-- A method of an object. -/
def objectMethod (nested : Nested) : Grammar :=
  node .methodDefinition
    (opt (modifier ["async"]) ++ opt (modifier ["get", "set"] <|> mark "*") ++
      role .name (propertyName nested) ++ opt (mark "?") ++ callSignature nested ++
      role .body (block nested))

/-- One entry of an object. -/
def objectEntry (nested : Nested) : Grammar :=
  node (.other "spread_element") (mark "..." ++ nested .expression) <|>
    objectMethod nested <|>
    node (.other "pair")
      (propertyName nested ++ mark ":" ++ role .value (nested .expression)) <|>
    node .objectAssignmentPattern
      (role .left (word .shorthandPattern) ++ mark "=" ++ nested .expression) <|>
    word (.other "shorthand_property_identifier")

/-- An object. -/
def objectLiteral (nested : Nested) : Grammar :=
  node (.other "object") (between "\x7b" (commaList (objectEntry nested)) "\x7d")

/-- The elements of an array; between two commas there may be none. -/
def arrayElements (nested : Nested) : Grammar :=
  many (mark "," <|>
    node (.other "spread_element") (mark "..." ++ nested .expression) ++ arrayGap <|>
    nested .expression ++ arrayGap)
where
  /-- What ends an element. -/
  arrayGap : Grammar := do
    if ← atMark "]" then nothing else mark ","

/-- An array. -/
def arrayLiteral (nested : Nested) : Grammar :=
  node (.other "array") (between "[" (arrayElements nested) "]")

/-! ## 2. Functions -/

/-- A function in an expression. -/
def functionExpression (nested : Nested) : Grammar := do
  let lead ← opt (keyword "async") ++ keyword "function"
  let star ← opt (mark "*")
  let rest ← opt (role .name identifier) ++ callSignature nested ++ role .body (block nested)
  let kind := if star.isEmpty then Kind.functionExpression else .other "generator_function"
  node kind (pure (lead ++ star ++ rest))

/-- The body of an arrow function. -/
def arrowBody (nested : Nested) : Grammar := do
  if ← atMark "\x7b" then role .body (block nested) else role .body (nested .expression)

/-- An arrow function with a signature. Before the colon of a conditional expression a return
    type is only read when that colon follows the body. -/
def arrowFunction (nested : Nested) : Grammar :=
  node .arrowFunction do
    let c ← context
    let lead ← opt (keyword "async")
    let signature ← within (fun c => { c with mayEnd := false }) (callSignature nested)
    let rest ← mark "=>" ++ arrowBody nested
    if c.beforeColon && signature.any (fun t => t.field == some .returnType) then
      if ← atMark ":" then return lead ++ signature ++ rest else refuse
    else return lead ++ signature ++ rest

/-- An arrow function with a single bare parameter. -/
def bareArrow (nested : Nested) : Grammar :=
  node .arrowFunction
    (opt (do
      let lead ← keyword "async"
      let t ← peek
      if t.lexeme == .word then return lead else refuse) ++
      identifier ++ mark "=>" ++ arrowBody nested)

/-- The first token after `(` lets the brackets hold parameters. -/
def mayStartParameter (t : Token) : Bool :=
  match t.lexeme with
  | .word => true
  | .mark => [")", "...", "\x7b", "[", "@"].contains t.text
  | _ => false

/-! ## 3. Primary expressions -/

/-- The class of an expression; its parts are read by `heritageAndBody`. -/
abbrev ClassParts : Type := Nested → Grammar

/-- A regular expression. -/
def regexLiteral : Grammar := do
  let t ← peek
  let c ← context
  match regexEnd? c.source t.start with
  | some j =>
    moveTo j
    return [.node (.other "regex") none t.start j []]
  | none => refuse

/-- What `new` creates: a primary expression with members. -/
def newExpression (nested : Nested) : Grammar := do
  let next ← peekSecond
  if next.lexeme == .mark && next.text == "." then
    node (.other "meta_property") (keyword "new" ++ mark "." ++ keyword "target")
  else
    node (.other "new_expression")
      (keyword "new" ++ nested .newTarget ++ opt (typeArguments nested) ++
        opt (arguments nested))

/-- A primary expression that starts with a word. -/
def wordExpression (classExpression : ClassParts) (nested : Nested) (text : String) : Grammar := do
  let next ← peekSecond
  if text == "function" then functionExpression nested
  else if text == "async" && next.lexeme == .word && next.text == "function" then
    functionExpression nested
  else if text == "class" then classExpression nested
  else if text == "new" then newExpression nested
  else if text == "this" then word .thisRef
  else if text == "super" then word .superRef
  else if text == "import" then
    if next.lexeme == .mark && next.text == "." then
      node (.other "meta_property") (keyword "import" ++ mark "." ++ keyword "meta")
    else word (.other "import")
  else if ["true", "false", "null", "undefined"].contains text then word (.other text)
  else identifier

/-- A primary expression. -/
def primary (classExpression : ClassParts) (nested : Nested) : Grammar := do
  let t ← peek
  match t.lexeme with
  | .word => wordExpression classExpression nested t.text
  | .number => numberLiteral
  | .quoted => stringLiteral
  | .privateName => privateName
  | .backtick => template .templateLiteral (sequence nested)
  | .mark =>
    if t.text == "(" then parenthesized nested
    else if t.text == "[" then arrayLiteral nested
    else if t.text == "\x7b" then objectLiteral nested
    else if t.text == "/" || t.text == "/=" then regexLiteral
    else if t.text == "@" then classExpression nested
    else refuse
  | _ => refuse

/-! ## 4. Members, calls and type arguments -/

/-- The tokens that can only follow type arguments, and not the comparison `>`. -/
def closesInstance (t : Token) : Bool :=
  match t.lexeme with
  | .finish => true
  | .mark =>
    [")", "]", "\x7d", ",", ";", ":", ".", "?.", "?", "=", "==", "===", "!=", "!==", "&&", "||",
     "??", "&", "|", "^", "=>", ">"].contains t.text
  | .word => ["as", "satisfies", "in", "instanceof", "implements"].contains t.text
  | _ => false

/-- The name after a point. -/
def memberName : Grammar := word (.other "property_identifier") <|> privateName

/-- The operand `left` with `p` behind it, as one tree. -/
def suffixed (kind : Kind) (left : List Tree) (p : Grammar) : Grammar := node kind (pure left ++ p)

/-- Type arguments behind an operand, and the call or template they belong to, if any. -/
def instantiated (nested : Nested) (left : List Tree) : Grammar := do
  let args ← typeArguments nested
  let c ← context
  let t ← peek
  let callee := left.map (Tree.inRole .function)
  if t.lexeme == .mark && t.text == "(" then
    suffixed .callExpression (callee ++ args) (arguments nested)
  else if t.lexeme == .backtick then
    suffixed .callExpression (callee ++ args) (template .templateLiteral (sequence nested))
  else if c.allowInstance then
    let ends := c.mayEnd &&
      (autoSemicolon? c.source ⟨true, false⟩ (← place)).isSome
    if ends || closesInstance t then
      suffixed (.other "instantiation_expression") left (pure args)
    else refuse
  else refuse

/-- One suffix of the operand `left`: a member, a subscript, a call, a template, or `!`. -/
def suffix (nested : Nested) (left : List Tree) (t : Token) : Grammar := do
  let callee := left.map (Tree.inRole .function)
  match t.lexeme with
  | .backtick => suffixed .callExpression callee (template .templateLiteral (sequence nested))
  | .mark =>
    if t.text == "." then suffixed (.other "member_expression") left (mark "." ++ memberName)
    else if t.text == "?." then
      let chain := leaf (fun _ => .other "optional_chain") fun t => t.lexeme == .mark
      suffixed (.other "subscript_expression") left
          (chain ++ between "[" (sequence nested) "]") <|>
        suffixed .callExpression callee
          (chain ++ opt (typeArguments nested) ++ arguments nested) <|>
        suffixed (.other "member_expression") left (chain ++ memberName)
    else if t.text == "[" then
      suffixed (.other "subscript_expression") left (between "[" (sequence nested) "]")
    else if t.text == "(" then suffixed .callExpression callee (arguments nested)
    else if t.text == "!" then suffixed .nonNullExpression left (mark "!")
    else if t.text == "<" || t.text == "<<" then instantiated nested left
    else refuse
  | _ => refuse

/-- The suffixes of the operand `left`. -/
def suffixes (nested : Nested) : Nat → List Tree → Grammar
  | 0, left => pure left
  | fuel + 1, left => do
    if ← sameStatement true then
      let t ← peek
      let longer ← opt (suffix nested left t)
      if longer.isEmpty then return left else suffixes nested fuel longer
    else return left

/-- The members of the operand `left` of `new`. -/
def memberSuffixes (nested : Nested) : Nat → List Tree → Grammar
  | 0, left => pure left
  | fuel + 1, left => do
    let t ← peek
    let isMember := t.lexeme == .mark && [".", "["].contains t.text
    if isMember && (← sameStatement true) then
      let longer ← suffix nested left t
      memberSuffixes nested fuel longer
    else return left

/-- What `new` creates. -/
def newTargetRule (classExpression : ClassParts) (nested : Nested) : Grammar := do
  let c ← context
  if ← atWord "new" then newExpression nested
  else
    let first ← primary classExpression nested
    memberSuffixes nested (c.source.size + 1) first

/-! ## 5. Operators -/

/-- An operand with its prefix operators. -/
def unaryRule (classExpression : ClassParts) (nested : Nested) : Grammar := do
  let t ← peek
  let c ← context
  if t.lexeme == .word && ["typeof", "void", "delete"].contains t.text then
    node (.other "unary_expression") (keyword t.text ++ nested .unary)
  else if t.lexeme == .word && t.text == "await" then
    node (.other "await_expression") (keyword "await" ++ nested .unary)
  else if t.lexeme == .mark && ["!", "~", "+", "-"].contains t.text then
    node (.other "unary_expression") (mark t.text ++ nested .unary)
  else if t.lexeme == .mark && (t.text == "++" || t.text == "--") then
    node (.other "update_expression") (mark t.text ++ nested .unary)
  else if t.lexeme == .mark && t.text == "<" then
    node (.other "type_assertion") (typeArguments nested ++ nested .unary)
  else
    let first ← primary classExpression nested
    let operand ← suffixes nested (c.source.size + 1) first
    let after ← peek
    let isUpdate := after.lexeme == .mark && (after.text == "++" || after.text == "--")
    if isUpdate && (← sameStatement true) then
      node (.other "update_expression") (pure operand ++ mark after.text)
    else return operand

/-- The binary operators, with how tightly they bind. -/
def binaryLevels : List (String × Nat) :=
  [("??", 1), ("||", 2), ("&&", 3), ("|", 4), ("^", 5), ("&", 6), ("==", 7), ("!=", 7),
   ("===", 7), ("!==", 7), ("<", 8), ("<=", 8), (">", 8), (">=", 8), ("<<", 9), (">>", 9),
   (">>>", 9), ("+", 10), ("-", 10), ("*", 11), ("/", 11), ("%", 11), ("**", 12)]

/-- How tightly the operator at a token binds, if it is a binary operator. -/
def binaryLevel? (c : Context) (t : Token) : Option Nat :=
  match t.lexeme with
  | .mark => (binaryLevels.find? fun l => l.1 == t.text).map (·.2)
  | .word =>
    if t.text == "instanceof" || t.text == "as" || t.text == "satisfies" then some 8
    else if t.text == "in" && c.allowIn then some 8
    else none
  | _ => none

/-- The tail of `as` and `satisfies`. -/
def castTail (nested : Nested) (word : String) : Grammar := do
  let lead ← keyword word
  let next ← peekSecond
  if word == "as" && (← atWord "const") && !(next.lexeme == .mark && next.text == ".") then
    let const ← keyword "const"
    return lead ++ const
  else
    let type ← nested .type
    return lead ++ type

/-- The operators that bind at least as tightly as `level`, after the operand `left`. -/
def binaryTail (nested : Nested) : Nat → Nat → List Tree → Grammar
  | 0, _, left => pure left
  | fuel + 1, level, left => do
    let c ← context
    let t ← peek
    match binaryLevel? c t with
    | none => return left
    | some tightness =>
      if tightness < level || !(← sameStatement true) then return left
      else if t.text == "as" || t.text == "satisfies" then
        let kind := if t.text == "as" then Kind.asExpression else .satisfiesExpression
        let longer ← suffixed kind left (castTail nested t.text)
        binaryTail nested fuel level longer
      else
        moveTo t.stop
        let operator := t.tree (.token t.text)
        let operand ← nested .unary
        let right ←
          binaryTail nested fuel (if t.text == "**" then tightness else tightness + 1) operand
        let longer ← node (.other "binary_expression") (pure (left ++ [operator] ++ right))
        binaryTail nested fuel level longer

/-- The operators that assign. -/
def assignmentMarks : List String :=
  ["=", "+=", "-=", "*=", "/=", "%=", "^=", "&=", "|=", ">>=", ">>>=", "<<=", "**=", "&&=",
   "||=", "??="]

/-- A condition, an assignment, or neither. -/
def conditional (nested : Nested) : Grammar := do
  let c ← context
  let operand ← nested .unary
  let t ← peek
  if t.lexeme == .mark && assignmentMarks.contains t.text then
    let kind := if t.text == "=" then "assignment_expression" else "augmented_assignment_expression"
    node (.other kind)
      (pure (operand.map (Tree.inRole .left)) ++ mark t.text ++ nested .expression)
  else
    let left ← binaryTail nested (c.source.size + 1) 0 operand
    if ← atMark "?" then
      node (.other "ternary_expression")
        (pure left ++ mark "?" ++
          within (fun c => { c.bracketed with beforeColon := true }) (nested .expression) ++
          mark ":" ++ nested .expression)
    else return left

/-- A `yield` with its operand, if it has one. -/
def yieldExpression (nested : Nested) : Grammar :=
  node (.other "yield_expression") do
    let lead ← keyword "yield"
    let star ← opt (mark "*")
    if ← sameStatement true then
      let operand ← opt (nested .expression)
      return lead ++ star ++ operand
    else return lead ++ star

/-- An assignment with the word `using` before it. -/
def usingAssignment (nested : Nested) : Grammar :=
  node (.other "assignment_expression")
    (keyword "using" ++ role .left identifier ++ mark "=" ++ nested .expression)

/-- An arrow function whose body ended in a brace may be used like an operand. -/
def arrowOperand (nested : Nested) (arrow : List Tree) : Grammar := do
  let c ← context
  let closed := arrow.any fun t =>
    match t.part? .body with
    | some body => body.kind == .other "statement_block"
    | none => false
  if closed then
    let operand ← suffixes nested (c.source.size + 1) arrow
    binaryTail nested (c.source.size + 1) 0 operand
  else return arrow

/-- An expression. -/
def expressionRule (nested : Nested) : Grammar := do
  let t ← peek
  let next ← peekSecond
  match t.lexeme with
  | .word =>
    if next.lexeme == .mark && next.text == "=>" then
      let arrow ← bareArrow nested
      arrowOperand nested arrow
    else if t.text == "async" && next.lexeme == .word && next.text != "function" then
      (do
        let arrow ← bareArrow nested
        arrowOperand nested arrow) <|> conditional nested
    else if t.text == "async" && next.lexeme == .mark && (next.text == "(" || next.text == "<") then
      (do
        let arrow ← arrowFunction nested
        arrowOperand nested arrow) <|> conditional nested
    else if t.text == "yield" then yieldExpression nested
    else if t.text == "using" && next.lexeme == .word then
      usingAssignment nested <|> conditional nested
    else conditional nested
  | .mark =>
    if (t.text == "(" && mayStartParameter next) || t.text == "<" then
      (do
        let arrow ← arrowFunction nested
        arrowOperand nested arrow) <|> conditional nested
    else conditional nested
  | _ => conditional nested

end ClassScript.Syntax
