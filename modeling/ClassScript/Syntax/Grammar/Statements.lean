/-
  File:      ClassScript/Syntax/Grammar/Statements.lean
  Subject:   Statements and declarations.

  The first word of a statement says what it is, unless that word may be a
  name too: then the declaration is tried first, and the expression after it.

  * `declaration`: what may be exported;
  * `statementRule`: the nested phrase.
-/
import ClassScript.Syntax.Grammar.Modules
import ClassScript.Syntax.Grammar.Patterns

namespace ClassScript.Syntax

open Reader

/-! ## 1. Variables -/

/-- One variable, perhaps with a type and a first value. -/
def variableDeclarator (nested : Nested) : Grammar :=
  node .variableDeclarator
    (role .name identifier ++ mark "!" ++ role .type (typeClause nested) <|>
      role .name (bindingTarget nested) ++ opt (role .type (typeClause nested)) ++
        opt (initializer nested))

/-- The kind of a declaration of variables that starts with `text`. -/
def variableKind (text : String) : Kind :=
  if text == "var" then .variableDecl else .lexicalDecl

/-- The variables of a declaration. -/
def declarators (nested : Nested) : Grammar := separated (mark ",") (variableDeclarator nested)

/-- A declaration of variables that starts with the word `text`. -/
def variableDeclaration (nested : Nested) (text : String) : Grammar :=
  node (variableKind text) (keyword text ++ declarators nested ++ statementEnd true)

/-! ## 2. Functions -/

/-- A function with a name: its body or, without one, the end of its signature. -/
def functionDeclaration (nested : Nested) : Grammar := do
  let lead ← opt (keyword "async") ++ keyword "function"
  let star ← opt (mark "*")
  let head ← role .name identifier ++ callSignature nested
  if ← atMark "\x7b" then
    let kind := if star.isEmpty then Kind.functionDecl else .generatorDecl
    node kind (pure (lead ++ star ++ head) ++ role .body (block nested) ++ optionalEnd)
  else if star.isEmpty then
    node .functionSignature (pure (lead ++ head) ++ (mark ";" <|> lineEnd ⟨false, true⟩))
  else refuse

/-! ## 3. Enums, interfaces, aliases and namespaces -/

/-- One member of an enum. -/
def enumMember (nested : Nested) : Grammar := do
  let name ← role .name (propertyName nested)
  if ← atMark "=" then node .enumAssignment (pure name ++ initializer nested)
  else return name

/-- An enum. -/
def enumDeclaration (nested : Nested) : Grammar :=
  node .enumDecl
    (opt (keyword "const") ++ keyword "enum" ++ role .name identifier ++
      role .body (node .enumBody (between "\x7b" (commaList (enumMember nested)) "\x7d")))

/-- An interface. -/
def interfaceDeclaration (nested : Nested) : Grammar :=
  node .interfaceDecl
    (keyword "interface" ++ role .name (word (.other "type_identifier")) ++
      opt (typeParameters nested) ++
      opt (node (.other "extends_type_clause")
        (keyword "extends" ++ separated (mark ",") (typeReference nested))) ++
      role .body (objectType (.other "interface_body") nested))

/-- An alias of a type. -/
def aliasDeclaration (nested : Nested) : Grammar :=
  node .typeAlias
    (modifierBefore [] ["type"] (fun t => .token t.text) ++
      role .name (word (.other "type_identifier")) ++ opt (typeParameters nested) ++ mark "=" ++
      role .value (nested .type) ++ statementEnd false)

/-- A namespace or a module: the word `text`, a name, perhaps a block. -/
def namespaceDeclaration (nested : Nested) (text : String) (kind : Kind) : Grammar :=
  node kind
    (modifierBefore [] [text] (fun t => .token t.text) ++
      role .name (stringLiteral <|> dottedName) ++ opt (role .body (block nested)))

/-! ## 4. Declarations -/

/-- The word a declaration starts with, behind decorators. -/
def leadingWord (nested : Nested) : Reader String := do
  let lead ← ahead (do
    let _ ← many (decorator nested)
    peek)
  return match lead with
    | some t => if t.lexeme == .word then t.text else ""
    | none => ""

/-- A declaration that starts with the word `text`. The word `declare` is read by the caller. -/
def plainDeclaration (nested : Nested) (text : String) : Grammar :=
  match text with
  | "class" => classDeclaration nested
  | "abstract" => abstractClassDeclaration nested
  | "function" | "async" => functionDeclaration nested
  | "const" => enumDeclaration nested <|> variableDeclaration nested "const"
  | "let" | "var" => variableDeclaration nested text
  | "enum" => enumDeclaration nested
  | "interface" => interfaceDeclaration nested
  | "type" => aliasDeclaration nested
  | "namespace" => namespaceDeclaration nested "namespace" .namespaceBlock
  | "module" => namespaceDeclaration nested "module" .moduleBlock
  | "import" => importAlias
  | _ => refuse

/-- What the word `declare` may stand before. -/
def ambientBody (nested : Nested) : Grammar := do
  let text ← leadingWord nested
  let next ← peekSecond
  if text == "global" && next.lexeme == .mark && next.text == "\x7b" then
    keyword "global" ++ block nested
  else if text == "declare" then refuse
  else plainDeclaration nested text

/-- A declaration without a counterpart when the program runs. -/
def ambientDeclaration (nested : Nested) : Grammar :=
  node .ambientDecl
    (modifierBefore [] ["declare"] (fun t => .token t.text) ++ ambientBody nested)

/-- A declaration. -/
def declaration (nested : Nested) : Grammar := do
  let text ← leadingWord nested
  if text == "declare" then ambientDeclaration nested else plainDeclaration nested text

/-! ## 5. Branches and loops -/

/-- A condition in brackets. -/
def condition (nested : Nested) : Grammar :=
  node (.other "parenthesized_expression") (between "(" (sequence nested) ")")

/-- `if`, with `else`. -/
def ifStatement (nested : Nested) : Grammar :=
  node (.other "if_statement")
    (keyword "if" ++ condition nested ++ nested .statement ++
      opt (node (.other "else_clause") (keyword "else" ++ nested .statement)))

/-- One case of `switch`. -/
def switchCase (nested : Nested) : Grammar :=
  node (.other "switch_case")
      (keyword "case" ++ within Context.bracketed (sequence nested) ++ mark ":" ++
        many (nested .statement)) <|>
    node (.other "switch_default") (keyword "default" ++ mark ":" ++ many (nested .statement))

/-- `switch`. -/
def switchStatement (nested : Nested) : Grammar :=
  node (.other "switch_statement")
    (keyword "switch" ++ condition nested ++
      node (.other "switch_body")
        (mark "\x7b" ++ within Context.statements (many (switchCase nested)) ++ mark "\x7d"))

/-- What a loop over elements binds. -/
def loopTarget (nested : Nested) : Grammar :=
  keywordOf ["const", "let", "var"] ++ role .left (bindingTarget nested) ++
      opt (initializer nested) <|>
    role .left (nested .unary)

/-- The head of a loop over keys or elements. -/
def elementLoop (nested : Nested) : Grammar :=
  within (fun c => { c with allowIn := false }) (loopTarget nested) ++
    keywordOf ["in", "of"] ++ sequence nested

/-- The first part of a counting loop. -/
def loopStart (nested : Nested) : Grammar := do
  let t ← peek
  let isDeclaration := t.lexeme == .word && ["const", "let", "var"].contains t.text
  if ← atMark ";" then node (.other "empty_statement") (mark ";")
  else if isDeclaration then
    node (variableKind t.text) (keyword t.text ++ declarators nested ++ mark ";") <|>
      sequence nested ++ mark ";"
  else sequence nested ++ mark ";"

/-- The head of a counting loop. -/
def countingLoop (nested : Nested) : Grammar :=
  within (fun c => { c with allowIn := false }) (loopStart nested) ++
    opt (sequence nested) ++ mark ";" ++ opt (sequence nested)

/-- `for`. -/
def forStatement (nested : Nested) : Grammar := do
  let lead ← keyword "for"
  let wait ← opt (keyword "await")
  node (.other "for_in_statement")
      (pure (lead ++ wait) ++ between "(" (elementLoop nested) ")" ++
        role .body (nested .statement)) <|>
    node (.other "for_statement")
      (pure (lead ++ wait) ++ between "(" (countingLoop nested) ")" ++
        role .body (nested .statement))

/-- `while`. -/
def whileStatement (nested : Nested) : Grammar :=
  node (.other "while_statement") (keyword "while" ++ condition nested ++ nested .statement)

/-- `do`. -/
def doStatement (nested : Nested) : Grammar :=
  node (.other "do_statement")
    (keyword "do" ++ nested .statement ++ keyword "while" ++ condition nested ++
      opt (statementEnd false))

/-! ## 6. Other statements -/

/-- The clause that takes an error. -/
def catchClause (nested : Nested) : Grammar :=
  node (.other "catch_clause")
    (keyword "catch" ++
      opt (between "("
        (role .pattern (bindingTarget nested) ++ opt (role .type (typeClause nested)))
        ")") ++
      role .body (block nested))

/-- `try`. -/
def tryStatement (nested : Nested) : Grammar :=
  node (.other "try_statement")
    (keyword "try" ++ role .body (block nested) ++ opt (catchClause nested) ++
      opt (node (.other "finally_clause") (keyword "finally" ++ role .body (block nested))))

/-- `break` or `continue`, with a label on the same line. -/
def jumpStatement (text : String) : Grammar :=
  node (.other "jump_statement") do
    let lead ← keyword text
    let label ← if ← sameStatement false then opt (word (.other "statement_identifier")) else nothing
    let end_ ← statementEnd false
    return lead ++ label ++ end_

/-- `return` or `throw`, with a value on the same line. -/
def resultStatement (nested : Nested) (text : String) (needsValue : Bool) : Grammar :=
  node (.other "result_statement") do
    let lead ← keyword text
    let here ← sameStatement false
    let value ←
      if needsValue then sequence nested
      else if here then opt (sequence nested) else nothing
    let end_ ← statementEnd (!value.isEmpty)
    return lead ++ value ++ end_

/-- A statement with a label. -/
def labeledStatement (nested : Nested) : Grammar :=
  node (.other "labeled_statement")
    (word (.other "statement_identifier") ++ mark ":" ++ nested .statement)

/-- An expression as a statement. -/
def expressionStatement (nested : Nested) : Grammar :=
  node .expressionStatement (sequence nested ++ statementEnd true)

/-- A namespace as a statement. -/
def namespaceStatement (nested : Nested) : Grammar :=
  node .expressionStatement
      (namespaceDeclaration nested "namespace" .namespaceBlock ++ statementEnd false) <|>
    namespaceDeclaration nested "namespace" .namespaceBlock

/-! ## 7. Statements -/

/-- A statement that starts with the word `text`, which is no name of a value here. -/
def reservedStatement? (nested : Nested) (text : String) : Option Grammar :=
  match text with
  | "if" => some (ifStatement nested)
  | "switch" => some (switchStatement nested)
  | "for" => some (forStatement nested)
  | "while" => some (whileStatement nested)
  | "do" => some (doStatement nested)
  | "try" => some (tryStatement nested)
  | "with" =>
    some (node (.other "with_statement")
      (keyword "with" ++ condition nested ++ nested .statement))
  | "break" | "continue" => some (jumpStatement text)
  | "return" => some (resultStatement nested "return" false)
  | "throw" => some (resultStatement nested "throw" true)
  | "debugger" => some (node (.other "debugger_statement") (keyword "debugger" ++ statementEnd false))
  | "var" | "const" | "enum" | "interface" | "abstract" => some (plainDeclaration nested text)
  | "case" | "default" => some refuse
  | _ => none

/-- A statement that starts with the word `text`, which may be a name too. -/
def contextualStatement (nested : Nested) (text : String) : Grammar :=
  match text with
  | "import" => importStatement nested <|> importAlias <|> expressionStatement nested
  | "export" => exportStatement (declaration nested) nested
  | "declare" => ambientDeclaration nested <|> expressionStatement nested
  | "namespace" => namespaceStatement nested <|> expressionStatement nested
  | "class" | "function" | "async" | "let" | "type" | "module" =>
    plainDeclaration nested text <|> expressionStatement nested
  | _ => expressionStatement nested

/-- A statement behind decorators. -/
def decoratedStatement (nested : Nested) : Grammar :=
  exportStatement (declaration nested) nested <|> declaration nested <|>
    expressionStatement nested

/-- A statement. -/
def statementRule (nested : Nested) : Grammar := within Context.statements do
  let t ← peek
  let next ← peekSecond
  match t.lexeme with
  | .word =>
    match reservedStatement? nested t.text with
    | some statement => statement
    | none =>
      if next.lexeme == .mark && next.text == ":" then labeledStatement nested
      else contextualStatement nested t.text
  | .mark =>
    if t.text == "\x7b" then block nested
    else if t.text == ";" then node (.other "empty_statement") (mark ";")
    else if t.text == "@" then decoratedStatement nested
    else expressionStatement nested
  | _ => expressionStatement nested

end ClassScript.Syntax
