/-
  File:      ClassScript/Syntax/Grammar/Types.lean
  Subject:   Types.

  From loose to tight: conditional types, unions, intersections, prefix
  operators, and suffixes for arrays and lookups. Types are never evaluated
  here, so all that counts is where a type ends.

  * `typeRule`, `typeOperandRule`: the two nested phrases;
  * `objectType`: the members between braces, also of an interface.
-/
import ClassScript.Syntax.Grammar.Signatures

namespace ClassScript.Syntax

open Reader

/-- `p`, possibly after one mark `separator`, and more of it after further ones. -/
def chain (kind : Kind) (separator : String) (p : Grammar) : Grammar := do
  let lead ← opt (mark separator)
  let first ← p
  let more ← many (mark separator ++ p)
  if lead.isEmpty && more.isEmpty then return first
  else node kind (pure (lead ++ first ++ more))

/-! ## 1. Object types -/

/-- The end of a member of an object type; before the closing brace none is needed. -/
def memberEnd : Grammar := do
  if ← atMark "\x7d" then nothing
  else markOf [",", ";"] <|> lineEnd ⟨false, false⟩

/-- `[x: K]`, or `[K in T as N]`, with the type of the value. -/
def indexSignature (nested : Nested) : Grammar :=
  node .indexSignature
    (opt (opt (markOf ["+", "-"]) ++ keyword "readonly") ++
      between "["
        (node (.other "mapped_type_clause")
            (role .name (word (.other "type_identifier")) ++ keyword "in" ++ nested .type ++
              opt (keyword "as" ++ nested .type)) <|>
          role .name identifier ++ mark ":" ++ nested .type) "]" ++
      role .type
        (node (.other "omitting_type_annotation") (mark "-" ++ mark "?" ++ mark ":" ++ nested .type) <|>
          node (.other "adding_type_annotation") (mark "+" ++ mark "?" ++ mark ":" ++ nested .type) <|>
          node (.other "opting_type_annotation") (mark "?" ++ mark ":" ++ nested .type) <|>
          typeClause nested))

/-- The head of a method: modifiers, name, and perhaps `?`. -/
def methodHead (nested : Nested) : Grammar :=
  opt accessModifier ++ opt (modifier ["static"]) ++ opt overrideModifier ++
    opt (modifier ["readonly"]) ++ opt (modifier ["async"]) ++
    opt (modifier ["get", "set"] <|> mark "*") ++
    role .name (propertyName nested) ++ opt (mark "?")

/-- One member of an object type. -/
def objectTypeMember (nested : Nested) : Grammar :=
  indexSignature nested <|>
    node .methodSignature (methodHead nested ++ callSignature nested) <|>
    node (.other "construct_signature")
      (opt (keyword "abstract") ++ keyword "new" ++ opt (typeParameters nested) ++
        role .parameters (parameters nested) ++ opt (role .type (typeClause nested))) <|>
    node .propertySignature
      (opt accessModifier ++ opt (modifier ["static"]) ++ opt overrideModifier ++
        opt (modifier ["readonly"]) ++ role .name (propertyName nested) ++ opt (mark "?") ++
        opt (role .type (typeClause nested))) <|>
    node (.other "call_signature") (callSignature nested)

/-- The members of an object type between braces. -/
def objectType (kind : Kind) (nested : Nested) : Grammar :=
  node kind
    (mark "\x7b" ++
      within Context.statements
        (opt (markOf [",", ";"]) ++ many (objectTypeMember nested ++ memberEnd)) ++
      mark "\x7d")

/-! ## 2. Primary types -/

/-- The names of built-in types. -/
def predefinedTypes : List String :=
  ["any", "number", "boolean", "string", "symbol", "void", "unknown", "never", "object"]

/-- One element of a tuple. -/
def tupleElement (nested : Nested) : Grammar :=
  node (.other "rest_type")
      (mark "..." ++ opt (word (.other "identifier") ++ mark ":") ++ nested .type) <|>
    node (.other "tuple_parameter")
      (role .name identifier ++ opt (mark "?") ++ role .type (typeClause nested)) <|>
    (do
      let element ← nested .type
      let asked ← opt (mark "?")
      if asked.isEmpty then return element
      else node (.other "optional_type") (pure (element ++ asked)))

/-- Names separated by points, perhaps with type arguments. -/
def typeReference (nested : Nested) : Grammar := do
  let first ← word (.other "type_identifier")
  let more ← many (mark "." ++ word (.other "type_identifier"))
  let name ←
    if more.isEmpty then pure first
    else node (.other "nested_type_identifier") (pure (first ++ more))
  let args ← opt (typeArguments nested)
  if args.isEmpty then return name
  else node .genericType (pure (name.map (Tree.inRole .name) ++ args))

/-- `import("x").A.B`. -/
def importType (nested : Nested) : Grammar :=
  node (.other "import_type")
    (keyword "import" ++ between "(" (nested .type) ")" ++
      many (mark "." ++ word (.other "type_identifier")) ++ opt (typeArguments nested))

/-- `typeof x.y`. -/
def typeQuery (nested : Nested) : Grammar :=
  node (.other "type_query")
    (keyword "typeof" ++ (importType nested <|> word .identifier) ++
      many (markOf [".", "?."] ++ (word (.other "property_identifier") <|> privateName)) ++
      opt (typeArguments nested))

/-- The pieces of a template between its backticks, with `hole` in each substitution. -/
def templatePieces (hole : Grammar) : Nat → Nat → Grammar
  | 0, _ => refuse
  | fuel + 1, i => do
    let c ← context
    match templatePieceEnd? c.source (c.source.size - i + 1) i with
    | none => refuse
    | some j =>
      let piece : List Tree := if i < j then [.node (.other "string_fragment") none i j []] else []
      moveTo j
      if c.source.byte j = 96 then
        moveTo (j + 1)
        return piece ++ [.node (.token "\x60") none j (j + 1) []]
      else
        moveTo (j + 2)
        let opening : Tree := .node (.token "$\x7b") none j (j + 2) []
        let inner ← within Context.bracketed hole
        let closing ← mark "\x7d"
        let stop ← place
        let more ← templatePieces hole fuel stop
        return piece ++
          [.node (.other "template_substitution") none j stop (opening :: inner ++ closing)] ++ more

/-- A template, with `hole` in each substitution. -/
def template (kind : Kind) (hole : Grammar) : Grammar :=
  node kind do
    let tick ← leaf (fun _ => .token "\x60") fun t => t.lexeme == .backtick
    let c ← context
    let i ← place
    let pieces ← templatePieces hole (c.source.size + 1) i
    return tick ++ pieces

/-- A type that starts with a word. -/
def wordType (nested : Nested) (text : String) : Grammar :=
  if text == "typeof" then typeQuery nested
  else if text == "import" then importType nested
  else if text == "this" then word (.other "this_type")
  else if predefinedTypes.contains text then word (.other "predefined_type")
  else if ["true", "false", "null", "undefined"].contains text then
    node (.other "literal_type") (word (.other text))
  else typeReference nested

/-- A type without operators. -/
def primaryType (nested : Nested) : Grammar := do
  let t ← peek
  match t.lexeme with
  | .word => wordType nested t.text
  | .quoted => node (.other "literal_type") stringLiteral
  | .number => node (.other "literal_type") numberLiteral
  | .backtick => template (.other "template_literal_type") (nested .type)
  | .mark =>
    if t.text == "(" then
      node (.other "parenthesized_type") (between "(" (nested .type) ")")
    else if t.text == "\x7b" then objectType (.other "object_type") nested
    else if t.text == "[" then
      node (.other "tuple_type") (between "[" (commaList (tupleElement nested)) "]")
    else if t.text == "-" || t.text == "+" then
      node (.other "literal_type") (markOf ["-", "+"] ++ numberLiteral)
    else refuse
  | _ => refuse

/-- The array and lookup suffixes of the type `type`. -/
def typeSuffixes (nested : Nested) : Nat → List Tree → Grammar
  | 0, type => pure type
  | fuel + 1, type => do
    if (← atMark "[") && (← sameStatement false) then
      let longer ←
        node (.other "array_type") (pure type ++ mark "[" ++ mark "]") <|>
          node (.other "lookup_type") (pure type ++ between "[" (nested .type) "]")
      typeSuffixes nested fuel longer
    else return type

/-! ## 3. Operators -/

/-- A type with its prefix operators. -/
def typeOperandRule (nested : Nested) : Grammar := do
  let t ← peek
  let next ← peekSecond
  let operand := next.lexeme != .mark || ["(", "[", "\x7b"].contains next.text
  if t.lexeme == .word && ["keyof", "unique", "readonly"].contains t.text && operand &&
      next.lexeme != .finish then
    node (.other "type_operator") (keyword t.text ++ nested .typeOperand)
  else if t.lexeme == .word && t.text == "infer" && next.lexeme == .word then
    node (.other "infer_type")
      (keyword "infer" ++ word (.other "type_identifier") ++
        opt (keyword "extends" ++ nested .typeOperand))
  else
    let c ← context
    let type ← primaryType nested
    typeSuffixes nested (c.source.size + 1) type

/-- The type of a function or of a constructor. -/
def functionType (nested : Nested) : Grammar :=
  node (.other "function_type")
    (opt (typeParameters nested) ++ role .parameters (parameters nested) ++ mark "=>" ++
      role .returnType
        (assertion nested <|> typePredicate nested <|> nested .type)) <|>
    node (.other "constructor_type")
      (opt (keyword "abstract") ++ keyword "new" ++ opt (typeParameters nested) ++
        role .parameters (parameters nested) ++ mark "=>" ++ nested .type)

/-- True where a function or constructor type may start. -/
def mayStartFunctionType : Reader Bool := do
  let t ← peek
  let next ← peekSecond
  return match t.lexeme with
    | .mark => t.text == "(" || t.text == "<"
    | .word =>
      (t.text == "new" && next.lexeme == .mark && (next.text == "(" || next.text == "<")) ||
        (t.text == "abstract" && next.lexeme == .word && next.text == "new")
    | _ => false

/-- Unions of intersections, perhaps with a condition. -/
def conditionalType (nested : Nested) : Grammar := do
  let left ←
    chain (.other "union_type") "|"
      (chain (.other "intersection_type") "&"
        (do
          if ← mayStartFunctionType then functionType nested <|> nested .typeOperand
          else nested .typeOperand))
  if (← atWord "extends") && (← sameStatement false) then
    node (.other "conditional_type")
        (pure left ++ keyword "extends" ++ nested .type ++ mark "?" ++
          within (fun c => { c with mayEnd := false }) (nested .type) ++ mark ":" ++
          nested .type) <|>
      pure left
  else return left

/-- A type. -/
def typeRule (nested : Nested) : Grammar := conditionalType nested

end ClassScript.Syntax
