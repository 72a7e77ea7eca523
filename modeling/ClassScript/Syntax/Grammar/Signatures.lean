/-
  File:      ClassScript/Syntax/Grammar/Signatures.lean
  Subject:   Names, modifiers, parameters, and the signatures made of them.

  Many words are modifiers in one place and names in another: `readonly x` and
  `readonly: number`. A word is read as a modifier when something that can go
  on with the member follows it in the same statement.

  * `propertyName`, `modifier`: names and modifiers of members;
  * `parameters`: a list of parameters;
  * `callSignature`: type parameters, parameters and return type.
-/
import ClassScript.Syntax.Grammar

namespace ClassScript.Syntax

open Reader

/-! ## 1. Names -/

/-- A word as a name that is used or declared. -/
def identifier : Grammar := word .identifier

/-- A literal text. -/
def stringLiteral : Grammar := leaf (fun _ => .stringLiteral) fun t => t.lexeme == .quoted

/-- A number. -/
def numberLiteral : Grammar := leaf (fun _ => .other "number") fun t => t.lexeme == .number

/-- A name that starts with `#`. -/
def privateName : Grammar :=
  leaf (fun _ => .other "private_property_identifier") fun t => t.lexeme == .privateName

/-- An expression in brackets as a name. -/
def computedName (nested : Nested) : Grammar :=
  node (.other "computed_property_name") (between "[" (nested .expression) "]")

/-- The name of a member or of an object's field. -/
def propertyName (nested : Nested) : Grammar :=
  word (.other "property_identifier") <|> privateName <|> stringLiteral <|> numberLiteral <|>
    computedName nested

/-! ## 2. Modifiers -/

/-- A name, or a mark of `marks`, follows in the same statement. -/
def nameFollows (marks : List String) : Reader Bool := do
  let t ← peek
  let here ← sameStatement false
  return here &&
    match t.lexeme with
    | .word | .privateName | .quoted | .number => true
    | .mark => marks.contains t.text
    | _ => false

/-- One of the words `texts` as a modifier, if a name or a mark of `marks` follows. -/
def modifierBefore (marks texts : List String) (kind : Token → Kind) : Grammar := do
  let trees ← leaf kind fun t => t.lexeme == .word && texts.contains t.text
  if ← nameFollows marks then return trees else refuse

/-- What may follow a modifier of a member: a computed name, or a generator's star. -/
def memberMarks : List String := ["[", "*"]

/-- One of the words `texts` as a modifier of a member. -/
def modifier (texts : List String) : Grammar :=
  modifierBefore memberMarks texts fun t => .token t.text

/-- The words that say who may use a member. -/
def accessWords : List String := ["public", "private", "protected"]

/-- An access modifier of a member. -/
def accessModifier : Grammar := modifierBefore memberMarks accessWords fun _ => .accessModifier

/-- The modifier `override` of a member. -/
def overrideModifier : Grammar := modifierBefore memberMarks ["override"] fun _ => .overrideModifier

/-! ## 3. Annotations -/

/-- A colon and a type. -/
def typeClause (nested : Nested) : Grammar :=
  node .typeClause (mark ":" ++ nested .type)

/-- A name, or `this`. -/
def predicateSubject : Grammar :=
  leaf (fun t => if t.text == "this" then .thisRef else .identifier) fun t => t.lexeme == .word

/-- `x is T`. -/
def typePredicate (nested : Nested) : Grammar :=
  node (.other "type_predicate") do
    let subject ← predicateSubject
    if ← sameStatement false then
      let rest ← keyword "is" ++ nested .type
      return subject ++ rest
    else refuse

/-- `asserts x`, `asserts x is T`. -/
def assertion (nested : Nested) : Grammar :=
  node (.other "asserts") do
    let lead ← keyword "asserts"
    if ← sameStatement false then
      let subject ← typePredicate nested <|> predicateSubject
      return lead ++ subject
    else refuse

/-- The annotation of what a function returns. -/
def returnClause (nested : Nested) : Grammar :=
  node .assertsClause (mark ":" ++ assertion nested) <|>
    node .predicateClause (mark ":" ++ typePredicate nested) <|>
    typeClause nested

/-! ## 4. Arguments and decorators -/

/-- Type arguments between angles. -/
def typeArguments (nested : Nested) : Grammar :=
  node .typeArguments
    (mark "<" ++
      within Context.bracketed
        (separated (mark ",") (nested .type) ++ opt (mark ",")) ++
      closeAngle)

/-- The arguments of a call. -/
def arguments (nested : Nested) : Grammar :=
  node (.other "arguments")
    (between "(" (commaList
      (node (.other "spread_element") (mark "..." ++ nested .expression) <|>
        nested .expression)) ")")

/-- What a decorator names: a name or a member, perhaps called. -/
def decoratorTarget (nested : Nested) : Grammar := do
  let first ← identifier
  let members ← many (mark "." ++ word (.other "property_identifier"))
  let callee ←
    if members.isEmpty then pure first
    else node (.other "member_expression") (pure (first ++ members))
  let call ← opt (opt (typeArguments nested) ++ arguments nested)
  if call.isEmpty then return callee
  else node .callExpression (pure (callee.map (Tree.inRole .function) ++ call))

/-- A decorator: `@`, and a name, a member, a call, or an expression in brackets. -/
def decorator (nested : Nested) : Grammar :=
  node .decorator do
    let sign ← mark "@"
    let target ←
      if ← atMark "(" then
        node (.other "parenthesized_expression") (between "(" (nested .expression) ")")
      else decoratorTarget nested
    return sign ++ target

/-! ## 5. Parameters -/

/-- An expression that gives a first value. -/
def initializer (nested : Nested) : Grammar := mark "=" ++ role .value (nested .expression)

/-- A word as a modifier of a parameter: a name, a pattern or a rest follows. -/
def parameterModifier (texts : List String) (kind : Token → Kind) : Grammar :=
  modifierBefore ["[", "\x7b", "..."] texts kind

/-- What a parameter binds: `this`, a rest, a name or a pattern. -/
def parameterTarget (nested : Nested) : Grammar :=
  node .restPattern (mark "..." ++ nested .pattern) <|>
    (do
      if ← atWord "this" then word .thisRef else nested .pattern)

/-- One parameter. -/
def parameter (nested : Nested) : Grammar := do
  let lead ←
    many (decorator nested) ++
      opt (parameterModifier accessWords fun _ => .accessModifier) ++
      opt (parameterModifier ["override"] fun _ => .overrideModifier) ++
      opt (parameterModifier ["readonly"] fun t => .token t.text)
  let target ← role .pattern (parameterTarget nested)
  let asked ← opt (mark "?")
  let rest ← opt (role .type (typeClause nested)) ++ opt (initializer nested)
  let kind := if asked.isEmpty then Kind.requiredParameter else .optionalParameter
  node kind (pure (lead ++ target ++ asked ++ rest))

/-- Parameters in brackets. -/
def parameters (nested : Nested) : Grammar :=
  node (.other "formal_parameters") (between "(" (commaList (parameter nested)) ")")

/-! ## 6. Type parameters and signatures -/

/-- One type parameter: a name, perhaps a bound, perhaps a default. -/
def typeParameter (nested : Nested) : Grammar :=
  node (.other "type_parameter")
    (opt (modifierBefore [] ["const"] fun t => .token t.text) ++
      role .name (word (.other "type_identifier")) ++
      opt (node (.other "constraint") (keyword "extends" ++ nested .type)) ++
      opt (node (.other "default_type") (mark "=" ++ nested .type)))

/-- Type parameters between angles. -/
def typeParameters (nested : Nested) : Grammar :=
  node .typeParameters
    (mark "<" ++
      within Context.bracketed
        (separated (mark ",") (typeParameter nested) ++ opt (mark ",")) ++
      closeAngle)

/-- Type parameters, parameters and return type of a function. -/
def callSignature (nested : Nested) : Grammar :=
  opt (typeParameters nested) ++ role .parameters (parameters nested) ++
    opt (role .returnType (returnClause nested))

end ClassScript.Syntax
