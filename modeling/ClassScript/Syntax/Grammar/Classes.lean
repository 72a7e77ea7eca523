/-
  File:      ClassScript/Syntax/Grammar/Classes.lean
  Subject:   Classes, declared and in expressions.

  A member without a body is a signature, and has to end like a field does.
  The semicolon behind a field or a signature is a part of the body of the
  class. The decorators of a field belong to the field, and those of a method
  stand before it in the body.

  * `classExpression`, `classDeclaration`, `abstractClassDeclaration`;
  * `classBody`: the members between braces.
-/
import ClassScript.Syntax.Grammar.Expressions

namespace ClassScript.Syntax

open Reader

/-! ## 1. Heritage -/

/-- One superclass, with its type arguments. -/
def superclass (nested : Nested) : Grammar :=
  role .value
      (within (fun c => { c with mayEnd := false, allowInstance := false }) (nested .unary)) ++
    opt (typeArguments nested)

/-- What a class extends. -/
def extendsClause (nested : Nested) : Grammar :=
  node .extendsClause (keyword "extends" ++ separated (mark ",") (superclass nested))

/-- What a class implements. -/
def implementsClause (nested : Nested) : Grammar :=
  node .implementsClause (keyword "implements" ++ separated (mark ",") (nested .type))

/-- What a class extends and implements. -/
def classHeritage (nested : Nested) : Grammar :=
  node .classHeritage
    (extendsClause nested ++ opt (implementsClause nested) <|> implementsClause nested)

/-! ## 2. Members -/

/-- The end of a field or a signature of a class. -/
def classMemberEnd (end_ : EndContext) : Grammar := markOf [";", ","] <|> lineEnd end_

/-- A block that runs when the class is set up. -/
def staticBlock (nested : Nested) : Grammar :=
  node (.other "class_static_block") (keyword "static" ++ role .body (block nested))

/-- A method, with its body or without. -/
def method (nested : Nested) : Grammar := do
  let head ← methodHead nested ++ callSignature nested
  if ← atMark "\x7b" then
    node .methodDefinition (pure head ++ role .body (block nested))
  else
    node .methodSignature (pure head) ++ classMemberEnd ⟨false, true⟩

/-- A method that subclasses have to give. -/
def abstractMethod (nested : Nested) : Grammar :=
  node .abstractMethodSignature
      (opt accessModifier ++ modifier ["abstract"] ++ opt overrideModifier ++
        opt (modifier ["get", "set"] <|> mark "*") ++ role .name (propertyName nested) ++
        opt (mark "?") ++ callSignature nested) ++
    classMemberEnd ⟨false, false⟩

/-- The modifiers of a field. -/
def fieldModifiers : Grammar :=
  opt (modifier ["declare"] ++ opt accessModifier <|> accessModifier ++ opt (modifier ["declare"])) ++
    (modifier ["static"] ++ opt overrideModifier ++ opt (modifier ["readonly"]) <|>
      overrideModifier ++ opt (modifier ["readonly"]) <|>
      modifier ["abstract"] ++ opt (modifier ["readonly"]) <|>
      modifier ["readonly"] ++ opt (modifier ["abstract"]) <|>
      modifier ["accessor"] <|> nothing)

/-- A field. -/
def fieldDefinition (nested : Nested) : Grammar := do
  let head ←
    many (decorator nested) ++ fieldModifiers ++ role .name (propertyName nested) ++
      opt (markOf ["?", "!"]) ++ opt (role .type (typeClause nested))
  let value ← opt (initializer nested)
  node .fieldDefinition (pure (head ++ value)) ++ classMemberEnd ⟨!value.isEmpty, false⟩

/-- A decorated method: the decorators stand before it. -/
def decoratedMethod (nested : Nested) : Grammar := do
  let decorators ← decorator nested ++ many (decorator nested)
  let member ← method nested
  if member.any (fun t => t.kind == .methodDefinition) then return decorators ++ member
  else refuse

/-- One member of a class, or a semicolon. -/
def classMember (nested : Nested) : Grammar := do
  if ← atMark ";" then mark ";"
  else if ← atMark "@" then decoratedMethod nested <|> fieldDefinition nested
  else
    staticBlock nested <|> indexSignature nested ++ classMemberEnd ⟨false, false⟩ <|>
      method nested <|> abstractMethod nested <|> fieldDefinition nested

/-- The members of a class between braces. -/
def classBody (nested : Nested) : Grammar :=
  node .classBody
    (mark "\x7b" ++ within Context.statements (many (classMember nested)) ++ mark "\x7d")

/-! ## 3. Classes -/

/-- The name of a class. -/
def className : Grammar :=
  role .name (leaf (fun _ => .other "type_identifier") fun t =>
    t.lexeme == .word && t.text != "extends" && t.text != "implements")

/-- What follows the name of a class. -/
def classTail (nested : Nested) : Grammar :=
  opt (typeParameters nested) ++ opt (classHeritage nested) ++ role .body (classBody nested)

/-- A class in an expression, with a name or without. -/
def classExpression (nested : Nested) : Grammar :=
  node .classExpression
    (many (decorator nested) ++ keyword "class" ++ opt className ++ classTail nested)

/-- The declaration of a class. A line break behind it belongs to it. -/
def classDeclaration (nested : Nested) : Grammar :=
  node .classDecl
    (many (decorator nested) ++ keyword "class" ++ className ++ classTail nested ++ optionalEnd)

/-- The declaration of an abstract class. -/
def abstractClassDeclaration (nested : Nested) : Grammar :=
  node .abstractClassDecl
    (many (decorator nested) ++ keyword "abstract" ++ keyword "class" ++ className ++
      classTail nested)

end ClassScript.Syntax
