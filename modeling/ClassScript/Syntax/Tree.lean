/-
  File:      ClassScript/Syntax/Tree.lean
  Subject:   The concrete syntax tree of a source text.

  A tree covers a range of bytes and has the trees of its parts as children,
  in order. Nothing but blanks lies between two children: keywords and
  punctuation are children of their own (`Kind.token`), and so are comments.
  A part that plays a named role in its parent says so (`Field`).

  A tree does not depend on how it was found. All that is said about
  declarations and emission is said about trees.

  * `Kind`, `Field`, `Tree`;
  * `Tree.named`, `Tree.part?`, `Tree.token?`: the children by form and role;
  * `Tree.text`, `Tree.position`: what stands in the source, and where.
-/
import ClassScript.Syntax.Source

namespace ClassScript.Syntax

/-- What a tree is. Only what some reading of a tree depends on has a constructor of its own. -/
inductive Kind where
  /-- A keyword or a punctuation mark. -/
  | token (text : String)
  | program
  | comment
  | decorator
  | namespaceBlock
  | moduleBlock
  | importAlias
  | accessModifier
  | overrideModifier
  | enumDecl
  | enumBody
  | enumAssignment
  | importStatement
  | importClause
  | importRequire
  | namespaceImport
  | namedImports
  | importSpecifier
  | exportStatement
  | exportClause
  | exportSpecifier
  | namespaceExport
  | asExpression
  | satisfiesExpression
  | nonNullExpression
  | classDecl
  | abstractClassDecl
  | classExpression
  | classHeritage
  | extendsClause
  | implementsClause
  | classBody
  | genericType
  | fieldDefinition
  | methodDefinition
  | methodSignature
  | abstractMethodSignature
  | indexSignature
  | propertySignature
  | requiredParameter
  | optionalParameter
  | interfaceDecl
  | typeAlias
  | ambientDecl
  | functionSignature
  | functionDecl
  | generatorDecl
  | functionExpression
  | arrowFunction
  | lexicalDecl
  | variableDecl
  | variableDeclarator
  | typeClause
  | typeParameters
  | typeArguments
  | assertsClause
  | predicateClause
  | expressionStatement
  | callExpression
  | superRef
  | thisRef
  | identifier
  | shorthandPattern
  | objectAssignmentPattern
  | assignmentPattern
  | pairPattern
  | objectPattern
  | arrayPattern
  | restPattern
  | stringLiteral
  | templateLiteral
  /-- Any other construct, by its name. -/
  | other (name : String)
  deriving DecidableEq, Repr, Inhabited

/-- Keywords and punctuation marks have no name. -/
def Kind.isNamed : Kind → Bool
  | .token _ => false
  | _ => true

/-- The role of a part in its parent. -/
inductive Field where
  | name
  | value
  | body
  | declaration
  | source
  | renamed
  | pattern
  | type
  | returnType
  | parameters
  | function
  | left
  deriving DecidableEq, Repr

/-- A part of the source: what it is, its role, its range of bytes, and its own parts. -/
inductive Tree where
  | node (kind : Kind) (field : Option Field) (start stop : Nat) (children : List Tree)
  deriving Repr, Inhabited

namespace Tree

def kind : Tree → Kind
  | node k _ _ _ _ => k

def field : Tree → Option Field
  | node _ f _ _ _ => f

/-- The offset of the first byte. -/
def start : Tree → Nat
  | node _ _ a _ _ => a

/-- The offset after the last byte. -/
def stop : Tree → Nat
  | node _ _ _ b _ => b

def children : Tree → List Tree
  | node _ _ _ _ cs => cs

/-- The tree in another role. -/
def inRole (f : Field) : Tree → Tree
  | node k _ a b cs => node k (some f) a b cs

def isNamed (t : Tree) : Bool := t.kind.isNamed

/-- The children that are no keywords or punctuation marks; comments are among them. -/
def named (t : Tree) : List Tree := t.children.filter isNamed

/-- The first child in the role `f`. -/
def part? (t : Tree) (f : Field) : Option Tree := t.children.find? fun c => c.field == some f

/-- The first child that is the keyword or punctuation mark `text`. -/
def token? (t : Tree) (text : String) : Option Tree :=
  t.children.find? fun c => c.kind == .token text

/-- The keyword or punctuation mark `text` is a child. -/
def hasToken (t : Tree) (text : String) : Bool := (t.token? text).isSome

/-- The text of a tree. -/
def text (src : Source) (t : Tree) : String := src.text t.start t.stop

/-- The place where a tree starts. -/
def position (src : Source) (t : Tree) : Position := src.position t.start

/-- The text of the child in the role `f`. -/
def partText? (src : Source) (f : Field) (t : Tree) : Option String := (t.part? f).map (text src)

/-- The text of the name, or the empty text. -/
def nameText (src : Source) (t : Tree) : String := (t.partText? src .name).getD ""

/-- The named children of the body. -/
def bodyParts (t : Tree) : List Tree :=
  match t.part? .body with
  | some body => body.named
  | none => []

end Tree
end ClassScript.Syntax
