/-
  File:      ClassScript/Proofs/Emission/Types.lean
  Subject:   The type syntax of a program, and what else may go with it.

  Which bytes of a program belong to types is said here by the kinds and the
  parts of its trees, without a word about emission. Some statements are
  written anew in a script and keep no byte of theirs: imports, enums, and
  exports of names.

  * `typeRanges`: the type syntax that a tree is or has among its parts;
  * `treated`: the trees outside of enums and assignments to all exports;
  * `InTypes`, `InRewritten`: a byte belongs to types, or to what else goes;
  * `nameParts`: the parts of a program that name something;
  * `Grammatical`: what the grammar says about imports, exports and names.
-/
import ClassScript.Proofs.Emission.Layout

namespace ClassScript.Emission

open Syntax (Source Tree Kind)

/-! ## 1. Types -/

/-- A tree of this kind is type syntax as a whole. -/
def isTypeSyntax : Kind → Bool
  | .typeClause | .typeParameters | .typeArguments | .assertsClause | .predicateClause
  | .implementsClause | .interfaceDecl | .typeAlias | .ambientDecl | .functionSignature
  | .abstractMethodSignature | .methodSignature | .indexSignature
  | .accessModifier | .overrideModifier => true
  | _ => false

/-- The range of a tree. -/
def rangeOf (t : Tree) : Nat × Nat := (t.start, t.stop)

/-- The type syntax that a tree is, or has among its parts: modifiers, the mark that excludes
    null, and the type behind the operand of a cast. -/
def typeRanges (t : Tree) : List (Nat × Nat) :=
  match t.kind with
  | .fieldDefinition =>
    if isTypeOnlyField t then [rangeOf t] else (t.children.filter isErasedWord).map rangeOf
  | .requiredParameter | .optionalParameter | .variableDeclarator | .methodDefinition =>
    (t.children.filter isErasedWord).map rangeOf
  | .nonNullExpression => ((t.token? "!").map rangeOf).toList
  | .abstractClassDecl => ((t.token? "abstract").map rangeOf).toList
  | .asExpression | .satisfiesExpression =>
    ((t.children.find? Tree.isNamed).map fun operand => (operand.stop, t.stop)).toList
  | kind => if isTypeSyntax kind then [rangeOf t] else []

/-- A tree is an assignment to all exports. -/
def isExportAssignment (t : Tree) : Bool := t.kind == .exportStatement && t.hasToken "="

mutual

/-- The trees in a tree that are not in an enum or an assignment to all exports. -/
def treated : Tree → List Tree
  | .node kind role start stop parts =>
    let t : Tree := .node kind role start stop parts
    if t.kind == .enumDecl || isExportAssignment t then [] else t :: treatedOfAll parts

/-- The trees in some trees that are not in an enum or an assignment to all exports. -/
def treatedOfAll : List Tree → List Tree
  | [] => []
  | c :: cs => treated c ++ treatedOfAll cs

end

/-- The byte at `i` lies in a range. -/
def Within (i : Nat) (r : Nat × Nat) : Prop := r.1 ≤ i ∧ i < r.2

/-- The byte at `i` belongs to type syntax among some trees. -/
def InTypes (ts : List Tree) (i : Nat) : Prop := ∃ t ∈ ts, ∃ r ∈ typeRanges t, Within i r

/-! ## 2. What else goes -/

/-- A keyword, a mark or a comment. -/
def isPlain (t : Tree) : Bool := !t.isNamed || t.kind == .comment

/-- An export has a declaration or a value. -/
def hasExported (t : Tree) : Bool := (t.part? .declaration).isSome || (t.part? .value).isSome

/-- The ranges of a tree that are written anew: of an import, an enum, an export without a
    declaration and a value, and else the keywords, marks and comments of an export. -/
def rewrittenRanges (t : Tree) : List (Nat × Nat) :=
  match t.kind with
  | .importStatement | .enumDecl => [rangeOf t]
  | .exportStatement =>
    if hasExported t then (t.children.filter isPlain).map rangeOf else [rangeOf t]
  | _ => []

/-- A tree is a member of a class without a counterpart in a script. -/
def isTypeOnlyMember (t : Tree) : Bool :=
  match t.kind with
  | .abstractMethodSignature | .methodSignature | .indexSignature => true
  | .fieldDefinition => isTypeOnlyField t
  | _ => false

/-- The end of a parameter with the comma behind it. -/
def parameterEnd (t : Tree) (following : List Tree) : Nat :=
  match following with
  | [] => t.stop
  | next :: _ => if next.kind = .token "," then next.stop else t.stop

/-- The mark behind a part, if it ends a member. -/
def markOf (following : List Tree) : List Tree := (following.take 1).filter endsMember

/-- The ranges that go with the part `t` in front of `following`: a parameter that gives the type
    of `this`, with its comma, and the mark that ends a member without a counterpart. -/
def attachedRanges (t : Tree) (following : List Tree) : List (Nat × Nat) :=
  (if isParameter t && isThisParameter t then [(t.start, parameterEnd t following)] else []) ++
    if isTypeOnlyMember t then (markOf following).map rangeOf else []

/-- The byte at `i` belongs to what is written anew among some trees, or to what goes with a type
    among their parts. -/
def InRewritten (ts : List Tree) (i : Nat) : Prop :=
  ∃ t ∈ ts, (∃ r ∈ rewrittenRanges t, Within i r) ∨
    ∃ p ∈ withFollowing t.children, ∃ r ∈ attachedRanges p.1 p.2, Within i r

/-! ## 3. Names, imports and exports of the grammar -/

/-- An import has a source, is marked as one of types, or requires its module. -/
def isImportOfGrammar (src : Source) (t : Tree) : Bool :=
  t.hasToken "type" || t.hasToken "typeof" || (namedPart? .importRequire t).isSome ||
    (sourceName? src t).isSome

/-- A part is the declaration or the value of an export. -/
def isExportedPart (t : Tree) : Bool := t.field == some .declaration || t.field == some .value

/-- An export that has a declaration or a value has one of them, is not marked as one of types,
    and has nothing else but keywords, marks, comments and decorators, from its start to its end. -/
def isExportOfGrammar (t : Tree) : Bool :=
  !hasExported t ||
    (!(t.hasToken "type" || t.hasToken "namespace" || t.hasToken "=") &&
      (t.children.filter isExportedPart).length == 1 &&
      (t.children.all fun c => isPlain c || c.kind == .decorator || isExportedPart c) &&
      t.children.head?.map Tree.start == some t.start &&
      t.children.getLast?.map Tree.stop == some t.stop)

/-- The declaration of an export declares variables, a name that is no keyword, or nothing for a
    script. -/
def isDeclaration (t : Tree) : Bool :=
  match t.kind with
  | .lexicalDecl | .variableDecl | .interfaceDecl | .typeAlias | .ambientDecl | .functionSignature
  | .namespaceBlock | .moduleBlock | .importAlias => true
  | .classDecl | .abstractClassDecl | .functionDecl | .generatorDecl | .enumDecl =>
    (t.part? .name).all Tree.isNamed
  | _ => false

/-- A tree is a declaration of variables. -/
def isVariableDecl (t : Tree) : Bool := t.kind == .lexicalDecl || t.kind == .variableDecl

/-- A part of a declaration of variables is a declarator or a comment. -/
def isVariable (t : Tree) : Bool := t.kind == .variableDeclarator || t.kind == .comment

/-- The parts of a tree that name something outside of types: a module, what is imported,
    exported or declared, and a name in a pattern is one itself. -/
def nameParts (t : Tree) : List Tree :=
  match t.kind with
  | .identifier | .shorthandPattern => [t]
  | .importStatement | .importRequire | .exportStatement => (t.part? .source).toList
  | .importSpecifier | .exportSpecifier =>
    (t.part? .name).toList ++ (t.part? .renamed).toList
  | .namespaceImport | .namespaceExport => t.named.head?.toList
  | .classDecl | .abstractClassDecl | .functionDecl | .generatorDecl | .enumDecl
  | .namespaceBlock | .moduleBlock | .importAlias => (t.part? .name).toList
  | _ => []

/-- The imports, exports and declarations of a program are those of the grammar. Comments have no
    parts, and names no types in them. -/
structure Grammatical (src : Source) (root : Tree) : Prop where
  program : root.kind = .program
  imports : ∀ t ∈ root.nodes, t.kind = .importStatement → isImportOfGrammar src t = true
  exports : ∀ t ∈ root.nodes, t.kind = .exportStatement → isExportOfGrammar t = true
  declarations : ∀ t ∈ root.nodes, t.kind = .exportStatement →
    (t.part? .declaration).all isDeclaration = true
  declarators : ∀ t ∈ root.nodes, isVariableDecl t = true → t.named.all isVariable = true
  comments : ∀ t ∈ root.nodes, t.kind = .comment → t.children = []
  names : ∀ t ∈ root.nodes, ∀ u ∈ nameParts t, ∀ n ∈ u.nodes, typeRanges n = []

instance (src : Source) (root : Tree) : Decidable (Grammatical src root) :=
  decidable_of_iff
    (root.kind = .program ∧
      (∀ t ∈ root.nodes, t.kind = .importStatement → isImportOfGrammar src t = true) ∧
      (∀ t ∈ root.nodes, t.kind = .exportStatement → isExportOfGrammar t = true) ∧
      (∀ t ∈ root.nodes, t.kind = .exportStatement →
        (t.part? .declaration).all isDeclaration = true) ∧
      (∀ t ∈ root.nodes, isVariableDecl t = true → t.named.all isVariable = true) ∧
      (∀ t ∈ root.nodes, t.kind = .comment → t.children = []) ∧
      ∀ t ∈ root.nodes, ∀ u ∈ nameParts t, ∀ n ∈ u.nodes, typeRanges n = [])
    ⟨fun ⟨h₁, h₂, h₃, h₄, h₅, h₆, h₇⟩ => ⟨h₁, h₂, h₃, h₄, h₅, h₆, h₇⟩,
      fun ⟨h₁, h₂, h₃, h₄, h₅, h₆, h₇⟩ => ⟨h₁, h₂, h₃, h₄, h₅, h₆, h₇⟩⟩

end ClassScript.Emission
