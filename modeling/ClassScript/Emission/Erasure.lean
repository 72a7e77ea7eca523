/-
  File:      ClassScript/Emission/Erasure.lean
  Subject:   The edits that turn a typed program into a script.

  Types go, and what only types need: annotations, interfaces, overloads,
  modifiers. Enums, imports, exports and parameters that declare properties
  are lowered. All the rest stays as it is written.

  What becomes of a part depends on its kind (`Treatment`), its own parts, and
  what follows it in its parent.

  * `Treatment`, `treatment`: what becomes of a part, by its kind;
  * `emit`: the edits of a tree, or the first construct that has none.
-/
import ClassScript.Emission.Export
import ClassScript.Emission.Initialization

namespace ClassScript.Emission

open Syntax (Source Tree Kind)

/-! ## 1. Treatments -/

/-- What becomes of a part. -/
inductive Treatment where
  /-- It goes. -/
  | dropped
  /-- It goes, with its lines if it stands alone. -/
  | droppedStatement
  /-- It goes, with the mark that ends it. -/
  | droppedMember
  /-- It goes, with the blanks behind it. -/
  | droppedWord
  | refused (construct : Construct)
  | enumDecl
  | importStatement
  | exportStatement
  /-- Only its first part stays. -/
  | cast
  | nonNull
  | abstractClass
  | field
  | parameter
  | declarator
  | method
  /-- It stays; its parts are treated. -/
  | kept
  deriving DecidableEq, Repr

/-- What becomes of a part of the kind `kind`. -/
def treatment : Kind → Treatment
  | .typeClause | .typeParameters | .typeArguments | .assertsClause
  | .predicateClause | .implementsClause => .dropped
  | .interfaceDecl | .typeAlias | .ambientDecl | .functionSignature => .droppedStatement
  | .abstractMethodSignature | .indexSignature | .methodSignature => .droppedMember
  | .decorator => .refused .decorator
  | .namespaceBlock | .moduleBlock => .refused .namespaceBlock
  | .importAlias => .refused .importAlias
  | .accessModifier | .overrideModifier => .droppedWord
  | .enumDecl => .enumDecl
  | .importStatement => .importStatement
  | .exportStatement => .exportStatement
  | .asExpression | .satisfiesExpression => .cast
  | .nonNullExpression => .nonNull
  | .abstractClassDecl => .abstractClass
  | .fieldDefinition => .field
  | .requiredParameter | .optionalParameter => .parameter
  | .variableDeclarator => .declarator
  | .methodDefinition => .method
  | _ => .kept

/-! ## 2. Words that go -/

/-- The modifiers of fields, parameters, variables and methods that go. -/
def isErasedWord (t : Tree) : Bool :=
  t.kind == .token "readonly" || t.kind == .token "?" || t.kind == .token "!"

/-- The edits that take modifiers out of a list of parts. -/
def eraseWords (src : Source) : List Tree → List Edit
  | [] => []
  | c :: cs => (if isErasedWord c then [dropWord src c cs] else []) ++ eraseWords src cs

/-- The edit that takes the word `text` out of a list of parts. -/
def eraseWord (src : Source) (text : String) : List Tree → List Edit
  | [] => []
  | c :: cs => if c.kind = .token text then [dropWord src c cs] else eraseWord src text cs

/-- The edit that takes a parameter out, with the comma behind it. -/
def dropParameter (t : Tree) (following : List Tree) : Edit :=
  match following with
  | comma :: next :: _ =>
    if comma.kind = .token "," then .removal t.start next.start else drop t
  | _ => drop t

/-- A parameter gives the type of `this`. -/
def isThisParameter (t : Tree) : Bool := (t.part? .pattern).any (·.kind == .thisRef)

/-- A field has no counterpart in a script. -/
def isTypeOnlyField (t : Tree) : Bool := t.hasToken "declare" || t.hasToken "abstract"

/-- A method is the constructor of a class. -/
def isConstructor (src : Source) (t : Tree) : Bool := t.partText? src .name == some "constructor"

/-! ## 3. Exports -/

/-- The first decorator of an export. -/
def exportDecorator? (t : Tree) : Option Tree := t.named.find? (·.kind == .decorator)

/-- The forms of exports, by what is left of them. -/
inductive ExportForm where
  | typeOnly
  | decorated (decorator : Tree)
  | declaration (declaration : Tree)
  | value (value : Tree)
  | assignment
  | names

/-- The form of an export. -/
def exportForm (t : Tree) : ExportForm :=
  if t.hasToken "type" || t.hasToken "namespace" then .typeOnly
  else
    match exportDecorator? t, t.part? .declaration, t.part? .value with
    | some decorator, _, _ => .decorated decorator
    | none, some declaration, _ => .declaration declaration
    | none, none, some value => .value value
    | none, none, none => if t.hasToken "=" then .assignment else .names

/-- The semicolon behind an exported value that has none. -/
def valueEnd (src : Source) (t : Tree) : List Edit :=
  if (Text.trimEnd (t.text src)).toList.getLast? = some ';' then [] else [.insertion t.stop ";"]

/-- The edit behind an exported declaration. -/
def declarationEnd (src : Source) (t declaration : Tree) : List Edit :=
  let tail := exportTail (t.hasToken "default") (declaredNames src declaration)
  if tail.isEmpty then [] else [.insertion t.stop tail]

/-! ## 4. Emission -/

mutual

/-- The emission of a tree with the parts `following` behind it in its parent. -/
def emit (src : Source) (following : List Tree) : Tree → Except EmissionError Emission
  | .node kind role start stop parts =>
    let t : Tree := .node kind role start stop parts
    match treatment kind with
    | .dropped => .ok (.ofEdit (drop t))
    | .droppedStatement => .ok (.ofEdit (dropStatement src t))
    | .droppedMember => .ok (.ofEdit (dropMember src t following))
    | .droppedWord => .ok (.ofEdit (dropWord src t following))
    | .refused construct => .error (.unsupported construct (t.position src))
    | .enumDecl => lowerEnum src t
    | .importStatement => .ok (lowerImport src t)
    | .exportStatement =>
      match exportForm t with
      | .typeOnly => .ok (.modules ++ .ofEdit (dropStatement src t))
      | .decorated decorator => .error (.unsupported .decorator (decorator.position src))
      | .declaration declaration =>
        if treatment declaration.kind = .droppedStatement then
          .ok (.modules ++ .ofEdit (dropStatement src t))
        else
          (emitFirst src (fun c => c.field == some .declaration) parts).map fun inner =>
            .modules ++ .ofEdit (.removal start declaration.start) ++ inner ++
              .ofEdits (declarationEnd src t declaration)
      | .value value =>
        (emitFirst src (fun c => c.field == some .value) parts).map fun inner =>
          .modules ++ .ofEdit ⟨start, value.start, "exports.default = "⟩ ++
            .ofEdits (valueEnd src t) ++ inner
      | .assignment =>
        match parts.find? Tree.isNamed with
        | some value =>
          (emitFirst src Tree.isNamed parts).map fun inner =>
            .modules ++ .ofEdit ⟨start, value.start, "module.exports = "⟩ ++ inner
        | none => .ok .modules
      | .names => .ok (.modules ++ .ofEdit (exportNamesEdit src t))
    | .cast =>
      match parts.find? Tree.isNamed with
      | some value =>
        (emitFirst src Tree.isNamed parts).map fun inner =>
          .ofEdit (.removal value.stop stop) ++ inner
      | none => .ok {}
    | .nonNull =>
      (emitAll src parts).map fun inner =>
        .ofEdits (((t.token? "!").map drop).toList) ++ inner
    | .abstractClass =>
      (emitAll src parts).map fun inner => .ofEdits (eraseWord src "abstract" parts) ++ inner
    | .field =>
      if isTypeOnlyField t then .ok (.ofEdit (dropMember src t following))
      else (emitAll src parts).map fun inner => .ofEdits (eraseWords src parts) ++ inner
    | .parameter =>
      if isThisParameter t then .ok (.ofEdit (dropParameter t following))
      else (emitAll src parts).map fun inner => .ofEdits (eraseWords src parts) ++ inner
    | .declarator => (emitAll src parts).map fun inner => .ofEdits (eraseWords src parts) ++ inner
    | .method =>
      let start := if isConstructor src t then initialization src t else []
      (emitAll src parts).map fun inner => .ofEdits (eraseWords src parts ++ start) ++ inner
    | .kept => emitAll src parts

/-- The emission of the first part that passes. -/
def emitFirst (src : Source) (passes : Tree → Bool) : List Tree → Except EmissionError Emission
  | [] => .ok {}
  | c :: cs => if passes c then emit src cs c else emitFirst src passes cs

/-- The emission of all parts, one after the other. -/
def emitAll (src : Source) : List Tree → Except EmissionError Emission
  | [] => .ok {}
  | c :: cs =>
    match emit src cs c with
    | .error e => .error e
    | .ok first => (emitAll src cs).map fun rest => first ++ rest

end

end ClassScript.Emission
