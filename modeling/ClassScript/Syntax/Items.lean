/-
  File:      ClassScript/Syntax/Items.lean
  Subject:   The declarations a tree stands for.

  Only the outermost statements of a program declare items, and at most one
  each. A declaration behind `export` or `declare` has the place of that outer
  statement. Of a `declare` only the first part counts.

  * `Tree.parameters`, `Tree.member?`, `Tree.class`: the parts;
  * `Tree.declared?`: the item a declaration stands for;
  * `Tree.item?`, `Tree.items`: the items of a program.
-/
import ClassScript.Declaration
import ClassScript.Syntax.Tree

namespace ClassScript.Syntax.Tree

variable (src : Source)

/-! ## 1. Names, modifiers and types -/

/-- The text of a type behind its colon. -/
def clauseText (t : Tree) : String :=
  let written := t.text src
  Text.trim ((Text.dropHead? ":" written).getD written)

/-- The type in the role `f`. -/
def typeIn? (f : Field) (t : Tree) : Option String := (t.part? f).map (clauseText src)

/-- The access modifier: of several the last one. -/
def visibility? (t : Tree) : Option Visibility :=
  ((t.children.filter (·.kind == .accessModifier)).getLast?).bind fun c =>
    Visibility.ofKeyword? (c.text src)

/-- The modifiers of a member. -/
def modifiers (t : Tree) : Modifiers :=
  { visibility := t.visibility? src
    isStatic := t.hasToken "static"
    isReadonly := t.hasToken "readonly"
    isAbstract := t.hasToken "abstract" }

/-- A parameter. The three points of a rest are no part of its name. -/
def parameter? (t : Tree) : Option Parameter :=
  if t.kind = .requiredParameter ∨ t.kind = .optionalParameter then
    let bound := (t.partText? src .pattern).getD ""
    some
      { name := (Text.dropHead? "..." bound).getD bound
        position := t.position src
        declaredType := t.typeIn? src .type }
  else none

/-- The parameters of a method. -/
def parameterList (t : Tree) : List Parameter :=
  match t.part? .parameters with
  | some list => list.children.filterMap (parameter? src)
  | none => []

/-! ## 2. Members of classes and interfaces -/

/-- Which accessor a member is, if it is one. -/
def accessorKind? (t : Tree) : Option AccessorKind :=
  if t.hasToken "get" then some .getter
  else if t.hasToken "set" then some .setter
  else none

/-- A method with the name `name`. -/
def method (t name : Tree) (modifiers : Modifiers) : Method :=
  { name := name.text src
    position := t.position src
    namePosition := name.position src
    modifiers := modifiers
    returnType := t.typeIn? src .returnType
    parameters := t.parameterList src }

/-- An accessor, or else `other`. -/
def accessorOr (t name : Tree) (other : Member) : Member :=
  match t.accessorKind? with
  | some kind => .accessor ⟨name.text src, t.position src, kind, t.modifiers src⟩
  | none => other

/-- What a method with a body declares. -/
def definedMember (t name : Tree) : Member :=
  t.accessorOr src name
    (if name.text src = "constructor" then
      .initializer ⟨t.position src, t.modifiers src, t.parameterList src⟩
    else .method (t.method src name (t.modifiers src)))

/-- What a method without a body declares. -/
def signedMember (t name : Tree) : Member :=
  let modifiers := t.modifiers src
  t.accessorOr src name
    (.method (t.method src name
      { modifiers with
        isAbstract := modifiers.isAbstract || t.kind == .abstractMethodSignature }))

/-- The member of a class that a part of its body declares. -/
def member? (t : Tree) : Option Member :=
  (t.part? .name).bind fun name =>
    match t.kind with
    | .methodDefinition => some (t.definedMember src name)
    | .methodSignature | .abstractMethodSignature => some (t.signedMember src name)
    | .fieldDefinition =>
      some (.property
        { name := name.text src
          position := t.position src
          namePosition := name.position src
          modifiers := t.modifiers src
          declaredType := t.typeIn? src .type })
    | _ => none

/-- The member of an interface that a part of its body declares. -/
def signature? (t : Tree) : Option Signature :=
  (t.part? .name).bind fun name =>
    match t.kind with
    | .methodSignature => some ⟨name.text src, .method, t.position src⟩
    | .propertySignature => some ⟨name.text src, .property, t.position src⟩
    | _ => none

/-! ## 3. Heritage -/

/-- The parts of a class that say what it extends and implements. -/
def heritageClauses (t : Tree) : List Tree :=
  (t.children.filter (·.kind == .classHeritage)).flatMap named

/-- The superclass as it is written: of several clauses the last one counts. -/
def superclass? (t : Tree) : Option String :=
  match (t.heritageClauses.filter (·.kind == .extendsClause)).getLast? with
  | some clause => clause.partText? src .value
  | none => none

/-- A reference to a type, without its arguments. -/
def typeRef (t : Tree) : TypeRef :=
  let name := if t.kind == .genericType then (t.part? .name).getD t else t
  ⟨name.text src, t.position src⟩

/-- The types a class implements. -/
def implementedTypes (t : Tree) : List TypeRef :=
  (t.heritageClauses.filter (·.kind == .implementsClause)).flatMap fun clause =>
    clause.named.map (typeRef src)

/-! ## 4. Declarations -/

/-- Where a top-level declaration stands, and whether it is exported. -/
structure Site where
  position : Position
  exported : Bool

/-- A class. -/
def classDecl (site : Site) (t : Tree) : ClassDecl :=
  let name := t.part? .name
  { name := name.map (text src)
    position := site.position
    namePosition := (name.map (position src)).getD site.position
    exported := site.exported
    isAbstract := t.kind == .abstractClassDecl
    superclass := t.superclass? src
    implemented := t.implementedTypes src
    members := t.bodyParts.filterMap (member? src) }

/-- An interface. -/
def interfaceDecl (site : Site) (t : Tree) : InterfaceDecl :=
  ⟨t.nameText src, site.position, site.exported, t.bodyParts.filterMap (signature? src)⟩

/-- An enum or an alias. -/
def namedDecl (site : Site) (t : Tree) : NamedDecl := ⟨t.nameText src, site.position, site.exported⟩

/-- A declaration of variables. -/
def variableDecl (site : Site) (t : Tree) : VariableDecl :=
  ⟨site.position, site.exported,
    (t.children.filter (·.kind == .variableDeclarator)).map fun d =>
      ⟨d.nameText src, d.position src⟩⟩

/-- The item a declaration stands for that is not behind `declare`. -/
def plainItem? (site : Site) (t : Tree) : Option Item :=
  match t.kind with
  | .classDecl | .abstractClassDecl | .classExpression => some (.classItem (t.classDecl src site))
  | .interfaceDecl => some (.interfaceItem (t.interfaceDecl src site))
  | .enumDecl => some (.enumItem (t.namedDecl src site))
  | .typeAlias => some (.aliasItem (t.namedDecl src site))
  | .functionDecl | .generatorDecl | .functionSignature | .functionExpression =>
    some (.functionItem ⟨t.partText? src .name, site.position, site.exported⟩)
  | .lexicalDecl | .variableDecl => some (.variableItem (t.variableDecl src site))
  | _ => none

mutual

/-- The item a declaration stands for. -/
def declared? (site : Site) : Tree → Option Item
  | .node .ambientDecl _ _ _ parts => declaredByFirst? site parts
  | t => t.plainItem? src site

/-- The item the first part stands for that is no keyword. -/
def declaredByFirst? (site : Site) : List Tree → Option Item
  | [] => none
  | c :: cs => if c.isNamed then c.declared? site else declaredByFirst? site cs

end

/-! ## 5. Programs -/

/-- The item an export stands for. A value counts if it is a class or a function. -/
def exportedItem? (t : Tree) : Option Item :=
  let site : Site := ⟨t.position src, true⟩
  match t.part? .declaration, t.part? .value with
  | some declaration, _ => declaration.declared? src site
  | none, some value =>
    if value.kind = .classExpression ∨ value.kind = .functionExpression then
      value.declared? src site
    else none
  | none, none => none

/-- The item an outermost statement stands for. -/
def item? (t : Tree) : Option Item :=
  if t.kind = .exportStatement then t.exportedItem? src
  else t.declared? src ⟨t.position src, false⟩

/-- The items of a program. -/
def items (t : Tree) : List Item := t.named.filterMap (item? src)

end ClassScript.Syntax.Tree
