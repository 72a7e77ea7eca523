/-
  File:      ClassScript/Declaration.lean
  Subject:   What a source text declares: types, members, functions, variables.

  A declaration keeps what the rules of the dialect ask for: names,
  modifiers, the text of type annotations, and places. Nothing of a body is
  kept.

  * `Modifiers`, `Parameter`: the parts of members;
  * `Member`: methods, properties, constructors and accessors of a class;
  * `ClassDecl`, `InterfaceDecl`, `NamedDecl`, `FunctionDecl`, `VariableDecl`;
  * `Item`: one declaration at the top level.
-/
import ClassScript.Text.Position

namespace ClassScript

/-! ## 1. Modifiers and parameters -/

/-- An explicit access modifier. -/
inductive Visibility where
  | pub
  | priv
  | prot
  deriving DecidableEq, Repr

/-- The keyword of an access modifier. -/
def Visibility.keyword : Visibility → String
  | .pub => "public"
  | .priv => "private"
  | .prot => "protected"

/-- The access modifier a keyword stands for. -/
def Visibility.ofKeyword? : String → Option Visibility
  | "public" => some .pub
  | "private" => some .priv
  | "protected" => some .prot
  | _ => none

/-- The modifiers of a class member. -/
structure Modifiers where
  visibility : Option Visibility := none
  isStatic : Bool := false
  isReadonly : Bool := false
  isAbstract : Bool := false
  deriving DecidableEq, Repr, Inhabited

/-- Explicitly `public`. -/
def Modifiers.isPublic (m : Modifiers) : Bool := m.visibility == some .pub

/-- A parameter of a method or constructor. -/
structure Parameter where
  name : String
  position : Position
  declaredType : Option String
  deriving DecidableEq, Repr

/-! ## 2. Members of a class -/

/-- A method, also one without a body. -/
structure Method where
  name : String
  position : Position
  namePosition : Position
  modifiers : Modifiers
  returnType : Option String
  parameters : List Parameter
  deriving DecidableEq, Repr

/-- The program's entry point is a `public static` method named `main`. -/
def Method.isEntryPoint (m : Method) : Bool :=
  m.name == "main" && m.modifiers.isPublic && m.modifiers.isStatic

/-- A field of a class. -/
structure Property where
  name : String
  position : Position
  namePosition : Position
  modifiers : Modifiers
  declaredType : Option String
  deriving DecidableEq, Repr

/-- A constant is a `static readonly` property. -/
def Property.isConstant (p : Property) : Bool := p.modifiers.isStatic && p.modifiers.isReadonly

/-- A constructor with its body. -/
structure ConstructorDecl where
  position : Position
  modifiers : Modifiers
  parameters : List Parameter
  deriving DecidableEq, Repr

/-- Which of the two accessors. -/
inductive AccessorKind where
  | getter
  | setter
  deriving DecidableEq, Repr

/-- A `get` or `set` accessor. -/
structure Accessor where
  name : String
  position : Position
  kind : AccessorKind
  modifiers : Modifiers
  deriving DecidableEq, Repr

/-- A member of a class body. -/
inductive Member where
  | method (m : Method)
  | property (p : Property)
  | initializer (c : ConstructorDecl)
  | accessor (a : Accessor)
  deriving DecidableEq, Repr

namespace Member

/-- The member's name; a constructor has none. -/
def name? : Member → Option String
  | .method m => some m.name
  | .property p => some p.name
  | .initializer _ => none
  | .accessor a => some a.name

/-- Where the member starts, its modifiers included. -/
def position : Member → Position
  | .method m => m.position
  | .property p => p.position
  | .initializer c => c.position
  | .accessor a => a.position

def method? : Member → Option Method
  | .method m => some m
  | _ => none

def property? : Member → Option Property
  | .property p => some p
  | _ => none

end Member

/-! ## 3. Types -/

/-- A reference to a type by its name, without type arguments. -/
structure TypeRef where
  name : String
  position : Position
  deriving DecidableEq, Repr

/-- A class. Only a default export may lack a name. -/
structure ClassDecl where
  name : Option String
  position : Position
  namePosition : Position
  exported : Bool
  isAbstract : Bool
  superclass : Option String
  implemented : List TypeRef
  members : List Member
  deriving DecidableEq, Repr

namespace ClassDecl

/-- The name used in messages. -/
def displayName (c : ClassDecl) : String := c.name.getD "anonymous"

/-- The methods, in order of declaration. -/
def methods (c : ClassDecl) : List Method := c.members.filterMap Member.method?

/-- The static methods, in order of declaration. -/
def staticMethods (c : ClassDecl) : List Method := c.methods.filter (·.modifiers.isStatic)

/-- The properties, in order of declaration. -/
def properties (c : ClassDecl) : List Property := c.members.filterMap Member.property?

/-- Some method, property or accessor has this name. -/
def hasMember (c : ClassDecl) (name : String) : Bool :=
  c.members.any fun m => m.name? == some name

/-- The first method named `main`, whatever its modifiers. -/
def mainMethod? (c : ClassDecl) : Option Method := c.methods.find? (·.name == "main")

/-- An entry class declares a `public static` method `main`. -/
def isEntry (c : ClassDecl) : Bool := c.staticMethods.any Method.isEntryPoint

end ClassDecl

/-- The two kinds of interface members. -/
inductive SignatureKind where
  | method
  | property
  deriving DecidableEq, Repr

/-- A named member of an interface. -/
structure Signature where
  name : String
  kind : SignatureKind
  position : Position
  deriving DecidableEq, Repr

/-- An interface. -/
structure InterfaceDecl where
  name : String
  position : Position
  exported : Bool
  members : List Signature
  deriving DecidableEq, Repr

/-- The names of `seen` and then those of `names` that are new, each once. -/
def distinctFrom (seen : List String) : List String → List String
  | [] => []
  | name :: names =>
    if seen.contains name then distinctFrom seen names
    else name :: distinctFrom (name :: seen) names

/-- The names of the members, each once, in order of first occurrence. -/
def InterfaceDecl.memberNames (i : InterfaceDecl) : List String :=
  distinctFrom [] (i.members.map (·.name))

/-! ## 4. Top level -/

/-- An enum or a type alias: only its name matters. -/
structure NamedDecl where
  name : String
  position : Position
  exported : Bool
  deriving DecidableEq, Repr

/-- A top-level function. Only a default export may lack a name. -/
structure FunctionDecl where
  name : Option String
  position : Position
  exported : Bool
  deriving DecidableEq, Repr

/-- The name used in messages. -/
def FunctionDecl.displayName (f : FunctionDecl) : String := f.name.getD "anonymous"

/-- One declarator of a variable statement; a pattern keeps its source text. -/
structure Declarator where
  name : String
  position : Position
  deriving DecidableEq, Repr

/-- A top-level `var`, `let` or `const` statement. -/
structure VariableDecl where
  position : Position
  exported : Bool
  declarators : List Declarator
  deriving DecidableEq, Repr

/-- A top-level declaration. -/
inductive Item where
  | classItem (c : ClassDecl)
  | interfaceItem (i : InterfaceDecl)
  | enumItem (e : NamedDecl)
  | aliasItem (t : NamedDecl)
  | functionItem (f : FunctionDecl)
  | variableItem (v : VariableDecl)
  deriving DecidableEq, Repr

namespace Item

def class? : Item → Option ClassDecl
  | .classItem c => some c
  | _ => none

def interface? : Item → Option InterfaceDecl
  | .interfaceItem i => some i
  | _ => none

def enum? : Item → Option NamedDecl
  | .enumItem e => some e
  | _ => none

def alias? : Item → Option NamedDecl
  | .aliasItem t => some t
  | _ => none

def function? : Item → Option FunctionDecl
  | .functionItem f => some f
  | _ => none

def variableDecl? : Item → Option VariableDecl
  | .variableItem v => some v
  | _ => none

/-- Classes, interfaces, enums and type aliases are types. -/
def isType : Item → Bool
  | .classItem _ | .interfaceItem _ | .enumItem _ | .aliasItem _ => true
  | .functionItem _ | .variableItem _ => false

end Item
end ClassScript
