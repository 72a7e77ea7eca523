/-
  File:      ClassScript/Outline.lean
  Subject:   The structural summary of one file.

  The outline lists classes with their methods and properties, interfaces
  with their member names, and the names declared at the top level. Its JSON
  form is what the command `inspect` prints.

  * `Outline.ofUnit`: the summary;
  * `Outline.toJson`: its JSON form.
-/
import ClassScript.CompilationUnit
import ClassScript.Json

namespace ClassScript

/-- A method in an outline. -/
structure MethodOutline where
  name : String
  isStatic : Bool
  visibility : Option Visibility
  returnType : Option String
  deriving DecidableEq, Repr

/-- A property in an outline. -/
structure PropertyOutline where
  name : String
  isStatic : Bool
  visibility : Option Visibility
  declaredType : Option String
  deriving DecidableEq, Repr

/-- A class in an outline. -/
structure ClassOutline where
  name : String
  isAbstract : Bool
  superclass : Option String
  implemented : List String
  methods : List MethodOutline
  properties : List PropertyOutline
  hasMain : Bool
  mainIsStatic : Bool
  mainIsPublic : Bool
  deriving DecidableEq, Repr

/-- An interface in an outline: the names of its methods and of its properties. -/
structure InterfaceOutline where
  name : String
  methods : List String
  properties : List String
  deriving DecidableEq, Repr

/-- The summary of a file. -/
structure Outline where
  fileName : String
  classes : List ClassOutline
  interfaces : List InterfaceOutline
  topLevelFunctions : List String
  topLevelVariables : List String
  deriving DecidableEq, Repr

/-! ## 1. Summarizing -/

def MethodOutline.ofMethod (m : Method) : MethodOutline :=
  ⟨m.name, m.modifiers.isStatic, m.modifiers.visibility, m.returnType⟩

def PropertyOutline.ofProperty (p : Property) : PropertyOutline :=
  ⟨p.name, p.modifiers.isStatic, p.modifiers.visibility, p.declaredType⟩

/-- The summary of a class; of several methods `main` the first one counts. -/
def ClassOutline.ofClass (c : ClassDecl) : ClassOutline where
  name := c.displayName
  isAbstract := c.isAbstract
  superclass := c.superclass
  implemented := c.implemented.map (·.name)
  methods := c.methods.map MethodOutline.ofMethod
  properties := c.properties.map PropertyOutline.ofProperty
  hasMain := c.mainMethod?.isSome
  mainIsStatic := c.mainMethod?.any (·.modifiers.isStatic)
  mainIsPublic := c.mainMethod?.any (·.modifiers.isPublic)

/-- The names of an interface's members of one kind. -/
def InterfaceDecl.namesOf (i : InterfaceDecl) (kind : SignatureKind) : List String :=
  (i.members.filter (·.kind == kind)).map (·.name)

def InterfaceOutline.ofInterface (i : InterfaceDecl) : InterfaceOutline :=
  ⟨i.name, i.namesOf .method, i.namesOf .property⟩

/-- The summary of a file. -/
def Outline.ofUnit (u : CompilationUnit) : Outline where
  fileName := u.baseName
  classes := u.classes.map ClassOutline.ofClass
  interfaces := u.interfaces.map InterfaceOutline.ofInterface
  topLevelFunctions := u.functions.map FunctionDecl.displayName
  topLevelVariables := u.variableDecls.flatMap fun v => v.declarators.map (·.name)

/-! ## 2. The JSON form -/

/-- The word for an access modifier in an outline. -/
def visibilityWord : Option Visibility → String
  | none => "none"
  | some v => v.keyword

def MethodOutline.toJson (m : MethodOutline) : Json :=
  .record
    [("name", .text m.name), ("isStatic", .bool m.isStatic),
     ("visibility", .text (visibilityWord m.visibility)),
     ("returnType", .optional m.returnType)]

def PropertyOutline.toJson (p : PropertyOutline) : Json :=
  .record
    [("name", .text p.name), ("isStatic", .bool p.isStatic),
     ("visibility", .text (visibilityWord p.visibility)), ("type", .optional p.declaredType)]

def ClassOutline.toJson (c : ClassOutline) : Json :=
  .record
    [("name", .text c.name), ("isAbstract", .bool c.isAbstract),
     ("extends", .optional c.superclass), ("implements", .texts c.implemented),
     ("methods", .list (c.methods.map MethodOutline.toJson)),
     ("properties", .list (c.properties.map PropertyOutline.toJson)),
     ("hasMain", .bool c.hasMain), ("mainIsStatic", .bool c.mainIsStatic),
     ("mainIsPublic", .bool c.mainIsPublic)]

def InterfaceOutline.toJson (i : InterfaceOutline) : Json :=
  .record
    [("name", .text i.name), ("methods", .texts i.methods), ("properties", .texts i.properties)]

/-- The JSON form of an outline. -/
def Outline.toJson (o : Outline) : Json :=
  .record
    [("fileName", .text o.fileName),
     ("classes", .list (o.classes.map ClassOutline.toJson)),
     ("interfaces", .list (o.interfaces.map InterfaceOutline.toJson)),
     ("topLevelFunctions", .texts o.topLevelFunctions),
     ("topLevelVariables", .texts o.topLevelVariables)]

end ClassScript
