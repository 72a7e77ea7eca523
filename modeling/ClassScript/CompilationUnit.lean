/-
  File:      ClassScript/CompilationUnit.lean
  Subject:   One source file: its path, its text and its declarations.

  * `CompilationUnit`: the file;
  * `classes`, `interfaces`, …: its declarations by kind, in source order;
  * `declaresEntryPoint`, `entryClass?`: the two views of the program's start;
  * `findInterface?`: a name looked up across files, the last one winning.
-/
import ClassScript.Declaration
import ClassScript.Text.FilePath

namespace ClassScript

/-- The extension of source files, without its dot. -/
def sourceExtension : String := "javats"

/-- One source file. -/
structure CompilationUnit where
  path : FilePath
  text : String
  items : List Item
  deriving Repr

namespace CompilationUnit

/-- The file name with its extension. -/
def baseName (u : CompilationUnit) : String := u.path.baseName

/-- The base name without the extension of source files. -/
def stem (u : CompilationUnit) : String :=
  (Text.dropTail? ("." ++ sourceExtension) u.baseName).getD u.baseName

/-- The bytes of the text. -/
def bytes (u : CompilationUnit) : List UInt8 := u.text.toUTF8.toList

def classes (u : CompilationUnit) : List ClassDecl := u.items.filterMap Item.class?
def interfaces (u : CompilationUnit) : List InterfaceDecl := u.items.filterMap Item.interface?
def enums (u : CompilationUnit) : List NamedDecl := u.items.filterMap Item.enum?
def aliases (u : CompilationUnit) : List NamedDecl := u.items.filterMap Item.alias?
def functions (u : CompilationUnit) : List FunctionDecl := u.items.filterMap Item.function?
def variableDecls (u : CompilationUnit) : List VariableDecl := u.items.filterMap Item.variableDecl?

/-- Some class, interface, enum or type alias is declared. -/
def declaresType (u : CompilationUnit) : Bool := u.items.any Item.isType

/-- Some class declares the program's entry point. -/
def declaresEntryPoint (u : CompilationUnit) : Bool := u.classes.any ClassDecl.isEntry

/-- The first class with a name that declares the program's entry point. -/
def entryClass? (u : CompilationUnit) : Option ClassDecl :=
  (u.classes.filter (·.name.isSome)).find? ClassDecl.isEntry

/-- The byte offset of a place in the text. -/
def offsetOf (u : CompilationUnit) (p : Position) : Nat := ClassScript.offsetOf u.bytes p

end CompilationUnit

/-- The interface a name stands for among the loaded files: of several, the last one loaded. -/
def findInterface? (loaded : List CompilationUnit) (name : String) : Option InterfaceDecl :=
  ((loaded.flatMap CompilationUnit.interfaces).filter (·.name == name)).getLast?

end ClassScript
