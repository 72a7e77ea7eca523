/-
  File:      ClassScript/Loading.lean
  Subject:   Files as compilation units.

  * `LoadError`: why a file is no unit;
  * `CompilationUnit.ofText`: the unit of a text;
  * `CompilationUnit.load`: the unit of a file.
-/
import ClassScript.CompilationUnit
import ClassScript.Emission.Basic
import ClassScript.FileSystem
import ClassScript.Syntax.Items
import ClassScript.Syntax.Program

namespace ClassScript

/-- Why a file is no unit. -/
inductive LoadError where
  | unreadable (path : FilePath) (cause : IoError)
  | wrongExtension (path : FilePath)
  | badSyntax (path : FilePath) (position : Position)
  deriving DecidableEq, Repr

/-- The message of an error. -/
def LoadError.message : LoadError → String
  | .unreadable path cause => "Failed to read " ++ path.text ++ ": " ++ cause.message
  | .wrongExtension path =>
    "Invalid file extension for " ++ path.text ++ ": expected ." ++ sourceExtension
  | .badSyntax path position => "Syntax error in " ++ path.text ++ " at " ++ position.shown

namespace CompilationUnit

/-- The unit of a program's tree. -/
def ofTree (path : FilePath) (text : String) (src : Syntax.Source) (t : Syntax.Tree) :
    CompilationUnit :=
  ⟨path, text, t.items src⟩

/-- The unit of a text. -/
def ofText (path : FilePath) (text : String) : Except LoadError CompilationUnit :=
  let src := Syntax.Source.ofString text
  match Syntax.Tree.ofSource src with
  | .ok t => .ok (ofTree path text src t)
  | .error position => .error (.badSyntax path position)

/-- The unit of a file. Only files with the extension of sources are read. -/
def load {m : Type → Type} [Monad m] (files : FileSystem m) (path : FilePath) :
    m (Except LoadError CompilationUnit) := do
  if path.extension? == some sourceExtension then
    match ← files.read path with
    | .ok text => return ofText path text
    | .error cause => return .error (.unreadable path cause)
  else return .error (.wrongExtension path)

/-- The path of a file ends in the extension of sources, whatever stands before it. -/
def hasSourceEnding (path : FilePath) : Bool :=
  (Text.dropTail? ("." ++ sourceExtension) path.text).isSome

end CompilationUnit
end ClassScript
