/-
  File:      ClassScript/FileSystem.lean
  Subject:   What the program asks of a file system.

  Nothing is known of a file system but what its operations answer. Each one
  runs in a monad, so that the same program runs over real files and over
  files in memory.

  * `IoError`: why an operation failed;
  * `FileSystem`: the operations;
  * `FileSystem.isThere`, `FileSystem.gather`: looking at a path, and at several;
  * `FileSystem.makeFolders`: makes a folder and those above it;
  * `FileSystem.save`: writes a file in a folder that may have to be made.
-/
import ClassScript.Text.FilePath

namespace ClassScript

/-- Why an operation on files failed. -/
inductive IoError where
  | notFound
  | fileExists
  | notFolder
  | isFolder
  /-- The bytes of a file are no text. -/
  | notText
  /-- Any other reason, in the words of the system. -/
  | other (message : String)
  deriving DecidableEq, Repr

/-- The text of an error. -/
def IoError.message : IoError → String
  | .notFound => "No such file or directory (os error 2)"
  | .fileExists => "File exists (os error 17)"
  | .notFolder => "Not a directory (os error 20)"
  | .isFolder => "Is a directory (os error 21)"
  | .notText => "stream did not contain valid UTF-8"
  | .other message => message

/-- The operations of a file system. -/
structure FileSystem (m : Type → Type) where
  isFile : FilePath → m Bool
  isFolder : FilePath → m Bool
  /-- The names in a folder. -/
  names : FilePath → m (List String)
  /-- The text of a file. -/
  read : FilePath → m (Except IoError String)
  /-- Makes a folder in one that is there. -/
  makeFolder : FilePath → m (Except IoError Unit)
  /-- Gives a file a text; a file that is not there yet is made. -/
  write : FilePath → String → m (Except IoError Unit)

namespace FileSystem

variable {m : Type → Type} [Monad m]

/-- How deep folders may be nested; no path has more steps. -/
def maxDepth : Nat := 4096

/-- Something is there. -/
def isThere (files : FileSystem m) (path : FilePath) : m Bool := do
  if ← files.isFile path then return true else files.isFolder path

/-- All answers for the items of a list, one after the other. -/
def gather {α β : Type} (f : α → m (List β)) : List α → m (List β)
  | [] => return []
  | a :: as => do
    let found ← f a
    let more ← gather f as
    return found ++ more

/-- Makes a folder, unless it is there already. -/
def ensureFolder (files : FileSystem m) (path : FilePath) : m (Except IoError Unit) := do
  match ← files.makeFolder path with
  | .ok () => return .ok ()
  | .error cause => if ← files.isFolder path then return .ok () else return .error cause

/-- Makes a folder and, as long as they are missing, `depth` of those above it. -/
def makeFoldersUpTo (files : FileSystem m) : Nat → FilePath → m (Except IoError Unit)
  | 0, path => files.ensureFolder path
  | depth + 1, path => do
    if path.text.isEmpty then return .ok ()
    else
      match ← files.ensureFolder path with
      | .error .notFound =>
        match path.parent? with
        | none => return .error .notFound
        | some parent =>
          match ← files.makeFoldersUpTo depth parent with
          | .ok () => files.ensureFolder path
          | .error cause => return .error cause
      | answer => return answer

/-- Makes a folder, and those above it. -/
def makeFolders (files : FileSystem m) (path : FilePath) : m (Except IoError Unit) :=
  files.makeFoldersUpTo (path.text.length + 1) path

/-- Gives a file a text, and makes its folder if that is missing. -/
def save (files : FileSystem m) (path : FilePath) (text : String) : m (Except IoError Unit) := do
  match path.parent? with
  | some parent =>
    if parent.text.isEmpty then files.write path text
    else
      match ← files.makeFolders parent with
      | .ok () => files.write path text
      | .error e => return .error e
  | none => files.write path text

end FileSystem
end ClassScript
