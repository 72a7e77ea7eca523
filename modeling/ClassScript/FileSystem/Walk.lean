/-
  File:      ClassScript/FileSystem/Walk.lean
  Subject:   All files below a folder, but for those that `.ignore` files leave out.

  A walk visits the folders below one, at any depth, hidden ones too. Every
  folder may hold an ignore file, and so may the folders above the one where
  the walk starts. What is left out is not visited; the folder where the walk
  starts never is. A fault in an ignore file above the start stops the walk, a
  fault in one below it only voids its line.

  This is the walk outside of git work trees. Inside of one, `.gitignore`
  files, `.git/info/exclude` and the excludes of the user leave out more;
  none of them is read here.

  * `FileSystem.ignoreFileIn`: the ignore file of a folder;
  * `FileSystem.scopesAbove`: the ignore files above a folder;
  * `FileSystem.filesBelow`, `FileSystem.walk`: the walk.
-/
import ClassScript.FileSystem
import ClassScript.Glob.Ignore

namespace ClassScript

namespace FilePath

/-- The names that lead from the root to an absolute path. -/
def names (p : FilePath) : List String :=
  p.components.foldl
    (fun names step =>
      match step with
      | .name cs => names ++ [String.ofList cs]
      | .up => names.dropLast
      | .root | .here => names)
    []

/-- The path from the root along some names. -/
def ofNames (names : List String) : FilePath := ⟨"/" ++ "/".intercalate names⟩

end FilePath

namespace FileSystem

variable {m : Type → Type} [Monad m]

/-- The name of ignore files. -/
def ignoreFileName : String := ".ignore"

/-- The ignore file of a folder; an empty one if there is none. -/
def ignoreFileIn (files : FileSystem m) (folder : FilePath) : m IgnoreFile := do
  match ← files.read (folder.join ⟨ignoreFileName⟩) with
  | .ok text => return IgnoreFile.ofText text
  | .error _ => return {}

/-- The ignore files of the folders above the folder at `names`, innermost first, and the messages
    about them, outermost first. `above` leads to the outermost folder. -/
def scopesAbove (files : FileSystem m) :
    List String → List String → m (List IgnoreScope × List String)
  | _, [] => return ([], [])
  | above, name :: names => do
    let folder := FilePath.ofNames above
    let file ← files.ignoreFileIn folder
    let (scopes, messages) ← scopesAbove files (above ++ [name]) names
    return (scopes ++ [⟨file, name :: names⟩],
      file.messages (folder.join ⟨ignoreFileName⟩).text ++ messages)

/-- The files in the folder `folder`, and in those below it down to `depth` levels. -/
def filesBelow (files : FileSystem m) : Nat → List IgnoreScope → FilePath → m (List FilePath)
  | 0, _, _ => return []
  | depth + 1, scopes, folder => do
    let file ← files.ignoreFileIn folder
    let names ← files.names folder
    gather
      (fun name => do
        let path := folder.join ⟨name⟩
        let inner := (⟨file, []⟩ :: scopes).map (·.enter name)
        let isFolder ← files.isFolder path
        if isIgnored inner isFolder then return []
        else if isFolder then filesBelow files depth inner path
        else return [path])
      names

/-- The files below a folder, seen from the folder `current`; or what is wrong with the ignore
    files above it. -/
def walk (files : FileSystem m) (current folder : FilePath) :
    m (Except (List String) (List FilePath)) := do
  let (scopes, messages) ← files.scopesAbove [] (current.join folder).names
  if messages.isEmpty then
    let found ← files.filesBelow maxDepth scopes folder
    return .ok found
  else return .error messages

end FileSystem
end ClassScript
