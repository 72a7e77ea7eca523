/-
  File:      ClassScript/Main.lean
  Subject:   The program over the files of the machine.

  * `machineFiles`: the operations on files;
  * `surroundings`: the current folder, and the folders of the user;
  * `main`: runs the program on its arguments.
-/
import ClassScript.Command.Run

namespace ClassScript

/-- Why an operation of the system failed. -/
def ioErrorOf : IO.Error → IoError
  | .noFileOrDirectory _ _ _ => .notFound
  | .alreadyExists _ _ _ => .fileExists
  | .inappropriateType _ _ _ => .notFolder
  | e => .other (toString e)

/-- Runs an action of the system. -/
def attempt {α : Type} (action : IO α) : IO (Except IoError α) := do
  try return .ok (← action)
  catch e => return .error (ioErrorOf e)

/-- What a path stands for, as the system sees it. -/
def metadataOf (path : FilePath) : IO IO.FS.Metadata :=
  let entry : IO.FS.DirEntry := { root := ".", fileName := path.text }
  entry.path.metadata

/-- What a path stands for has the type `type`. -/
def hasType (type : IO.FS.FileType) (path : FilePath) : IO Bool := do
  if path.text.isEmpty then return false
  else
    match ← attempt (metadataOf path) with
    | .ok data => return data.type == type
    | .error _ => return false

/-- The operations on the files of the machine. -/
def machineFiles : FileSystem IO where
  isFile := hasType .file
  isFolder := hasType .dir
  names path := do
    match ← attempt (IO.FS.DirEntry.path { root := ".", fileName := path.text }).readDir with
    | .ok entries => return entries.toList.map (·.fileName)
    | .error _ => return []
  read path := do
    match ← attempt (IO.FS.readBinFile path.text) with
    | .error e => return .error e
    | .ok bytes =>
      match String.fromUTF8? bytes with
      | some text => return .ok text
      | none => return .error .notText
  makeFolder path := attempt (IO.FS.createDir path.text)
  write path text := attempt (IO.FS.writeFile path.text text)

/-- The current folder, and the folders of the user. -/
def surroundings : IO Surroundings := do
  let current ← IO.currentDir
  let home ← IO.getEnv "HOME"
  let settings ← IO.getEnv "JAVATS_CONFIG_DIR"
  return ⟨⟨current.toString⟩, home.map FilePath.mk, settings.map FilePath.mk⟩

end ClassScript

/-- Runs the program on its arguments. -/
def main (arguments : List String) : IO UInt32 := do
  let outcome ←
    ClassScript.runWords ClassScript.machineFiles (← ClassScript.surroundings) arguments
  for line in outcome.output do
    IO.println line
  for line in outcome.errors do
    IO.eprintln line
  return outcome.exitCode.toUInt32
