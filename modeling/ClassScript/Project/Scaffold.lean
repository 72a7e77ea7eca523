/-
  File:      ClassScript/Project/Scaffold.lean
  Subject:   The files of a new project.

  A new project has a configuration, a first class with the entry point, and
  a list of files that version control leaves out. If there already is a
  configuration, nothing is written unless that is forced.

  * `Scaffold.files`: the files, with their texts;
  * `Scaffold.create`: writes them.
-/
import ClassScript.FileSystem

namespace ClassScript

/-- Why a project cannot be created. -/
inductive ScaffoldError where
  | configExists (path : FilePath)
  | noFolder (path : FilePath) (cause : IoError)
  | unwritable (path : FilePath) (cause : IoError)
  deriving DecidableEq, Repr

namespace ScaffoldError

/-- The message of an error. -/
def message : ScaffoldError → String
  | .configExists path =>
    "Configuration file already exists at " ++ path.text ++ ". Use --force to overwrite."
  | .noFolder path _ => "Failed to create " ++ path.text
  | .unwritable path _ => "Failed to write " ++ path.text

/-- What is behind an error. -/
def cause? : ScaffoldError → Option IoError
  | .configExists _ => none
  | .noFolder _ cause | .unwritable _ cause => some cause

end ScaffoldError

namespace Scaffold

/-! ## 1. The files -/

/-- The configuration of a new project. -/
def configText : String :=
  "# javats configuration\n\n" ++
  "# Rule preset: \"mature\" (default) or \"legacy\"\n" ++
  "preset = \"mature\"\n\n" ++
  "[build]\n" ++
  "out_dir = \"dist\"\n" ++
  "emit_ts = true\n" ++
  "emit_js = true\n\n" ++
  "# Glob patterns to exclude from input discovery\n" ++
  "exclude = [\n" ++
  "    \"**/node_modules/**\",\n" ++
  "    \"**/dist/**\",\n" ++
  "]\n\n" ++
  "# Rule configurations\n" ++
  "# Each rule can be disabled by name\n\n" ++
  "# [rules.naming-convention]\n" ++
  "# enabled = false\n"

/-- The first class of a new project. -/
def mainText : String :=
  "export class Main \x7b\n" ++
  "    private static readonly GREETING: string = \"Hello from JavaTS\";\n\n" ++
  "    public static main(args: string[]): void \x7b\n" ++
  "        console.log(Main.GREETING, args.join(\" \"));\n" ++
  "    \x7d\n" ++
  "\x7d\n"

/-- The names that version control leaves out. -/
def leftOutText : String := "node_modules\ndist\n.DS_Store\n"

/-- The configuration file of a project in the folder `folder`. -/
def configFile (folder : FilePath) : FilePath := folder.join ⟨"javats.toml"⟩

/-- The folder of the sources. -/
def sourceFolder (folder : FilePath) : FilePath := folder.join ⟨"src"⟩

/-- The files of a new project in the order they are written. -/
def files (folder : FilePath) : List (FilePath × String) :=
  [(configFile folder, configText),
   ((sourceFolder folder).join ⟨"Main.javats"⟩, mainText),
   (folder.join ⟨".gitignore"⟩, leftOutText)]

/-! ## 2. Writing -/

variable {m : Type → Type} [Monad m]

/-- Writes files up to the first one that cannot be written. -/
def writeEach (system : FileSystem m) :
    List (FilePath × String) → m (Except ScaffoldError Unit)
  | [] => return .ok ()
  | (path, text) :: rest => do
    match ← system.write path text with
    | .ok () => writeEach system rest
    | .error cause => return .error (.unwritable path cause)

/-- Creates a project in the folder `folder`: the paths of its files, or why there is none. -/
def create (system : FileSystem m) (folder : FilePath) (force : Bool) :
    m (Except ScaffoldError (List FilePath)) := do
  let isTaken ← system.isThere (configFile folder)
  if isTaken && !force then return .error (.configExists (configFile folder))
  else
    match ← system.makeFolders (sourceFolder folder) with
    | .error cause => return .error (.noFolder (sourceFolder folder) cause)
    | .ok () => return (← writeEach system (files folder)).map fun _ => (files folder).map (·.1)

end Scaffold
end ClassScript
