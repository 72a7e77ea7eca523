/-
  File:      ClassScript/Build/Compiler.lean
  Subject:   From a unit to the texts that are written for it.

  The typed text of a unit is its own text. Its script comes from a toolchain,
  and ends by running the first entry class of the unit.

  * `Toolchain`, `scriptToolchain`: from a text to emitted files;
  * `Compiler.typedText`, `Compiler.script`: the two texts of a unit;
  * `mainRunner`: the lines that run an entry class.
-/
import ClassScript.Build.Recheck
import ClassScript.Emission.Script
import ClassScript.FileSystem

namespace ClassScript

/-! ## 1. Toolchains -/

/-- A file that a toolchain gives. -/
structure EmittedFile where
  path : FilePath
  text : String
  deriving DecidableEq, Repr

/-- The file has the extension `extension`. -/
def EmittedFile.hasExtension (f : EmittedFile) (extension : String) : Bool :=
  f.path.extension? == some extension

/-- Why a toolchain gives nothing. -/
inductive ToolchainError where
  | emission (cause : EmissionError)
  | stopped (message : String)
  deriving DecidableEq, Repr

def ToolchainError.message : ToolchainError → String
  | .emission cause => cause.message
  | .stopped message => "Emission task failed: " ++ message

/-- What gives files for the name and the text of a typed file. -/
abbrev Toolchain : Type := String → String → Except ToolchainError (List EmittedFile)

/-- The toolchain that gives the script of a text, under the name of the file. -/
def scriptToolchain : Toolchain := fun fileName text =>
  match Script.ofText text with
  | .ok script => .ok [⟨⟨FilePath.withExtension fileName Emission.scriptExtension⟩, script⟩]
  | .error cause => .error (.emission cause)

/-! ## 2. The entry point -/

/-- The lines that run the entry point of the class `name` when the script is run itself. -/
def mainRunner (name : String) : String :=
  "\nif (typeof require !== 'undefined' && require.main === module) \x7b\n    " ++ name ++
    ".main(process.argv.slice(2));\n\x7d"

/-- The script with the lines that run the class `name`. -/
def withMainRunner (script name : String) : String :=
  Text.trimEnd script ++ "\n" ++ mainRunner name

/-! ## 3. Compilation -/

/-- Why a file is not written. -/
inductive BuildError where
  | violated (cause : RecheckError)
  | toolchain (cause : ToolchainError)
  /-- The toolchain gave no script. -/
  | noScript (path : FilePath)
  | unwritable (path : FilePath) (cause : IoError)
  deriving DecidableEq, Repr

/-- The message of an error. -/
def BuildError.message : BuildError → String
  | .violated cause => cause.message
  | .toolchain cause => cause.message
  | .noScript path => "Failed to emit JavaScript for " ++ path.text
  | .unwritable path cause => "Failed to write " ++ path.text ++ ": " ++ cause.message

/-- What compiles units. -/
structure Compiler where
  toolchain : Toolchain := scriptToolchain
  options : RecheckOptions := {}

namespace Compiler

/-- The extension of typed texts, without its dot. -/
def typedExtension : String := "ts"

/-- The typed text of a unit. -/
def typedText (c : Compiler) (u : CompilationUnit) : Except BuildError String :=
  (recheck c.options u).mapError .violated

/-- The name under which a toolchain sees a unit. -/
def hostName (u : CompilationUnit) : String := u.stem ++ "." ++ typedExtension

/-- The script with the runner of the unit's entry class, if it has one. -/
def withRunner (u : CompilationUnit) (script : String) : String :=
  match u.entryClass? with
  | some c => withMainRunner script c.displayName
  | none => script

/-- The first script among emitted files. -/
def scriptAmong? (emitted : List EmittedFile) : Option String :=
  (emitted.find? (·.hasExtension Emission.scriptExtension)).map (·.text)

/-- The script of a unit. -/
def script (c : Compiler) (u : CompilationUnit) : Except BuildError String := do
  let text ← c.typedText u
  let emitted ← (c.toolchain (hostName u) text).mapError .toolchain
  match scriptAmong? emitted with
  | some found => return withRunner u found
  | none => throw (.noScript u.path)

end Compiler
end ClassScript
