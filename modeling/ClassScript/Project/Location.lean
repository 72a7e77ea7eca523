/-
  File:      ClassScript/Project/Location.lean
  Subject:   Which configuration a run uses, and where its output goes.

  A file that is asked for comes first. Else the nearest folder, from the
  current one upwards, that holds a project file is the project's root. Else
  the file of the user's settings counts, and else the defaults do. Only the
  file that was selected is read. Relative folders of the configuration are
  seen from the root.

  * `Surroundings`: where a run takes place;
  * `Selection`, `select?`: the file that counts;
  * `Project`, `Project.locate`, `Project.outDir`.
-/
import ClassScript.Config
import ClassScript.FileSystem

namespace ClassScript

/-- Where a run takes place. -/
structure Surroundings where
  /-- The current folder, from the root of the file system. -/
  current : FilePath
  /-- The folder of the user's files. -/
  home : Option FilePath := none
  /-- The folder that is set for the user's settings. -/
  settings : Option FilePath := none
  deriving DecidableEq, Repr

namespace Surroundings

/-- The folder of the user's settings. -/
def settingsFolder? (s : Surroundings) : Option FilePath :=
  s.settings.orElse fun _ => s.home.map (·.join ⟨".javats"⟩)

/-- The file of the user's settings. -/
def settingsFile? (s : Surroundings) : Option FilePath :=
  s.settingsFolder?.map (·.join ⟨"config.toml"⟩)

end Surroundings

/-- A configuration file, and the folder that its paths are seen from; an empty path is the
    current folder. -/
structure Selection where
  file : FilePath
  root : FilePath := ⟨""⟩
  deriving DecidableEq, Repr

/-! ## 1. Selecting -/

/-- The names of project files; the first one counts. -/
def projectFileNames : List String := ["javats.toml", ".javats.toml"]

section

variable {m : Type → Type} [Monad m]

/-- The first path that stands for a file. -/
def firstFile? (files : FileSystem m) : List FilePath → m (Option FilePath)
  | [] => return none
  | path :: paths => do
    if ← files.isFile path then return some path else firstFile? files paths

/-- The project file in a folder. -/
def projectFileIn? (files : FileSystem m) (folder : FilePath) : m (Option FilePath) :=
  firstFile? files (projectFileNames.map fun name => folder.join ⟨name⟩)

/-- The first of some folders that holds a project file. -/
def nearest? (files : FileSystem m) : List FilePath → m (Option Selection)
  | [] => return none
  | folder :: folders => do
    match ← projectFileIn? files folder with
    | some file => return some ⟨file, folder⟩
    | none => nearest? files folders

/-- The project file of the folder `current` or, with its folder as the root, of the nearest one
    above. -/
def projectFile? (files : FileSystem m) (current : FilePath) : m (Option Selection) := do
  match ← projectFileIn? files current with
  | some file => return some { file }
  | none => nearest? files (current.ancestors.drop 1)

/-- The file that counts. -/
def select? (files : FileSystem m) (s : Surroundings) (explicit : Option FilePath) :
    m (Option Selection) := do
  match explicit with
  | some file => return some ⟨file, file.parent?.getD ⟨""⟩⟩
  | none =>
    match ← projectFile? files s.current with
    | some selection => return some selection
    | none => return (← firstFile? files s.settingsFile?.toList).map fun file => { file }

end

/-! ## 2. Loading -/

/-- Why a configuration file cannot be used. -/
inductive ProjectFault where
  | unreadable (cause : IoError)
  | malformed
  deriving DecidableEq, Repr

/-- A configuration file that cannot be used. -/
structure ProjectError where
  file : FilePath
  fault : ProjectFault
  deriving DecidableEq, Repr

namespace ProjectError

/-- The message of an error. -/
def message (e : ProjectError) : String := "Failed to load config: " ++ e.file.text

/-- What is behind an error. -/
def cause (e : ProjectError) : String :=
  match e.fault with
  | .unreadable cause => "Failed to read config file " ++ e.file.text ++ ": " ++ cause.message
  | .malformed => "Failed to parse config"

end ProjectError

/-- A configuration, and the folder that its paths are seen from. -/
structure Project where
  config : Config := {}
  root : FilePath := ⟨""⟩
  /-- The file of the configuration. -/
  file : Option FilePath := none
  deriving DecidableEq, Repr

namespace Project

/-- The project of a configuration file. -/
def load {m : Type → Type} [Monad m] (files : FileSystem m) (s : Selection) :
    m (Except ProjectError Project) := do
  match ← files.read s.file with
  | .error cause => return .error ⟨s.file, .unreadable cause⟩
  | .ok text =>
    match Config.ofText? text with
    | some config => return .ok ⟨config, s.root, some s.file⟩
    | none => return .error ⟨s.file, .malformed⟩

/-- The project of a run; `explicit` is the file that was asked for. -/
def locate {m : Type → Type} [Monad m] (files : FileSystem m) (s : Surroundings)
    (explicit : Option FilePath) : m (Except ProjectError Project) := do
  match ← select? files s explicit with
  | some selection => load files selection
  | none => return .ok {}

/-- The folder that output goes to: the one asked for, or else the configured one. -/
def outDir (p : Project) (explicit : Option FilePath) : FilePath :=
  explicit.getD (p.root.join p.config.build.outDir)

end Project
end ClassScript
