/-
  File:      ClassScript/Build/Pipeline.lean
  Subject:   Builds: validation, and then writing what was accepted.

  A build looks at its units one by one, and keeps those that are accepted.
  Nothing is written if a project rule complains. Else each accepted unit is
  written on its own, its typed text before its script. What goes wrong with
  one unit ends that unit only, and is recorded.

  * `Targets`, `Artifact`, `outputPath`: what is written, and where;
  * `BuildReport`: the outcome;
  * `Survey`: what a build knows of the units it has looked at;
  * `Pipeline.build`: a build over a file system.
-/
import ClassScript.Build.Compiler

namespace ClassScript

/-! ## 1. Artifacts -/

/-- What may be written for a unit. -/
inductive Artifact where
  | typed
  | script
  deriving DecidableEq, Repr

/-- The extension of the files of an artifact, without its dot. -/
def Artifact.extension : Artifact → String
  | .typed => Compiler.typedExtension
  | .script => Emission.scriptExtension

/-- What a build writes. -/
structure Targets where
  typed : Bool := true
  script : Bool := false
  deriving DecidableEq, Repr

/-- The targets that a configuration asks for. -/
def Targets.ofSettings (s : BuildSettings) : Targets := ⟨s.emitsTyped, s.emitsScript⟩

/-- The artifacts of each unit, in the order they are written. -/
def Targets.artifacts (t : Targets) : List Artifact :=
  (if t.typed then [.typed] else []) ++ if t.script then [.script] else []

/-- The path of the file that is written for the source `source`: its name with another
    extension, right in the folder `outDir`. -/
def outputPath (source outDir : FilePath) (extension : String) : FilePath :=
  let name := source.baseName
  let stem := (Text.dropTail? ("." ++ sourceExtension) name).getD name
  outDir.join ⟨stem ++ "." ++ extension⟩

/-! ## 2. Reports -/

/-- What went wrong with a unit. -/
structure UnitFault where
  unit : FilePath
  cause : BuildError
  deriving DecidableEq, Repr

/-- The outcome of a build. -/
structure BuildReport where
  validation : Report
  written : List FilePath := []
  faults : List UnitFault := []
  /-- A project rule complained, and nothing was written. -/
  aborted : Bool := false
  deriving DecidableEq, Repr

/-- Nothing was wrong. -/
def BuildReport.isSuccess (r : BuildReport) : Bool :=
  !r.validation.hasDiagnostics && r.faults.isEmpty

/-! ## 3. Writing -/

/-- What becomes of one unit: the files written, and what ended it early. -/
structure UnitOutcome where
  written : List FilePath
  fault : Option BuildError

/-- The text of an artifact. -/
def Compiler.text (c : Compiler) (u : CompilationUnit) : Artifact → Except BuildError String
  | .typed => c.typedText u
  | .script => c.script u

section

variable {m : Type → Type} [Monad m]

/-- A way to give a file a text. -/
abbrev Save (m : Type → Type) : Type := FilePath → String → m (Except IoError Unit)

/-- Writes one artifact of a unit: its path, or why it is not written. -/
def writeArtifact (save : Save m) (c : Compiler) (outDir : FilePath) (u : CompilationUnit)
    (a : Artifact) : m (Except BuildError FilePath) := do
  match c.text u a with
  | .error e => return .error e
  | .ok text =>
    let path := outputPath u.path outDir a.extension
    match ← save path text with
    | .ok () => return .ok path
    | .error cause => return .error (.unwritable path cause)

/-- Writes artifacts of a unit until one of them fails. -/
def writeArtifacts (save : Save m) (c : Compiler) (outDir : FilePath) (u : CompilationUnit) :
    List Artifact → m UnitOutcome
  | [] => return ⟨[], none⟩
  | a :: as => do
    match ← writeArtifact save c outDir u a with
    | .error e => return ⟨[], some e⟩
    | .ok path =>
      let rest ← writeArtifacts save c outDir u as
      return { rest with written := path :: rest.written }

/-- Writes units, and says what becomes of each. -/
def writeUnits (save : Save m) (c : Compiler) (outDir : FilePath) (targets : Targets) :
    List CompilationUnit → m (List (FilePath × UnitOutcome))
  | [] => return []
  | u :: us => do
    let outcome ← writeArtifacts save c outDir u targets.artifacts
    let rest ← writeUnits save c outDir targets us
    return (u.path, outcome) :: rest

end

/-! ## 4. Looking at units -/

/-- What a build knows of the units it has looked at: their report so far, and which of them it
    accepts. -/
structure Survey where
  report : Report := {}
  accepted : List CompilationUnit := []

namespace Survey

/-- One more unit. Without diagnostics of unit rules it is accepted. -/
def add (v : Validator) (loaded : List CompilationUnit) (s : Survey) (u : CompilationUnit) :
    Survey :=
  let counted := { s.report with unitsChecked := s.report.unitsChecked + 1 }
  match v.checkUnitIn loaded u with
  | [] =>
    { report := { counted with accepted := counted.accepted ++ [u.path] }
      accepted := s.accepted ++ [u] }
  | found => { s with report := { counted with diagnostics := counted.diagnostics ++ found } }

/-- All units, one after the other. -/
def ofUnits (v : Validator) (units : List CompilationUnit) : Survey :=
  units.foldl (add v units) {}

end Survey

/-! ## 5. Builds -/

/-- What validates units, and what compiles them. -/
structure Pipeline where
  validator : Validator
  compiler : Compiler

namespace Pipeline

/-- The pipeline of a preset under a configuration. -/
def ofPreset (preset : Preset) (config : Config) : Pipeline :=
  ⟨.ofPreset preset config, { options := .ofPreset preset config }⟩

/-- The report of a build whose units had these outcomes. -/
def reportOf (validation : Report) (outcomes : List (FilePath × UnitOutcome)) : BuildReport :=
  { validation := validation
    written := outcomes.flatMap fun o => o.2.written
    faults := outcomes.filterMap fun o => o.2.fault.map fun cause => ⟨o.1, cause⟩ }

/-- A build of units into a folder. -/
def build {m : Type → Type} [Monad m] (p : Pipeline) (save : Save m)
    (units : List CompilationUnit) (outDir : FilePath) (targets : Targets) : m BuildReport := do
  let survey := Survey.ofUnits p.validator units
  match p.validator.checkProject survey.accepted with
  | [] =>
    let outcomes ← writeUnits save p.compiler outDir targets survey.accepted
    return reportOf survey.report outcomes
  | found =>
    return {
      validation := { survey.report with diagnostics := survey.report.diagnostics ++ found }
      aborted := true }

end Pipeline
end ClassScript
