/-
  File:      ClassScript/Command/Run.lean
  Subject:   What the commands do.

  Every command runs over a file system and ends in an outcome: the lines it
  prints, and its exit code. A command that cannot go on prints one error.

  * `loadEach`: the units of some files, and those that are none;
  * `Rule.named`: the rules that a list of names and codes stands for;
  * `Command.run`: all commands; `runWords`: the whole program.
-/
import ClassScript.Build.Pipeline
import ClassScript.Command.Display
import ClassScript.Outline
import ClassScript.Project.Discovery
import ClassScript.Project.Location
import ClassScript.Project.Scaffold

namespace ClassScript

variable {m : Type → Type} [Monad m]

/-! ## 1. Sources -/

/-- The units of some files, and the files that are none. -/
def loadEach (files : FileSystem m) :
    List FilePath → m (List CompilationUnit × List LoadFault)
  | [] => return ([], [])
  | path :: paths => do
    let loaded ← CompilationUnit.load files path
    let (units, faults) ← loadEach files paths
    match loaded with
    | .ok u => return (u :: units, faults)
    | .error e => return (units, ⟨path, e⟩ :: faults)

/-- A report that also counts files which could not be loaded. -/
def Report.countFaults (r : Report) (faults : List LoadFault) : Report :=
  { r with unitsChecked := r.unitsChecked + faults.length }

/-- What a check and a build begin with: a preset, and the sources of some arguments. -/
def prepare (files : FileSystem m) (s : Surroundings) (project : Project)
    (preset : Option String) (paths exclude : List String) :
    m (Except Outcome (Preset × List FilePath)) := do
  match project.config.preset? preset with
  | .error e => return .error (.failure [] e.message)
  | .ok preset =>
    let finder := Finder.ofFiles files s.current
    match ← discover files finder paths (project.config.build.exclude ++ exclude) with
    | .error e => return .error (.failure [] e.message)
    | .ok [] => return .error { output := ["No .javats files found"] }
    | .ok found => return .ok (preset, found)

/-! ## 2. Checks -/

/-- The rule has the name `name`, or in any ASCII letter case the code `name`. -/
def Rule.isCalled (r : Rule) (name : String) : Bool :=
  r.name == name || Text.lowerAscii r.code == Text.lowerAscii name

/-- The rules that a list of names and codes stands for, ordered by code. -/
def Rule.named (list : String) : List Rule :=
  let names := (Text.splitOn ',' list.toList).map fun name => Text.trim (String.ofList name)
  allRules.filter fun r => names.any r.isCalled

/-- The rules of a check. -/
def CheckRequest.rulesUnder (request : CheckRequest) (preset : Preset) : List Rule :=
  match request.rules with
  | some list => Rule.named list
  | none => preset.rules

/-- Checks sources. -/
def runCheck (files : FileSystem m) (s : Surroundings) (project : Project)
    (request : CheckRequest) : m Outcome := do
  match ← prepare files s project request.preset request.paths request.exclude with
  | .error outcome => return outcome
  | .ok (preset, found) =>
    let (units, faults) ← loadEach files found
    let validator : Validator := ⟨request.rulesUnder preset, project.config⟩
    let report := (validator.checkAll units).countFaults faults
    return Display.ofCheck request.format report units faults

/-! ## 3. Builds -/

/-- What a build writes. -/
def BuildRequest.targets (request : BuildRequest) (settings : BuildSettings) : Targets :=
  let base := Targets.ofSettings settings
  ⟨base.typed && !request.dropsTyped, base.script || request.addsScript⟩

/-- The lines that list what was written. -/
def writtenLines (written : List FilePath) : List String :=
  if written.isEmpty then []
  else
    Display.green ("\n✓ Successfully built " ++ toString written.length ++ " file(s):") ::
      written.map fun path => "  " ++ Display.gray "•" ++ " " ++ path.text

/-- The outcome of a build. -/
def BuildReport.outcome (r : BuildReport) (faults : List LoadFault) : Outcome where
  exitCode := if r.isSuccess && faults.isEmpty then 0 else 1
  output := Display.textLines (r.validation.countFaults faults) ++ writtenLines r.written
  errors :=
    Display.faultLines faults ++
    (if r.aborted then [Display.red "✗ Project validation failed, nothing was built"] else []) ++
    r.faults.map fun f =>
      Display.red ("✗ Error transforming " ++ f.unit.text ++ ": " ++ f.cause.message)

/-- Builds sources. -/
def runBuild (files : FileSystem m) (s : Surroundings) (project : Project)
    (request : BuildRequest) : m Outcome := do
  match ← prepare files s project request.preset request.paths request.exclude with
  | .error outcome => return outcome
  | .ok (preset, found) =>
    let (units, faults) ← loadEach files found
    let pipeline := Pipeline.ofPreset preset project.config
    let report ←
      pipeline.build files.save units (project.outDir request.outDir)
        (request.targets project.config.build)
    let outcome := report.outcome faults
    let title :=
      Display.heading ("\nBuilding " ++ toString found.length ++ " .javats file(s)")
    return { outcome with output := title :: outcome.output }

/-! ## 4. Other commands -/

/-- Prints the outline of a file. -/
def runInspect (files : FileSystem m) (file : FilePath) : m Outcome := do
  match ← CompilationUnit.load files file with
  | .ok u => return { output := [(Outline.ofUnit u).toJson.pretty] }
  | .error e => return .failure [] ("Failed to load " ++ file.text) (some e.message)

/-- A text with blanks behind it, up to `width` characters. -/
def padded (width : Nat) (text : String) : String :=
  text ++ String.ofList (List.replicate (width - text.length) ' ')

/-- A line of the table of rules. -/
def ruleLine (code name scope description : String) : String :=
  padded 8 code ++ " " ++ padded 26 name ++ " " ++ padded 9 scope ++ " " ++ description

/-- The line of a preset. -/
def presetLine (preset : Preset) : String :=
  "  " ++ padded 8 preset.name ++ " - " ++ ", ".intercalate (preset.rules.map Rule.code) ++
    if preset = .mature then " (default)" else ""

/-- The table of rules, the presets, and how to ask for single rules. -/
def ruleTable : List String :=
  ["Available rules:", "", ruleLine "Code" "Name" "Scope" "Description",
   String.ofList (List.replicate 90 '-')] ++
  (allRules.map fun r => ruleLine r.code r.name r.scope.word r.description) ++
  ["", "Presets:", presetLine .mature, presetLine .legacy, "",
   "Use --rules to filter specific rules, e.g.:",
   "  javats check src --rules naming-convention,explicit-typing",
   "  javats check src --rules JT001,JT005"]

/-- Creates a project in a folder named `name`. -/
def runCreate (files : FileSystem m) (s : Surroundings) (name : String) (force : Bool) :
    m Outcome := do
  let title := Display.heading ("\nInitializing new JavaTS project: " ++ name)
  match ← Scaffold.create files (s.current.join ⟨name⟩) force with
  | .error e => return .failure [title] e.message (e.cause?.map IoError.message)
  | .ok created =>
    return {
      output :=
        [title] ++ (created.map fun path => "  Created " ++ path.text) ++
        [Display.green ("\n✓ Successfully initialized project: " ++ name), "", "Next steps:",
         "  1. cd " ++ name, "  2. javats check src", "  3. javats build src",
         "  4. node dist/Main.js"] }

/-! ## 5. The program -/

/-- Runs `action` on the project that counts. -/
def withProject (files : FileSystem m) (s : Surroundings) (config : Option FilePath)
    (action : Project → m Outcome) : m Outcome := do
  match ← Project.locate files s config with
  | .ok project => action project
  | .error e => return .failure [] e.message (some e.cause)

/-- Runs a command. -/
def Invocation.run (i : Invocation) (files : FileSystem m) (s : Surroundings) : m Outcome :=
  match i.command with
  | .check request =>
    withProject files s i.config fun project => runCheck files s project request
  | .build request =>
    withProject files s i.config fun project => runBuild files s project request
  | .inspect file => runInspect files file
  | .listRules => return { output := ruleTable }
  | .create name force => runCreate files s name force

/-- The outcome of a command line that is no command. -/
def Interruption.outcome : Interruption → Outcome
  | .help => { output := usageText }
  | .version => { output := [versionText] }
  | .misuse .missingCommand => { exitCode := 2, errors := usageText }
  | .misuse e => { exitCode := 2, errors := ["error: " ++ e.message] }

/-- Runs the program on a command line. -/
def runWords (files : FileSystem m) (s : Surroundings) (words : List String) : m Outcome :=
  match Invocation.ofWords words with
  | .ok i => i.run files s
  | .error stop => return stop.outcome

end ClassScript
