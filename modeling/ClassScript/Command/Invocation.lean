/-
  File:      ClassScript/Command/Invocation.lean
  Subject:   The commands of the program.

  * `Command`: what the program is asked to do;
  * `Invocation.ofWords`: the command of a command line;
  * `usageText`: what is printed for help.
-/
import ClassScript.Command.Arguments
import ClassScript.Text.FilePath

namespace ClassScript

/-- How the outcome of a check is printed. -/
inductive OutputFormat where
  | text
  | json
  | compact
  | pretty
  deriving DecidableEq, Repr

/-- The format of a name. -/
def OutputFormat.ofName? : String → Option OutputFormat
  | "text" => some .text
  | "json" => some .json
  | "compact" => some .compact
  | "pretty" => some .pretty
  | _ => none

/-- What a check is asked for. -/
structure CheckRequest where
  paths : List String
  format : OutputFormat := .text
  /-- The names or codes of the rules that run, between commas. -/
  rules : Option String := none
  preset : Option String := none
  exclude : List String := []
  deriving DecidableEq, Repr

/-- What a build is asked for. -/
structure BuildRequest where
  paths : List String
  outDir : Option FilePath := none
  /-- Scripts are written whatever the configuration says. -/
  addsScript : Bool := false
  /-- Checked texts are not written whatever the configuration says. -/
  dropsTyped : Bool := false
  preset : Option String := none
  exclude : List String := []
  deriving DecidableEq, Repr

/-- What the program is asked to do. -/
inductive Command where
  | check (request : CheckRequest)
  | build (request : BuildRequest)
  | inspect (file : FilePath)
  | listRules
  /-- Creates a project. -/
  | create (name : String) (force : Bool)
  deriving DecidableEq, Repr

/-- A command, and the configuration file that is asked for. -/
structure Invocation where
  command : Command
  config : Option FilePath := none
  deriving DecidableEq, Repr

namespace Invocation

/-! ## 1. Options -/

/-- An option whose value may be any text. -/
def textOption (name : String) (letter : Option Char := none) : OptionForm :=
  { name, letter, kind := .value fun _ => true }

/-- An option whose value is a path. -/
def pathOption (name : String) (letter : Char) : OptionForm :=
  { name, letter := some letter, kind := .value fun text => !text.isEmpty }

/-- The options of all commands, which may also stand before the command. -/
def generalForms : List OptionForm :=
  [{ name := "verbose", letter := some 'v' }, pathOption "config" 'c',
   { name := "help", letter := some 'h', kind := .help }]

/-- The options that stand before the command. -/
def leadingForms : List OptionForm :=
  generalForms ++ [{ name := "version", letter := some 'V', kind := .version }]

def excludeForm : OptionForm := { textOption "exclude" (some 'e') with repeats := true }

def formatForm : OptionForm :=
  { name := "format", letter := some 'f',
    kind := .value fun text => (OutputFormat.ofName? text).isSome }

def checkForms : List OptionForm :=
  [formatForm, textOption "rules", textOption "preset", excludeForm]

def buildForms : List OptionForm :=
  [pathOption "out-dir" 'o', { name := "emit-js" }, { name := "no-emit-ts" },
   textOption "preset", excludeForm]

def createForms : List OptionForm := [textOption "name" (some 'n'), { name := "force" }]

/-! ## 2. Commands -/

/-- The plain words of a command that needs some. -/
def somePaths (ms : Matches) : Except Interruption (List String) :=
  if ms.words.isEmpty then .error (.misuse (.missingArgument "<PATHS>")) else .ok ms.words

/-- A command that has no plain words. -/
def withoutWords (ms : Matches) (command : Command) : Except Interruption Command :=
  match ms.words with
  | [] => .ok command
  | word :: _ => .error (.misuse (.extraArgument word))

/-- The check that options ask for. -/
def checkOf (ms : Matches) : Except Interruption Command :=
  (somePaths ms).map fun paths =>
    .check {
      paths
      format := ((ms.value? "format").bind OutputFormat.ofName?).getD .text
      rules := ms.value? "rules"
      preset := ms.value? "preset"
      exclude := ms.values "exclude" }

/-- The build that options ask for. -/
def buildOf (ms : Matches) : Except Interruption Command :=
  (somePaths ms).map fun paths =>
    .build {
      paths
      outDir := (ms.value? "out-dir").map FilePath.mk
      addsScript := ms.has "emit-js"
      dropsTyped := ms.has "no-emit-ts"
      preset := ms.value? "preset"
      exclude := ms.values "exclude" }

/-- The inspection of the only plain word. -/
def inspectOf (ms : Matches) : Except Interruption Command :=
  match ms.words with
  | [] => .error (.misuse (.missingArgument "<FILE>"))
  | [file] =>
    if file.isEmpty then .error (.misuse (.missingArgument "<FILE>")) else .ok (.inspect ⟨file⟩)
  | _ :: word :: _ => .error (.misuse (.extraArgument word))

/-- The name of a project that gets none. -/
def defaultName : String := "javats-project"

/-- The project that options ask for. -/
def createOf (ms : Matches) : Except Interruption Command :=
  withoutWords ms (.create ((ms.value? "name").getD defaultName) (ms.has "force"))

/-- A command with its options, and what they ask for. -/
structure Entry where
  name : String
  forms : List OptionForm
  command : Matches → Except Interruption Command

/-- All commands. -/
def entries : List Entry :=
  [⟨"check", checkForms, checkOf⟩, ⟨"build", buildForms, buildOf⟩, ⟨"inspect", [], inspectOf⟩,
   ⟨"list-rules", [], (withoutWords · .listRules)⟩, ⟨"init", createForms, createOf⟩]

/-- Help that is asked for by a command of its own: for all commands, or for one. -/
def helpFor (words : List String) : Interruption :=
  match words with
  | [] => .help
  | word :: rest =>
    if word ≠ "help" ∧ !entries.any (·.name == word) then .misuse (.unknownCommand word)
    else
      match rest with
      | [] => .help
      | next :: _ => .misuse (.unknownCommand next)

/-- The command of the words from the command's name on; `leading` are the options before it. -/
def ofCommand (leading : Matches) : List String → Except Interruption Invocation
  | [] => .error (.misuse .missingCommand)
  | word :: words =>
    match entries.find? (·.name == word) with
    | none => .error (if word = "help" then helpFor words else .misuse (.unknownCommand word))
    | some entry => do
      let (ms, _) ← readWords (generalForms ++ entry.forms) false words {}
      let command ← entry.command ms
      let config := (ms.value? "config").orElse fun _ => leading.value? "config"
      return ⟨command, config.map FilePath.mk⟩

/-- The command of a command line. -/
def ofWords (words : List String) : Except Interruption Invocation := do
  let (leading, rest) ← readWords leadingForms true words {}
  ofCommand leading rest

end Invocation

/-! ## 3. Help -/

/-- The name of the program and its version. -/
def versionText : String := "javats 0.3.0"

/-- What is printed for help. -/
def usageText : List String :=
  ["Usage: javats [OPTIONS] <COMMAND>",
   "",
   "Commands:",
   "  check <PATHS>...   Check .javats files against the dialect rules",
   "  build <PATHS>...   Validate and transpile .javats files to TypeScript and JavaScript",
   "  inspect <FILE>     Print the structure of a .javats file as JSON",
   "  list-rules         List available rules",
   "  init               Initialize a new JavaTS project",
   "",
   "Options:",
   "  -v, --verbose            Enable verbose output",
   "  -c, --config <CONFIG>    Path to configuration file",
   "  -h, --help               Print help",
   "  -V, --version            Print version",
   "",
   "Options of check:",
   "  -f, --format <FORMAT>    Output format: text, json, compact or pretty",
   "      --rules <RULES>      Only run specific rules (comma-separated names or codes)",
   "",
   "Options of build:",
   "  -o, --out-dir <OUT_DIR>  Output directory (default: build.out_dir from config)",
   "      --emit-js            Also emit compiled JavaScript with the entry runner",
   "      --no-emit-ts         Do not emit the checked TypeScript",
   "",
   "Options of check and build:",
   "      --preset <PRESET>    Rule preset: mature or legacy",
   "  -e, --exclude <EXCLUDE>  Exclude patterns (can be specified multiple times)",
   "",
   "Options of init:",
   "  -n, --name <NAME>        Project name (directory to create)",
   "      --force              Overwrite existing files"]

end ClassScript
