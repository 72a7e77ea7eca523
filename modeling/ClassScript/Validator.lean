/-
  File:      ClassScript/Validator.lean
  Subject:   Running rules over files.

  Rules run in the order they were registered, and none stops another. A file
  without diagnostics of unit rules is accepted; the project rules then look
  at the accepted files. A rule that the configuration turns off does not run.

  * `Validator`: rules and a configuration;
  * `Validator.Builder`: how a validator is put together;
  * `Validator.checkUnit`, `Validator.checkProject`: the two scopes;
  * `Validator.checkEach`: the files with diagnostics, ordered by path;
  * `Validator.checkAll`: the whole flow.
-/
import ClassScript.Config
import ClassScript.Report

namespace ClassScript

/-- Rules in the order they run, and the configuration that may turn them off. -/
structure Validator where
  rules : List Rule
  config : Config := {}

namespace Validator

/-- The rules of a preset under a configuration. -/
def ofPreset (preset : Preset) (config : Config) : Validator := ⟨preset.rules, config⟩

/-- One more rule after the others. -/
def register (v : Validator) (rule : Rule) : Validator := { v with rules := v.rules ++ [rule] }

/-- More rules after the others. -/
def registerAll (v : Validator) (rules : List Rule) : Validator :=
  { v with rules := v.rules ++ rules }

/-- What a validator is put together from: the rules so far, and the configuration if one has
    been given. -/
structure Builder where
  rules : List Rule := []
  config : Option Config := none

namespace Builder

/-- One more rule after the others. -/
def rule (b : Builder) (r : Rule) : Builder := { b with rules := b.rules ++ [r] }

/-- The rules of a list after the others, one after the other. -/
def ruleSet (b : Builder) (rs : List Rule) : Builder := rs.foldl rule b

/-- The configuration; one that was given before is forgotten. -/
def withConfig (b : Builder) (c : Config) : Builder := { b with config := some c }

/-- The validator. Without a configuration it runs under the empty one. -/
def build (b : Builder) : Validator := ⟨b.rules, b.config.getD {}⟩

end Builder

/-- The configuration does not turn the rule off. -/
def runs (v : Validator) (rule : Rule) : Bool := v.config.enables rule.name

/-! ## 1. The two scopes -/

/-- The diagnostics of the unit rules for the file `u` among the files `loaded`. -/
def checkUnitIn (v : Validator) (loaded : List CompilationUnit) (u : CompilationUnit) :
    List Diagnostic :=
  ((v.rules.filter v.runs).filterMap Rule.unit?).flatMap fun r => r.check loaded u

/-- The diagnostics of the unit rules for the file `u` on its own. -/
def checkUnit (v : Validator) (u : CompilationUnit) : List Diagnostic := v.checkUnitIn [u] u

/-- The diagnostics of the project rules for the files `units`. -/
def checkProject (v : Validator) (units : List CompilationUnit) : List Diagnostic :=
  ((v.rules.filter v.runs).filterMap Rule.project?).flatMap fun r => r.check units

/-! ## 2. Collections -/

/-- More values for the key `path` of a map that is ordered by path. The first spelling of a
    path stays its key. -/
def addEntries {α : Type} (path : FilePath) (values : List α) :
    List (FilePath × List α) → List (FilePath × List α)
  | [] => [(path, values)]
  | (key, old) :: rest =>
    match path.order key with
    | .lt => (path, values) :: (key, old) :: rest
    | .eq => (key, old ++ values) :: rest
    | .gt => (key, old) :: addEntries path values rest

/-- The diagnostics of each file that has some, ordered by path. -/
def checkEach (v : Validator) (units : List CompilationUnit) :
    List (FilePath × List Diagnostic) :=
  units.foldl
    (fun found u =>
      match v.checkUnitIn units u with
      | [] => found
      | diagnostics => addEntries u.path diagnostics found)
    []

/-- The file has no diagnostic of a unit rule. -/
def accepts (v : Validator) (loaded : List CompilationUnit) (u : CompilationUnit) : Bool :=
  (v.checkUnitIn loaded u).isEmpty

/-- The files that are accepted. -/
def accepted (v : Validator) (units : List CompilationUnit) : List CompilationUnit :=
  units.filter (v.accepts units)

/-- The report of the unit rules alone. -/
def checkUnits (v : Validator) (units : List CompilationUnit) : Report :=
  { diagnostics := units.flatMap (v.checkUnitIn units)
    unitsChecked := units.length
    accepted := (v.accepted units).map (·.path) }

/-- The report of the whole flow: the unit rules, and the project rules over what they accept. -/
def checkAll (v : Validator) (units : List CompilationUnit) : Report :=
  let report := v.checkUnits units
  { report with diagnostics := report.diagnostics ++ v.checkProject (v.accepted units) }

end Validator
end ClassScript
