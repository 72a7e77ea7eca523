/-
  File:      ClassScript/Config.lean
  Subject:   The configuration of a project.

  A configuration names a preset, says where a build writes what, and turns
  single rules off. Everything has a default. Settings nobody knows are
  ignored, and a known setting of the wrong type is an error.

  * `Config`, `BuildSettings`, `RuleSetting`;
  * `Config.enables`: whether a rule runs;
  * `Config.ofText?`: the configuration of a TOML text;
  * `Config.preset?`: the preset a run uses.
-/
import ClassScript.Rule.Catalogue
import ClassScript.Toml.Reader

namespace ClassScript

/-- What is set for one rule. -/
structure RuleSetting where
  enabled : Option Bool := none
  deriving DecidableEq, Repr

/-- What is set for builds. -/
structure BuildSettings where
  /-- The folder that output goes to. -/
  outDir : FilePath := ⟨"dist"⟩
  /-- The checked text of each file is written. -/
  emitsTyped : Bool := true
  /-- The script of each file is written. -/
  emitsScript : Bool := false
  /-- The patterns of files that are left out. -/
  exclude : List String := ["**/node_modules/**"]
  deriving DecidableEq, Repr

/-- A configuration. -/
structure Config where
  preset : Option String := none
  build : BuildSettings := {}
  rules : List (String × RuleSetting) := []
  deriving DecidableEq, Repr

namespace Config

/-- A rule runs unless it is turned off. -/
def enables (c : Config) (rule : String) : Bool :=
  match c.rules.find? fun r => r.1 == rule with
  | some (_, setting) => setting.enabled.getD true
  | none => true

/-- The preset of a run: the one asked for, or else the configured one, or else the mature one. -/
def preset? (c : Config) (explicit : Option String) : Except Preset.Unknown Preset :=
  match explicit.orElse fun _ => c.preset with
  | some name => Preset.ofName name
  | none => .ok .mature

/-! ## 1. Reading -/

/-- The settings of a table. A list gives them in the order `names`, and a date gives none. -/
def settingsOf? (names : List String) : Toml → Option Toml.Entries
  | .table _ entries => some entries
  | .list items => some (names.zip items)
  | .tables items => some (names.zip (items.map (Toml.table .header)))
  | .date _ => some []
  | _ => none

def text? : Toml → Option String
  | .text s => some s
  | _ => none

def bool? : Toml → Option Bool
  | .bool b => some b
  | _ => none

def texts? : Toml → Option (List String)
  | .list items => items.mapM text?
  | _ => none

/-- The setting `name`, read by `read`; `missing` if there is none. -/
def setting? {α : Type} (entries : Toml.Entries) (name : String) (read : Toml → Option α)
    (missing : α) : Option α :=
  match Toml.find? name entries with
  | some value => read value
  | none => some missing

/-- The settings of one rule. -/
def ruleSetting? (value : Toml) : Option RuleSetting := do
  let entries ← settingsOf? ["enabled"] value
  let enabled ← setting? entries "enabled" (fun v => (bool? v).map some) none
  return ⟨enabled⟩

/-- The settings of all rules. -/
def ruleSettings? : Toml → Option (List (String × RuleSetting))
  | .table _ entries => entries.mapM fun e => (ruleSetting? e.2).map fun s => (e.1, s)
  | _ => none

/-- The settings for builds. -/
def buildSettings? (value : Toml) : Option BuildSettings := do
  let defaults : BuildSettings := {}
  let entries ← settingsOf? ["out_dir", "emit_ts", "emit_js", "exclude"] value
  let outDir ← setting? entries "out_dir" (fun v => (text? v).map FilePath.mk) defaults.outDir
  let emitsTyped ← setting? entries "emit_ts" bool? defaults.emitsTyped
  let emitsScript ← setting? entries "emit_js" bool? defaults.emitsScript
  let exclude ← setting? entries "exclude" texts? defaults.exclude
  return { outDir, emitsTyped, emitsScript, exclude }

/-- The configuration of a TOML document. -/
def ofEntries? (entries : Toml.Entries) : Option Config := do
  let preset ← setting? entries "preset" (fun v => (text? v).map some) none
  let build ← setting? entries "build" buildSettings? {}
  let rules ← setting? entries "rules" ruleSettings? []
  return { preset, build, rules }

/-- The configuration of a TOML text. -/
def ofText? (text : String) : Option Config := (Toml.ofText? text).bind ofEntries?

end Config
end ClassScript
