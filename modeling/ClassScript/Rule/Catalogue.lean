/-
  File:      ClassScript/Rule/Catalogue.lean
  Subject:   All rules, and the two presets made of them.

  The mature preset asks for any type in a file and for one entry point in
  the project; the legacy preset asks for a class and an entry point in
  every file. The order of a preset is the order of its diagnostics.

  * `allRules`: every rule once, ordered by code;
  * `Preset`, `Preset.rules`, `Preset.ofName`.
-/
import ClassScript.Rule.Structure
import ClassScript.Rule.Casing
import ClassScript.Rule.Members
import ClassScript.Rule.EntryPoint
import ClassScript.Rule.Interfaces

namespace ClassScript

open Rules

/-- Every rule once, ordered by code. -/
def allRules : List Rule :=
  [.unit noProceduralCode, .unit requireType, .unit requireClass, .unit singlePublicClass,
   .unit namingConvention, .unit requireModifiers, .unit explicitTyping, .unit mainModifier,
   .unit mainMethod, .project projectMainMethod, .unit interfaceImplementation]

/-- The rule of a name. -/
def ruleNamed? (name : String) : Option Rule := allRules.find? (·.name == name)

/-- The two catalogues of rules. -/
inductive Preset where
  | mature
  | legacy
  deriving DecidableEq, Repr, Inhabited

namespace Preset

def name : Preset → String
  | .mature => "mature"
  | .legacy => "legacy"

/-- The rules, in order of execution. -/
def rules : Preset → List Rule
  | .mature =>
    [.unit noProceduralCode, .unit requireType, .unit singlePublicClass,
     .unit namingConvention, .unit requireModifiers, .unit explicitTyping, .unit mainModifier,
     .unit interfaceImplementation, .project projectMainMethod]
  | .legacy =>
    [.unit noProceduralCode, .unit requireClass, .unit mainMethod, .unit mainModifier,
     .unit requireModifiers, .unit explicitTyping]

/-- The entry point is asked for in every file, not once per project. -/
def checksMainPerUnit : Preset → Bool
  | .mature => false
  | .legacy => true

/-- A name that is no preset's, in small letters. -/
structure Unknown where
  name : String
  deriving DecidableEq, Repr

def Unknown.message (e : Unknown) : String :=
  s!"Unknown preset '{e.name}' (expected 'mature' or 'legacy')"

/-- The preset of a name, in any ASCII letter case. -/
def ofName (name : String) : Except Unknown Preset :=
  let small := Text.lowerAscii name
  if small = "mature" then .ok .mature
  else if small = "legacy" then .ok .legacy
  else .error ⟨small⟩

end Preset
end ClassScript
