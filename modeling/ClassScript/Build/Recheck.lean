/-
  File:      ClassScript/Build/Recheck.lean
  Subject:   The check of a file right before it is written.

  A file whose rules were turned off may still not be fit for writing. The
  check looks for the first violation among three invariants, and else gives
  the text as it is.

  * `RecheckOptions`, `RecheckError`;
  * `recheck`: the text of a unit, or the first violation.
-/
import ClassScript.Validator

namespace ClassScript

/-- Which invariants are checked. -/
structure RecheckOptions where
  enforcesMain : Bool := true
  requiresModifiers : Bool := true
  forbidsProceduralCode : Bool := true
  deriving DecidableEq, Repr

/-- The options that agree with a preset under a configuration. -/
def RecheckOptions.ofPreset (preset : Preset) (config : Config) : RecheckOptions :=
  { enforcesMain := preset.checksMainPerUnit && config.enables Rules.mainMethod.info.name
    requiresModifiers := config.enables Rules.requireModifiers.info.name
    forbidsProceduralCode := config.enables Rules.noProceduralCode.info.name }

/-- An invariant that is violated. -/
inductive RecheckError where
  | proceduralCode
  | missingModifier (className member : String)
  | missingEntryPoint
  deriving DecidableEq, Repr

/-- The message of an error. -/
def RecheckError.message : RecheckError → String
  | .proceduralCode =>
    "Procedural code detected: Functions and variables must be inside classes"
  | .missingModifier className member =>
    "Member '" ++ member ++ "' of class '" ++ className ++ "' has no visibility modifier"
  | .missingEntryPoint => "No public static main method found in any class"

/-- The name of a member that has to have an access modifier and has none. -/
def Member.unmodified? : Member → Option String
  | .method m => if m.modifiers.visibility.isNone then some m.name else none
  | .property p => if p.modifiers.visibility.isNone then some p.name else none
  | .initializer _ | .accessor _ => none

/-- The first member without access modifier, and its class. -/
def firstUnmodified? (classes : List ClassDecl) : Option (String × String) :=
  classes.findSome? fun c => (c.members.findSome? Member.unmodified?).map fun m => (c.displayName, m)

/-- The text of a unit, or the first violation. -/
def recheck (options : RecheckOptions) (u : CompilationUnit) : Except RecheckError String :=
  if options.forbidsProceduralCode && (!u.functions.isEmpty || !u.variableDecls.isEmpty) then
    .error .proceduralCode
  else
    match if options.requiresModifiers then firstUnmodified? u.classes else none with
    | some (className, member) => .error (.missingModifier className member)
    | none =>
      if options.enforcesMain && !u.declaresEntryPoint then .error .missingEntryPoint
      else .ok u.text

end ClassScript
