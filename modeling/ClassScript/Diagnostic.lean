/-
  File:      ClassScript/Diagnostic.lean
  Subject:   One violation of a rule: where it is, what it says.

  * `Diagnostic`: code and name of the rule, place, message, suggestion;
  * `Diagnostic.shown`: the one-line form; `Diagnostic.format`: the long form;
  * `Diagnostic.toJson`, `Diagnostic.ofJson?`: the JSON form and its reader;
  * `SourceLabel`: the span of a diagnostic in the text of its file.
-/
import ClassScript.CompilationUnit
import ClassScript.Json

namespace ClassScript

/-- The place a diagnostic points at. -/
structure Location where
  file : FilePath
  line : Nat
  column : Nat
  deriving DecidableEq, Repr

namespace Location

/-- The place `p` of the file `file`. -/
def place (file : FilePath) (p : Position) : Location := ⟨file, p.line, p.column⟩

/-- The first character of a file. -/
def fileStart (file : FilePath) : Location := .place file .start

def position (l : Location) : Position := ⟨l.line, l.column⟩

/-- `file:line:column`. -/
def shown (l : Location) : String := s!"{l.file.text}:{l.line}:{l.column}"

end Location

/-- A violation of a rule. -/
structure Diagnostic where
  code : String
  rule : String
  location : Location
  message : String
  suggestion : Option String := none
  deriving DecidableEq, Repr

namespace Diagnostic

/-- The file a diagnostic belongs to. -/
def file (d : Diagnostic) : FilePath := d.location.file

/-! ## 1. Text forms -/

/-- The one-line form. -/
def shown (d : Diagnostic) : String :=
  s!"[{d.rule}] {d.location.shown} - {d.message}"

/-- The long form: the place, the message, and the suggestion if there is one. -/
def format (d : Diagnostic) : String :=
  s!"{d.code} {d.rule} at {d.location.shown}\n  error: {d.message}\n" ++
    match d.suggestion with
    | none => ""
    | some advice => s!"  = help: {advice}\n"

/-! ## 2. JSON -/

end Diagnostic

/-- The fields of a record. A list is read as the record whose fields it gives in the order
    `names`; it may be shorter, not longer. -/
def Json.fieldsAs? (names : List String) : Json → Option (List (String × Json))
  | .record fields => some fields
  | .list items => if items.length ≤ names.length then some (names.zip items) else none
  | _ => none

/-- The value of a field among `fields`. -/
def fieldOf? (fields : List (String × Json)) (name : String) : Option Json :=
  (fields.find? fun f => f.1 == name).map (·.2)

def Location.toJson (l : Location) : Json :=
  .record [("file", .text l.file.text), ("line", .count l.line), ("column", .count l.column)]

def Location.ofJson? (value : Json) : Option Location := do
  let fields ← value.fieldsAs? ["file", "line", "column"]
  let file ← (← fieldOf? fields "file").toText?
  let line ← (← fieldOf? fields "line").toCount?
  let column ← (← fieldOf? fields "column").toCount?
  return ⟨⟨file⟩, line, column⟩

/-- The JSON form of a suggestion. -/
def suggestionToJson (advice : String) : Json := .record [("message", .text advice)]

/-- A suggestion: a missing one and `null` are none. -/
def suggestionOfJson? : Option Json → Option (Option String)
  | none => some none
  | some .null => some none
  | some value => do
    let fields ← value.fieldsAs? ["message"]
    let advice ← (← fieldOf? fields "message").toText?
    return some advice

namespace Diagnostic

/-- The JSON form; a diagnostic without suggestion has no such field. -/
def toJson (d : Diagnostic) : Json :=
  .record
    ([("code", .text d.code), ("rule", .text d.rule), ("location", d.location.toJson),
      ("message", .text d.message)] ++
      (d.suggestion.map fun advice => ("suggestion", suggestionToJson advice)).toList)

/-- Reads the JSON form. Every field but the suggestion is required, others are ignored. -/
def ofJson? (value : Json) : Option Diagnostic := do
  let fields ← value.fieldsAs? ["code", "rule", "location", "message", "suggestion"]
  let code ← (← fieldOf? fields "code").toText?
  let rule ← (← fieldOf? fields "rule").toText?
  let location ← Location.ofJson? (← fieldOf? fields "location")
  let message ← (← fieldOf? fields "message").toText?
  let suggestion ← suggestionOfJson? (fieldOf? fields "suggestion")
  return ⟨code, rule, location, message, suggestion⟩

end Diagnostic

/-! ## 3. Spans in the source -/

/-- What a source view shows of a diagnostic: a headline, advice, and a labelled span. -/
structure SourceLabel where
  headline : String
  help : Option String
  offset : Nat
  length : Nat
  label : String
  deriving DecidableEq, Repr

/-- The view of a diagnostic in the text of `u`: one byte at its place, or none at the end. -/
def SourceLabel.of (d : Diagnostic) (u : CompilationUnit) : SourceLabel :=
  let offset := u.offsetOf d.location.position
  { headline := s!"[{d.code}] {d.message}"
    help := d.suggestion
    offset := offset
    length := if offset < u.bytes.length then 1 else 0
    label := d.rule }

end ClassScript
