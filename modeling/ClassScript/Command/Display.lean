/-
  File:      ClassScript/Command/Display.lean
  Subject:   How the outcome of a check or a build is printed.

  Each format is a list of lines for the output and one for the errors. The
  text form groups diagnostics by file; the compact form has a line for each;
  the JSON form is the report with the faults of loading at its end.

  * `Outcome`: what a run prints, and how it ends;
  * `LoadFault`: a file that could not be loaded;
  * `Display.textLines`, `compactLines`, `jsonLines`;
  * `Display.ofCheck`: the outcome of a check in any format.
-/
import ClassScript.Command.Invocation
import ClassScript.Loading
import ClassScript.Report

namespace ClassScript

/-- What a run prints, and how it ends. -/
structure Outcome where
  exitCode : Nat := 0
  output : List String := []
  errors : List String := []
  deriving DecidableEq, Repr

/-- A run that fails after it has printed `output`. -/
def Outcome.failure (output : List String) (message : String) (cause : Option String := none) :
    Outcome where
  exitCode := 1
  output := output
  errors := ("Error: " ++ message) ::
    match cause with
    | none => []
    | some text => ["", "Caused by:", "    " ++ text]

/-- A file that could not be loaded. -/
structure LoadFault where
  path : FilePath
  error : LoadError
  deriving DecidableEq, Repr

namespace LoadFault

def message (f : LoadFault) : String := f.error.message

def toJson (f : LoadFault) : Json :=
  .record [("path", .text f.path.text), ("message", .text f.message)]

end LoadFault

namespace Display

/-! ## 1. Styles -/

/-- A text between a terminal's code for a style and the one that ends it. -/
def styled (code text : String) : String := "\x1b[" ++ code ++ "m" ++ text ++ "\x1b[0m"

def red (text : String) : String := styled "31" text
def green (text : String) : String := styled "32" text
def gray (text : String) : String := styled "90" text
def underlined (text : String) : String := styled "4" text
def heading (text : String) : String := styled "1;34" text

/-! ## 2. The text form -/

/-- The lines of a diagnostic below the line of its file. -/
def diagnosticLines (d : Diagnostic) : List String :=
  ("  " ++ red "✗" ++ " " ++ gray ("[" ++ d.rule ++ "]") ++ " Line " ++ toString d.location.line ++
      ", Col " ++ toString d.location.column ++ ": " ++ d.message) ::
    (d.suggestion.map fun advice => "    = help: " ++ advice).toList

/-- The lines of a file's diagnostics. -/
def fileLines (path : FilePath) (diagnostics : List Diagnostic) : List String :=
  ("\n" ++ underlined ("File: " ++ path.text)) :: diagnostics.flatMap diagnosticLines

/-- The lines of a report: its diagnostics grouped by file, and their number. -/
def textLines (r : Report) : List String :=
  if r.hasDiagnostics then
    (r.byUnit.flatMap fun (path, diagnostics) => fileLines path diagnostics) ++
      ["\n" ++ red ("✗ Found " ++ toString r.diagnostics.length ++ " error(s) in " ++
        toString r.byUnit.length ++ " file(s)")]
  else [green "✓ All files passed validation"]

/-- The lines of files that could not be loaded. -/
def faultLines (faults : List LoadFault) : List String :=
  faults.map fun f => red ("✗ Error: " ++ f.path.text ++ ": " ++ f.message)

/-! ## 3. Other forms -/

/-- The line of a diagnostic. -/
def compactLine (d : Diagnostic) : String :=
  d.location.shown ++ ": " ++ d.code ++ " [" ++ d.rule ++ "] " ++ d.message

/-- A line for each diagnostic and each fault. -/
def compactLines (r : Report) (faults : List LoadFault) : List String :=
  r.diagnostics.map compactLine ++
    faults.map fun f => f.path.text ++ ":1:1: fault " ++ f.message

/-- The report as JSON, with the faults as its last field. -/
def jsonLines (r : Report) (faults : List LoadFault) : List String :=
  let fields :=
    match r.toJson with
    | .record fields => fields
    | _ => []
  [(Json.record (fields ++ [("faults", .list (faults.map LoadFault.toJson))])).pretty]

/-- A diagnostic is about one of the units. -/
def isAbout (units : List CompilationUnit) (d : Diagnostic) : Bool :=
  units.any fun u => u.path.same d.file

/-- The pretty form of a report: the long form of diagnostics about units goes to the errors, the
    lines of others to the output. -/
def ofPretty (r : Report) (units : List CompilationUnit) (faults : List LoadFault) : Outcome where
  output :=
    (r.diagnostics.filter fun d => !isAbout units d).flatMap diagnosticLines ++
      if r.hasDiagnostics then [] else ["✓ All files passed validation"]
  errors :=
    faultLines faults ++ (r.diagnostics.filter (isAbout units)).map Diagnostic.format ++
      if r.hasDiagnostics then ["Found " ++ toString r.diagnostics.length ++ " error(s)"] else []

/-! ## 4. The outcome of a check -/

/-- The outcome of a check of units. It fails if there is any diagnostic or fault. -/
def ofCheck (format : OutputFormat) (r : Report) (units : List CompilationUnit)
    (faults : List LoadFault) : Outcome :=
  let shown : Outcome :=
    match format with
    | .text => { output := textLines r, errors := faultLines faults }
    | .json => { output := jsonLines r faults }
    | .compact => { output := compactLines r faults }
    | .pretty => ofPretty r units faults
  { shown with exitCode := if r.hasDiagnostics || !faults.isEmpty then 1 else 0 }

end Display
end ClassScript
