/-
  File:      ClassScript/Report.lean
  Subject:   The outcome of validating a collection of files.

  * `Report`: diagnostics, number of checked files, accepted files;
  * `Report.byUnit`: the diagnostics grouped by file;
  * `Report.countByRule`: how often each rule was violated;
  * `Report.append`: one report after another;
  * `Report.toJson`, `Report.ofJson?`: the JSON form and its reader.
-/
import ClassScript.Diagnostic

namespace ClassScript

/-- The outcome of a validation. -/
structure Report where
  diagnostics : List Diagnostic := []
  unitsChecked : Nat := 0
  accepted : List FilePath := []
  deriving DecidableEq, Repr

namespace Report

def empty : Report := {}

def hasDiagnostics (r : Report) : Bool := !r.diagnostics.isEmpty

/-- The report of `r` followed by `s`. Numbers of files are added as they are: those of files that
    are at hand stay below `2 ^ 64`, where a machine word adds no differently. -/
def append (r s : Report) : Report :=
  ⟨r.diagnostics ++ s.diagnostics, r.unitsChecked + s.unitsChecked, r.accepted ++ s.accepted⟩

instance : Append Report := ⟨append⟩

/-! ## 1. Grouping by file -/

/-- The groups with one more value under `path`: at the end of the group of the same path, or
    in a new last group. -/
def addToGroup {α : Type} (path : FilePath) (a : α) :
    List (FilePath × List α) → List (FilePath × List α)
  | [] => [(path, [a])]
  | (key, values) :: groups =>
    if key.same path then (key, values ++ [a]) :: groups
    else (key, values) :: addToGroup path a groups

/-- The diagnostics grouped by file, in order of first occurrence. -/
def groupsOf (ds : List Diagnostic) : List (FilePath × List Diagnostic) :=
  ds.foldl (fun groups d => addToGroup d.file d groups) []

/-- The diagnostics grouped by file. Files come in order of their first diagnostic, under its
    spelling of the path; diagnostics keep their order. -/
def byUnit (r : Report) : List (FilePath × List Diagnostic) := groupsOf r.diagnostics

/-! ## 2. Counting by rule -/

/-- The counts with one more occurrence of `name`, ordered by name. -/
def addCount (name : String) : List (String × Nat) → List (String × Nat)
  | [] => [(name, 1)]
  | (key, n) :: counts =>
    match Text.byCodePoint name.toList key.toList with
    | .lt => (name, 1) :: (key, n) :: counts
    | .eq => (key, n + 1) :: counts
    | .gt => (key, n) :: addCount name counts

/-- How many diagnostics each rule has, ordered by rule name. -/
def countByRule (r : Report) : List (String × Nat) :=
  r.diagnostics.foldl (fun counts d => addCount d.rule counts) []

/-! ## 3. JSON -/

def toJson (r : Report) : Json :=
  .record
    [("diagnostics", .list (r.diagnostics.map Diagnostic.toJson)),
     ("units_checked", .count r.unitsChecked),
     ("accepted", .texts (r.accepted.map (·.text)))]

/-- Reads the JSON form; all three fields are required, others are ignored. -/
def ofJson? (value : Json) : Option Report := do
  let fields ← value.fieldsAs? ["diagnostics", "units_checked", "accepted"]
  let diagnostics ← (← (← fieldOf? fields "diagnostics").toItems?).mapM Diagnostic.ofJson?
  let unitsChecked ← (← fieldOf? fields "units_checked").toCount?
  let accepted ← (← (← fieldOf? fields "accepted").toItems?).mapM Json.toText?
  return ⟨diagnostics, unitsChecked, accepted.map FilePath.mk⟩

end Report
end ClassScript
