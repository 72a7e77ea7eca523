/-
  File:      ClassScript/Rule/Basic.lean
  Subject:   Rules: what they are called, and what they look at.

  A unit rule looks at one file, and may look up names in the other loaded
  files. A project rule looks at all accepted files at once. Rules only
  observe: a rule is a function from files to diagnostics.

  * `RuleInfo`: code, name and description;
  * `UnitRule`, `ProjectRule`: the two scopes; `Rule`: either of them.
-/
import ClassScript.Diagnostic

namespace ClassScript

/-- What a rule is called. -/
structure RuleInfo where
  code : String
  name : String
  description : String
  deriving DecidableEq, Repr

/-- A diagnostic of the rule at a place of a file. -/
def RuleInfo.report (info : RuleInfo) (file : FilePath) (p : Position) (message : String)
    (suggestion : Option String := none) : Diagnostic :=
  ⟨info.code, info.name, .place file p, message, suggestion⟩

/-- A rule over one file. `check loaded u` may look up names in `loaded`. -/
structure UnitRule where
  info : RuleInfo
  check : List CompilationUnit → CompilationUnit → List Diagnostic

/-- A rule over the collection of accepted files. -/
structure ProjectRule where
  info : RuleInfo
  check : List CompilationUnit → List Diagnostic

/-- Where a rule runs. -/
inductive RuleScope where
  | unit
  | project
  deriving DecidableEq, Repr

def RuleScope.word : RuleScope → String
  | .unit => "unit"
  | .project => "project"

/-- A rule of either scope. -/
inductive Rule where
  | unit (r : UnitRule)
  | project (r : ProjectRule)

namespace Rule

def info : Rule → RuleInfo
  | .unit r => r.info
  | .project r => r.info

def name (r : Rule) : String := r.info.name
def code (r : Rule) : String := r.info.code
def description (r : Rule) : String := r.info.description

def scope : Rule → RuleScope
  | .unit _ => .unit
  | .project _ => .project

def unit? : Rule → Option UnitRule
  | .unit r => some r
  | .project _ => none

def project? : Rule → Option ProjectRule
  | .unit _ => none
  | .project r => some r

end Rule
end ClassScript
