/-
  File:      ClassScript/Emission/Import.lean
  Subject:   Imports as calls of `require`.

  Each name an import brings becomes a constant. What is marked as a type
  brings none; an import that brings no name at all still loads its module.
  The name of a module loses the extension of source files for that of
  scripts.

  * `moduleName`: the name of a module in the script;
  * `Binding`, `bindings`: the constants of an import, as data;
  * `lowerImport`: the edit that puts them in the place of the import.
-/
import ClassScript.CompilationUnit
import ClassScript.Emission.Enum

namespace ClassScript.Emission

open Syntax (Source Tree)

/-! ## 1. Names of modules -/

/-- The extension of scripts, without its dot. -/
def scriptExtension : String := "js"

/-- What the name of a module reads in a script. -/
def moduleStem (name : String) : String :=
  match Text.dropTail? ("." ++ sourceExtension) name with
  | some stem => stem ++ "." ++ scriptExtension
  | none => name

/-- The literal of the name of a module, in the script. -/
def moduleName (literal : String) : String :=
  let quote := String.singleton ((literal.toList.head?).getD '"')
  quote ++ moduleStem (Text.strip isQuote literal) ++ quote

/-- The call that loads a module. -/
def requireCall (name : String) : String := "require(" ++ name ++ ")"

/-- The name of the module in the role of a source, in the script. -/
def sourceName? (src : Source) (t : Tree) : Option String :=
  (t.partText? src .source).map moduleName

/-! ## 2. Constants -/

/-- A name out of a module, perhaps under another name. -/
structure ImportedName where
  name : String
  renamed : Option String
  deriving DecidableEq, Repr

/-- The text of an imported name in a pattern. -/
def ImportedName.text (n : ImportedName) : String :=
  match n.renamed with
  | some other => n.name ++ ": " ++ other
  | none => n.name

/-- What one line of an import does. -/
inductive Binding where
  /-- The default export becomes a constant. -/
  | default (name : String)
  /-- The module itself becomes a constant. -/
  | whole (name : String)
  /-- Several exports become constants. -/
  | names (imported : List ImportedName)
  /-- The module is loaded. -/
  | bare
  deriving DecidableEq, Repr

/-- The line of a binding, of the module that `call` loads. -/
def Binding.line (call : String) : Binding → String
  | .default name => "const " ++ name ++ " = __importDefault(" ++ call ++ ").default;"
  | .whole name => "const " ++ name ++ " = " ++ call ++ ";"
  | .names imported =>
    "const \x7b " ++ ", ".intercalate (imported.map ImportedName.text) ++ " \x7d = " ++ call ++ ";"
  | .bare => call ++ ";"

/-- The name that one of several imported names brings; nothing of a type. -/
def importedName? (src : Source) (t : Tree) : Option ImportedName :=
  if t.kind == .importSpecifier && !t.hasToken "type" && !t.hasToken "typeof" then
    (t.partText? src .name).map fun name => ⟨name, t.partText? src .renamed⟩
  else none

/-- The binding of a part of what is imported. -/
def binding? (src : Source) (t : Tree) : Option Binding :=
  match t.kind with
  | .identifier => some (.default (t.text src))
  | .namespaceImport => t.named.head?.map fun name => .whole (name.text src)
  | .namedImports =>
    match t.named.filterMap (importedName? src) with
    | [] => none
    | names => some (.names names)
  | _ => none

/-- The bindings of what is imported. -/
def clauseBindings (src : Source) (clause : Tree) : List Binding :=
  clause.named.filterMap (binding? src)

/-- The bindings of an import; one at least. -/
def bindings (src : Source) (clause : Option Tree) : List Binding :=
  match clause with
  | none => [.bare]
  | some clause =>
    match clauseBindings src clause with
    | [] => [.bare]
    | found => found

/-- A default export is bound. -/
def Binding.isDefault : Binding → Bool
  | .default _ => true
  | _ => false

/-! ## 3. Imports -/

/-- The first child of the kind `kind` that is no keyword. -/
def namedPart? (kind : Syntax.Kind) (t : Tree) : Option Tree := t.named.find? (·.kind == kind)

/-- The line of an import of the form `x = require("y")`. -/
def requireLine (src : Source) (clause : Tree) : String :=
  let name := ((namedPart? .identifier clause).map (Tree.text src)).getD ""
  let source := (sourceName? src clause).getD ""
  "const " ++ name ++ " = " ++ requireCall source ++ ";"

/-- The lines of an import of other forms, and the emission they come to. -/
def lowerBindings (src : Source) (t : Tree) (source : String) : Emission :=
  let found := bindings src (namedPart? .importClause t)
  let lines := found.map (Binding.line (requireCall source))
  { edits := [⟨t.start, t.stop, "\n".intercalate lines⟩]
    usesModules := true
    importsDefault := found.any Binding.isDefault }

/-- The emission of an import. -/
def lowerImport (src : Source) (t : Tree) : Emission :=
  if t.hasToken "type" || t.hasToken "typeof" then
    .modules ++ .ofEdit (dropStatement src t)
  else
    match namedPart? .importRequire t, sourceName? src t with
    | some clause, _ => .modules ++ .ofEdit ⟨t.start, t.stop, requireLine src clause⟩
    | none, some source => lowerBindings src t source
    | none, none => .modules

end ClassScript.Emission
