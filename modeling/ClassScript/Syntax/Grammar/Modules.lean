/-
  File:      ClassScript/Syntax/Grammar/Modules.lean
  Subject:   Imports and exports.

  * `importStatement`, `importAlias`: what a unit takes from others;
  * `exportStatement`: what it gives to others, with `declaration` for the
    declarations that may be exported.
-/
import ClassScript.Syntax.Grammar.Classes

namespace ClassScript.Syntax

open Reader

/-! ## 1. Imports -/

/-- The unit a name comes from. -/
def fromClause : Grammar := keyword "from" ++ role .source stringLiteral

/-- The word `type` or `typeof`, if `p` follows. -/
def typeMarker (p : Grammar) : Grammar := keywordOf ["type", "typeof"] ++ p

/-- A name across units: a word, or a text. -/
def externalName : Grammar := identifier <|> stringLiteral

/-- One imported name, perhaps under another name. -/
def importSpecifier : Grammar :=
  node .importSpecifier (typeMarker plain <|> plain)
where
  /-- The name, and the one it gets instead. -/
  plain : Grammar := do
    let parts ←
      role .name externalName ++ keyword "as" ++ role .renamed identifier <|> role .name identifier
    let t ← peek
    if t.lexeme == .word || t.lexeme == .quoted then refuse else return parts

/-- The names between braces. -/
def namedImports : Grammar :=
  node .namedImports (between "\x7b" (commaList importSpecifier) "\x7d")

/-- All names, as one. -/
def namespaceImport : Grammar := node .namespaceImport (mark "*" ++ keyword "as" ++ identifier)

/-- What is imported. -/
def importClause : Grammar :=
  node .importClause
    (namespaceImport <|> namedImports <|>
      identifier ++ opt (mark "," ++ (namespaceImport <|> namedImports)))

/-- `x = require("y")`. -/
def importRequire : Grammar :=
  node .importRequire
    (identifier ++ mark "=" ++ keyword "require" ++ mark "(" ++ role .source stringLiteral ++
      mark ")")

/-- What is said about the unit an import names. -/
def importAttribute (nested : Nested) : Grammar :=
  node (.other "import_attribute") (keywordOf ["with", "assert"] ++ objectLiteral nested)

/-- What an import takes, and where from. -/
def importBody : Grammar :=
  importClause ++ fromClause <|> importRequire <|> role .source stringLiteral

/-- An import. -/
def importStatement (nested : Nested) : Grammar :=
  node .importStatement
    (keyword "import" ++ (importBody <|> typeMarker importBody) ++
      opt (importAttribute nested) ++ statementEnd false)

/-- Names separated by points. -/
def dottedName : Grammar := do
  let first ← identifier
  let more ← many (mark "." ++ word (.other "property_identifier"))
  if more.isEmpty then return first
  else node (.other "nested_identifier") (pure (first ++ more))

/-- `import A = B.C`. -/
def importAlias : Grammar :=
  node .importAlias
    (keyword "import" ++ identifier ++ mark "=" ++ dottedName ++ statementEnd false)

/-! ## 2. Exports -/

/-- One exported name, perhaps under another name. -/
def exportSpecifier : Grammar :=
  node .exportSpecifier (typeMarker plain <|> plain)
where
  /-- The name, and the one it gets instead. -/
  plain : Grammar := do
    let parts ← role .name externalName ++ opt (keyword "as" ++ role .renamed externalName)
    let t ← peek
    if t.lexeme == .word || t.lexeme == .quoted then refuse else return parts

/-- The exported names between braces. -/
def exportClause : Grammar :=
  node .exportClause (between "\x7b" (commaList exportSpecifier) "\x7d")

/-- All names, as one. -/
def namespaceExport : Grammar :=
  node .namespaceExport (mark "*" ++ keyword "as" ++ externalName)

/-- The exports that declare nothing. -/
def exportOfNames (nested : Nested) : Grammar :=
  (keyword "type" ++ exportClause ++ opt fromClause <|>
      keyword "as" ++ keyword "namespace" ++ identifier <|>
      namespaceExport ++ fromClause <|>
      mark "*" ++ fromClause <|>
      exportClause ++ opt fromClause) ++ statementEnd false <|>
    mark "=" ++ nested .expression ++ statementEnd true

/-- An export of a value without a name of its own. -/
def exportOfValue (nested : Nested) : Grammar :=
  role .value (nested .expression) ++ statementEnd true

/-- An export. -/
def exportStatement (declaration : Grammar) (nested : Nested) : Grammar :=
  node .exportStatement do
    let decorators ← many (decorator nested)
    let lead ← keyword "export"
    let rest ←
      keyword "default" ++ (role .declaration declaration <|> exportOfValue nested) <|>
        (if decorators.isEmpty then exportOfNames nested else refuse) <|>
        role .declaration declaration
    return decorators ++ lead ++ rest

end ClassScript.Syntax
