/-
  File:      ClassScript/Naming.lean
  Subject:   The three letter cases of the dialect.

  Types are named in `PascalCase`, members in `camelCase`, constants in
  `UPPER_SNAKE_CASE`. Only ASCII letters and digits count: a name with any
  other letter is in none of the cases.

  * `isPascalCase`, `isCamelCase`, `isUpperSnakeCase`: the three classifiers;
  * `words`: the lower case words of a name;
  * `toPascalCase`, `toCamelCase`, `toUpperSnakeCase`: the suggested spellings.
-/
import ClassScript.Text.Blank

namespace ClassScript.Naming

open ClassScript.Text

/-! ## 1. Classification -/

/-- A character of an upper snake segment. -/
def isUpperOrDigit (c : Char) : Bool := c.isUpper || c.isDigit

/-- `^[A-Z][A-Za-z0-9]*$` -/
def isPascalCase (name : String) : Bool :=
  match name.toList with
  | [] => false
  | c :: cs => c.isUpper && cs.all Char.isAlphanum

/-- `^[a-z][A-Za-z0-9]*$` -/
def isCamelCase (name : String) : Bool :=
  match name.toList with
  | [] => false
  | c :: cs => c.isLower && cs.all Char.isAlphanum

/-- A segment of an upper snake name: not empty, capitals and digits only. -/
def isUpperSegment (segment : List Char) : Bool :=
  !segment.isEmpty && segment.all isUpperOrDigit

/-- `^[A-Z0-9]+(_[A-Z0-9]+)*$` -/
def isUpperSnakeCase (name : String) : Bool := (splitOn '_' name.toList).all isUpperSegment

/-! ## 2. Words -/

/-- The words of `cs` after the open word `word` (reversed). A word ends at a character that is
    no ASCII letter or digit, and before a capital that follows a small letter or a digit
    (`afterSmall`). Words are lower case and never empty. -/
def wordsFrom : (word : List Char) → (afterSmall : Bool) → List Char → List (List Char)
  | [], _, [] => []
  | word, _, [] => [word.reverse]
  | word, afterSmall, c :: cs =>
    if !c.isAlphanum then
      if word.isEmpty then wordsFrom [] false cs
      else word.reverse :: wordsFrom [] false cs
    else if c.isUpper && afterSmall && !word.isEmpty then
      word.reverse :: wordsFrom [c.toLower] false cs
    else
      wordsFrom (c.toLower :: word) (c.isLower || c.isDigit) cs

/-- The lower case words of a name. -/
def words (name : String) : List (List Char) := wordsFrom [] false name.toList

/-! ## 3. Conversion -/

/-- `cs` with its first character made a capital. -/
def capitalize : List Char → List Char
  | [] => []
  | c :: cs => c.toUpper :: cs

/-- `cs` with its first character made small. -/
def uncapitalize : List Char → List Char
  | [] => []
  | c :: cs => c.toLower :: cs

/-- The `PascalCase` spelling: `my_class` becomes `MyClass`. -/
def toPascalCase (name : String) : String :=
  String.ofList ((words name).flatMap capitalize)

/-- The `camelCase` spelling: `DoWork` becomes `doWork`. -/
def toCamelCase (name : String) : String :=
  String.ofList (uncapitalize ((words name).flatMap capitalize))

/-- The `UPPER_SNAKE_CASE` spelling: `maxSize` becomes `MAX_SIZE`. -/
def toUpperSnakeCase (name : String) : String :=
  String.ofList (['_'].intercalate ((words name).map fun word => word.map Char.toUpper))

end ClassScript.Naming
