/-
  File:      ClassScript/Json.lean
  Subject:   JSON values and their printed form.

  Reports leave the program as JSON. A record keeps the order of its fields;
  the printed form indents by two blanks per level, writes an empty list or
  record on one line, and escapes quotes, backslashes and control characters
  only.

  * `Json`: the values;
  * `Json.pretty`: the printed form;
  * `Json.field?`, `Json.toText?`, `Json.toCount?`, `Json.toItems?`: reading a value.
-/

namespace ClassScript

/-- A JSON value. Whole numbers and numbers with a fraction are kept apart. -/
inductive Json where
  | null
  | bool (value : Bool)
  | whole (value : Int)
  | fraction (digits : Int) (places : Nat)
  | text (value : String)
  | list (items : List Json)
  | record (fields : List (String × Json))
  deriving Repr, Inhabited

namespace Json

/-! ## 1. Reading a value -/

/-- The value of a field; nothing for a value that is no record. -/
def field? (name : String) : Json → Option Json
  | .record fields => (fields.find? fun f => f.1 == name).map (·.2)
  | _ => none

/-- The text of a text value. -/
def toText? : Json → Option String
  | .text s => some s
  | _ => none

/-- The number of a whole value between 0 and 2^64 - 1. -/
def toCount? : Json → Option Nat
  | .whole n => if 0 ≤ n ∧ n < 18446744073709551616 then some n.toNat else none
  | _ => none

/-- The items of a list value. -/
def toItems? : Json → Option (List Json)
  | .list items => some items
  | _ => none

/-! ## 2. Building a value -/

/-- A natural number as a value. -/
def count (n : Nat) : Json := .whole (Int.ofNat n)

/-- A list of texts as a value. -/
def texts (items : List String) : Json := .list (items.map .text)

/-- An optional text: `null` stands for none. -/
def optional : Option String → Json
  | none => .null
  | some s => .text s

/-! ## 3. Printing -/

/-- The hexadecimal digit of `n`, small letters. -/
def hexDigit (n : Nat) : Char := if n < 10 then Char.ofNat (48 + n) else Char.ofNat (87 + n)

/-- A character of a text between its quotes. -/
def escapeChar (c : Char) : List Char :=
  if c = '\x22' then ['\\', '\x22']
  else if c = '\\' then ['\\', '\\']
  else if c = '\n' then ['\\', 'n']
  else if c = '\r' then ['\\', 'r']
  else if c = '\t' then ['\\', 't']
  else if c = '\x08' then ['\\', 'b']
  else if c = '\x0c' then ['\\', 'f']
  else if c.toNat < 32 then
    ['\\', 'u', '0', '0', hexDigit (c.toNat / 16), hexDigit (c.toNat % 16)]
  else [c]

/-- A text between quotes, escaped. -/
def quoted (s : String) : String :=
  "\"" ++ String.ofList (s.toList.flatMap escapeChar) ++ "\""

/-- The line break and the indentation of level `depth`. -/
def newline (depth : Nat) : String := "\n" ++ String.ofList (List.replicate (2 * depth) ' ')

/-- A number with `places` decimals. -/
def printFraction (digits : Int) (places : Nat) : String :=
  let shown := toString digits.natAbs
  let padded := String.ofList (List.replicate (places + 1 - shown.length) '0') ++ shown
  let cut := padded.length - places
  (if digits < 0 then "-" else "") ++ String.ofList (padded.toList.take cut) ++ "."
    ++ String.ofList (padded.toList.drop cut)

mutual
/-- The printed form of a value whose own line is indented to `depth`. -/
def prettyAt (depth : Nat) : Json → String
  | .null => "null"
  | .bool b => if b then "true" else "false"
  | .whole n => toString n
  | .fraction d p => printFraction d p
  | .text s => quoted s
  | .list [] => "[]"
  | .list (item :: items) =>
    "[" ++ newline (depth + 1) ++ prettyAt (depth + 1) item ++ prettyItems depth items
  | .record [] => "\x7b\x7d"
  | .record ((name, value) :: fields) =>
    "\x7b" ++ newline (depth + 1) ++ quoted name ++ ": " ++ prettyAt (depth + 1) value
      ++ prettyFields depth fields

/-- The items after the first one, and the closing bracket. -/
def prettyItems (depth : Nat) : List Json → String
  | [] => newline depth ++ "]"
  | item :: items =>
    "," ++ newline (depth + 1) ++ prettyAt (depth + 1) item ++ prettyItems depth items

/-- The fields after the first one, and the closing brace. -/
def prettyFields (depth : Nat) : List (String × Json) → String
  | [] => newline depth ++ "\x7d"
  | (name, value) :: fields =>
    "," ++ newline (depth + 1) ++ quoted name ++ ": " ++ prettyAt (depth + 1) value
      ++ prettyFields depth fields
end

/-- The printed form of a value. -/
def pretty (value : Json) : String := prettyAt 0 value

end Json
end ClassScript
