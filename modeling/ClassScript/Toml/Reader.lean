/-
  File:      ClassScript/Toml/Reader.lean
  Subject:   Reading TOML.

  The language is TOML 1.0. A text either is a document or it is not: nothing
  is said about where it goes wrong.

  * `scalar`, `value`: the values;
  * `line`: entries and headers;
  * `Toml.ofText?`: the document of a text.
-/
import ClassScript.Toml.Value

namespace ClassScript.Toml.Reading

/-- Reads something off the front of a text. -/
abbrev Reader (α : Type) : Type := List Char → Option (α × List Char)

/-! ## 1. Characters -/

def isDigit (c : Char) : Bool := '0' ≤ c && c ≤ '9'

def isHex (c : Char) : Bool := isDigit c || ('a' ≤ c && c ≤ 'f') || ('A' ≤ c && c ≤ 'F')

def isOctal (c : Char) : Bool := '0' ≤ c && c ≤ '7'

def isBinary (c : Char) : Bool := c = '0' || c = '1'

/-- The characters of keys without quotes. -/
def isKeyChar (c : Char) : Bool :=
  isDigit c || ('a' ≤ c && c ≤ 'z') || ('A' ≤ c && c ≤ 'Z') || c = '_' || c = '-'

/-- No control character, a tab apart. -/
def isPlain (c : Char) : Bool := c = '\t' || (32 ≤ c.toNat && c.toNat ≠ 127)

/-- The text without the blanks at its front. -/
def skipBlank (cs : List Char) : List Char := cs.dropWhile fun c => c = ' ' || c = '\t'

/-- The text after a line break. -/
def newline? : List Char → Option (List Char)
  | '\n' :: cs => some cs
  | '\r' :: '\n' :: cs => some cs
  | _ => none

/-- The text after a comment, if there is one. -/
def skipComment : List Char → List Char
  | '#' :: cs => cs.dropWhile isPlain
  | cs => cs

/-- The text after blanks, comments and line breaks. -/
def skipLines : Nat → List Char → List Char
  | 0, cs => cs
  | fuel + 1, cs =>
    let rest := skipComment (skipBlank cs)
    match newline? rest with
    | some rest => skipLines fuel rest
    | none => rest

/-! ## 2. Texts -/

/-- The number that hexadecimal digits denote. -/
def hexNumber (cs : List Char) : Nat :=
  cs.foldl
    (fun n c => n * 16 + (if isDigit c then c.toNat - 48 else c.toLower.toNat - 87)) 0

/-- The character with the code that the first `count` digits give. -/
def codePoint (count : Nat) (cs : List Char) : Option (Char × List Char) :=
  let digits := cs.take count
  let code := hexNumber digits
  if digits.length = count && digits.all isHex && (code < 0xD800 || 0xDFFF < code) &&
      code < 0x110000 then
    some (Char.ofNat code, cs.drop count)
  else none

/-- The character of an escape, after its backslash. -/
def escape : Reader Char
  | 'b' :: cs => some ('\x08', cs)
  | 't' :: cs => some ('\t', cs)
  | 'n' :: cs => some ('\n', cs)
  | 'f' :: cs => some ('\x0c', cs)
  | 'r' :: cs => some ('\r', cs)
  | '"' :: cs => some ('"', cs)
  | '\\' :: cs => some ('\\', cs)
  | 'u' :: cs => codePoint 4 cs
  | 'U' :: cs => codePoint 8 cs
  | _ => none

/-- A text on one line, after its opening quote. Escapes count between double quotes. -/
def lineText (quote : Char) : Nat → Reader (List Char)
  | 0, _ => none
  | _, [] => none
  | fuel + 1, c :: cs =>
    if c = quote then some ([], cs)
    else if c = '\\' && quote = '"' then
      match escape cs with
      | some (e, rest) => (lineText quote fuel rest).map fun (t, rest) => (e :: t, rest)
      | none => none
    else if isPlain c then (lineText quote fuel cs).map fun (t, rest) => (c :: t, rest)
    else none

/-- The text after blanks and line breaks. -/
def skipSpace : Nat → List Char → List Char
  | 0, cs => cs
  | fuel + 1, cs =>
    let rest := skipBlank cs
    match newline? rest with
    | some rest => skipSpace fuel rest
    | none => rest

/-- How many quotes a text starts with. -/
def quoteRun (quote : Char) (cs : List Char) : Nat := (cs.takeWhile (· = quote)).length

/-- A text over several lines, after its opening quotes. Three quotes end it, and up to two more
    before them belong to it. -/
def blockText (quote : Char) : Nat → Reader (List Char)
  | 0, _ => none
  | _, [] => none
  | fuel + 1, c :: cs =>
    if c = quote then
      let run := quoteRun quote (c :: cs)
      if run < 3 then
        (blockText quote fuel (cs.drop (run - 1))).map fun (t, rest) =>
          (List.replicate run quote ++ t, rest)
      else if run ≤ 5 then some (List.replicate (run - 3) quote, cs.drop (run - 1))
      else none
    else if c = '\\' && quote = '"' then
      match newline? (skipBlank cs) with
      | some rest => blockText quote fuel (skipSpace rest.length rest)
      | none =>
        match escape cs with
        | some (e, rest) => (blockText quote fuel rest).map fun (t, rest) => (e :: t, rest)
        | none => none
    else
      match newline? (c :: cs) with
      | some rest => (blockText quote fuel rest).map fun (t, rest) => ('\n' :: t, rest)
      | none =>
        if isPlain c then (blockText quote fuel cs).map fun (t, rest) => (c :: t, rest)
        else none

/-- A text in quotes. -/
def quotedText : Reader String
  | a :: b :: c :: cs =>
    if (a = '"' || a = '\'') && b = a && c = a then
      let body := (newline? cs).getD cs
      (blockText a (body.length + 1) body).map fun (t, rest) => (String.ofList t, rest)
    else if a = '"' || a = '\'' then
      (lineText a (cs.length + 3) (b :: c :: cs)).map fun (t, rest) => (String.ofList t, rest)
    else none
  | a :: cs =>
    if a = '"' || a = '\'' then
      (lineText a (cs.length + 1) cs).map fun (t, rest) => (String.ofList t, rest)
    else none
  | [] => none

/-! ## 3. Numbers and dates -/

/-- Digits, with single underscores between them. -/
def digitRun (digit : Char → Bool) : Reader (List Char)
  | [] => none
  | c :: cs => if digit c then some (more [c] cs) else none
where
  /-- The digits after `seen`, which is reversed. -/
  more (seen : List Char) : List Char → List Char × List Char
    | '_' :: c :: cs => if digit c then more (c :: seen) cs else (seen.reverse, '_' :: c :: cs)
    | c :: cs => if digit c then more (c :: seen) cs else (seen.reverse, c :: cs)
    | [] => (seen.reverse, [])

/-- The number that digits in the base `base` denote. -/
def numberIn (base : Nat) (digits : List Char) : Nat :=
  digits.foldl
    (fun n c => n * base + (if isDigit c then c.toNat - 48 else c.toLower.toNat - 87)) 0

/-- An integer of 64 bits. -/
def checkedInteger (n : Int) : Option Int :=
  if -9223372036854775808 ≤ n ∧ n ≤ 9223372036854775807 then some n else none

/-- An integer with the letter of its base. -/
def basedInteger (digit : Char → Bool) (base : Nat) (cs : List Char) : Option (Toml × List Char) :=
  match digitRun digit cs with
  | some (digits, rest) => (checkedInteger (numberIn base digits)).map fun n => (.integer n, rest)
  | none => none

/-- A sign, if there is one: whether it is a minus, and what follows it. -/
def sign : List Char → Bool × List Char
  | '-' :: cs => (true, cs)
  | '+' :: cs => (false, cs)
  | cs => (false, cs)

/-- Decimal digits that do not start with a needless zero. -/
def decimalRun (cs : List Char) : Option (List Char × List Char) :=
  match cs with
  | '0' :: rest => some (['0'], rest)
  | _ => digitRun isDigit cs

/-- A decimal integer. -/
def decimalInteger (cs : List Char) : Option (Toml × List Char) :=
  let (minus, rest) := sign cs
  match decimalRun rest with
  | some (digits, rest) =>
    let n : Int := numberIn 10 digits
    (checkedInteger (if minus then -n else n)).map fun n => (.integer n, rest)
  | none => none

/-- An exponent. -/
def exponent : List Char → Option (List Char)
  | c :: cs =>
    if c = 'e' || c = 'E' then (digitRun isDigit (sign cs).2).map (·.2) else none
  | [] => none

/-- The text after a fraction, an exponent, or both. -/
def fraction : List Char → Option (List Char)
  | '.' :: cs => (digitRun isDigit cs).map fun (_, rest) => (exponent rest).getD rest
  | cs => exponent cs

/-- What a reader took off the front of `cs` when it left `rest`. -/
def taken (cs rest : List Char) : String := String.ofList (cs.take (cs.length - rest.length))

/-- A number with a fraction or an exponent, or a number beyond numbers. -/
def realNumber (cs : List Char) : Option (Toml × List Char) :=
  let unsigned := (sign cs).2
  let rest? :=
    match unsigned with
    | 'i' :: 'n' :: 'f' :: rest => some rest
    | 'n' :: 'a' :: 'n' :: rest => some rest
    | _ => (decimalRun unsigned).bind fun (_, rest) => fraction rest
  rest?.map fun rest => (.number (taken cs rest), rest)

/-- A number of exactly `count` digits between two bounds. -/
def fixedNumber (count low high : Nat) (cs : List Char) : Option (Nat × List Char) :=
  let digits := cs.take count
  let n := numberIn 10 digits
  if digits.length = count && digits.all isDigit && low ≤ n && n ≤ high then
    some (n, cs.drop count)
  else none

/-- The text after the character `c`. -/
def after? (c : Char) : List Char → Option (List Char)
  | d :: cs => if d = c then some cs else none
  | [] => none

/-- The number of days of a month. -/
def daysIn (year month : Nat) : Nat :=
  if month = 2 then
    if year % 4 = 0 && (year % 100 ≠ 0 || year % 400 = 0) then 29 else 28
  else if month = 4 || month = 6 || month = 9 || month = 11 then 30
  else 31

/-- The text after a day. -/
def day? (cs : List Char) : Option (List Char) := do
  let (year, cs) ← fixedNumber 4 0 9999 cs
  let cs ← after? '-' cs
  let (month, cs) ← fixedNumber 2 1 12 cs
  let cs ← after? '-' cs
  let (_, cs) ← fixedNumber 2 1 (daysIn year month) cs
  return cs

/-- The text after a time of day. -/
def time? (cs : List Char) : Option (List Char) := do
  let (_, cs) ← fixedNumber 2 0 23 cs
  let cs ← after? ':' cs
  let (_, cs) ← fixedNumber 2 0 59 cs
  let cs ← after? ':' cs
  let (_, cs) ← fixedNumber 2 0 60 cs
  match cs with
  | '.' :: c :: rest => if isDigit c then return rest.dropWhile isDigit else return cs
  | _ => return cs

/-- The text after the difference to universal time, if there is one. -/
def zone (cs : List Char) : List Char :=
  match cs with
  | c :: rest =>
    if c = 'Z' || c = 'z' then rest
    else if c = '+' || c = '-' then
      (do
        let (_, cs) ← fixedNumber 2 0 23 rest
        let cs ← after? ':' cs
        let (_, cs) ← fixedNumber 2 0 59 cs
        return cs).getD cs
    else cs
  | [] => cs

/-- A day, a time of day, or both. -/
def dateTime (cs : List Char) : Option (Toml × List Char) :=
  let rest? : Option (List Char) :=
    match day? cs with
    | some (c :: more) =>
      if c = 'T' || c = 't' || c = ' ' then some (((time? more).map zone).getD (c :: more))
      else some (c :: more)
    | some [] => some []
    | none => time? cs
  rest?.map fun rest => (.date (taken cs rest), rest)

/-- A value that starts with a digit or a sign. -/
def digitValue (cs : List Char) : Option (Toml × List Char) :=
  match cs with
  | '0' :: 'x' :: rest => basedInteger isHex 16 rest
  | '0' :: 'o' :: rest => basedInteger isOctal 8 rest
  | '0' :: 'b' :: rest => basedInteger isBinary 2 rest
  | _ => (dateTime cs).orElse fun _ => (realNumber cs).orElse fun _ => decimalInteger cs

/-! ## 4. Keys -/

/-- One key, without dots. -/
def plainKey (cs : List Char) : Option (String × List Char) :=
  match cs with
  | c :: rest =>
    if c = '"' || c = '\'' then (lineText c (rest.length + 1) rest).map fun (t, rest) =>
      (String.ofList t, rest)
    else
      match cs.span isKeyChar with
      | ([], _) => none
      | (name, rest) => some (String.ofList name, rest)
  | [] => none

/-- A key with dots: the keys before the last one, and the last one. -/
def dottedKey : Nat → List Char → Option ((List String × String) × List Char)
  | 0, _ => none
  | fuel + 1, cs =>
    match plainKey (skipBlank cs) with
    | some (key, rest) =>
      match skipBlank rest with
      | '.' :: more =>
        (dottedKey fuel more).map fun ((path, last), rest) => ((key :: path, last), rest)
      | rest => some (([], key), rest)
    | none => none

/-! ## 5. Values -/

/-- A value that holds no other values. -/
def scalar (cs : List Char) : Option (Toml × List Char) :=
  match cs with
  | 't' :: 'r' :: 'u' :: 'e' :: rest => some (.bool true, rest)
  | 'f' :: 'a' :: 'l' :: 's' :: 'e' :: rest => some (.bool false, rest)
  | c :: _ =>
    if c = '"' || c = '\'' then (quotedText cs).map fun (t, rest) => (.text t, rest)
    else if isDigit c || c = '+' || c = '-' then digitValue cs
    else if c = 'i' || c = 'n' then realNumber cs
    else none
  | [] => none

mutual

/-- A value. -/
def value : Nat → List Char → Option (Toml × List Char)
  | 0, _ => none
  | fuel + 1, '[' :: cs => (items fuel cs).map fun (found, rest) => (.list found, rest)
  | fuel + 1, '\x7b' :: cs =>
    match skipBlank cs with
    | '\x7d' :: rest => some (.table .inlined [], rest)
    | rest => (fields fuel [] rest).map fun (entries, rest) => (.table .inlined entries, rest)
  | _, cs => scalar cs

/-- The items of a list, after its opening bracket or a comma. -/
def items : Nat → List Char → Option (List Toml × List Char)
  | 0, _ => none
  | fuel + 1, cs =>
    match skipLines cs.length cs with
    | ']' :: rest => some ([], rest)
    | cs =>
      match value fuel cs with
      | some (item, rest) =>
        match skipLines rest.length rest with
        | ',' :: rest => (items fuel rest).map fun (more, rest) => (item :: more, rest)
        | ']' :: rest => some ([item], rest)
        | _ => none
      | none => none

/-- The entries of a table between braces, after its opening brace or a comma. -/
def fields : Nat → Entries → List Char → Option (Entries × List Char)
  | 0, _, _ => none
  | fuel + 1, entries, cs =>
    match dottedKey (cs.length + 1) cs with
    | some ((path, key), '=' :: rest) =>
      match value fuel (skipBlank rest) with
      | some (v, rest) =>
        match insert? path key v .inlined entries, skipBlank rest with
        | some entries, ',' :: rest => fields fuel entries rest
        | some entries, '\x7d' :: rest => some (entries, rest)
        | _, _ => none
      | none => none
    | _ => none

end

/-! ## 6. Documents -/

/-- The document so far: its entries, and the keys of the last header. -/
structure Progress where
  entries : Entries
  header : List String

/-- The text after the end of a line. -/
def lineEnd? (cs : List Char) : Option (List Char) :=
  match skipComment (skipBlank cs) with
  | [] => some []
  | rest => newline? rest

/-- A header, after its opening bracket. -/
def headerLine (p : Progress) (cs : List Char) : Option (Progress × List Char) :=
  match cs with
  | '[' :: cs =>
    match dottedKey (cs.length + 1) cs with
    | some ((path, key), ']' :: ']' :: rest) =>
      (openItem? path key .header p.entries).map fun entries => (⟨entries, path ++ [key]⟩, rest)
    | _ => none
  | _ =>
    match dottedKey (cs.length + 1) cs with
    | some ((path, key), ']' :: rest) =>
      (openTable? path key .header p.entries).map fun entries => (⟨entries, path ++ [key]⟩, rest)
    | _ => none

/-- An entry. -/
def entryLine (p : Progress) (cs : List Char) : Option (Progress × List Char) :=
  match dottedKey (cs.length + 1) cs with
  | some ((path, key), '=' :: rest) =>
    match value (rest.length + 1) (skipBlank rest) with
    | some (v, rest) =>
      (addIn? p.header path key v .header p.entries).map fun entries => ({ p with entries }, rest)
    | none => none
  | _ => none

/-- One line: nothing, a header or an entry. -/
def line (p : Progress) (cs : List Char) : Option (Progress × List Char) :=
  match skipBlank cs with
  | [] => some (p, [])
  | '[' :: rest => headerLine p rest
  | c :: rest =>
    if c = '#' || c = '\n' || c = '\r' then some (p, c :: rest) else entryLine p (c :: rest)

/-- The lines of a document. -/
def lines : Nat → Progress → List Char → Option Entries
  | 0, _, _ => none
  | _, p, [] => some p.entries
  | fuel + 1, p, cs =>
    match line p cs with
    | some (p, rest) =>
      match lineEnd? rest with
      | some rest => lines fuel p rest
      | none => none
    | none => none

end Reading

/-- The entries of the document that a text is, if it is one. -/
def ofText? (text : String) : Option Entries :=
  let cs :=
    match text.toList with
    | '\uFEFF' :: cs => cs
    | cs => cs
  Reading.lines (cs.length + 1) ⟨[], []⟩ cs

end ClassScript.Toml
