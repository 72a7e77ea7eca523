/-
  File:      ClassScript/Syntax/Token.lean
  Subject:   Tokens: the words and marks of a source text.

  Tokens are found on demand, from a byte offset. Between tokens stand blanks
  and comments. A slash is always read as a mark here: whether it starts a
  regular expression, and where a template ends, is decided by who expects it.

  * `Token`, `Token.scan`: the token at or after an offset;
  * `commentEnd?`: the end of a comment;
  * `regexEnd?`: the end of a regular expression;
  * `autoSemicolon?`: where a statement may end without a semicolon.
-/
import ClassScript.Syntax.Source

namespace ClassScript.Syntax

/-! ## 1. Character classes -/

/-- Code points that separate tokens, line breaks included. -/
def isSeparator (c : Nat) : Bool :=
  (9 ≤ c && c ≤ 13) || c == 0x20 || c == 0xA0 || c == 0x1680 || (0x2000 ≤ c && c ≤ 0x200B) ||
    c == 0x2028 || c == 0x2029 || c == 0x202F || c == 0x205F || c == 0x2060 || c == 0x3000 ||
    c == 0xFEFF

/-- The marks no word contains. -/
def marks : List Nat := ":;`\"'@#.,|^&<=>+-*/\\%?!~()[]\x7b\x7d".toList.map Char.toNat

/-- Code points a word may go on with. -/
def isWordPart (c : Nat) : Bool := 32 ≤ c && !isSeparator c && !marks.contains c

def isDigitByte (b : UInt8) : Bool := 48 ≤ b && b ≤ 57

def isHexByte (b : UInt8) : Bool :=
  isDigitByte b || (97 ≤ b && b ≤ 102) || (65 ≤ b && b ≤ 70)

/-! ## 2. Trivia -/

/-- The end of the line `i` stands in: the offset of its line break, or the end. -/
def lineBreakFrom (src : Source) : Nat → Nat → Nat
  | 0, i => i
  | fuel + 1, i =>
    let (c, n) := src.decode i
    if c = 10 || c = 13 || c = 0x2028 || c = 0x2029 then i
    else lineBreakFrom src fuel (i + n)

/-- The offset after the next `*/` from `i` on. -/
def blockEnd? (src : Source) : Nat → Nat → Option Nat
  | 0, _ => none
  | fuel + 1, i =>
    if i + 1 < src.size then
      if src.byte i = 42 && src.byte (i + 1) = 47 then some (i + 2)
      else blockEnd? src fuel (i + 1)
    else none

/-- The end of the comment that starts at `i`. -/
def commentEnd? (src : Source) (i : Nat) : Option Nat :=
  if src.byte i = 47 && src.byte (i + 1) = 47 then
    some (min src.size (lineBreakFrom src (src.size - i) i))
  else if src.byte i = 47 && src.byte (i + 1) = 42 then
    blockEnd? src (src.size - i) (i + 2)
  else none

/-- The offset after the blanks and comments from `i` on. -/
def skipTrivia (src : Source) : Nat → Nat → Nat
  | 0, i => i
  | fuel + 1, i =>
    if src.size ≤ i then i
    else
      let (c, n) := src.decode i
      if isSeparator c then skipTrivia src fuel (i + n)
      else
        match commentEnd? src i with
        | some j => if i < j then skipTrivia src fuel j else i
        | none => i

/-- The offset of the next token from `i` on. -/
def tokenStart (src : Source) (i : Nat) : Nat := skipTrivia src (src.size - i) i

/-- The comments between the offsets `i` and `stop`, as ranges. -/
def commentsBetween (src : Source) (stop : Nat) : Nat → Nat → List (Nat × Nat)
  | 0, _ => []
  | fuel + 1, i =>
    if stop ≤ i then []
    else
      match commentEnd? src i with
      | some j => (i, j) :: commentsBetween src stop fuel j
      | none => commentsBetween src stop fuel (i + (src.decode i).2)

/-! ## 3. Words, numbers and texts -/

/-- The end of a run of hexadecimal digits. -/
def hexDigitsEnd (src : Source) : Nat → Nat → Nat
  | 0, i => i
  | fuel + 1, i => if isHexByte (src.byte i) then hexDigitsEnd src fuel (i + 1) else i

/-- The end of the escape `\u` at `i`: four hexadecimal digits follow, or some between braces. -/
def escapeEnd? (src : Source) (i : Nat) : Option Nat :=
  if src.byte i = 92 && src.byte (i + 1) = 117 then
    if src.byte (i + 2) = 123 then
      let j := hexDigitsEnd src (src.size - i) (i + 3)
      if i + 3 < j && src.byte j = 125 then some (j + 1) else none
    else if hexDigitsEnd src 4 (i + 2) = i + 6 then some (i + 6)
    else none
  else none

/-- The end of a word that goes on at `i`; escapes are part of it. -/
def wordEnd (src : Source) : Nat → Nat → Nat
  | 0, i => i
  | fuel + 1, i =>
    if src.size ≤ i then i
    else
      let (c, n) := src.decode i
      if isWordPart c then wordEnd src fuel (i + n)
      else
        match escapeEnd? src i with
        | some j => wordEnd src fuel j
        | none => i

/-- The end of a run of digits in `p`; a single `_` may stand between two of them. -/
def runEnd (src : Source) (p : UInt8 → Bool) : Nat → Nat → Nat
  | 0, i => i
  | fuel + 1, i =>
    if p (src.byte i) then runEnd src p fuel (i + 1)
    else if src.byte i = 95 && p (src.byte (i + 1)) then runEnd src p fuel (i + 2)
    else i

/-- The end of an exponent at `i`, or `i` if there is none. -/
def exponentEnd (src : Source) (i : Nat) : Nat :=
  if src.byte i = 101 || src.byte i = 69 then
    let signed := if src.byte (i + 1) = 43 || src.byte (i + 1) = 45 then i + 2 else i + 1
    if isDigitByte (src.byte signed) then runEnd src isDigitByte (src.size - i) signed else i
  else i

/-- The end of a number with a base letter after its `0`, if `i` starts one. -/
def basedEnd? (src : Source) (i : Nat) : Option Nat :=
  let run (p : UInt8 → Bool) : Option Nat :=
    if p (src.byte (i + 2)) then some (runEnd src p (src.size - i) (i + 2)) else none
  if src.byte i = 48 then
    let letter := src.byte (i + 1)
    if letter = 120 || letter = 88 then run isHexByte
    else if letter = 98 || letter = 66 then run fun b => b = 48 || b = 49
    else if letter = 111 || letter = 79 then run fun b => 48 ≤ b && b ≤ 55
    else none
  else none

/-- The offset after a big integer's `n` at `i`, or `i`. -/
def bigEnd (src : Source) (i : Nat) : Nat := if src.byte i = 110 then i + 1 else i

/-- The end of the number that starts at `i` with a digit, or with a point before a digit. -/
def numberEnd (src : Source) (i : Nat) : Nat :=
  match basedEnd? src i with
  | some j => bigEnd src j
  | none =>
    let whole := runEnd src isDigitByte (src.size - i) i
    if src.byte whole = 46 then
      exponentEnd src (runEnd src isDigitByte (src.size - i) (whole + 1))
    else if src.byte whole = 110 then whole + 1
    else exponentEnd src whole

/-- The end of the text between quotes `quote` that goes on at `i`; it ends on its line unless
    the line break is escaped. -/
def quoteEnd? (src : Source) (quote : UInt8) : Nat → Nat → Option Nat
  | 0, _ => none
  | fuel + 1, i =>
    if src.size ≤ i then none
    else
      let b := src.byte i
      if b = quote then some (i + 1)
      else if b = 92 then
        if src.byte (i + 1) = 13 && src.byte (i + 2) = 10 then quoteEnd? src quote fuel (i + 3)
        else quoteEnd? src quote fuel (i + 1 + (src.decode (i + 1)).2)
      else if b = 10 || b = 13 then none
      else quoteEnd? src quote fuel (i + 1)

/-- The end of a regular expression's pattern that goes on at `i`; a slash in a class of
    characters does not end it. -/
def patternEnd? (src : Source) : Bool → Nat → Nat → Option Nat
  | _, 0, _ => none
  | inClass, fuel + 1, i =>
    if src.size ≤ i then none
    else
      let b := src.byte i
      if b = 10 || b = 13 then none
      else if b = 92 then
        if src.byte (i + 1) = 10 then none
        else patternEnd? src inClass fuel (i + 1 + (src.decode (i + 1)).2)
      else if b = 91 then patternEnd? src true fuel (i + 1)
      else if b = 93 then patternEnd? src false fuel (i + 1)
      else if b = 47 && !inClass then some (i + 1)
      else patternEnd? src inClass fuel (i + 1)

/-- The end of the regular expression, with its flags, that starts at the slash `i`. -/
def regexEnd? (src : Source) (i : Nat) : Option Nat :=
  (patternEnd? src false (src.size - i) (i + 1)).map fun j =>
    runEnd src (fun b => 97 ≤ b && b ≤ 122) (src.size - j) j

/-- The end of a template's piece that goes on at `i`: its closing backtick, or the `$` of a
    substitution. -/
def templatePieceEnd? (src : Source) : Nat → Nat → Option Nat
  | 0, _ => none
  | fuel + 1, i =>
    if src.size ≤ i then none
    else
      let b := src.byte i
      if b = 96 then some i
      else if b = 36 && src.byte (i + 1) = 123 then some i
      else if b = 92 then templatePieceEnd? src fuel (i + 1 + (src.decode (i + 1)).2)
      else templatePieceEnd? src fuel (i + 1)

/-! ## 4. Tokens -/

/-- The forms of tokens. -/
inductive Lexeme where
  | word
  | privateName
  | number
  | quoted
  | backtick
  | mark
  | finish
  | bad
  deriving DecidableEq, Repr

/-- A token: its form, its text (of words and marks only), its range. -/
structure Token where
  lexeme : Lexeme
  text : String
  start : Nat
  stop : Nat
  deriving Repr

/-- The marks, the longer ones first. -/
def markTexts : List String :=
  [">>>=", "...", "===", "!==", "**=", "<<=", ">>=", ">>>", "&&=", "||=", "??=", "=>", "==",
   "!=", "<=", ">=", "++", "--", "**", "<<", ">>", "&&", "||", "??", "?.", "+=", "-=", "*=",
   "/=", "%=", "&=", "|=", "^=", "\x7b", "\x7d", "(", ")", "[", "]", ";", ",", "<", ">", "+",
   "-", "*", "/", "%", "&", "|", "^", "!", "~", "?", ":", "=", ".", "@"]

/-- The marks with their bytes. -/
def markBytes : List (String × List UInt8) :=
  markTexts.map fun mark => (mark, mark.toUTF8.toList)

/-- The bytes `bs` stand at `i`. -/
def standsAt (src : Source) (i : Nat) : List UInt8 → Bool
  | [] => true
  | b :: bs => i < src.size && src.byte i == b && standsAt src (i + 1) bs

/-- The longest mark at `i`. Before a digit `?.` is a question mark and a point. -/
def markAt? (src : Source) (i : Nat) : Option String :=
  if src.byte i = 63 && src.byte (i + 1) = 46 && isDigitByte (src.byte (i + 2)) then some "?"
  else (markBytes.find? fun m => standsAt src i m.2).map (·.1)

/-- The token that starts at `i`, where no blank or comment stands. -/
def Token.readAt (src : Source) (i : Nat) : Token :=
  if src.size ≤ i then ⟨.finish, "", i, i⟩
  else
    let b := src.byte i
    let (c, n) := src.decode i
    if isDigitByte b || (b = 46 && isDigitByte (src.byte (i + 1))) then
      ⟨.number, "", i, numberEnd src i⟩
    else if isWordPart c || b = 92 then
      let j := wordEnd src (src.size - i) i
      if i < j then ⟨.word, src.text i j, i, j⟩ else ⟨.bad, "", i, i + n⟩
    else if b = 34 || b = 39 then
      match quoteEnd? src b (src.size - i) (i + 1) with
      | some j => ⟨.quoted, "", i, j⟩
      | none => ⟨.bad, "", i, i + 1⟩
    else if b = 96 then ⟨.backtick, "", i, i + 1⟩
    else if b = 35 then
      let j := wordEnd src (src.size - i) (i + 1)
      if i + 1 < j then ⟨.privateName, "", i, j⟩ else ⟨.bad, "", i, i + 1⟩
    else
      match markAt? src i with
      | some mark => ⟨.mark, mark, i, i + mark.utf8ByteSize⟩
      | none => ⟨.bad, "", i, i + n⟩

/-- The first token from `i` on. -/
def Token.scan (src : Source) (i : Nat) : Token := Token.readAt src (tokenStart src i)

/-! ## 5. Statements without semicolon -/

/-- What is known where a statement might end. -/
structure EndContext where
  /-- An operator may stand here: an expression has just ended. -/
  afterExpression : Bool
  /-- A body may stand here: the signature of a function has just ended. -/
  afterSignature : Bool

/-- True of the bytes that go on with a statement from the line before. -/
def continuesLine (b : UInt8) : Bool :=
  "`,.;*%><=?^|&/:".toUTF8.toList.contains b

/-- True of a byte that is an ASCII letter. -/
def isLetterByte (b : UInt8) : Bool := (65 ≤ b && b ≤ 90) || (97 ≤ b && b ≤ 122)

/-- What stands at `i`, on a later line, lets the statement before end. -/
def startsAfresh (src : Source) (context : EndContext) (i : Nat) : Bool :=
  let b := src.byte i
  if continuesLine b then false
  else if b = 123 then !context.afterSignature
  else if b = 40 || b = 91 then !context.afterExpression
  else if b = 43 then src.byte (i + 1) = 43
  else if b = 45 then src.byte (i + 1) = 45
  else if b = 33 then src.byte (i + 1) ≠ 61
  else if standsAt src i "instanceof".toUTF8.toList then isLetterByte (src.byte (i + 10))
  else if standsAt src i "in".toUTF8.toList then isLetterByte (src.byte (i + 2))
  else true

/-- Where the statement that has its last token before `i` ends without a semicolon: at the end
    of the text, before a closing brace, or at a line break that something new follows. Comments
    on the line of the last token belong to the statement. -/
def autoSemicolonFrom (src : Source) (context : EndContext) (last : Nat) : Nat → Nat → Option Nat
  | 0, _ => some last
  | fuel + 1, i =>
    if src.size ≤ i then some last
    else
      let (c, n) := src.decode i
      if c = 125 then
        if src.byte (tokenBlanks src (src.size - i) (i + 1)) = 58 then
          if context.afterExpression then some last else none
        else some last
      else if c = 10 then
        let next := tokenStart src (i + 1)
        if src.size ≤ next || startsAfresh src context next then some last else none
      else if isSeparator c then autoSemicolonFrom src context last fuel (i + n)
      else
        match commentEnd? src i with
        | some j => autoSemicolonFrom src context j fuel j
        | none => none
where
  /-- The offset after the blanks from `i` on. -/
  tokenBlanks (src : Source) : Nat → Nat → Nat
    | 0, i => i
    | fuel + 1, i => if isSeparator (src.decode i).1 then tokenBlanks src fuel (i + 1) else i

/-- Where the statement that has its last token right before `i` ends without a semicolon. -/
def autoSemicolon? (src : Source) (context : EndContext) (i : Nat) : Option Nat :=
  autoSemicolonFrom src context i (src.size - i + 1) i

end ClassScript.Syntax
