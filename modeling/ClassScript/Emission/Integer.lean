/-
  File:      ClassScript/Emission/Integer.lean
  Subject:   The integer that a literal denotes.

  Enums count on from the integers written in them. A literal is read as an
  integer of 64 bits: decimal, or hexadecimal after `0x`, with minus signs
  before it, and `_` anywhere. What does not fit, even on the way, is no
  integer.

  * `readInteger?`: the integer of a text;
  * `plusOne?`: the next integer.
-/
import ClassScript.Text.Blank

namespace ClassScript.Emission

/-- The greatest integer of 64 bits. -/
def maxInteger : Int := 9223372036854775807

/-- The integer has 64 bits. -/
def fits (n : Int) : Bool := decide (-maxInteger - 1 ≤ n) && decide (n ≤ maxInteger)

theorem fits_iff {n : Int} : fits n = true ↔ -maxInteger - 1 ≤ n ∧ n ≤ maxInteger := by
  simp [fits]

/-- The integer, if it has 64 bits. -/
def checked (n : Int) : Option Int := if fits n then some n else none

/-- The integer after `n`. -/
def plusOne? (n : Int) : Option Int := checked (n + 1)

/-- The value of a decimal digit. -/
def decimalDigit? (c : Char) : Option Nat :=
  if '0' ≤ c ∧ c ≤ '9' then some (c.toNat - 48) else none

/-- The value of a hexadecimal digit. -/
def hexDigit? (c : Char) : Option Nat :=
  if '0' ≤ c ∧ c ≤ '9' then some (c.toNat - 48)
  else if 'a' ≤ c ∧ c ≤ 'f' then some (c.toNat - 87)
  else if 'A' ≤ c ∧ c ≤ 'F' then some (c.toNat - 55)
  else none

/-- The number that digits in the base `base` denote, after digits that denote `n`. -/
def readDigits? (digit? : Char → Option Nat) (base : Nat) : Nat → List Char → Option Nat
  | n, [] => some n
  | n, c :: cs =>
    match digit? c with
    | some d => readDigits? digit? base (n * base + d) cs
    | none => none

/-- The number that one or more digits denote. -/
def readNatural? (digit? : Char → Option Nat) (base : Nat) (cs : List Char) : Option Nat :=
  if cs.isEmpty then none else readDigits? digit? base 0 cs

/-- The integer that digits denote, after a sign or none. -/
def readRadix? (digit? : Char → Option Nat) (base : Nat) : List Char → Option Int
  | '-' :: cs => (readNatural? digit? base cs).bind fun n => checked (-(n : Int))
  | '+' :: cs => (readNatural? digit? base cs).bind fun n => checked n
  | cs => (readNatural? digit? base cs).bind fun n => checked n

/-- The integer of a literal that does not start with a minus sign. -/
def readMagnitude? : List Char → Option Int
  | '0' :: 'x' :: cs => readRadix? hexDigit? 16 cs
  | '0' :: 'X' :: cs => readRadix? hexDigit? 16 cs
  | cs => readRadix? decimalDigit? 10 cs

/-- A literal without the blanks at its ends and without `_`. -/
def tidy (cs : List Char) : List Char := (Text.stripBoth Text.isBlank cs).filter (· ≠ '_')

theorem length_stripBoth_le (p : Char → Bool) (cs : List Char) :
    (Text.stripBoth p cs).length ≤ cs.length := by
  have h₁ := (List.dropWhile_sublist p (l := cs)).length_le
  have h₂ := (List.dropWhile_sublist p (l := (cs.dropWhile p).reverse)).length_le
  simp only [Text.stripBoth, List.length_reverse] at *
  omega

theorem length_tidy_le (cs : List Char) : (tidy cs).length ≤ cs.length :=
  Nat.le_trans (List.length_filter_le _ _) (length_stripBoth_le _ cs)

/-- The integer that the characters of a literal denote. -/
def readLiteral? (cs : List Char) : Option Int :=
  match _h : tidy cs with
  | '-' :: rest => (readLiteral? rest).bind fun n => checked (-n)
  | clean => readMagnitude? clean
termination_by cs.length
decreasing_by
  have := length_tidy_le cs
  simp only [_h, List.length_cons] at this
  omega

/-- The integer that a literal denotes. -/
def readInteger? (literal : String) : Option Int := readLiteral? literal.toList

end ClassScript.Emission
