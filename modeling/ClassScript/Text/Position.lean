/-
  File:      ClassScript/Text/Position.lean
  Subject:   Places in a text: lines and columns, and byte offsets.

  A line ends with the line feed byte. Lines and columns count from one, and
  a column counts BYTES of the UTF-8 form.

  * `Position.ofOffset`: the place of a byte offset;
  * `offsetOf`: the byte offset of a place, clamped into the text.
-/

namespace ClassScript

/-- A place in a text: line and column, both counted from one. -/
structure Position where
  line : Nat
  column : Nat
  deriving DecidableEq, Repr, Inhabited

namespace Position

/-- The first character of a text. -/
def start : Position := ⟨1, 1⟩

/-- The place reached from `p` by reading the byte `b`. -/
def step (p : Position) (b : UInt8) : Position :=
  if b = 10 then ⟨p.line + 1, 1⟩ else ⟨p.line, p.column + 1⟩

/-- The place right after the bytes `bs`, when their first one stands at `p`. -/
def advance (p : Position) (bs : List UInt8) : Position := bs.foldl step p

/-- The place of the byte offset `o`. -/
def ofOffset (bs : List UInt8) (o : Nat) : Position := start.advance (bs.take o)

end Position

/-- The bytes before the first line feed. -/
def firstLine (bs : List UInt8) : List UInt8 := bs.takeWhile (· ≠ 10)

/-- The byte offset of the `line`th line (counted from zero) and column `column` (from zero):
    the column is clamped to its line, and a line past the last one reads as the end. -/
def offsetFrom : List UInt8 → Nat → Nat → Nat
  | bs, 0, column => min column (firstLine bs).length
  | [], _ + 1, _ => 0
  | b :: bs, line + 1, column =>
    1 + (if b = 10 then offsetFrom bs line column else offsetFrom bs (line + 1) column)

/-- The byte offset of a place. Line zero reads as the start of the text, column zero as
    column one. -/
def offsetOf (bs : List UInt8) (p : Position) : Nat :=
  match p.line with
  | 0 => 0
  | line + 1 => offsetFrom bs line (p.column - 1)

end ClassScript
