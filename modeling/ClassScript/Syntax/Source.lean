/-
  File:      ClassScript/Syntax/Source.lean
  Subject:   A source text as bytes, and its slices.

  Trees and edits speak of a text by byte offsets into its UTF-8 form. A
  slice that does not fall on characters reads as the empty text.

  * `Source`: the bytes of a text;
  * `Source.byte`, `Source.decode`: one byte, one character;
  * `Source.slice`, `Source.text`: a range as bytes, and as text;
  * `Source.lineStart`, `Source.lineEnd`: the line around an offset.
-/
import ClassScript.Text.Blank
import ClassScript.Text.Position

namespace ClassScript.Syntax

/-- The bytes of a text. -/
structure Source where
  bytes : ByteArray
  deriving Inhabited

namespace Source

/-- The bytes of `s`. -/
def ofString (s : String) : Source := ⟨s.toUTF8⟩

def size (src : Source) : Nat := src.bytes.size

/-- The byte at `i`; zero past the end. -/
def byte (src : Source) (i : Nat) : UInt8 := if h : i < src.bytes.size then src.bytes[i] else 0

/-- The bytes from `a` up to `b`. -/
def slice (src : Source) (a b : Nat) : ByteArray := src.bytes.extract a b

/-- The text of some bytes; empty if they are no text. -/
def textOf (bytes : ByteArray) : String := (String.fromUTF8? bytes).getD ""

/-- The text from `a` up to `b`. -/
def text (src : Source) (a b : Nat) : String := textOf (src.slice a b)

/-! ## 1. Characters -/

/-- The payload of a continuation byte. -/
def tail (src : Source) (i : Nat) : Nat := (src.byte i).toNat % 64

/-- The code point that starts at `i`, and how many bytes it takes. -/
def decode (src : Source) (i : Nat) : Nat × Nat :=
  let b := (src.byte i).toNat
  if b < 0x80 then (b, 1)
  else if b < 0xE0 then ((b % 32) * 64 + src.tail (i + 1), 2)
  else if b < 0xF0 then ((b % 16) * 4096 + src.tail (i + 1) * 64 + src.tail (i + 2), 3)
  else
    ((b % 8) * 262144 + src.tail (i + 1) * 4096 + src.tail (i + 2) * 64 + src.tail (i + 3), 4)

/-! ## 2. Lines -/

/-- The offset after the last line feed among the `n` bytes before `n`. -/
def lineStart (src : Source) : Nat → Nat
  | 0 => 0
  | n + 1 => if src.byte n = 10 then n + 1 else lineStart src n

/-- The offset after the first line feed from `i` on, looking at `fuel` bytes. -/
def lineEndFrom (src : Source) : Nat → Nat → Nat
  | 0, i => i
  | fuel + 1, i => if src.byte i = 10 then i + 1 else lineEndFrom src fuel (i + 1)

/-- The offset after the first line feed from `i` on, or the end of the text. -/
def lineEnd (src : Source) (i : Nat) : Nat := src.lineEndFrom (src.size - i) i

/-- The place of the offset `i`. -/
def position (src : Source) (i : Nat) : Position := .ofOffset src.bytes.toList i

end Source
end ClassScript.Syntax
