/-
  File:      ClassScript/Text/Blank.lean
  Subject:   Blank characters, trimming, and letter case by ASCII.

  "Blank" is the Unicode property White_Space. It decides what a trimmed
  annotation, a swallowed source line and the end of a compiled module are.
  The byte order mark U+FEFF and the zero width space U+200B are not blank.
-/

namespace ClassScript.Text

/-- The code points of the property White_Space, as closed ranges. -/
def blankRanges : List (Nat × Nat) :=
  [(0x0009, 0x000D), (0x0020, 0x0020), (0x0085, 0x0085), (0x00A0, 0x00A0),
   (0x1680, 0x1680), (0x2000, 0x200A), (0x2028, 0x2029), (0x202F, 0x202F),
   (0x205F, 0x205F), (0x3000, 0x3000)]

/-- True of the characters with the property White_Space. -/
def isBlank (c : Char) : Bool :=
  blankRanges.any fun (lo, hi) => decide (lo ≤ c.toNat) && decide (c.toNat ≤ hi)

/-- True of a text made of blank characters only. -/
def allBlank (s : String) : Bool := s.toList.all isBlank

/-- The characters from the first one on that fails `p`, up to the last one that fails it. -/
def stripBoth (p : Char → Bool) (cs : List Char) : List Char :=
  ((cs.dropWhile p).reverse.dropWhile p).reverse

/-- `s` without the characters in `p` at its two ends. -/
def strip (p : Char → Bool) (s : String) : String := String.ofList (stripBoth p s.toList)

/-- `s` without blank characters at its two ends. -/
def trim (s : String) : String := strip isBlank s

/-- `s` without blank characters at its end. -/
def trimEnd (s : String) : String :=
  String.ofList (s.toList.reverse.dropWhile isBlank).reverse

/-- The blank characters `s` starts with. -/
def leadingBlank (s : String) : String := String.ofList (s.toList.takeWhile isBlank)

/-- `s` with its ASCII capitals made small. -/
def lowerAscii (s : String) : String := String.ofList (s.toList.map Char.toLower)

/-- `s` with its small ASCII letters made capital. -/
def upperAscii (s : String) : String := String.ofList (s.toList.map Char.toUpper)

/-- What follows `head` in `s`, if `s` starts with it. -/
def dropHead? (head s : String) : Option String :=
  if head.toList.isPrefixOf s.toList then
    some (String.ofList (s.toList.drop head.toList.length))
  else
    none

/-- What precedes `tail` in `s`, if `s` ends with it. -/
def dropTail? (tail s : String) : Option String :=
  if tail.toList.isSuffixOf s.toList then
    some (String.ofList (s.toList.take (s.toList.length - tail.toList.length)))
  else
    none

/-- The pieces of `cs` between the characters `sep`; never empty. -/
def splitOn (sep : Char) : List Char → List (List Char)
  | [] => [[]]
  | c :: cs =>
    if c = sep then [] :: splitOn sep cs
    else
      match splitOn sep cs with
      | [] => [[c]]
      | piece :: rest => (c :: piece) :: rest

/-- The order of texts by the code points they are made of, which is the order of their bytes. -/
def byCodePoint : List Char → List Char → Ordering
  | [], [] => .eq
  | [], _ :: _ => .lt
  | _ :: _, [] => .gt
  | a :: as, b :: bs =>
    if a.toNat < b.toNat then .lt
    else if b.toNat < a.toNat then .gt
    else byCodePoint as bs

end ClassScript.Text
