/-
  File:      ClassScript/Glob/Pattern.lean
  Subject:   Patterns of file names.

  `?` stands for a character, `*` for any number of them, `[...]` for one of
  several and `[!...]` for any other. `**` stands for any number of folders
  and has to fill a step of the pattern. A pattern is compared with a whole
  text, in which a separator is a character like others.

  * `Glob`, `Glob.ofText?`: patterns, and how they are written;
  * `Glob.accepts`: the texts a pattern stands for.
-/

namespace ClassScript

/-- Some characters: those from `first` to `last`. -/
structure Glob.Range where
  first : Char
  last : Char
  deriving DecidableEq, Repr

/-- A part of a pattern. -/
inductive Glob.Token where
  | char (c : Char)
  | anyChar
  | anyText
  | anyFolders
  | oneOf (ranges : List Glob.Range)
  | noneOf (ranges : List Glob.Range)
  deriving DecidableEq, Repr

/-- A pattern. -/
structure Glob where
  tokens : List Glob.Token
  deriving DecidableEq, Repr

namespace Glob

def Range.holds (r : Range) (c : Char) : Bool := r.first ≤ c && c ≤ r.last

/-! ## 1. Reading -/

/-- The ranges between the brackets of a class. -/
def rangesOf : List Char → List Range
  | a :: '-' :: b :: cs => ⟨a, b⟩ :: rangesOf cs
  | a :: cs => ⟨a, a⟩ :: rangesOf cs
  | [] => []

/-- The class after an opening bracket, and what follows it. Its first character may be a closing
    bracket. -/
def classToken? : List Char → Option (Token × List Char)
  | '!' :: a :: cs =>
    match cs.span (· ≠ ']') with
    | (inner, _ :: rest) => some (.noneOf (rangesOf (a :: inner)), rest)
    | (_, []) => none
  | ['!'] => none
  | a :: cs =>
    match cs.span (· ≠ ']') with
    | (inner, _ :: rest) => some (.oneOf (rangesOf (a :: inner)), rest)
    | (_, []) => none
  | [] => none

/-- What follows two stars that fill a step, if they do. -/
def afterFolders? (previous : Option Char) (rest : List Char) : Option (List Char) :=
  if previous = none ∨ previous = some '/' then
    match rest with
    | [] => some []
    | '/' :: more => some more
    | _ => none
  else none

/-- The tokens of a pattern, after the tokens `seen` and the character `previous`. -/
def tokensFrom : Nat → List Token → Option Char → List Char → Option (List Token)
  | 0, _, _, _ => none
  | _, seen, _, [] => some seen
  | fuel + 1, seen, previous, c :: cs =>
    if c = '?' then tokensFrom fuel (seen ++ [.anyChar]) (some c) cs
    else if c = '[' then
      match classToken? cs with
      | some (token, rest) => tokensFrom fuel (seen ++ [token]) (some ']') rest
      | none => none
    else if c = '*' then
      match cs with
      | '*' :: '*' :: _ => none
      | '*' :: rest =>
        match afterFolders? previous rest with
        | some rest =>
          let isRepeated := 1 < seen.length && seen.getLast? == some .anyFolders
          tokensFrom fuel (if isRepeated then seen else seen ++ [.anyFolders]) (some '/') rest
        | none => none
      | _ => tokensFrom fuel (seen ++ [.anyText]) (some c) cs
    else tokensFrom fuel (seen ++ [.char c]) (some c) cs

/-- The pattern a text stands for, if it does. -/
def ofText? (text : String) : Option Glob :=
  (tokensFrom (text.length + 1) [] none text.toList).map Glob.mk

/-! ## 2. Matching -/

/-- A token stands for the character `c`. -/
def Token.holds (c : Char) : Token → Bool
  | .char d => c = d
  | .anyChar => true
  | .oneOf ranges => ranges.any (·.holds c)
  | .noneOf ranges => !ranges.any (·.holds c)
  | .anyText | .anyFolders => false

/-- All that is left of a text after some of its characters. -/
def suffixes : List Char → List (List Char)
  | [] => [[]]
  | c :: cs => (c :: cs) :: suffixes cs

/-- All that is left of a text after some of its folders, and nothing. -/
def folderSuffixes : List Char → List (List Char)
  | [] => [[]]
  | c :: cs => if c = '/' then cs :: folderSuffixes cs else folderSuffixes cs

/-- The tokens stand for the characters. -/
def matchTokens : List Token → List Char → Bool
  | [], cs => cs.isEmpty
  | .anyText :: ts, cs => (suffixes cs).any (matchTokens ts)
  | .anyFolders :: ts, cs => matchTokens ts cs || (folderSuffixes cs).any (matchTokens ts)
  | t :: ts, c :: cs => t.holds c && matchTokens ts cs
  | _ :: _, [] => false

/-- The pattern stands for the text. -/
def accepts (g : Glob) (text : String) : Bool := matchTokens g.tokens text.toList

/-- The only text the pattern stands for, if it has no wildcards. -/
def literal? (g : Glob) : Option String :=
  (g.tokens.mapM fun t =>
    match t with
    | Token.char c => some c
    | _ => none).map String.ofList

/-- The pattern stands for any number of folders somewhere. -/
def isRecursive (g : Glob) : Bool := g.tokens.contains .anyFolders

/-- A text is a pattern, and not a path. -/
def isWrittenIn (text : String) : Bool := text.toList.any fun c => c = '*' || c = '?' || c = '['

end Glob
end ClassScript
