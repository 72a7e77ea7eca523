/-
  File:      ClassScript/Emission/Edit.lean
  Subject:   Edits of a source text, and what they make of it.

  An edit replaces a range of bytes by a text. Edits are performed from the
  left to the right, those at one place in the order they were made. An edit
  that starts inside of what an earlier one replaced is left out.

  * `Edit`, `Edit.precedes`, `Edit.sort`: edits and their order;
  * `Edit.kept`: the edits that are performed;
  * `Edit.applyTo`: the edited text.
-/
import ClassScript.Syntax.Source

namespace ClassScript.Emission

open Syntax (Source)

/-- A replacement of the bytes from `start` up to `stop` by `text`. -/
structure Edit where
  start : Nat
  stop : Nat
  text : String
  deriving DecidableEq, Repr

namespace Edit

/-- The text of a range goes. -/
def removal (start stop : Nat) : Edit := ⟨start, stop, ""⟩

/-- A text comes in at `place`. -/
def insertion (place : Nat) (text : String) : Edit := ⟨place, place, text⟩

/-- `a` may stand before `b`: by where they start, and then by where they stop. -/
def precedes (a b : Edit) : Bool :=
  a.start < b.start || (a.start == b.start && a.stop ≤ b.stop)

/-- `e` before the first edit it may stand before. -/
def place (e : Edit) : List Edit → List Edit
  | [] => [e]
  | x :: xs => if e.precedes x then e :: x :: xs else x :: e.place xs

/-- The edits in order; equal ranges keep the order they have. -/
def sort : List Edit → List Edit
  | [] => []
  | e :: es => e.place (sort es)

/-- The edits that do not start before the offset `cursor` or inside of an earlier one. -/
def keptFrom : Nat → List Edit → List Edit
  | _, [] => []
  | cursor, e :: es =>
    if e.start < cursor then keptFrom cursor es else e :: keptFrom e.stop es

/-- The edits that are performed. -/
def kept (edits : List Edit) : List Edit := keptFrom 0 (sort edits)

/-- The text from `cursor` on with the edits performed, none of which starts before `cursor`. -/
def performFrom (src : Source) : Nat → List Edit → String
  | cursor, [] => src.text cursor src.size
  | cursor, e :: es => src.text cursor e.start ++ e.text ++ performFrom src e.stop es

/-- The text with the edits performed. -/
def applyTo (src : Source) (edits : List Edit) : String := performFrom src 0 (kept edits)

end Edit
end ClassScript.Emission
