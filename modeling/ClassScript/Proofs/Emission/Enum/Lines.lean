/-
  File:      ClassScript/Proofs/Emission/Enum/Lines.lean
  Subject:   The text of an enum, line by line.

  A script declares a variable for an enum, and calls a function on an object
  that is kept in it. The body of the function has a line for each assignment.
  What stands in these lines is said by rules, apart from the printer: a piece
  of a value, a value, an assignment, and the lines around the assignments.
  The rules leave one text, and it is the one that is printed.

  * `IsPieceText`, `IsValueText`, `IsAssignmentLine`: the parts of a line;
  * `IsEnumText`: all lines;
  * `isEnumText_iff`: the rules leave the printed text.
-/
import Mathlib.Data.List.Forall2
import ClassScript.Emission.Enum

namespace ClassScript.Emission

variable {enum indent text : String} {body : List Assignment}

/-! ## 1. The parts of a line -/

/-- A copied piece stands as it is, and a member behind the name of the enum. -/
inductive IsPieceText (enum : String) : Piece → String → Prop where
  | copied (text : String) : IsPieceText enum (.copied text) text
  | reference (member : String) : IsPieceText enum (.reference member) (enum ++ "." ++ member)

/-- A value is written piece by piece, as an integer, or as an addition to a member. -/
inductive IsValueText (enum : String) : Value → String → Prop where
  | written (pieces : List Piece) (texts : List String)
      (h : List.Forall₂ (IsPieceText enum) pieces texts) :
      IsValueText enum (.written pieces) (String.join texts)
  | integer (n : Int) : IsValueText enum (.integer n) (toString n)
  | oneMoreThan (key : String) :
      IsValueText enum (.oneMoreThan key) (enum ++ "[\"" ++ key ++ "\"] + 1")

/-- A line assigns to a member, and perhaps assigns the name of the member to its value. -/
inductive IsAssignmentLine (enum : String) : Assignment → String → Prop where
  | oneWay {key text : String} {value : Value} (h : IsValueText enum value text) :
      IsAssignmentLine enum ⟨key, value, false⟩ (enum ++ "[\"" ++ key ++ "\"] = " ++ text ++ ";")
  | bothWays {key text : String} {value : Value} (h : IsValueText enum value text) :
      IsAssignmentLine enum ⟨key, value, true⟩
        (enum ++ "[" ++ (enum ++ "[\"" ++ key ++ "\"] = " ++ text) ++ "] = \"" ++ key ++ "\";")

/-! ## 2. All lines -/

/-- The text of the enum `enum` with the assignments `body`: the variable, the head of the
    function, a line for each assignment, and the call on the object of the variable, which is new
    if there is none. -/
inductive IsEnumText (enum indent : String) (body : List Assignment) : String → Prop where
  | lines {lines : List String} (h : List.Forall₂ (IsAssignmentLine enum) body lines) :
      IsEnumText enum indent body
        ("var " ++ enum ++ ";\n" ++ indent ++ "(function (" ++ enum ++ ") \x7b\n" ++
          String.join (lines.map fun line => indent ++ "    " ++ line ++ "\n") ++
          indent ++ "\x7d)(" ++ enum ++ " || (" ++ enum ++ " = \x7b\x7d));")

/-! ## 3. The printed text -/

/-- If each line is written for one thing, so are the lines for a list of things. -/
theorem forall₂_iff_eq_map {α : Type} {R : α → String → Prop} {f : α → String}
    (h : ∀ a text, R a text ↔ text = f a) {as : List α} {texts : List String} :
    List.Forall₂ R as texts ↔ texts = as.map f := by
  have hfunction : R = fun a text => f a = text :=
    funext₂ fun a text => propext ((h a text).trans eq_comm)
  rw [hfunction, ← List.forall₂_map_left_iff (R := Eq), List.forall₂_eq_eq_eq, eq_comm]

theorem isPieceText_iff (p : Piece) (text : String) :
    IsPieceText enum p text ↔ text = p.text enum := by
  constructor
  · intro h
    cases h <;> rfl
  · rintro rfl
    cases p with
    | copied text => exact .copied text
    | reference member => exact .reference member

theorem isValueText_iff (v : Value) (text : String) :
    IsValueText enum v text ↔ text = v.text enum := by
  constructor
  · intro h
    cases h with
    | written pieces texts h =>
      rw [(forall₂_iff_eq_map isPieceText_iff).mp h]
      rfl
    | integer n => rfl
    | oneMoreThan key => rfl
  · rintro rfl
    cases v with
    | written pieces =>
      exact .written pieces _ ((forall₂_iff_eq_map isPieceText_iff).mpr rfl)
    | integer n => exact .integer n
    | oneMoreThan key => exact .oneMoreThan key

theorem isAssignmentLine_iff (a : Assignment) (text : String) :
    IsAssignmentLine enum a text ↔ text = a.line enum := by
  constructor
  · intro h
    cases h with
    | oneWay h =>
      rw [(isValueText_iff _ _).mp h]
      rfl
    | bothWays h =>
      rw [(isValueText_iff _ _).mp h]
      rfl
  · rintro rfl
    obtain ⟨key, value, mapsBack⟩ := a
    have hvalue : IsValueText enum value (value.text enum) := (isValueText_iff _ _).mpr rfl
    cases mapsBack with
    | false => exact .oneWay hvalue
    | true => exact .bothWays hvalue

/-- Lines with a last one are separated, or ended, by line breaks. -/
theorem intercalate_concat (lines : List String) (last : String) :
    "\n".intercalate (lines ++ [last]) = String.join (lines.map (· ++ "\n")) ++ last := by
  induction lines with
  | nil => simp
  | cons line lines ih =>
    rw [List.cons_append, String.intercalate_cons_of_ne_nil (by simp), ih, List.map_cons,
      String.join_cons, String.append_assoc, String.append_assoc, String.append_assoc]

/-- **The rules leave the printed text**, and nothing else. -/
theorem isEnumText_iff : IsEnumText enum indent body text ↔ text = enumText enum indent body := by
  have hprinted : enumText enum indent body =
      "var " ++ enum ++ ";\n" ++ indent ++ "(function (" ++ enum ++ ") \x7b\n" ++
        String.join ((body.map (Assignment.line enum)).map fun line =>
          indent ++ "    " ++ line ++ "\n") ++
        indent ++ "\x7d)(" ++ enum ++ " || (" ++ enum ++ " = \x7b\x7d));" := by
    unfold enumText
    dsimp only
    rw [intercalate_concat]
    simp [List.map_map, String.append_assoc, Function.comp_def]
  rw [hprinted]
  constructor
  · rintro ⟨h⟩
    rw [(forall₂_iff_eq_map isAssignmentLine_iff).mp h]
  · rintro rfl
    exact .lines ((forall₂_iff_eq_map isAssignmentLine_iff).mpr rfl)

end ClassScript.Emission
