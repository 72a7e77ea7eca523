/-
  File:      ClassScript/Proofs/Naming/LetterCase.lean
  Subject:   The three letter cases as languages.

  What a regular expression means is said here by rules, for each of its
  constructors. The classifiers accept what the rules derive from the three
  expressions. The one for constants cuts a name at each `_`, and so accepts
  capitals and digits in which every `_` stands alone between two others: an
  empty piece is a `_` at an end of the name, or beside another one.

  * `Derives`, `derives_iff`: the rules, and the languages they give;
  * `isUpperSnakeCase_iff_marks`: constants, by where their `_` stand;
  * `letter_case_languages`: the three letter cases together.
-/
import Mathlib
import ClassScript.Proofs.Naming.Pattern

namespace ClassScript.Naming

open RegularExpression

/-! ## 1. What an expression means -/

/-- `Derives P x`: the word `x` fits the expression `P`. -/
inductive Derives {α : Type} : RegularExpression α → List α → Prop where
  | epsilon : Derives epsilon []
  | char (a : α) : Derives (char a) [a]
  | left {P Q : RegularExpression α} {x : List α} : Derives P x → Derives (P.plus Q) x
  | right {P Q : RegularExpression α} {x : List α} : Derives Q x → Derives (P.plus Q) x
  | comp {P Q : RegularExpression α} {x y : List α} :
      Derives P x → Derives Q y → Derives (P.comp Q) (x ++ y)
  | starNil {P : RegularExpression α} : Derives P.star []
  | starAppend {P : RegularExpression α} {x y : List α} :
      Derives P x → Derives P.star y → Derives P.star (x ++ y)

section

variable {α : Type} {P : RegularExpression α} {x : List α}

theorem mem_matches_of_derives (h : Derives P x) : x ∈ P.matches' := by
  induction h with
  | epsilon => exact Language.nil_mem_one
  | char a => exact rfl
  | left _ ih => exact Or.inl ih
  | right _ ih => exact Or.inr ih
  | comp _ _ ihP ihQ => exact Language.append_mem_mul ihP ihQ
  | starNil => exact Language.nil_mem_kstar _
  | @starAppend P x y _ _ ih ihstar =>
    obtain ⟨words, rfl, hwords⟩ := Language.mem_kstar.mp ihstar
    exact Language.mem_kstar.mpr
      ⟨x :: words, List.flatten_cons.symm, List.forall_mem_cons.mpr ⟨ih, hwords⟩⟩

theorem derives_star_flatten {words : List (List α)} (h : ∀ word ∈ words, Derives P word) :
    Derives P.star words.flatten := by
  induction words with
  | nil => exact .starNil
  | cons word words ih =>
    obtain ⟨hword, hwords⟩ := List.forall_mem_cons.mp h
    exact .starAppend hword (ih hwords)

theorem derives_of_mem_matches (h : x ∈ P.matches') : Derives P x := by
  induction P generalizing x with
  | zero => exact absurd h (Language.notMem_zero x)
  | epsilon =>
    obtain rfl : x = [] := h
    exact .epsilon
  | char a =>
    obtain rfl : x = [a] := h
    exact .char a
  | plus P Q ihP ihQ =>
    rcases h with h | h
    · exact .left (ihP h)
    · exact .right (ihQ h)
  | comp P Q ihP ihQ =>
    obtain ⟨y, hy, z, hz, rfl⟩ := Language.mem_mul.mp h
    exact .comp (ihP hy) (ihQ hz)
  | star P ih =>
    obtain ⟨words, rfl, hwords⟩ := Language.mem_kstar.mp h
    exact derives_star_flatten fun word hword => ih (hwords word hword)

/-- **The rules derive** the words of the language of an expression. -/
theorem derives_iff : Derives P x ↔ x ∈ P.matches' :=
  ⟨mem_matches_of_derives, derives_of_mem_matches⟩

end

/-! ## 2. The three letter cases -/

/-- **A constant** is made of capitals, digits and `_`, and every `_` stands between two others. -/
theorem isUpperSnakeCase_iff_marks {name : String} :
    isUpperSnakeCase name = true ↔
      name.toList ≠ [] ∧ (∀ c ∈ name.toList, c = '_' ∨ isUpperOrDigit c = true) ∧
        name.toList.head? ≠ some '_' ∧ name.toList.getLast? ≠ some '_' ∧
        ¬ ['_', '_'] <:+: name.toList := by
  have hsegment (piece : List Char) :
      isUpperSegment piece = true ↔ piece ≠ [] ∧ ∀ c ∈ piece, isUpperOrDigit c = true := by
    simp [isUpperSegment]
  have hfull : (∀ piece ∈ Text.splitOn '_' name.toList, piece ≠ []) ↔
      [] ∉ Text.splitOn '_' name.toList :=
    ⟨fun h hnil => h [] hnil rfl, fun h piece hpiece hnil => h (hnil ▸ hpiece)⟩
  have hchars : (∀ piece ∈ Text.splitOn '_' name.toList, ∀ c ∈ piece, isUpperOrDigit c = true) ↔
      ∀ c ∈ name.toList, c = '_' ∨ isUpperOrDigit c = true := by
    rw [← List.forall_mem_flatten, Text.flatten_splitOn]
    simp only [List.mem_filter, decide_eq_true_eq, ← or_iff_not_imp_left, and_imp]
  unfold isUpperSnakeCase
  rw [List.all_eq_true]
  simp only [hsegment, imp_and, forall_and]
  rw [hfull, hchars, Text.nil_mem_splitOn_iff, not_or, not_or, not_or]
  constructor
  · intro h
    obtain ⟨⟨hne, hfirst, hlast, htwice⟩, hall⟩ := h
    exact ⟨hne, hall, hfirst, hlast, htwice⟩
  · intro h
    obtain ⟨hne, hall, hfirst, hlast, htwice⟩ := h
    exact ⟨⟨hne, hfirst, hlast, htwice⟩, hall⟩

/-- **The letter cases** accept the languages of their expressions. No name is both that of a type
    and that of a member, and no `_` of a constant stands at one of its ends or beside another
    one. -/
theorem letter_case_languages (name : String) :
    (isPascalCase name = true ↔ Derives pascalPattern name.toList) ∧
      (isCamelCase name = true ↔ Derives camelPattern name.toList) ∧
      (isUpperSnakeCase name = true ↔ Derives upperSnakePattern name.toList) ∧
      ¬ (isPascalCase name = true ∧ isCamelCase name = true) ∧
      (isUpperSnakeCase name = true ↔
        name.toList ≠ [] ∧ (∀ c ∈ name.toList, c = '_' ∨ isUpperOrDigit c = true) ∧
          name.toList.head? ≠ some '_' ∧ name.toList.getLast? ≠ some '_' ∧
          ¬ ['_', '_'] <:+: name.toList) := by
  refine ⟨?_, ?_, ?_, ?_, isUpperSnakeCase_iff_marks⟩
  · exact isPascalCase_iff.trans derives_iff.symm
  · exact isCamelCase_iff.trans derives_iff.symm
  · exact isUpperSnakeCase_iff.trans derives_iff.symm
  · unfold isPascalCase isCamelCase
    cases name.toList with
    | nil => simp
    | cons c cs =>
      intro h
      obtain ⟨hcapital, _⟩ := Bool.and_eq_true_iff.mp h.1
      obtain ⟨hsmall, _⟩ := Bool.and_eq_true_iff.mp h.2
      exact Char.not_isUpper_of_isLower hsmall hcapital

end ClassScript.Naming
