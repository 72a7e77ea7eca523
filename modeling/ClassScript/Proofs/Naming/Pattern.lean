/-
  File:      ClassScript/Proofs/Naming/Pattern.lean
  Subject:   The letter cases as regular expressions.

  Each classifier of names decides the language of a regular expression over
  classes of ASCII characters.

  * `charsFrom`, `oneOf`: the classes;
  * `pascalPattern`, `camelPattern`, `upperSnakePattern`: the expressions;
  * `isPascalCase_iff`, `isCamelCase_iff`, `isUpperSnakeCase_iff`: the
    classifiers decide them.
-/
import ClassScript.Naming
import Mathlib.Computability.RegularExpressions
import ClassScript.Proofs.Text.Split

namespace ClassScript.Naming

open RegularExpression

/-! ## 1. Classes of characters -/

/-- The characters from `first` to `last`. -/
def charsFrom (first last : Char) : List Char :=
  (List.range' first.toNat (last.toNat + 1 - first.toNat)).map Char.ofNat

/-- `[…]`: one of some characters. -/
def oneOf (cs : List Char) : RegularExpression Char := (cs.map char).sum

/-- `[A-Z]` -/
def capitals : List Char := charsFrom 'A' 'Z'

/-- `[a-z]` -/
def smallLetters : List Char := charsFrom 'a' 'z'

/-- `[0-9]` -/
def digits : List Char := charsFrom '0' '9'

/-- `[A-Za-z0-9]` -/
def alphanumerics : List Char := capitals ++ smallLetters ++ digits

theorem toNat_ofNat_of_lt {n : Nat} (h : n < 0xD800) : (Char.ofNat n).toNat = n := by
  rw [Char.ofNat, dif_pos (Or.inl h)]
  rfl

theorem mem_charsFrom_iff {first last c : Char} (h : last.toNat < 0xD800) :
    c ∈ charsFrom first last ↔ first.toNat ≤ c.toNat ∧ c.toNat ≤ last.toNat := by
  unfold charsFrom
  rw [List.mem_map]
  constructor
  · intro h
    obtain ⟨n, hn, rfl⟩ := h
    rw [List.mem_range'_1] at hn
    rw [toNat_ofNat_of_lt (by omega)]
    omega
  · intro h
    obtain ⟨hf, hl⟩ := h
    exact ⟨c.toNat, List.mem_range'_1.mpr (by omega), Char.ofNat_toNat c⟩

theorem between_iff {first last c : Char} :
    (decide (first.val ≤ c.val) && decide (c.val ≤ last.val)) = true ↔
      first.toNat ≤ c.toNat ∧ c.toNat ≤ last.toNat := by
  rw [Bool.and_eq_true, decide_eq_true_iff, decide_eq_true_iff]
  rfl

theorem mem_capitals_iff {c : Char} : c ∈ capitals ↔ c.isUpper = true := by
  unfold capitals
  rw [mem_charsFrom_iff (by decide)]
  exact decide_eq_true_iff.symm

theorem mem_smallLetters_iff {c : Char} : c ∈ smallLetters ↔ c.isLower = true := by
  unfold smallLetters
  rw [mem_charsFrom_iff (by decide)]
  exact between_iff.symm

theorem mem_digits_iff {c : Char} : c ∈ digits ↔ c.isDigit = true := by
  unfold digits
  rw [mem_charsFrom_iff (by decide)]
  exact between_iff.symm

theorem mem_alphanumerics_iff {c : Char} : c ∈ alphanumerics ↔ c.isAlphanum = true := by
  unfold alphanumerics
  rw [List.mem_append, List.mem_append, mem_capitals_iff, mem_smallLetters_iff, mem_digits_iff]
  show _ ↔ ((c.isUpper || c.isLower) || c.isDigit) = true
  rw [Bool.or_eq_true, Bool.or_eq_true]

theorem mem_capitals_digits_iff {c : Char} : c ∈ capitals ++ digits ↔ isUpperOrDigit c = true := by
  rw [List.mem_append, mem_capitals_iff, mem_digits_iff]
  simp only [isUpperOrDigit, Bool.or_eq_true]

/-! ## 2. Words over a class -/

theorem mem_oneOf_iff {cs x : List Char} : x ∈ (oneOf cs).matches' ↔ ∃ c ∈ cs, x = [c] := by
  induction cs with
  | nil =>
    show x ∈ (0 : Language Char) ↔ _
    simp
  | cons c cs ih =>
    show x ∈ (char c + oneOf cs).matches' ↔ _
    rw [matches'_add, matches'_char, Language.mem_add, ih, List.exists_mem_cons_iff]
    rfl

/-- The words of `[…]*` have all their characters in the class. -/
theorem mem_star_oneOf_iff {cs x : List Char} :
    x ∈ (star (oneOf cs)).matches' ↔ ∀ c ∈ x, c ∈ cs := by
  rw [matches'_star, Language.mem_kstar]
  constructor
  · intro h c hc
    obtain ⟨words, rfl, hwords⟩ := h
    obtain ⟨word, hword, hcw⟩ := List.mem_flatten.mp hc
    obtain ⟨d, hd, rfl⟩ := mem_oneOf_iff.mp (hwords word hword)
    rw [List.mem_singleton.mp hcw]
    exact hd
  · intro h
    refine ⟨x.map fun c => [c], (List.flatMap_singleton' x).symm, fun word hword => ?_⟩
    obtain ⟨c, hc, rfl⟩ := List.mem_map.mp hword
    exact mem_oneOf_iff.mpr ⟨c, h c hc, rfl⟩

/-- The words of `[…][…]*` start in the first class and go on in the second one. -/
theorem mem_oneOf_mul_star_iff {cs ds x : List Char} :
    x ∈ (oneOf cs * star (oneOf ds)).matches' ↔
      ∃ c rest, x = c :: rest ∧ c ∈ cs ∧ ∀ d ∈ rest, d ∈ ds := by
  rw [matches'_mul, Language.mem_mul]
  constructor
  · intro h
    obtain ⟨head, hhead, rest, hrest, rfl⟩ := h
    obtain ⟨c, hc, rfl⟩ := mem_oneOf_iff.mp hhead
    exact ⟨c, rest, rfl, hc, mem_star_oneOf_iff.mp hrest⟩
  · intro h
    obtain ⟨c, rest, rfl, hc, hrest⟩ := h
    exact ⟨[c], mem_oneOf_iff.mpr ⟨c, hc, rfl⟩, rest, mem_star_oneOf_iff.mpr hrest, rfl⟩

/-! ## 3. The three letter cases -/

/-- `[A-Z][A-Za-z0-9]*` -/
def pascalPattern : RegularExpression Char := oneOf capitals * star (oneOf alphanumerics)

/-- `[a-z][A-Za-z0-9]*` -/
def camelPattern : RegularExpression Char := oneOf smallLetters * star (oneOf alphanumerics)

/-- `[A-Z0-9]+` -/
def upperSegmentPattern : RegularExpression Char :=
  oneOf (capitals ++ digits) * star (oneOf (capitals ++ digits))

/-- `[A-Z0-9]+(_[A-Z0-9]+)*` -/
def upperSnakePattern : RegularExpression Char :=
  upperSegmentPattern * star (char '_' * upperSegmentPattern)

/-- The whole name is a word of the pattern. -/
def Fits (pattern : RegularExpression Char) (name : String) : Prop :=
  name.toList ∈ pattern.matches'

/-- A character of one class, and then characters of another one. -/
theorem fits_oneOf_mul_star_iff {cs ds : List Char} {name : String} {p q : Char → Bool}
    (hp : ∀ c, c ∈ cs ↔ p c = true) (hq : ∀ c, c ∈ ds ↔ q c = true) :
    Fits (oneOf cs * star (oneOf ds)) name ↔
      ∃ c rest, name.toList = c :: rest ∧ p c = true ∧ rest.all q = true := by
  unfold Fits
  rw [mem_oneOf_mul_star_iff]
  simp only [hp, hq, List.all_eq_true]

/-- **A name is in `PascalCase`** when it fits `^[A-Z][A-Za-z0-9]*$`. -/
theorem isPascalCase_iff {name : String} : isPascalCase name = true ↔ Fits pascalPattern name := by
  unfold isPascalCase pascalPattern
  rw [fits_oneOf_mul_star_iff (fun _ => mem_capitals_iff) fun _ => mem_alphanumerics_iff]
  cases name.toList with
  | nil => simp
  | cons c cs => simp

/-- **A name is in `camelCase`** when it fits `^[a-z][A-Za-z0-9]*$`. -/
theorem isCamelCase_iff {name : String} : isCamelCase name = true ↔ Fits camelPattern name := by
  unfold isCamelCase camelPattern
  rw [fits_oneOf_mul_star_iff (fun _ => mem_smallLetters_iff) fun _ => mem_alphanumerics_iff]
  cases name.toList with
  | nil => simp
  | cons c cs => simp

/-! ## 4. Segments -/

/-- The words of `[A-Z0-9]+` are the segments of capitals and digits. -/
theorem mem_upperSegmentPattern_iff {x : List Char} :
    x ∈ upperSegmentPattern.matches' ↔ isUpperSegment x = true := by
  unfold upperSegmentPattern isUpperSegment
  rw [mem_oneOf_mul_star_iff]
  simp only [mem_capitals_digits_iff]
  cases x with
  | nil => simp
  | cons c cs => simp

theorem underscore_not_mem_of_isUpperSegment {x : List Char} (h : isUpperSegment x = true) :
    '_' ∉ x := by
  intro hx
  have hall : x.all isUpperOrDigit = true := by
    simp only [isUpperSegment, Bool.and_eq_true] at h
    exact h.2
  have := List.all_eq_true.mp hall '_' hx
  revert this
  decide

/-- The words of `(_[A-Z0-9]+)*` are segments with `_` before each of them. -/
theorem mem_star_segments_iff {x : List Char} :
    x ∈ (star (char '_' * upperSegmentPattern)).matches' ↔
      ∃ rest : List (List Char), x = (rest.map ('_' :: ·)).flatten ∧
        ∀ segment ∈ rest, isUpperSegment segment = true := by
  rw [matches'_star, Language.mem_kstar]
  constructor
  · intro h
    obtain ⟨words, rfl, hwords⟩ := h
    have hword : ∀ word ∈ words, word = '_' :: word.tail ∧ isUpperSegment word.tail = true := by
      intro word hw
      have hw' := hwords word hw
      rw [matches'_mul] at hw'
      obtain ⟨_, rfl, segment, hsegment, rfl⟩ := Language.mem_mul.mp hw'
      exact ⟨rfl, mem_upperSegmentPattern_iff.mp hsegment⟩
    refine ⟨words.map List.tail, ?_, fun segment hs => ?_⟩
    · have hmap : words.map (('_' :: ·) ∘ List.tail) = words.map id :=
        List.map_congr_left fun word hw => (hword word hw).1.symm
      rw [List.map_map, hmap, List.map_id]
    · obtain ⟨word, hw, rfl⟩ := List.mem_map.mp hs
      exact (hword word hw).2
  · intro h
    obtain ⟨rest, rfl, hrest⟩ := h
    refine ⟨rest.map ('_' :: ·), rfl, fun word hword => ?_⟩
    obtain ⟨segment, hsegment, rfl⟩ := List.mem_map.mp hword
    rw [matches'_mul]
    exact Language.mem_mul.mpr ⟨['_'], rfl, segment,
      mem_upperSegmentPattern_iff.mpr (hrest segment hsegment), rfl⟩

/-- **A name is in `UPPER_SNAKE_CASE`** when it fits `^[A-Z0-9]+(_[A-Z0-9]+)*$`. -/
theorem isUpperSnakeCase_iff {name : String} :
    isUpperSnakeCase name = true ↔ Fits upperSnakePattern name := by
  unfold isUpperSnakeCase upperSnakePattern Fits
  rw [List.all_eq_true, matches'_mul, Language.mem_mul]
  constructor
  · intro h
    obtain ⟨piece, rest, hcut, hjoin⟩ := Text.exists_splitOn '_' name.toList
    rw [hcut] at h
    refine ⟨piece, ?_, (rest.map ('_' :: ·)).flatten, ?_, hjoin.symm⟩
    · exact mem_upperSegmentPattern_iff.mpr (h piece List.mem_cons_self)
    · exact mem_star_segments_iff.mpr
        ⟨rest, rfl, fun segment hs => h segment (List.mem_cons_of_mem piece hs)⟩
  · intro h
    obtain ⟨piece, hpiece, _, htail, hjoin⟩ := h
    obtain ⟨rest, rfl, hrest⟩ := mem_star_segments_iff.mp htail
    have hsegment : isUpperSegment piece = true := mem_upperSegmentPattern_iff.mp hpiece
    rw [← hjoin, Text.splitOn_append_flatten (underscore_not_mem_of_isUpperSegment hsegment)
      fun p hp => underscore_not_mem_of_isUpperSegment (hrest p hp)]
    exact List.forall_mem_cons.mpr ⟨hsegment, hrest⟩

end ClassScript.Naming
