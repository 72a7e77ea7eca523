/-
  File:      ClassScript/Proofs/Naming/Conversion.lean
  Subject:   What the suggested spellings keep of a name, and when they are in
             their case.

  A name is cut into words by a machine that reads it character by character,
  with the word that is open and whether a capital would close it. However the
  cuts fall, the words are the letters and digits of the name, in lower case.
  So are the three spellings, up to case and `_`. Whether a spelling is in its
  case is up to the first of these characters.

  In a capital spelling no capital closes a word, since none follows a small
  letter; but digits may. Without digits the words of the spelling are those of
  the name, and all conversions give the same after it as before.

  * `letters`, `flatten_words`: what the words of a name are made of;
  * `isPascalCase_toPascalCase_iff`, `isCamelCase_toCamelCase_iff`,
    `isUpperSnakeCase_toUpperSnakeCase_iff`: when a spelling is in its case;
  * `words_toUpperSnakeCase`: the words of a name without digits.
-/
import Mathlib
import ClassScript.Proofs.Naming.Pattern

namespace ClassScript.Naming

/-! ## 1. Characters -/

theorem not_isAlpha_of_isDigit {c : Char} (h : c.isDigit = true) : ¬c.isAlpha = true := by
  have hdigit : 48 ≤ c.toNat ∧ c.toNat ≤ 57 := between_iff.mp h
  intro halpha
  rcases Bool.or_eq_true_iff.mp halpha with hupper | hlower
  · have : 65 ≤ c.toNat ∧ c.toNat ≤ 90 := of_decide_eq_true hupper
    omega
  · have : 97 ≤ c.toNat ∧ c.toNat ≤ 122 := between_iff.mp hlower
    omega

/-- Letter case is no matter of digits. -/
theorem isDigit_toLower (c : Char) : c.toLower.isDigit = c.isDigit := by
  by_cases hu : c.isUpper = true
  · have halpha : c.isAlpha = true := by rw [Char.isAlpha, hu, Bool.true_or]
    have hno : ¬c.isDigit = true := fun h => not_isAlpha_of_isDigit h halpha
    have hno' : ¬c.toLower.isDigit = true := fun h =>
      not_isAlpha_of_isDigit h ((Char.isAlpha_toLower_eq_isAlpha c).trans halpha)
    rw [Bool.eq_false_of_not_eq_true hno, Bool.eq_false_of_not_eq_true hno']
  · rw [Char.toLower_eq_of_not_isUpper hu]

theorem isDigit_toUpper (c : Char) : c.toUpper.isDigit = c.isDigit := by
  rw [← isDigit_toLower c.toUpper, Char.toLower_toUpper_eq_toLower, isDigit_toLower]

theorem isAlphanum_toLower (c : Char) : c.toLower.isAlphanum = c.isAlphanum := by
  rw [Char.isAlphanum, isDigit_toLower, Char.isAlpha_toLower_eq_isAlpha, Char.isAlphanum]

theorem isAlphanum_toUpper (c : Char) : c.toUpper.isAlphanum = c.isAlphanum := by
  rw [Char.isAlphanum, isDigit_toUpper, Char.isAlpha_toUpper_eq_isAlpha, Char.isAlphanum]

theorem isUpperOrDigit_toUpper (c : Char) : isUpperOrDigit c.toUpper = c.isAlphanum := by
  rw [isUpperOrDigit, Char.isUpper_toUpper_eq_isAlpha, isDigit_toUpper, Char.isAlphanum]

/-! ## 2. Words -/

/-- The ASCII letters and digits among some characters, in lower case. -/
def letters (cs : List Char) : List Char := (cs.filter Char.isAlphanum).map Char.toLower

theorem letters_cons_of_pos {c : Char} (cs : List Char) (h : c.isAlphanum = true) :
    letters (c :: cs) = c.toLower :: letters cs := by
  rw [letters, List.filter_cons_of_pos h, List.map_cons, letters]

theorem letters_cons_of_neg {c : Char} (cs : List Char) (h : ¬c.isAlphanum = true) :
    letters (c :: cs) = letters cs := by
  rw [letters, List.filter_cons_of_neg h, letters]

theorem mem_letters {cs : List Char} {c : Char} (h : c ∈ letters cs) :
    c.isAlphanum = true ∧ c.toLower = c := by
  obtain ⟨d, hd, rfl⟩ := List.mem_map.mp h
  exact ⟨(isAlphanum_toLower d).trans (List.mem_filter.mp hd).2, Char.toLower_toLower_eq_toLower d⟩

/-- **Nothing is lost between words.** With the open word before them, the words of some characters
    are the letters and digits of these. -/
theorem flatten_wordsFrom (word : List Char) (afterSmall : Bool) (cs : List Char) :
    (wordsFrom word afterSmall cs).flatten = word.reverse ++ letters cs := by
  fun_induction wordsFrom word afterSmall cs with
  | case1 => rfl
  | case2 word afterSmall hword => simp [letters]
  | case3 word afterSmall c cs hc hword ih =>
    rw [ih, letters_cons_of_neg cs (by simpa using hc), List.isEmpty_iff.mp hword]
  | case4 word afterSmall c cs hc hword ih =>
    rw [List.flatten_cons, ih, letters_cons_of_neg cs (by simpa using hc), List.reverse_nil,
      List.nil_append]
  | case5 word afterSmall c cs hc hopen ih =>
    rw [List.flatten_cons, ih, letters_cons_of_pos cs (by simpa using hc)]
    rfl
  | case6 word afterSmall c cs hc hopen ih =>
    rw [ih, letters_cons_of_pos cs (by simpa using hc), List.reverse_cons, List.append_assoc]
    rfl

/-- No word is empty: a word is closed only when it has been opened. -/
theorem ne_nil_of_mem_wordsFrom {word : List Char} {afterSmall : Bool} {cs w : List Char}
    (h : w ∈ wordsFrom word afterSmall cs) : w ≠ [] := by
  fun_induction wordsFrom word afterSmall cs with
  | case1 => cases h
  | case2 word afterSmall hword =>
    rw [List.mem_singleton.mp h]
    exact fun hnil => hword (List.reverse_eq_nil_iff.mp hnil)
  | case3 word afterSmall c cs hc hword ih => exact ih h
  | case4 word afterSmall c cs hc hword ih =>
    rcases List.mem_cons.mp h with rfl | h
    · simpa using hword
    · exact ih h
  | case5 word afterSmall c cs hc hopen ih =>
    rcases List.mem_cons.mp h with rfl | h
    · rw [Bool.and_eq_true] at hopen
      simpa using hopen.2
    · exact ih h
  | case6 word afterSmall c cs hc hopen ih => exact ih h

theorem flatten_words (name : String) : (words name).flatten = letters name.toList :=
  flatten_wordsFrom [] false name.toList

/-- The characters of words are letters and digits, in lower case. -/
theorem mem_word {name : String} {w : List Char} {c : Char} (hw : w ∈ words name) (hc : c ∈ w) :
    c.isAlphanum = true ∧ c.toLower = c :=
  mem_letters (flatten_words name ▸ List.mem_flatten.mpr ⟨w, hw, hc⟩)

/-! ## 3. Spellings -/

theorem map_toLower_capitalize (w : List Char) :
    (capitalize w).map Char.toLower = w.map Char.toLower := by
  cases w with
  | nil => rfl
  | cons c cs => simp [capitalize]

theorem map_toLower_uncapitalize (w : List Char) :
    (uncapitalize w).map Char.toLower = w.map Char.toLower := by
  cases w with
  | nil => rfl
  | cons c cs => simp [uncapitalize]

theorem map_toLower_letters (cs : List Char) : (letters cs).map Char.toLower = letters cs := by
  rw [letters, List.map_map]
  exact List.map_congr_left fun c _ => Char.toLower_toLower_eq_toLower c

theorem map_toLower_flatMap_capitalize (ws : List (List Char)) :
    (ws.flatMap capitalize).map Char.toLower = ws.flatten.map Char.toLower := by
  induction ws with
  | nil => rfl
  | cons w ws ih =>
    rw [List.flatMap_cons, List.map_append, map_toLower_capitalize, ih, ← List.map_append,
      List.flatten_cons]

theorem map_toLower_toPascalCase (name : String) :
    (toPascalCase name).toList.map Char.toLower = letters name.toList := by
  rw [toPascalCase, String.toList_ofList, map_toLower_flatMap_capitalize, flatten_words,
    map_toLower_letters]

theorem map_toLower_toCamelCase (name : String) :
    (toCamelCase name).toList.map Char.toLower = letters name.toList := by
  rw [toCamelCase, String.toList_ofList, map_toLower_uncapitalize, map_toLower_flatMap_capitalize,
    flatten_words, map_toLower_letters]

/-- Pieces with `_` between them. -/
theorem intercalate_cons (p : List Char) (ps : List (List Char)) :
    ['_'].intercalate (p :: ps) = p ++ (ps.map ('_' :: ·)).flatten := by
  induction ps generalizing p with
  | nil => simp
  | cons q ps ih =>
    rw [List.intercalate_cons_cons, ih, List.map_cons, List.flatten_cons, List.append_assoc]
    rfl

/-- Without its `_`, a spelling is its pieces. -/
theorem filter_intercalate {pieces : List (List Char)} (h : ∀ p ∈ pieces, '_' ∉ p) :
    (['_'].intercalate pieces).filter (· ≠ '_') = pieces.flatten := by
  have hkeep (p : List Char) (hp : p ∈ pieces) : p.filter (· ≠ '_') = p :=
    List.filter_eq_self.mpr fun c hc => decide_eq_true fun he => h p hp (he ▸ hc)
  cases pieces with
  | nil => rfl
  | cons p ps =>
    have hps : (ps.map ('_' :: ·)).map (List.filter (· ≠ '_')) = ps := by
      rw [List.map_map]
      conv_rhs => rw [← List.map_id ps]
      exact List.map_congr_left fun q hq => hkeep q (List.mem_cons_of_mem p hq)
    rw [intercalate_cons, List.filter_append, List.filter_flatten, hps,
      hkeep p List.mem_cons_self, List.flatten_cons]

/-- The pieces of the `UPPER_SNAKE_CASE` spelling. -/
def upperWords (name : String) : List (List Char) := (words name).map (List.map Char.toUpper)

theorem toList_toUpperSnakeCase (name : String) :
    (toUpperSnakeCase name).toList = ['_'].intercalate (upperWords name) := by
  rw [toUpperSnakeCase, String.toList_ofList]
  rfl

theorem isUpperSegment_of_mem_upperWords {name : String} {p : List Char}
    (h : p ∈ upperWords name) : isUpperSegment p = true := by
  obtain ⟨w, hw, rfl⟩ := List.mem_map.mp h
  have hne : w ≠ [] := ne_nil_of_mem_wordsFrom hw
  rw [isUpperSegment, Bool.and_eq_true]
  refine ⟨by simpa using hne, List.all_eq_true.mpr fun c hc => ?_⟩
  obtain ⟨d, hd, rfl⟩ := List.mem_map.mp hc
  rw [isUpperOrDigit_toUpper]
  exact (mem_word hw hd).1

theorem map_toLower_toUpperSnakeCase (name : String) :
    ((toUpperSnakeCase name).toList.filter (· ≠ '_')).map Char.toLower = letters name.toList := by
  have hback : (upperWords name).map (List.map Char.toLower) = words name := by
    rw [upperWords, List.map_map]
    conv_rhs => rw [← List.map_id (words name)]
    refine List.map_congr_left fun w hw => ?_
    show (w.map Char.toUpper).map Char.toLower = w
    rw [List.map_map]
    conv_rhs => rw [← List.map_id w]
    exact List.map_congr_left fun c hc =>
      (Char.toLower_toUpper_eq_toLower c).trans (mem_word hw hc).2
  rw [toList_toUpperSnakeCase,
    filter_intercalate fun p hp =>
      underscore_not_mem_of_isUpperSegment (isUpperSegment_of_mem_upperWords hp),
    List.map_flatten, hback, flatten_words]

/-! ## 4. Which spellings are in their case -/

/-- Among some characters there is an ASCII letter or digit, and the first one is a letter. -/
def StartsWithLetter (cs : List Char) : Prop :=
  (cs.filter Char.isAlphanum).head?.any Char.isAlpha = true

instance (cs : List Char) : Decidable (StartsWithLetter cs) :=
  inferInstanceAs (Decidable (_ = true))

theorem startsWithLetter_iff {cs : List Char} :
    StartsWithLetter cs ↔ ∃ c rest, letters cs = c :: rest ∧ c.isAlpha = true := by
  unfold StartsWithLetter letters
  cases cs.filter Char.isAlphanum with
  | nil => simp
  | cons c rest => simp

/-- The words of a name start as its letters and digits do. -/
theorem words_eq_nil_iff {name : String} : words name = [] ↔ letters name.toList = [] := by
  rw [← flatten_words]
  constructor
  · intro h
    rw [h]
    rfl
  · intro h
    rw [List.flatten_eq_nil_iff] at h
    exact List.eq_nil_iff_forall_not_mem.mpr fun w hw => ne_nil_of_mem_wordsFrom hw (h w hw)

theorem exists_words_cons {name : String} {c : Char} {rest : List Char}
    (h : letters name.toList = c :: rest) :
    ∃ cs ws, words name = (c :: cs) :: ws ∧ rest = cs ++ ws.flatten := by
  cases hwords : words name with
  | nil =>
    rw [words_eq_nil_iff.mp hwords] at h
    cases h
  | cons w ws =>
    have hne : w ≠ [] := ne_nil_of_mem_wordsFrom (hwords ▸ List.mem_cons_self : w ∈ words name)
    obtain ⟨d, cs, rfl⟩ := List.exists_cons_of_ne_nil hne
    have hflat := flatten_words name
    rw [hwords, h, List.flatten_cons, List.cons_append] at hflat
    obtain ⟨rfl, hrest⟩ := List.cons.inj hflat
    exact ⟨cs, ws, rfl, hrest.symm⟩

/-- A spelling of letters and digits has no other characters. -/
theorem all_isAlphanum {x cs : List Char} (h : x.map Char.toLower = letters cs) :
    x.all Char.isAlphanum = true := by
  refine List.all_eq_true.mpr fun c hc => ?_
  rw [← isAlphanum_toLower]
  exact (mem_letters (h ▸ List.mem_map_of_mem hc)).1

theorem isPascalCase_toPascalCase_iff {name : String} :
    isPascalCase (toPascalCase name) = true ↔ StartsWithLetter name.toList := by
  have hall := all_isAlphanum (map_toLower_toPascalCase name)
  rw [toPascalCase, String.toList_ofList] at hall
  rw [startsWithLetter_iff, isPascalCase, toPascalCase, String.toList_ofList]
  cases hletters : letters name.toList with
  | nil =>
    rw [words_eq_nil_iff.mpr hletters]
    simp
  | cons c rest =>
    obtain ⟨cs, ws, hwords, _⟩ := exists_words_cons hletters
    rw [hwords, List.flatMap_cons, capitalize, List.cons_append] at hall ⊢
    rw [List.all_cons, Bool.and_eq_true] at hall
    dsimp only
    rw [hall.2, Bool.and_true, Char.isUpper_toUpper_eq_isAlpha]
    simp

theorem isCamelCase_toCamelCase_iff {name : String} :
    isCamelCase (toCamelCase name) = true ↔ StartsWithLetter name.toList := by
  have hall := all_isAlphanum (map_toLower_toCamelCase name)
  rw [toCamelCase, String.toList_ofList] at hall
  rw [startsWithLetter_iff, isCamelCase, toCamelCase, String.toList_ofList]
  cases hletters : letters name.toList with
  | nil =>
    rw [words_eq_nil_iff.mpr hletters]
    simp [uncapitalize]
  | cons c rest =>
    obtain ⟨cs, ws, hwords, _⟩ := exists_words_cons hletters
    rw [hwords, List.flatMap_cons, capitalize, List.cons_append, uncapitalize] at hall ⊢
    rw [List.all_cons, Bool.and_eq_true] at hall
    dsimp only
    rw [hall.2, Bool.and_true, Char.toLower_toUpper_eq_toLower, Char.isLower_toLower_eq_isAlpha]
    simp

theorem isUpperSnakeCase_toUpperSnakeCase_iff {name : String} :
    isUpperSnakeCase (toUpperSnakeCase name) = true ↔ letters name.toList ≠ [] := by
  rw [isUpperSnakeCase, toList_toUpperSnakeCase, Ne, ← words_eq_nil_iff]
  have hsegment (p : List Char) (hp : p ∈ upperWords name) : isUpperSegment p = true :=
    isUpperSegment_of_mem_upperWords hp
  have hnone (p : List Char) (hp : p ∈ upperWords name) : '_' ∉ p :=
    underscore_not_mem_of_isUpperSegment (hsegment p hp)
  cases hwords : words name with
  | nil =>
    rw [upperWords, hwords]
    simp [Text.splitOn, isUpperSegment]
  | cons w ws =>
    have hpieces : upperWords name = w.map Char.toUpper :: ws.map (List.map Char.toUpper) := by
      rw [upperWords, hwords, List.map_cons]
    rw [hpieces] at hsegment hnone ⊢
    rw [intercalate_cons, Text.splitOn_append_flatten (hnone _ List.mem_cons_self) fun p hp =>
      hnone p (List.mem_cons_of_mem _ hp)]
    exact iff_of_true (List.all_eq_true.mpr hsegment) (List.cons_ne_nil w ws)

/-! ## 5. Names without digits -/

/-- Small letters made capital do not close the word that they go on with. -/
theorem wordsFrom_map_toUpper {w : List Char} (hw : ∀ c ∈ w, c.isLower = true)
    (word rest : List Char) :
    wordsFrom word false (w.map Char.toUpper ++ rest) = wordsFrom (w.reverse ++ word) false rest := by
  induction w generalizing word with
  | nil => rfl
  | cons c w ih =>
    have hc := hw c List.mem_cons_self
    have halpha : c.isAlpha = true := by rw [Char.isAlpha, hc, Bool.or_true]
    have halnum : c.toUpper.isAlphanum = true := by
      rw [isAlphanum_toUpper, Char.isAlphanum, halpha, Bool.true_or]
    have hback : c.toUpper.toLower = c := by
      rw [Char.toLower_toUpper_eq_toLower,
        Char.toLower_eq_of_not_isUpper (Char.not_isUpper_of_isLower hc)]
    have hflag : (c.toUpper.isLower || c.toUpper.isDigit) = false := by
      rw [Char.isLower_toUpper_eq_false, isDigit_toUpper, Bool.false_or]
      exact Bool.eq_false_of_not_eq_true fun h => not_isAlpha_of_isDigit h halpha
    rw [List.map_cons, List.cons_append, wordsFrom, halnum, hback, hflag]
    simp only [Bool.not_true, Bool.false_eq_true, if_false, Bool.and_false, Bool.false_and]
    rw [ih (fun d hd => hw d (List.mem_cons_of_mem c hd)), List.reverse_cons, List.append_assoc,
      List.singleton_append]

/-- The open word is the last one at the end of a name, -/
theorem wordsFrom_nil {word : List Char} (h : word ≠ []) (afterSmall : Bool) :
    wordsFrom word afterSmall [] = [word.reverse] := by
  cases word with
  | nil => exact absurd rfl h
  | cons c cs => rfl

/-- and is closed by `_`. -/
theorem wordsFrom_underscore {word : List Char} (h : word ≠ []) (afterSmall : Bool)
    (cs : List Char) :
    wordsFrom word afterSmall ('_' :: cs) = word.reverse :: wordsFrom [] false cs := by
  have hno : '_'.isAlphanum = false := by decide
  cases word with
  | nil => exact absurd rfl h
  | cons c word =>
    rw [wordsFrom, hno]
    rfl

/-- Words of small letters are found again, behind an open word, in their capital spelling. -/
theorem wordsFrom_flatten {w : List Char} {ws : List (List Char)} (hw : w ≠ [])
    (hws : ∀ v ∈ ws, v ≠ [] ∧ ∀ c ∈ v, c.isLower = true) :
    wordsFrom w.reverse false ((ws.map (List.map Char.toUpper)).map ('_' :: ·)).flatten =
      w :: ws := by
  have hopen : w.reverse ≠ [] := fun h => hw (List.reverse_eq_nil_iff.mp h)
  induction ws generalizing w with
  | nil => rw [List.map_nil, List.map_nil, List.flatten_nil, wordsFrom_nil hopen, List.reverse_reverse]
  | cons v ws ih =>
    obtain ⟨hv, hsmall⟩ := hws v List.mem_cons_self
    have hrest := ih hv (fun u hu => hws u (List.mem_cons_of_mem v hu))
      fun h => hv (List.reverse_eq_nil_iff.mp h)
    rw [List.map_cons, List.map_cons, List.flatten_cons, List.cons_append,
      wordsFrom_underscore hopen, wordsFrom_map_toUpper hsmall, List.append_nil, hrest,
      List.reverse_reverse]

/-- **The words of a name without digits** are those of its `UPPER_SNAKE_CASE` spelling. -/
theorem words_toUpperSnakeCase {name : String} (h : ∀ c ∈ name.toList, c.isDigit = false) :
    words (toUpperSnakeCase name) = words name := by
  have hwords : ∀ w ∈ words name, w ≠ [] ∧ ∀ c ∈ w, c.isLower = true := by
    refine fun w hw => ⟨ne_nil_of_mem_wordsFrom hw, fun c hc => ?_⟩
    have hmem : c ∈ letters name.toList := by
      rw [← flatten_words]
      exact List.mem_flatten.mpr ⟨w, hw, hc⟩
    obtain ⟨d, hd, rfl⟩ := List.mem_map.mp hmem
    obtain ⟨hname, halnum⟩ := List.mem_filter.mp hd
    rwa [Char.isLower_toLower_eq_isAlpha, ← Bool.or_false d.isAlpha, ← h d hname]
  rw [words, toList_toUpperSnakeCase, upperWords]
  cases hname : words name with
  | nil => rfl
  | cons w ws =>
    rw [hname] at hwords
    obtain ⟨hw, hsmall⟩ := hwords w List.mem_cons_self
    rw [List.map_cons, intercalate_cons, wordsFrom_map_toUpper hsmall, List.append_nil,
      wordsFrom_flatten hw fun v hv => hwords v (List.mem_cons_of_mem w hv)]

/-- A digit is followed by capitals in the spelling, and the first of them closes a word. -/
example : toUpperSnakeCase "a1b" = "A1B" ∧ toUpperSnakeCase "A1B" = "A1_B" := by decide +kernel

theorem toUpperSnakeCase_toUpperSnakeCase {name : String}
    (h : ∀ c ∈ name.toList, c.isDigit = false) :
    toUpperSnakeCase (toUpperSnakeCase name) = toUpperSnakeCase name := by
  rw [toUpperSnakeCase, words_toUpperSnakeCase h, toUpperSnakeCase]

theorem toPascalCase_toUpperSnakeCase {name : String} (h : ∀ c ∈ name.toList, c.isDigit = false) :
    toPascalCase (toUpperSnakeCase name) = toPascalCase name := by
  rw [toPascalCase, words_toUpperSnakeCase h, toPascalCase]

end ClassScript.Naming
