/-
  File:      ClassScript/Proofs/Script/TextLiteral.lean
  Subject:   The text that a literal in quotes denotes.

  A literal stands between two equal quotes. Each of its characters stands for
  itself or belongs to an escape, and what it denotes is a list of UTF-16 code
  units, as a name in a script is one. A line break that is not escaped, the
  quote itself, and an escape of no form make it ill-formed. Digits behind a
  backslash are no escape in strict mode, but for a zero alone.

  A name that is moved from one pair of quotes into another denotes the same,
  or nothing at all: the latter exactly if the new quote is among the
  characters that stand for themselves. If quotes at its ends are lost on the
  way, it denotes less.

  * `escape?`, `unitsFrom?`, `textLiteral?`: the meaning of a literal;
  * `plainChars`: the characters that stand for themselves;
  * `unitsFrom?_between_iff`: other quotes;
  * `escape?_append`, `eq_of_stripped`: quotes lost at the ends;
  * `textLiteral?_requoted_iff`: both at once.
-/
import ClassScript.Emission.Enum
import ClassScript.Proofs.Text.Strip

namespace ClassScript.Script

open Emission (hexDigit? readNatural? isQuote)
open Text (stripBoth)

/-! ## 1. Meaning -/

/-- The UTF-16 code units of a code point. -/
def unitsOf (n : Nat) : List Nat :=
  if n < 0x10000 then [n] else [0xD800 + (n - 0x10000) / 0x400, 0xDC00 + (n - 0x10000) % 0x400]

/-- The characters that end a line in a script. -/
def isLineEnd (c : Char) : Bool := c = '\n' || c = '\r' || c = '\u2028' || c = '\u2029'

/-- What a single character behind a backslash stands for. -/
def escaped (c : Char) : Nat :=
  if c = 'b' then 8
  else if c = 't' then 9
  else if c = 'n' then 10
  else if c = 'v' then 11
  else if c = 'f' then 12
  else if c = 'r' then 13
  else c.toNat

/-- The number that the first `count` characters denote, if they are hexadecimal digits. -/
def hexDigits? (count : Nat) (cs : List Char) : Option Nat :=
  if (cs.take count).length = count then readNatural? hexDigit? 16 (cs.take count) else none

/-- A code point behind `\u`, of four digits or in braces, and the characters it takes. -/
def codePoint? : List Char → Option (Nat × Nat)
  | [] => none
  | c :: cs =>
    if c = '\x7b' then
      let digits := cs.takeWhile (· ≠ '\x7d')
      if digits.length < cs.length then
        ((readNatural? hexDigit? 16 digits).filter (· ≤ 0x10FFFF)).map (·, digits.length + 2)
      else none
    else (hexDigits? 4 (c :: cs)).map (·, 4)

/-- What stands behind a backslash: the code units of the escape, and the characters it takes. -/
def escape? : List Char → Option (List Nat × Nat)
  | [] => none
  | c :: cs =>
    if c = 'x' then (hexDigits? 2 cs).map ([·], 3)
    else if c = 'u' then (codePoint? cs).map fun p => (unitsOf p.1, p.2 + 1)
    else if c = '\r' ∧ cs.head? = some '\n' then some ([], 2)
    else if isLineEnd c then some ([], 1)
    else if c = '0' ∧ cs.head?.any Char.isDigit = false then some ([0], 1)
    else if c.isDigit then none
    else some (unitsOf (escaped c), 1)

/-- The code units that the content of a literal in the quotes `quote` denotes, behind the first
    `skip` characters, which belong to an escape. -/
def unitsFrom? (quote : Char) : Nat → List Char → Option (List Nat)
  | 0, [] => some []
  | _ + 1, [] => none
  | skip + 1, _ :: cs => unitsFrom? quote skip cs
  | 0, c :: cs =>
    if c = '\\' then (escape? cs).bind fun e => (unitsFrom? quote e.2 cs).map (e.1 ++ ·)
    else if c = quote ∨ c = '\n' ∨ c = '\r' then none
    else (unitsFrom? quote 0 cs).map (unitsOf c.toNat ++ ·)

/-- The code units that a literal denotes, its quotes included. -/
def textLiteral? : List Char → Option (List Nat)
  | [] => none
  | quote :: cs =>
    if isQuote quote ∧ cs.getLast? = some quote then unitsFrom? quote 0 cs.dropLast else none

/-- The characters of a content that stand for themselves, behind the first `skip` ones. -/
def plainChars : Nat → List Char → List Char
  | _, [] => []
  | skip + 1, _ :: cs => plainChars skip cs
  | 0, c :: cs =>
    if c = '\\' then plainChars ((escape? cs).elim 0 (·.2)) cs else c :: plainChars 0 cs

theorem textLiteral?_quoted {quote : Char} (hq : isQuote quote = true) (content : List Char) :
    textLiteral? (quote :: (content ++ [quote])) = unitsFrom? quote 0 content := by
  rw [textLiteral?, if_pos ⟨hq, List.getLast?_concat⟩, List.dropLast_concat]

/-- A literal is a content between two equal quotes. -/
theorem exists_of_textLiteral? {cs : List Char} {units : List Nat}
    (h : textLiteral? cs = some units) :
    ∃ quote content, isQuote quote = true ∧ cs = quote :: (content ++ [quote]) ∧
      unitsFrom? quote 0 content = some units := by
  cases cs with
  | nil => cases h
  | cons quote cs =>
    rw [textLiteral?] at h
    split at h
    · rename_i hquote
      obtain ⟨content, rfl⟩ := List.getLast?_eq_some_iff.mp hquote.2
      rw [List.dropLast_concat] at h
      exact ⟨quote, content, hquote.1, rfl, h⟩
    · cases h

/-! ## 2. Other quotes -/

/-- **A content between other quotes** denotes the same, unless a character that stands for itself
    is such a quote. -/
theorem unitsFrom?_between_iff {quote other : Char} {skip : Nat} {cs : List Char}
    {units : List Nat} (h : unitsFrom? quote skip cs = some units) :
    unitsFrom? other skip cs = some units ↔ other ∉ plainChars skip cs := by
  induction cs generalizing skip units with
  | nil =>
    cases skip with
    | zero => rw [unitsFrom?] at h ⊢; simp [plainChars, h]
    | succ skip => cases h
  | cons c cs ih =>
    cases skip with
    | succ skip =>
      rw [unitsFrom?] at h
      rw [unitsFrom?, plainChars]
      exact ih h
    | zero =>
      rw [unitsFrom?] at h
      rw [unitsFrom?, plainChars]
      by_cases hslash : c = '\\'
      · rw [if_pos hslash] at h
        rw [if_pos hslash, if_pos hslash]
        obtain ⟨e, he, hrest⟩ := Option.bind_eq_some_iff.mp h
        obtain ⟨more, hmore, rfl⟩ := Option.map_eq_some_iff.mp hrest
        rw [he, Option.bind_some, Option.map_eq_some_iff, Option.elim_some, ← ih hmore]
        simp
      · rw [if_neg hslash] at h
        rw [if_neg hslash, if_neg hslash]
        by_cases hends : c = quote ∨ c = '\n' ∨ c = '\r'
        · rw [if_pos hends] at h
          cases h
        · rw [if_neg hends] at h
          obtain ⟨more, hmore, rfl⟩ := Option.map_eq_some_iff.mp h
          have hbreak : ¬(c = '\n' ∨ c = '\r') := fun hb => hends (.inr hb)
          by_cases hother : c = other
          · rw [if_pos (.inl hother), hother]
            simp
          · rw [if_neg (fun hb => hb.elim hother hbreak), Option.map_eq_some_iff, List.mem_cons,
              not_or, ← ih hmore]
            simp [Ne.symm hother]

/-! ## 3. Quotes lost at the ends -/

theorem length_unitsOf_pos (n : Nat) : 0 < (unitsOf n).length := by
  unfold unitsOf
  split <;> exact Nat.zero_lt_succ _

variable {quote other : Char} {skip : Nat} {cs marks content : List Char} {units more : List Nat}

/-- A quote ends no escape early, and does not go on with one. -/
theorem head?_append_of_marks (cs : List Char) (hmarks : ∀ c ∈ marks, isQuote c = true) :
    ((cs ++ marks).head? = some '\n' ↔ cs.head? = some '\n') ∧
      (cs ++ marks).head?.any Char.isDigit = cs.head?.any Char.isDigit := by
  cases cs with
  | cons c cs => exact ⟨Iff.rfl, rfl⟩
  | nil =>
    cases marks with
    | nil => exact ⟨Iff.rfl, rfl⟩
    | cons c marks =>
      have hquote : c = '"' ∨ c = '\'' := by simpa [isQuote] using hmarks c List.mem_cons_self
      rcases hquote with rfl | rfl <;> exact ⟨by simp, rfl⟩

theorem hexDigits?_append {count n : Nat} (h : hexDigits? count cs = some n) :
    hexDigits? count (cs ++ marks) = some n := by
  unfold hexDigits? at h ⊢
  split at h
  · rename_i hlength
    rw [List.length_take] at hlength
    rwa [List.take_append_of_le_length (by omega), if_pos (by rw [List.length_take]; omega)]
  · cases h

theorem codePoint?_append {p : Nat × Nat} (h : codePoint? cs = some p) :
    codePoint? (cs ++ marks) = some p := by
  cases cs with
  | nil => cases h
  | cons c cs =>
    rw [List.cons_append, codePoint?]
    rw [codePoint?] at h
    by_cases hbrace : c = '\x7b'
    · rw [if_pos hbrace] at h ⊢
      dsimp only at h ⊢
      split at h
      · rename_i hlength
        rw [List.takeWhile_append, if_neg (Nat.ne_of_lt hlength), if_pos ?_]
        · exact h
        · rw [List.length_append]
          omega
      · cases h
    · rw [if_neg hbrace] at h ⊢
      obtain ⟨n, hn, hp⟩ := Option.map_eq_some_iff.mp h
      rw [← List.cons_append, hexDigits?_append hn]
      exact congrArg some hp

/-- Quotes behind an escape do not belong to it. -/
theorem escape?_append {e : List Nat × Nat} (hmarks : ∀ c ∈ marks, isQuote c = true)
    (h : escape? cs = some e) : escape? (cs ++ marks) = some e := by
  cases cs with
  | nil => cases h
  | cons c cs =>
    obtain ⟨hbreak, hdigit⟩ := head?_append_of_marks cs hmarks
    rw [List.cons_append, escape?, hdigit]
    simp only [hbreak]
    rw [escape?] at h
    by_cases hx : c = 'x'
    · rw [if_pos hx] at h ⊢
      obtain ⟨n, hn, he⟩ := Option.map_eq_some_iff.mp h
      rw [hexDigits?_append hn]
      exact congrArg some he
    · rw [if_neg hx] at h ⊢
      by_cases hu : c = 'u'
      · rw [if_pos hu] at h ⊢
        obtain ⟨p, hp, he⟩ := Option.map_eq_some_iff.mp h
        rw [codePoint?_append hp]
        exact congrArg some he
      · rwa [if_neg hu] at h ⊢

/-- Quotes at the start of a content stand for themselves. -/
theorem exists_of_unitsFrom?_marks (hmarks : ∀ c ∈ marks, isQuote c = true)
    (h : unitsFrom? quote 0 (marks ++ cs) = some units) :
    ∃ rest, unitsFrom? quote 0 cs = some rest ∧ marks.length + rest.length ≤ units.length := by
  induction marks generalizing units with
  | nil => exact ⟨units, h, by simp⟩
  | cons c marks ih =>
    have hquote : c = '"' ∨ c = '\'' := by simpa [isQuote] using hmarks c List.mem_cons_self
    have hslash : c ≠ '\\' := by rcases hquote with rfl | rfl <;> decide
    rw [List.cons_append, unitsFrom?, if_neg hslash] at h
    split at h
    · cases h
    · obtain ⟨behind, hbehind, rfl⟩ := Option.map_eq_some_iff.mp h
      obtain ⟨rest, hrest, hle⟩ := ih (fun d hd => hmarks d (List.mem_cons_of_mem c hd)) hbehind
      have hpos := length_unitsOf_pos c.toNat
      refine ⟨rest, hrest, ?_⟩
      rw [List.length_append, List.length_cons]
      omega

/-- Quotes at the end of a content that is complete without them add to what it denotes. -/
theorem length_le_of_unitsFrom?_append (hmarks : ∀ c ∈ marks, isQuote c = true)
    (h : unitsFrom? other skip cs = some units)
    (hmore : unitsFrom? quote skip (cs ++ marks) = some more) :
    units.length + marks.length ≤ more.length := by
  induction cs generalizing skip units more with
  | nil =>
    cases skip with
    | succ skip => cases h
    | zero =>
      obtain rfl : [] = units := Option.some.inj h
      rw [List.nil_append, ← List.append_nil marks] at hmore
      obtain ⟨rest, hrest, hle⟩ := exists_of_unitsFrom?_marks hmarks hmore
      rw [List.length_nil]
      omega
  | cons c cs ih =>
    cases skip with
    | succ skip => exact ih h hmore
    | zero =>
      rw [unitsFrom?] at h
      rw [List.cons_append, unitsFrom?] at hmore
      by_cases hslash : c = '\\'
      · rw [if_pos hslash] at h hmore
        obtain ⟨e, he, hrest⟩ := Option.bind_eq_some_iff.mp h
        rw [escape?_append hmarks he, Option.bind_some] at hmore
        obtain ⟨us, hus, rfl⟩ := Option.map_eq_some_iff.mp hrest
        obtain ⟨vs, hvs, rfl⟩ := Option.map_eq_some_iff.mp hmore
        have hle := ih hus hvs
        rw [List.length_append, List.length_append]
        omega
      · rw [if_neg hslash] at h hmore
        split at h
        · cases h
        · split at hmore
          · cases hmore
          · obtain ⟨us, hus, rfl⟩ := Option.map_eq_some_iff.mp h
            obtain ⟨vs, hvs, rfl⟩ := Option.map_eq_some_iff.mp hmore
            have hle := ih hus hvs
            rw [List.length_append, List.length_append]
            omega

/-- **A content that denotes the same without the quotes at its ends** has none there. -/
theorem eq_of_stripped (h : unitsFrom? quote 0 content = some units)
    (hstripped : unitsFrom? other 0 (stripBoth isQuote content) = some units) :
    stripBoth isQuote content = content := by
  obtain ⟨a, b, hcontent, ha, hb⟩ := Text.exists_of_stripBoth isQuote content
  rw [hcontent, List.append_assoc] at h
  obtain ⟨rest, hrest, hfront⟩ := exists_of_unitsFrom?_marks ha h
  have hback := length_le_of_unitsFrom?_append hb hstripped hrest
  obtain rfl : a = [] := List.length_eq_zero_iff.mp (by omega)
  obtain rfl : b = [] := List.length_eq_zero_iff.mp (by omega)
  rw [List.nil_append, List.append_nil] at hcontent
  exact hcontent.symm

/-- Nothing is stripped exactly when no quote stands at an end. -/
theorem stripBoth_isQuote_eq_self_iff :
    stripBoth isQuote content = content ↔
      content.head?.any isQuote = false ∧ content.getLast?.any isQuote = false := by
  simp only [Option.any_eq_false]
  refine ⟨fun h => ⟨fun c hc => ?_, fun c hc => ?_⟩, fun h =>
    Text.stripBoth_of_ends (fun c hc => h.1 c hc) fun c hc => h.2 c hc⟩
  · obtain ⟨rest, rfl⟩ := List.head?_eq_some_iff.mp hc
    refine Bool.eq_false_iff.mpr fun hquote => ?_
    have hle := Emission.length_stripBoth_le isQuote rest
    rw [Text.stripBoth_cons_of_pos hquote] at h
    rw [h, List.length_cons] at hle
    omega
  · obtain ⟨rest, rfl⟩ := List.getLast?_eq_some_iff.mp hc
    refine Bool.eq_false_iff.mpr fun hquote => ?_
    have hle := Emission.length_stripBoth_le isQuote rest
    rw [Text.stripBoth_concat_of_pos hquote] at h
    rw [h, List.length_append, List.length_singleton] at hle
    omega

/-! ## 4. Double quotes in the place of a literal's own -/

/-- The content of a literal may stand between double quotes: it has no quote at its ends, and no
    double quote in it stands for itself. -/
def MayRequote (literal : List Char) : Prop :=
  literal.tail.dropLast.head?.any isQuote = false ∧
    literal.tail.dropLast.getLast?.any isQuote = false ∧
    '"' ∉ plainChars 0 literal.tail.dropLast

instance (literal : List Char) : Decidable (MayRequote literal) :=
  inferInstanceAs (Decidable (_ ∧ _ ∧ _))

/-- **A literal that loses its quotes and gets double ones** denotes the same exactly if its
    content may stand between them. -/
theorem textLiteral?_requoted_iff {literal : List Char}
    (h : textLiteral? literal = some units) :
    textLiteral? ('"' :: (stripBoth isQuote literal ++ ['"'])) = some units ↔
      MayRequote literal := by
  obtain ⟨quote, content, hquote, rfl, hcontent⟩ := exists_of_textLiteral? h
  have htail : (quote :: (content ++ [quote])).tail.dropLast = content := List.dropLast_concat
  rw [textLiteral?_quoted rfl, Text.stripBoth_cons_of_pos hquote,
    Text.stripBoth_concat_of_pos hquote, MayRequote, htail, ← and_assoc,
    ← stripBoth_isQuote_eq_self_iff]
  constructor
  · intro hkey
    have hsame := eq_of_stripped hcontent hkey
    rw [hsame] at hkey
    exact ⟨hsame, (unitsFrom?_between_iff hcontent).mp hkey⟩
  · rintro ⟨hsame, hplain⟩
    rw [hsame]
    exact (unitsFrom?_between_iff hcontent).mpr hplain

end ClassScript.Script
