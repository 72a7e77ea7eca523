/-
  File:      ClassScript/Proofs/Script/IntegerLiteral.lean
  Subject:   The integer that a literal denotes, behind minus signs.

  In a script an integer is written in the base ten, or in the base 16, 8 or 2
  behind a mark for it. A `_` may stand between two digits. A decimal one does
  not start with a zero, in strict mode. Between minus signs there may be
  blanks and comments, and two of them do not touch.

  An enum counts on from what its own reader finds in a literal, which knows
  two bases, takes `_` for nothing, and knows other blanks and no comments.
  Where it finds an integer in such a literal, it is the right one. The
  induction is over the minus signs: the reader goes on with what is left of
  the literal without `_`, and perhaps with the blanks before it. What an
  enum has counted is written in decimal, and that is a literal too.

  * `digits?`, `magnitude?`: literals without a sign;
  * `behindGap`, `integerLiteral?`: literals behind minus signs;
  * `joined`, `eq_of_readMagnitude?`: what is read off a literal without `_`;
  * `readLiteral?_joined`: what the reader has before it, behind a sign;
  * `eq_of_readLiteral?`: it finds no other integer;
  * `integerLiteral?_toString`: the decimal text of an integer.
-/
import ClassScript.Emission.Integer
import ClassScript.Proofs.Script.TextLiteral
import ClassScript.Proofs.Text.Strip

namespace ClassScript.Script

open Emission (hexDigit? decimalDigit? readDigits? readNatural? readRadix? readMagnitude?
  readLiteral? tidy checked)
open Text (isBlank stripBoth)

/-! ## 1. Literals without a sign -/

section Digits

variable (digit? : Char → Option Nat) (base : Nat)

/-- The number that digits denote behind others that denote `n`, with single `_` between them. A
    digit comes next if there is none before, or a `_`. -/
def digitsFrom? (isNext : Bool) (n : Nat) : List Char → Option Nat
  | [] => if isNext then none else some n
  | c :: cs =>
    if c = '_' ∧ isNext = false then digitsFrom? true n cs
    else (digit? c).bind fun d => digitsFrom? false (n * base + d) cs

/-- The number that digits denote, with single `_` between them. -/
def digits? (cs : List Char) : Option Nat := digitsFrom? digit? base true 0 cs

end Digits

/-- The value of a digit in a base up to ten. -/
def digitBelow? (base : Nat) (c : Char) : Option Nat := (decimalDigit? c).filter (· < base)

/-- The number that a literal without a sign denotes, behind a zero. -/
def behindZero? : List Char → Option Nat
  | [] => some 0
  | mark :: cs =>
    if mark = 'x' ∨ mark = 'X' then digits? hexDigit? 16 cs
    else if mark = 'o' ∨ mark = 'O' then digits? (digitBelow? 8) 8 cs
    else if mark = 'b' ∨ mark = 'B' then digits? (digitBelow? 2) 2 cs
    else none

/-- The number that a literal without a sign denotes. -/
def magnitude? : List Char → Option Nat
  | [] => none
  | c :: cs => if c = '0' then behindZero? cs else digits? decimalDigit? 10 (c :: cs)

/-! ## 2. Literals behind minus signs -/

/-- A character that may stand between two signs. -/
def isSpace (c : Char) : Bool := (isBlank c && c != '\u0085') || c == '\uFEFF'

/-- Where a character of a text stands. -/
inductive Place where
  | code
  | lineComment
  | comment
  /-- On the second character of the mark that opens a comment. -/
  | opening
  /-- On the second character of the mark that closes a comment. -/
  | closing

/-- A text from its first character on that is no blank and in no comment. -/
def behindGap : Place → List Char → List Char
  | _, [] => []
  | .opening, _ :: cs => behindGap .comment cs
  | .closing, _ :: cs => behindGap .code cs
  | .comment, c :: cs =>
    if c = '*' ∧ cs.head? = some '/' then behindGap .closing cs else behindGap .comment cs
  | .lineComment, c :: cs =>
    if isLineEnd c then behindGap .code cs else behindGap .lineComment cs
  | .code, c :: cs =>
    if c = '/' ∧ cs.head? = some '*' then behindGap .opening cs
    else if c = '/' ∧ cs.head? = some '/' then behindGap .lineComment cs
    else if isSpace c then behindGap .code cs
    else c :: cs

theorem behindGap_suffix (place : Place) (cs : List Char) : behindGap place cs <:+ cs := by
  induction cs generalizing place with
  | nil => cases place <;> exact List.suffix_rfl
  | cons c cs ih =>
    have hskip (place : Place) : behindGap place cs <:+ c :: cs :=
      (ih place).trans (List.suffix_cons c cs)
    cases place <;> rw [behindGap]
    case code =>
      split
      · exact hskip _
      · split
        · exact hskip _
        · split
          · exact hskip _
          · exact List.suffix_rfl
    case lineComment | comment => split <;> exact hskip _
    case opening | closing => exact hskip _

/-- The integer that a literal denotes, behind minus signs or none. -/
def integerLiteral? (cs : List Char) : Option Int :=
  match cs with
  | [] => none
  | c :: cs =>
    if c = '-' then
      if cs.head? = some '-' then none
      else (integerLiteral? (behindGap .code cs)).map (-·)
    else (magnitude? (c :: cs)).map Int.ofNat
termination_by cs.length
decreasing_by
  have := (behindGap_suffix .code cs).length_le
  simp only [List.length_cons]
  omega

/-! ## 3. Digits -/

/-- A character that is kept at the end of a literal: no blank, and no `_`. -/
def IsKept (c : Char) : Prop := isBlank c = false ∧ c ≠ '_'

/-- The characters that a table of digits knows are neither blanks nor `_`. -/
def IsTable (digit? : Char → Option Nat) : Prop := ∀ c d, digit? c = some d → IsKept c

theorem isTable_hexDigit? : IsTable hexDigit? := by
  intro c d h
  have hrange : (48 ≤ c.toNat ∧ c.toNat ≤ 57) ∨ (97 ≤ c.toNat ∧ c.toNat ≤ 102) ∨
      (65 ≤ c.toNat ∧ c.toNat ≤ 70) := by
    unfold hexDigit? at h
    split at h
    · exact .inl ‹_›
    · split at h
      · exact .inr (.inl ‹_›)
      · split at h
        · exact .inr (.inr ‹_›)
        · cases h
  constructor
  · simp [isBlank, Text.blankRanges]
    omega
  · rintro rfl
    simp at hrange

theorem hexDigit?_of_decimalDigit? {c : Char} {d : Nat} (h : decimalDigit? c = some d) :
    hexDigit? c = some d := by
  unfold decimalDigit? at h
  unfold hexDigit?
  split at h
  · rw [if_pos ‹_›]
    exact h
  · cases h

theorem isTable_decimalDigit? : IsTable decimalDigit? := fun c d h =>
  isTable_hexDigit? c d (hexDigit?_of_decimalDigit? h)

theorem isTable_digitBelow? (base : Nat) : IsTable (digitBelow? base) := fun c d h =>
  isTable_decimalDigit? c d (Option.filter_eq_some_iff.mp h).1

/-- A text without `_`. -/
def joined (cs : List Char) : List Char := cs.filter (· ≠ '_')

theorem joined_append (cs ds : List Char) : joined (cs ++ ds) = joined cs ++ joined ds :=
  List.filter_append cs ds

theorem joined_cons {c : Char} (cs : List Char) (h : c ≠ '_') : joined (c :: cs) = c :: joined cs :=
  List.filter_cons_of_pos (decide_eq_true h)

variable {digit? : Char → Option Nat} {base n k : Nat} {isNext : Bool} {cs ds : List Char}

/-- **Digits with `_` between them** denote what they do without. -/
theorem readDigits?_of_digitsFrom? (htable : IsTable digit?)
    (h : digitsFrom? digit? base isNext n cs = some k) :
    readDigits? digit? base n (joined cs) = some k ∧ (isNext = true → joined cs ≠ []) := by
  induction cs generalizing isNext n with
  | nil =>
    rw [digitsFrom?] at h
    cases isNext with
    | true => cases h
    | false => exact ⟨h, nofun⟩
  | cons c cs ih =>
    rw [digitsFrom?] at h
    by_cases hmark : c = '_' ∧ isNext = false
    · rw [if_pos hmark] at h
      obtain ⟨rfl, rfl⟩ := hmark
      exact ⟨(ih h).1, nofun⟩
    · rw [if_neg hmark] at h
      obtain ⟨d, hd, hrest⟩ := Option.bind_eq_some_iff.mp h
      rw [joined_cons cs (htable c d hd).2, readDigits?, hd]
      exact ⟨(ih hrest).1, fun _ => List.cons_ne_nil c _⟩

/-- The first one of digits, if one has to come next, and the last one are kept. -/
theorem isKept_of_digitsFrom? (htable : IsTable digit?)
    (h : digitsFrom? digit? base isNext n cs = some k) :
    (isNext = true → ∀ c ∈ cs.head?, IsKept c) ∧ ∀ c ∈ cs.getLast?, IsKept c := by
  induction cs generalizing isNext n with
  | nil => exact ⟨fun _ => nofun, nofun⟩
  | cons c cs ih =>
    rw [digitsFrom?] at h
    by_cases hmark : c = '_' ∧ isNext = false
    · rw [if_pos hmark] at h
      refine ⟨fun hnext => absurd hmark.2 (by rw [hnext]; exact nofun), fun x hx => ?_⟩
      cases cs with
      | nil => cases h
      | cons c' cs =>
        rw [List.getLast?_cons_cons] at hx
        exact (ih h).2 x hx
    · rw [if_neg hmark] at h
      obtain ⟨d, hd, hrest⟩ := Option.bind_eq_some_iff.mp h
      refine ⟨fun _ x hx => ?_, fun x hx => ?_⟩
      · obtain rfl : c = x := Option.some.inj hx
        exact htable c d hd
      · cases cs with
        | nil =>
          obtain rfl : c = x := Option.some.inj hx
          exact htable c d hd
        | cons c' cs =>
          rw [List.getLast?_cons_cons] at hx
          exact (ih hrest).2 x hx

theorem cons_of_digits? (h : digits? digit? base cs = some k) :
    ∃ c rest d, cs = c :: rest ∧ digit? c = some d := by
  cases cs with
  | nil => cases h
  | cons c cs =>
    rw [digits?, digitsFrom?, if_neg (fun hmark => nomatch hmark.2)] at h
    obtain ⟨d, hd, _⟩ := Option.bind_eq_some_iff.mp h
    exact ⟨c, cs, d, rfl, hd⟩

/-- What is read off digits in a base is what they denote. -/
theorem eq_of_readRadix? {m : Int} (htable : IsTable digit?)
    (hsign : digit? '-' = none ∧ digit? '+' = none) (h : digits? digit? base cs = some k)
    (hm : readRadix? digit? base (joined cs) = some m) : m = k := by
  obtain ⟨hread, hne⟩ := readDigits?_of_digitsFrom? htable h
  obtain ⟨c, rest, d, rfl, hd⟩ := cons_of_digits? h
  have hnatural : readNatural? digit? base (joined (c :: rest)) = some k := by
    rw [readNatural?, if_neg ?_]
    · exact hread
    · rw [List.isEmpty_iff]
      exact hne rfl
  rw [joined_cons rest (htable c d hd).2] at hm hnatural
  unfold readRadix? at hm
  split at hm
  · rename_i hcons
    rw [(List.cons.inj hcons).1, hsign.1] at hd
    cases hd
  · rename_i hcons
    rw [(List.cons.inj hcons).1, hsign.2] at hd
    cases hd
  · rw [hnatural, Option.bind_some, checked] at hm
    split at hm
    · exact (Option.some.inj hm).symm
    · cases hm

/-! ## 4. Literals without a sign, as they are read -/

/-- A literal without a sign starts with a digit, and its ends are kept. -/
theorem ends_of_magnitude? (h : magnitude? cs = some k) :
    cs ≠ [] ∧ (∀ c ∈ cs.head?, IsKept c ∧ c ≠ '-') ∧ ∀ c ∈ cs.getLast?, IsKept c := by
  have hlast (c mark : Char) {digit? : Char → Option Nat} {base : Nat} {cs : List Char}
      (htable : IsTable digit?) (h : digits? digit? base cs = some k) :
      ∀ x ∈ (c :: mark :: cs).getLast?, IsKept x := by
    obtain ⟨c', rest, _, rfl, _⟩ := cons_of_digits? h
    rw [List.getLast?_cons_cons, List.getLast?_cons_cons]
    exact (isKept_of_digitsFrom? htable h).2
  cases cs with
  | nil => cases h
  | cons c cs =>
    refine ⟨List.cons_ne_nil c cs, ?_⟩
    rw [magnitude?] at h
    by_cases hzero : c = '0'
    · subst hzero
      rw [if_pos rfl] at h
      have hhead : ∀ x ∈ ('0' :: cs).head?, IsKept x ∧ x ≠ '-' := by
        intro x hx
        obtain rfl : '0' = x := Option.some.inj hx
        exact ⟨⟨by decide, by decide⟩, by decide⟩
      refine ⟨hhead, ?_⟩
      cases cs with
      | nil => exact fun x hx => (hhead x hx).1
      | cons mark cs =>
        rw [behindZero?] at h
        split at h
        · exact hlast _ _ isTable_hexDigit? h
        · split at h
          · exact hlast _ _ (isTable_digitBelow? 8) h
          · split at h
            · exact hlast _ _ (isTable_digitBelow? 2) h
            · cases h
    · rw [if_neg hzero] at h
      obtain ⟨hhead, hlast⟩ := isKept_of_digitsFrom? isTable_decimalDigit? h
      refine ⟨fun x hx => ⟨hhead rfl x hx, ?_⟩, hlast⟩
      obtain ⟨c', rest, d, hcs, hd⟩ := cons_of_digits? h
      rw [hcs] at hx
      obtain rfl : c' = x := Option.some.inj hx
      rintro rfl
      cases hd

/-- Behind a zero, the reader knows the mark of one base. -/
theorem readMagnitude?_zero_cons {mark : Char} (cs : List Char) :
    readMagnitude? ('0' :: mark :: cs) =
      if mark = 'x' ∨ mark = 'X' then readRadix? hexDigit? 16 cs
      else readRadix? decimalDigit? 10 ('0' :: mark :: cs) := by
  by_cases hx : mark = 'x'
  · subst hx
    rfl
  · by_cases hX : mark = 'X'
    · subst hX
      rfl
    · rw [if_neg (fun h => h.elim hx hX), readMagnitude?]
      · rintro rest hrest
        exact hx (List.cons.inj (List.cons.inj hrest).2).1
      · rintro rest hrest
        exact hX (List.cons.inj (List.cons.inj hrest).2).1

theorem readMagnitude?_cons {c : Char} (cs : List Char) (h : c ≠ '0') :
    readMagnitude? (c :: cs) = readRadix? decimalDigit? 10 (c :: cs) := by
  rw [readMagnitude?]
  · exact fun rest hrest => h (List.cons.inj hrest).1
  · exact fun rest hrest => h (List.cons.inj hrest).1

/-- The reader takes no decimal number behind a zero and another mark. -/
theorem readRadix?_zero_cons {mark : Char} (cs : List Char) (h : decimalDigit? mark = none) :
    readRadix? decimalDigit? 10 ('0' :: mark :: cs) = none := by
  have hzero : decimalDigit? '0' = some 0 := rfl
  have hnatural : readNatural? decimalDigit? 10 ('0' :: mark :: cs) = none := by
    rw [readNatural?, if_neg (by simp), readDigits?, hzero]
    dsimp only
    rw [readDigits?, h]
  show (readNatural? decimalDigit? 10 ('0' :: mark :: cs)).bind _ = none
  rw [hnatural]
  rfl

/-- **What is read off a literal without a sign** is what it denotes. -/
theorem eq_of_readMagnitude? {m : Int} (h : magnitude? cs = some k)
    (hm : readMagnitude? (joined cs) = some m) : m = k := by
  cases cs with
  | nil => cases h
  | cons c cs =>
    rw [magnitude?] at h
    by_cases hzero : c = '0'
    · subst hzero
      rw [if_pos rfl] at h
      rw [joined_cons cs (by decide)] at hm
      cases cs with
      | nil =>
        have hdigits : digits? decimalDigit? 10 ['0'] = some k := h
        exact eq_of_readRadix? isTable_decimalDigit? ⟨rfl, rfl⟩ hdigits hm
      | cons mark cs =>
        rw [behindZero?] at h
        by_cases hhex : mark = 'x' ∨ mark = 'X'
        · rw [if_pos hhex] at h
          have hmark : mark ≠ '_' := by rcases hhex with rfl | rfl <;> decide
          rw [joined_cons cs hmark, readMagnitude?_zero_cons, if_pos hhex] at hm
          exact eq_of_readRadix? isTable_hexDigit? ⟨rfl, rfl⟩ h hm
        · rw [if_neg hhex] at h
          have hother : mark = 'o' ∨ mark = 'O' ∨ mark = 'b' ∨ mark = 'B' := by
            split at h
            · rename_i hoctal
              exact hoctal.elim .inl (.inr ∘ .inl)
            · split at h
              · rename_i hbinary
                exact .inr (.inr hbinary)
              · cases h
          have hmark : mark ≠ '_' ∧ decimalDigit? mark = none := by
            rcases hother with rfl | rfl | rfl | rfl <;> decide
          rw [joined_cons cs hmark.1, readMagnitude?_zero_cons, if_neg hhex,
            readRadix?_zero_cons _ hmark.2] at hm
          cases hm
    · rw [if_neg hzero] at h
      refine eq_of_readRadix? isTable_decimalDigit? ⟨rfl, rfl⟩ h ?_
      obtain ⟨c', rest, d, hcs, hd⟩ := cons_of_digits? h
      obtain rfl : c = c' := (List.cons.inj hcs).1
      have hmark : c ≠ '_' := (isTable_decimalDigit? c d hd).2
      rwa [joined_cons cs hmark, readMagnitude?_cons _ hzero, ← joined_cons cs hmark] at hm

/-! ## 5. Literals behind minus signs, as they are read -/

/-- What stands before the first character that counts: blanks, or something that no reader takes
    for one. -/
theorem gap_cases (cs : List Char) :
    (∃ gap, cs = gap ++ behindGap .code cs ∧ ∀ c ∈ gap, isBlank c = true) ∨
      ∃ gap c more, cs = gap ++ c :: more ∧ (∀ c ∈ gap, isBlank c = true) ∧
        (c = '/' ∨ c = '\uFEFF') := by
  induction cs with
  | nil => exact .inl ⟨[], rfl, nofun⟩
  | cons c cs ih =>
    by_cases hslash : c = '/'
    · exact .inr ⟨[], c, cs, rfl, nofun, .inl hslash⟩
    · by_cases hspace : isSpace c = true
      · by_cases hblank : isBlank c = true
        · have hgap {gap : List Char} (h : ∀ x ∈ gap, isBlank x = true) :
              ∀ x ∈ c :: gap, isBlank x = true := List.forall_mem_cons.mpr ⟨hblank, h⟩
          rw [behindGap, if_neg (fun h => hslash h.1), if_neg (fun h => hslash h.1), if_pos hspace]
          rcases ih with ⟨gap, hcs, h⟩ | ⟨gap, x, more, hcs, h, hx⟩
          · exact .inl ⟨c :: gap, congrArg (c :: ·) hcs, hgap h⟩
          · exact .inr ⟨c :: gap, x, more, congrArg (c :: ·) hcs, hgap h, hx⟩
        · refine .inr ⟨[], c, cs, rfl, nofun, .inr ?_⟩
          simpa [isSpace, hblank] using hspace
      · refine .inl ⟨[], ?_, nofun⟩
        rw [behindGap, if_neg (fun h => hslash h.1), if_neg (fun h => hslash h.1), if_neg hspace]
        rfl

theorem readLiteral?_of_tidy_minus {rest : List Char} (h : tidy cs = '-' :: rest) :
    readLiteral? cs = (readLiteral? rest).bind fun n => checked (-n) := by
  rw [readLiteral?]
  split
  · rename_i hrest
    rw [h] at hrest
    rw [(List.cons.inj hrest).2]
  · rename_i hother
    exact absurd h (hother rest)

theorem readLiteral?_of_tidy_other (h : ∀ rest, tidy cs ≠ '-' :: rest) :
    readLiteral? cs = readMagnitude? (tidy cs) := by
  rw [readLiteral?]
  split
  · rename_i hrest
    exact absurd hrest (h _)
  · rfl

/-- The reader takes nothing from a text that starts with a comment or a byte order mark. -/
theorem readLiteral?_eq_none {gap : List Char} {c : Char} (more : List Char)
    (hgap : ∀ x ∈ gap, isBlank x = true) (hc : c = '/' ∨ c = '\uFEFF') :
    readLiteral? (gap ++ c :: more) = none := by
  have hink : IsKept c ∧ c ≠ '-' := by
    rcases hc with rfl | rfl <;> exact ⟨⟨by decide, by decide⟩, by decide⟩
  obtain ⟨more', hmore⟩ := Text.exists_of_stripBoth_cons hink.1.1 more
  have htidy : tidy (gap ++ c :: more) = c :: joined more' := by
    rw [tidy, Text.stripBoth_append_of_all hgap, hmore]
    exact joined_cons more' hink.1.2
  rw [readLiteral?_of_tidy_other, htidy]
  · rcases hc with rfl | rfl <;> rfl
  · intro rest hrest
    rw [htidy] at hrest
    exact hink.2 (List.cons.inj hrest).1

/-- The ends of a literal are kept. -/
theorem ends_of_integerLiteral? {n : Int} (h : integerLiteral? cs = some n) :
    cs ≠ [] ∧ (∀ c ∈ cs.head?, IsKept c) ∧ ∀ c ∈ cs.getLast?, IsKept c := by
  fun_induction integerLiteral? cs generalizing n with
  | case1 => cases h
  | case2 => cases h
  | case3 cs _ ih =>
    obtain ⟨k, hk, _⟩ := Option.map_eq_some_iff.mp h
    obtain ⟨hne, _, hlast⟩ := ih hk
    refine ⟨List.cons_ne_nil '-' cs, fun c hc => ?_, fun c hc => ?_⟩
    · obtain rfl : '-' = c := Option.some.inj hc
      exact ⟨by decide, by decide⟩
    · obtain ⟨front, hfront⟩ := behindGap_suffix .code cs
      obtain ⟨x, hx⟩ := Option.ne_none_iff_exists'.mp (mt List.getLast?_eq_none_iff.mp hne)
      rw [← hfront, ← List.cons_append, List.getLast?_append, hx] at hc
      obtain rfl : x = c := Option.some.inj hc
      exact hlast x hx
  | case4 c cs hsign =>
    obtain ⟨k, hk, _⟩ := Option.map_eq_some_iff.mp h
    obtain ⟨hne, hhead, hlast⟩ := ends_of_magnitude? hk
    exact ⟨hne, fun x hx => (hhead x hx).1, hlast⟩

theorem tidy_of_ends (hhead : ∀ c ∈ cs.head?, IsKept c) (hlast : ∀ c ∈ cs.getLast?, IsKept c) :
    tidy cs = joined cs := by
  rw [tidy, Text.stripBoth_of_ends (fun c hc => (hhead c hc).1) fun c hc => (hlast c hc).1]
  rfl

theorem readLiteral?_congr (h : tidy cs = tidy ds) : readLiteral? cs = readLiteral? ds := by
  by_cases hminus : ∃ rest, tidy ds = '-' :: rest
  · obtain ⟨rest, hrest⟩ := hminus
    rw [readLiteral?_of_tidy_minus hrest, readLiteral?_of_tidy_minus (h.trans hrest)]
  · have hother : ∀ rest, tidy ds ≠ '-' :: rest := fun rest hrest => hminus ⟨rest, hrest⟩
    rw [readLiteral?_of_tidy_other hother, readLiteral?_of_tidy_other (by rwa [h]), h]

/-- The ends of a text are those of it without `_`, if they are kept. -/
theorem ends_joined (hhead : ∀ c ∈ cs.head?, IsKept c) (hlast : ∀ c ∈ cs.getLast?, IsKept c) :
    (joined cs).head? = cs.head? ∧ (joined cs).getLast? = cs.getLast? := by
  constructor
  · cases cs with
    | nil => rfl
    | cons c cs => rw [joined_cons cs (hhead c rfl).2, List.head?_cons, List.head?_cons]
  · cases hcs : cs.getLast? with
    | none =>
      rw [List.getLast?_eq_none_iff.mp hcs]
      rfl
    | some c =>
      obtain ⟨front, rfl⟩ := List.getLast?_eq_some_iff.mp hcs
      rw [joined_append, joined_cons [] (hlast c hcs).2]
      exact List.getLast?_concat

theorem isBlank_of_mem_joined {gap : List Char} (h : ∀ c ∈ gap, isBlank c = true) :
    ∀ c ∈ joined gap, isBlank c = true := fun c hc => h c (List.mem_filter.mp hc).1

/-- What is left of a literal behind a sign is tidied to what it is alone. -/
theorem tidy_joined {gap : List Char} (hgap : ∀ c ∈ gap, isBlank c = true)
    (hhead : ∀ c ∈ cs.head?, IsKept c) (hlast : ∀ c ∈ cs.getLast?, IsKept c) :
    tidy (joined (gap ++ cs)) = tidy cs := by
  obtain ⟨hhead', hlast'⟩ := ends_joined hhead hlast
  have htwice : joined (joined cs) = joined cs := by
    rw [joined, joined, List.filter_filter]
    simp
  rw [joined_append, tidy_of_ends hhead hlast, tidy,
    Text.stripBoth_append_of_all (isBlank_of_mem_joined hgap)]
  show tidy (joined cs) = _
  rw [tidy_of_ends (by rwa [hhead']) (by rwa [hlast']), htwice]

/-- Behind a sign the reader finds in a literal what it finds in it alone. -/
theorem readLiteral?_joined {gap : List Char} (hgap : ∀ c ∈ gap, isBlank c = true)
    (hhead : ∀ c ∈ cs.head?, IsKept c) (hlast : ∀ c ∈ cs.getLast?, IsKept c) :
    readLiteral? (joined (gap ++ cs)) = readLiteral? cs :=
  readLiteral?_congr (tidy_joined hgap hhead hlast)

/-- **What is read off a literal** is what it denotes. -/
theorem eq_of_readLiteral? {n m : Int} (h : integerLiteral? cs = some n)
    (hm : readLiteral? cs = some m) : m = n := by
  fun_induction integerLiteral? cs generalizing n m with
  | case1 => cases h
  | case2 => cases h
  | case3 cs hsigns ih =>
    have hwhole : integerLiteral? ('-' :: cs) = some n := by
      rw [integerLiteral?, if_pos rfl, if_neg hsigns, h]
    obtain ⟨_, hhead, hlast⟩ := ends_of_integerLiteral? hwhole
    have htidy : tidy ('-' :: cs) = '-' :: joined cs := by
      rw [tidy_of_ends hhead hlast]
      exact joined_cons cs (by decide)
    -- behind the sign the `_` are gone, and the blanks are still there
    rw [readLiteral?_of_tidy_minus htidy] at hm
    obtain ⟨l, hl, hneg⟩ := Option.bind_eq_some_iff.mp hm
    obtain ⟨k, hk, rfl⟩ := Option.map_eq_some_iff.mp h
    rcases gap_cases cs with ⟨gap, hcs, hgap⟩ | ⟨gap, c, more, hcs, hgap, hc⟩
    · obtain ⟨_, hhead', hlast'⟩ := ends_of_integerLiteral? hk
      rw [hcs, readLiteral?_joined hgap hhead' hlast'] at hl
      rw [← ih hk hl]
      unfold checked at hneg
      split at hneg
      · exact (Option.some.inj hneg).symm
      · cases hneg
    · have hmark : c ≠ '_' := by rcases hc with rfl | rfl <;> decide
      have hjoined : joined cs = joined gap ++ c :: joined more := by
        rw [hcs, joined_append, joined_cons more hmark]
      rw [hjoined, readLiteral?_eq_none _ (isBlank_of_mem_joined hgap) hc] at hl
      cases hl
  | case4 c cs hsign =>
    obtain ⟨k, hk, rfl⟩ := Option.map_eq_some_iff.mp h
    obtain ⟨_, hhead, hlast⟩ := ends_of_magnitude? hk
    have hstart := hhead c rfl
    have htidy : tidy (c :: cs) = joined (c :: cs) :=
      tidy_of_ends (fun x hx => (hhead x hx).1) hlast
    rw [readLiteral?_of_tidy_other, htidy] at hm
    · exact eq_of_readMagnitude? hk hm
    · intro rest hrest
      rw [htidy, joined_cons cs hstart.1.2] at hrest
      exact hstart.2 (List.cons.inj hrest).1

example : integerLiteral? "- /* n */ -0x1_f".toList = some 31 ∧
    readLiteral? "- -0x1_f".toList = some 31 ∧ readLiteral? "- /* n */ -0x1_f".toList = none := by
  decide +kernel

/-! ## 6. Decimal texts -/

theorem decimalDigit?_digitChar : ∀ d < 10, decimalDigit? (Nat.digitChar d) = some d := by decide

/-- One more digit behind others. -/
theorem digitsFrom?_concat {c : Char} {d : Nat} (hmark : c ≠ '_') (hc : digit? c = some d)
    (h : digitsFrom? digit? base isNext n cs = some k) :
    digitsFrom? digit? base isNext n (cs ++ [c]) = some (k * base + d) := by
  induction cs generalizing isNext n with
  | nil =>
    cases isNext with
    | true => cases h
    | false =>
      obtain rfl : n = k := Option.some.inj h
      rw [List.nil_append, digitsFrom?, if_neg (fun hc => hmark hc.1), hc]
      rfl
  | cons x cs ih =>
    rw [digitsFrom?] at h
    rw [List.cons_append, digitsFrom?]
    split at h
    · rename_i hx
      rw [if_pos hx]
      exact ih h
    · rename_i hx
      obtain ⟨d', hd', hrest⟩ := Option.bind_eq_some_iff.mp h
      rw [if_neg hx, hd', Option.bind_some]
      exact ih hrest

theorem digits?_toDigits (n : Nat) : digits? decimalDigit? 10 (Nat.toDigits 10 n) = some n := by
  induction n using Nat.strongRecOn with
  | ind n ih =>
    have hdigit := decimalDigit?_digitChar (n % 10) (Nat.mod_lt n (by decide))
    rw [Nat.toDigits_eq_if (by decide)]
    by_cases hsmall : n < 10
    · rw [Nat.mod_eq_of_lt hsmall] at hdigit
      rw [if_pos hsmall, digits?, digitsFrom?, if_neg (fun hmark => nomatch hmark.2), hdigit]
      show some (0 * 10 + n) = some n
      rw [Nat.zero_mul, Nat.zero_add]
    · have hfront := ih (n / 10) (Nat.div_lt_self (by omega) (by decide))
      have hmark := (isTable_decimalDigit? _ _ hdigit).2
      rw [if_neg hsmall]
      refine (digitsFrom?_concat hmark hdigit hfront).trans (congrArg some ?_)
      omega

/-- A number other than zero is not written with a zero at the start. -/
theorem head?_toDigits {n : Nat} (h : 0 < n) : (Nat.toDigits 10 n).head? ≠ some '0' := by
  induction n using Nat.strongRecOn with
  | ind n ih =>
    have hdigit : ∀ d < 10, 0 < d → Nat.digitChar d ≠ '0' := by decide
    rw [Nat.toDigits_eq_if (by decide)]
    by_cases hsmall : n < 10
    · rw [if_pos hsmall]
      exact fun hzero => hdigit n hsmall h (Option.some.inj hzero)
    · obtain ⟨c, rest, _, hcons, _⟩ := cons_of_digits? (digits?_toDigits (n / 10))
      have hfront := ih (n / 10) (Nat.div_lt_self h (by decide)) (by omega)
      rw [if_neg hsmall]
      rw [hcons] at hfront ⊢
      exact hfront

theorem magnitude?_toDigits (n : Nat) : magnitude? (Nat.toDigits 10 n) = some n := by
  by_cases hzero : n = 0
  · subst hzero
    rfl
  · have hhead := head?_toDigits (Nat.pos_of_ne_zero hzero)
    have hdigits := digits?_toDigits n
    obtain ⟨c, rest, _, hcons, _⟩ := cons_of_digits? hdigits
    rw [hcons] at hhead hdigits ⊢
    rw [magnitude?, if_neg (fun hc => hhead (congrArg some hc)), hdigits]

/-- Nothing stands before a digit. -/
theorem behindGap_of_isDigit {c : Char} (cs : List Char) (h : c.isDigit = true) :
    behindGap .code (c :: cs) = c :: cs := by
  have hrange : 48 ≤ c.toNat ∧ c.toNat ≤ 57 := by
    simpa [Char.isDigit, UInt32.le_iff_toNat_le] using h
  have hslash : c ≠ '/' := by
    rintro rfl
    simp at hrange
  have hspace : isSpace c = false := by
    have hmark : c ≠ '\uFEFF' := by
      rintro rfl
      simp at hrange
    simp [isSpace, isBlank, Text.blankRanges, hmark]
    omega
  rw [behindGap, if_neg (fun hc => hslash hc.1), if_neg (fun hc => hslash hc.1),
    if_neg (by rw [hspace]; exact nofun)]

/-- **The decimal text of an integer** is a literal that denotes it. -/
theorem integerLiteral?_toString (n : Int) : integerLiteral? (toString n).toList = some n := by
  have hmagnitude (n : Nat) : integerLiteral? (Nat.toDigits 10 n) = some (n : Int) := by
    have h := magnitude?_toDigits n
    obtain ⟨hne, hhead, _⟩ := ends_of_magnitude? h
    obtain ⟨c, rest, hcons⟩ := List.exists_cons_of_ne_nil hne
    rw [hcons] at h hhead ⊢
    rw [integerLiteral?, if_neg (hhead c rfl).2, h]
    rfl
  cases n with
  | ofNat n =>
    show integerLiteral? (String.ofList (Nat.toDigits 10 n)).toList = _
    rw [String.toList_ofList]
    exact hmagnitude n
  | negSucc n =>
    show integerLiteral? ("-" ++ String.ofList (Nat.toDigits 10 (n + 1))).toList = _
    have htext : ("-" ++ String.ofList (Nat.toDigits 10 (n + 1))).toList =
        '-' :: Nat.toDigits 10 (n + 1) := by simp
    have hall : ∀ c ∈ Nat.toDigits 10 (n + 1), c.isDigit = true := fun c hc =>
      Nat.isDigit_of_mem_toDigits (by decide) (by decide) hc
    have hnumber := hmagnitude (n + 1)
    obtain ⟨hne, hhead, _⟩ := ends_of_magnitude? (magnitude?_toDigits (n + 1))
    obtain ⟨c, rest, hcons⟩ := List.exists_cons_of_ne_nil hne
    rw [hcons] at hall hhead hnumber
    have hsign : (c :: rest).head? ≠ some '-' := fun hc => (hhead c rfl).2 (Option.some.inj hc)
    rw [htext, hcons, integerLiteral?, if_pos rfl, if_neg hsign,
      behindGap_of_isDigit rest (hall c List.mem_cons_self), hnumber]
    rfl

end ClassScript.Script
