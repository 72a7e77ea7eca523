/-
  File:      ClassScript/Proofs/Emission/Integer.lean
  Subject:   What is read off the literal of an integer.

  A literal is a number behind minus signs, with blanks around the signs and
  the number. The reader takes off one sign with each call. It reads the number
  alone before any sign counts, so it is the number that has to fit; then each
  negation fits, and the integer is exact.

  * `WrittenWith`, `IsNumber`, `IsOtherNumber`: numbers, from their digits;
  * `IsSigned`: numbers behind signs;
  * `readMagnitude?_joined`: what is read off a number alone;
  * `Peels`, `peels_of_isSigned`: the calls of the reader;
  * `isPlain_of_readLiteral?`: what else there may be in a literal;
  * `integer_reading_laws`: what is read off a literal.
-/
import Mathlib
import ClassScript.Proofs.Script.IntegerLiteral

namespace ClassScript.Emission

open Script (joined joined_append joined_cons IsKept)
open Text (isBlank)

/-! ## 1. Numbers -/

/-- `c` is the digit `d` of the base `base`; as a letter it may be a capital. -/
def IsDigit (base : Nat) (c : Char) (d : Nat) : Prop := d < base ∧ c.toLower = Nat.digitChar d

/-- `cs` is written with the digits `ds` of the base `base`, with or without `_` between them. -/
inductive WrittenWith (base : Nat) : List Char → List Nat → Prop where
  | one {c : Char} {d : Nat} : IsDigit base c d → WrittenWith base [c] [d]
  | cons {c : Char} {d : Nat} {cs : List Char} {ds : List Nat} (bars : Nat) :
      IsDigit base c d → WrittenWith base cs ds →
        WrittenWith base (c :: (List.replicate bars '_' ++ cs)) (d :: ds)

/-- `cs` denotes the number `m`, in decimal without a zero before other digits, or in
    hexadecimal. -/
inductive IsNumber : List Char → Nat → Prop where
  | decimal {cs : List Char} {ds : List Nat} {m : Nat} :
      WrittenWith 10 cs ds → ds = [0] ∨ ds.head? ≠ some 0 → m = Nat.ofDigits 10 ds.reverse →
        IsNumber cs m
  | hexadecimal {mark : Char} {cs : List Char} {ds : List Nat} {m : Nat} :
      mark = 'x' ∨ mark = 'X' → WrittenWith 16 cs ds → m = Nat.ofDigits 16 ds.reverse →
        IsNumber ('0' :: mark :: cs) m

/-- The digits at one side of a decimal point, if there are any. -/
def IsSide (cs : List Char) : Prop := cs = [] ∨ ∃ ds, WrittenWith 10 cs ds

/-- An exponent to the base ten. -/
inductive IsExponent : List Char → Prop where
  | mk {mark : Char} {sign cs : List Char} {ds : List Nat} :
      mark = 'e' ∨ mark = 'E' → sign = [] ∨ sign = ['+'] ∨ sign = ['-'] → WrittenWith 10 cs ds →
        IsExponent (mark :: (sign ++ cs))

/-- `cs` is a number with a fraction, with an exponent, or in the base 2 or 8. -/
inductive IsOtherNumber : List Char → Prop where
  | fraction {whole part exponent : List Char} :
      IsSide whole → IsSide part → whole ≠ [] ∨ part ≠ [] →
        exponent = [] ∨ IsExponent exponent →
          IsOtherNumber (whole ++ '.' :: (part ++ exponent))
  | exponent {whole exponent : List Char} {ds : List Nat} :
      WrittenWith 10 whole ds → IsExponent exponent → IsOtherNumber (whole ++ exponent)
  | binary {mark : Char} {cs : List Char} {ds : List Nat} :
      mark = 'b' ∨ mark = 'B' → WrittenWith 2 cs ds → IsOtherNumber ('0' :: mark :: cs)
  | octal {mark : Char} {cs : List Char} {ds : List Nat} :
      mark = 'o' ∨ mark = 'O' → WrittenWith 8 cs ds → IsOtherNumber ('0' :: mark :: cs)

/-- `cs` is `number` behind `signs` minus signs, with blanks around it and around the signs. -/
inductive IsSigned (number : List Char) : Nat → List Char → Prop where
  | number : IsSigned number 0 number
  | sign {signs : Nat} {cs : List Char} :
      IsSigned number signs cs → IsSigned number (signs + 1) ('-' :: cs)
  | blanks {signs : Nat} {before cs after : List Char} :
      (∀ c ∈ before, isBlank c = true) → (∀ c ∈ after, isBlank c = true) →
        IsSigned number signs cs → IsSigned number signs (before ++ cs ++ after)

/-! ## 2. Digits, as they are read -/

variable {base signs n d m : Nat} {c : Char} {cs number : List Char} {ds : List Nat}
  {digit? : Char → Option Nat}

theorem IsDigit.mono {base' : Nat} (h : IsDigit base c d) (hle : base ≤ base') :
    IsDigit base' c d := ⟨Nat.lt_of_lt_of_le h.1 hle, h.2⟩

theorem toNat_digitChar : ∀ d < 16, (Nat.digitChar d).toNat = if d < 10 then 48 + d else 87 + d := by
  decide

/-- Where a digit stands among the characters. -/
theorem IsDigit.toNat (h : IsDigit 16 c d) :
    (d < 10 ∧ c.toNat = 48 + d) ∨ (10 ≤ d ∧ (c.toNat = 87 + d ∨ c.toNat = 55 + d)) := by
  obtain ⟨hd, hc⟩ := h
  have hplace := toNat_digitChar d hd
  rw [← hc] at hplace
  by_cases hcapital : c.isUpper = true
  · have hrange : 65 ≤ c.toNat ∧ c.toNat ≤ 90 := by
      simpa [Char.isUpper, UInt32.le_iff_toNat_le] using hcapital
    have hvalid : (c.toNat + 32).isValidChar := Or.inl (by omega)
    rw [Char.toLower_eq_of_isUpper hcapital, Char.toNat_ofNat, if_pos hvalid] at hplace
    split at hplace <;> omega
  · rw [Char.toLower_eq_of_not_isUpper hcapital] at hplace
    split at hplace <;> omega

theorem hexDigit?_of_isDigit (h : IsDigit 16 c d) : hexDigit? c = some d := by
  have hd := h.1
  show (if 48 ≤ c.toNat ∧ c.toNat ≤ 57 then some (c.toNat - 48)
    else if 97 ≤ c.toNat ∧ c.toNat ≤ 102 then some (c.toNat - 87)
    else if 65 ≤ c.toNat ∧ c.toNat ≤ 70 then some (c.toNat - 55) else none) = some d
  rcases h.toNat with ⟨_, hc⟩ | ⟨_, hc | hc⟩
  · rw [if_pos (by omega)]
    exact congrArg some (by omega)
  · rw [if_neg (by omega), if_pos (by omega)]
    exact congrArg some (by omega)
  · rw [if_neg (by omega), if_neg (by omega), if_pos (by omega)]
    exact congrArg some (by omega)

theorem decimalDigit?_of_isDigit (h : IsDigit 10 c d) : decimalDigit? c = some d := by
  have hplace := (h.mono (by decide : 10 ≤ 16)).toNat
  have hd := h.1
  show (if 48 ≤ c.toNat ∧ c.toNat ≤ 57 then some (c.toNat - 48) else none) = some d
  rw [if_pos (by omega)]
  exact congrArg some (by omega)

theorem ne_of_digit {c' : Char} (h : digit? c = some d) (h' : digit? c' = none) : c ≠ c' := by
  intro hc
  rw [← hc, h] at h'
  cases h'

/-- A digit is neither a sign, nor anything that goes when a literal is tidied. -/
theorem IsDigit.isKept (h : IsDigit 16 c d) : IsKept c ∧ c ≠ '-' ∧ c ≠ '+' := by
  have hread := hexDigit?_of_isDigit h
  exact ⟨Script.isTable_hexDigit? c d hread, ne_of_digit hread rfl, ne_of_digit hread rfl⟩

/-- A decimal digit is no mark of the base 16. -/
theorem IsDigit.ne_mark (h : IsDigit 10 c d) : c ≠ 'x' ∧ c ≠ 'X' := by
  have hread := decimalDigit?_of_isDigit h
  exact ⟨ne_of_digit hread rfl, ne_of_digit hread rfl⟩

/-- Digits, without the `_` between them, are read to what they denote behind others. -/
theorem readDigits?_joined (hbase : base ≤ 16)
    (htable : ∀ c d, IsDigit base c d → digit? c = some d) (h : WrittenWith base cs ds) :
    readDigits? digit? base n (joined cs) =
      some (n * base ^ ds.length + Nat.ofDigits base ds.reverse) := by
  -- over the digits that are left, for any number `n` that was read before them
  induction h generalizing n with
  | @one c d hd =>
    rw [joined_cons [] (hd.mono hbase).isKept.1.2, readDigits?, htable c d hd]
    simp [joined, readDigits?]
  | @cons c d cs ds bars hd _ ih =>
    have hbars : joined (List.replicate bars '_') = [] := by simp [joined]
    rw [joined_cons _ (hd.mono hbase).isKept.1.2, joined_append, hbars, List.nil_append,
      readDigits?, htable c d hd]
    dsimp only
    rw [ih, List.reverse_cons, Nat.ofDigits_append, List.length_reverse, Nat.ofDigits_singleton,
      List.length_cons]
    exact congrArg some (by ring)

theorem WrittenWith.exists_head (h : WrittenWith base cs ds) :
    ∃ c rest d, cs = c :: rest ∧ IsDigit base c d := by
  cases h with
  | @one c d hd => exact ⟨c, [], d, rfl, hd⟩
  | @cons c d cs ds bars hd _ => exact ⟨c, _, d, rfl, hd⟩

theorem WrittenWith.exists_last (h : WrittenWith base cs ds) :
    ∃ front c d, cs = front ++ [c] ∧ IsDigit base c d := by
  induction h with
  | @one c d hd => exact ⟨[], c, d, rfl, hd⟩
  | @cons c d cs ds bars _ _ ih =>
    obtain ⟨front, c', d', rfl, hd'⟩ := ih
    exact ⟨c :: (List.replicate bars '_' ++ front), c', d', by simp, hd'⟩

theorem WrittenWith.of_mem (h : WrittenWith base cs ds) (hc : c ∈ cs) :
    c = '_' ∨ ∃ d, IsDigit base c d := by
  induction h with
  | one hd =>
    obtain rfl := List.mem_singleton.mp hc
    exact Or.inr ⟨_, hd⟩
  | cons bars hd _ ih =>
    rcases List.mem_cons.mp hc with rfl | hc
    · exact Or.inr ⟨_, hd⟩
    · rcases List.mem_append.mp hc with hc | hc
      · exact Or.inl (List.eq_of_mem_replicate hc)
      · exact ih hc

theorem readRadix?_joined (hbase : base ≤ 16)
    (htable : ∀ c d, IsDigit base c d → digit? c = some d) (h : WrittenWith base cs ds) :
    readRadix? digit? base (joined cs) = checked (Nat.ofDigits base ds.reverse : Nat) := by
  have hread : readDigits? digit? base 0 (joined cs) = _ := readDigits?_joined hbase htable h
  obtain ⟨c, rest, d, rfl, hd⟩ := h.exists_head
  obtain ⟨hkept, hminus, hplus⟩ := (hd.mono hbase).isKept
  rw [joined_cons rest hkept.2] at hread ⊢
  have hnatural : readNatural? digit? base (c :: joined rest) = _ := hread
  rw [readRadix?, hnatural, Nat.zero_mul, Nat.zero_add, Option.bind_some]
  · exact fun cs hcs => hminus (List.cons.inj hcs).1
  · exact fun cs hcs => hplus (List.cons.inj hcs).1

/-- There is no mark of the base 16 in the text. -/
def IsUnmarked (cs : List Char) : Prop := ∀ c ∈ cs, c ≠ 'x' ∧ c ≠ 'X'

theorem IsUnmarked.cons (hc : c ≠ 'x' ∧ c ≠ 'X') (h : IsUnmarked cs) : IsUnmarked (c :: cs) :=
  List.forall_mem_cons.mpr ⟨hc, h⟩

theorem IsUnmarked.append {cs' : List Char} (h : IsUnmarked cs) (h' : IsUnmarked cs') :
    IsUnmarked (cs ++ cs') :=
  List.forall_mem_append.mpr ⟨h, h'⟩

/-- Without the mark of the base 16, a number is read in decimal. -/
theorem readMagnitude?_of_unmarked (h : IsUnmarked cs) :
    readMagnitude? cs = readRadix? decimalDigit? 10 cs := by
  rw [readMagnitude?]
  · rintro rest rfl
    exact (h 'x' (by simp)).1 rfl
  · rintro rest rfl
    exact (h 'X' (by simp)).2 rfl

theorem WrittenWith.isUnmarked (h : WrittenWith base cs ds) (hbase : base ≤ 10) :
    IsUnmarked cs := by
  intro c hc
  rcases h.of_mem hc with rfl | ⟨d, hd⟩
  · exact ⟨by decide, by decide⟩
  · exact (hd.mono hbase).ne_mark

/-- **What is read off a number alone** is the number, if it fits. -/
theorem readMagnitude?_joined (h : IsNumber number m) :
    readMagnitude? (joined number) = checked m := by
  cases h with
  | decimal hdigits _ hm =>
    have hunmarked : IsUnmarked (joined number) := fun c hc =>
      hdigits.isUnmarked (Nat.le_refl 10) c (List.mem_filter.mp hc).1
    rw [readMagnitude?_of_unmarked hunmarked, hm]
    exact readRadix?_joined (by decide) (fun _ _ => decimalDigit?_of_isDigit) hdigits
  | @hexadecimal mark cs ds _ hmark hdigits hm =>
    have hbar : mark ≠ '_' := by rcases hmark with rfl | rfl <;> decide
    rw [joined_cons _ (by decide), joined_cons cs hbar, Script.readMagnitude?_zero_cons,
      if_pos hmark, hm]
    exact readRadix?_joined (Nat.le_refl 16) (fun _ _ => hexDigit?_of_isDigit) hdigits

theorem checked_natCast (m : Nat) :
    checked m = if m ≤ 2 ^ 63 - 1 then some (m : Int) else none := by
  have hfits : fits m = true ↔ m ≤ 2 ^ 63 - 1 := by
    rw [fits_iff, maxInteger]
    omega
  rw [checked]
  exact if_congr hfits rfl rfl

/-! ## 3. Signs, as they are taken off -/

/-- `Peels signs cs number`: on `cs` the reader calls itself `signs` times, once for each sign, and
    is left with `number`. -/
inductive Peels : Nat → List Char → List Char → Prop where
  | done {cs : List Char} : (∀ rest, tidy cs ≠ '-' :: rest) → Peels 0 cs (tidy cs)
  | sign {signs : Nat} {cs rest number : List Char} :
      tidy cs = '-' :: rest → Peels signs rest number → Peels (signs + 1) cs number

/-- **The reader comes to an end** on every text. -/
theorem exists_peels (cs : List Char) : ∃ signs number, Peels signs cs number := by
  fun_induction readLiteral? cs with
  | case1 cs rest htidy ih =>
    obtain ⟨signs, number, h⟩ := ih
    exact ⟨signs + 1, number, .sign htidy h⟩
  | case2 cs hother => exact ⟨0, tidy cs, .done hother⟩

theorem Peels.congr {cs' : List Char} (h : Peels signs cs number) (htidy : tidy cs' = tidy cs) :
    Peels signs cs' number := by
  cases h with
  | done hother =>
    rw [← htidy] at hother ⊢
    exact .done hother
  | sign hsign hrest => exact .sign (htidy.trans hsign) hrest

/-- What the reader makes of an integer on its way back. -/
def negated (n : Option Int) : Option Int := n.bind fun n => checked (-n)

/-- What is read off a literal is what is read off its number, negated for each sign. -/
theorem Peels.readLiteral?_eq (h : Peels signs cs number) :
    readLiteral? cs = negated^[signs] (readMagnitude? number) := by
  induction h with
  | done hother => exact Script.readLiteral?_of_tidy_other hother
  | sign hsign _ ih =>
    rw [Script.readLiteral?_of_tidy_minus hsign, ih, Function.iterate_succ_apply', negated]

theorem negated_none : negated^[signs] none = none := by
  induction signs with
  | zero => rfl
  | succ signs ih => rw [Function.iterate_succ_apply', ih, negated, Option.bind_none]

/-- A number below `2 ^ 63` is negated exactly, any number of times. -/
theorem negated_some (h : m ≤ 2 ^ 63 - 1) :
    negated^[signs] (some (m : Int)) = some ((-1) ^ signs * (m : Int)) := by
  induction signs with
  | zero => simp
  | succ signs ih =>
    -- the bounds are the same for both signs, but for one more integer below zero
    have hfits : fits (-((-1) ^ signs * (m : Int))) = true := by
      rw [fits_iff, maxInteger]
      rcases neg_one_pow_eq_or Int signs with hone | hone
      · rw [hone, one_mul]
        omega
      · rw [hone, neg_one_mul]
        omega
    rw [Function.iterate_succ_apply', ih, negated, Option.bind_some, checked, if_pos hfits, pow_succ,
      mul_neg_one, neg_mul]

/-- Neither a blank nor a `_` stands at an end of the text. -/
structure IsTight (cs : List Char) : Prop where
  ne_nil : cs ≠ []
  head : ∀ c ∈ cs.head?, IsKept c
  last : ∀ c ∈ cs.getLast?, IsKept c

theorem IsTight.behind (h : IsTight cs) (hc : IsKept c) (gap : List Char) :
    IsTight (c :: (gap ++ cs)) where
  ne_nil := List.cons_ne_nil c _
  head x hx := by
    obtain rfl : c = x := Option.some.inj hx
    exact hc
  last x hx := by
    obtain ⟨y, hy⟩ := Option.ne_none_iff_exists'.mp (mt List.getLast?_eq_none_iff.mp h.ne_nil)
    rw [← List.cons_append, List.getLast?_append, hy] at hx
    obtain rfl : y = x := Option.some.inj hx
    exact h.last y hy

theorem WrittenWith.isTight (h : WrittenWith base cs ds) (hbase : base ≤ 16) : IsTight cs where
  ne_nil := by
    obtain ⟨c, rest, _, rfl, _⟩ := h.exists_head
    exact List.cons_ne_nil c rest
  head x hx := by
    obtain ⟨c, rest, _, rfl, hd⟩ := h.exists_head
    obtain rfl : c = x := Option.some.inj hx
    exact (hd.mono hbase).isKept.1
  last x hx := by
    obtain ⟨front, c, _, rfl, hd⟩ := h.exists_last
    rw [List.getLast?_concat] at hx
    obtain rfl : c = x := Option.some.inj hx
    exact (hd.mono hbase).isKept.1

theorem IsNumber.isTight (h : IsNumber number m) : IsTight number := by
  cases h with
  | decimal hdigits _ _ => exact hdigits.isTight (by decide)
  | @hexadecimal mark cs _ _ _ hdigits _ =>
    exact (hdigits.isTight (Nat.le_refl 16)).behind ⟨by decide, by decide⟩ [mark]

theorem IsNumber.head?_ne_minus (h : IsNumber number m) : number.head? ≠ some '-' := by
  cases h with
  | decimal hdigits _ _ =>
    obtain ⟨c, rest, _, rfl, hd⟩ := hdigits.exists_head
    exact fun hc => (hd.mono (by decide)).isKept.2.1 (Option.some.inj hc)
  | hexadecimal _ _ _ => exact nofun

theorem tidy_blanks {before after : List Char} (hbefore : ∀ c ∈ before, isBlank c = true)
    (hafter : ∀ c ∈ after, isBlank c = true) : tidy (before ++ cs ++ after) = tidy cs := by
  rw [tidy, Text.stripBoth_concat_of_all hafter, Text.stripBoth_append_of_all hbefore]
  rfl

/-- A literal is something tight between blanks. -/
theorem exists_tight (hnumber : IsTight number) (h : IsSigned number signs cs) :
    ∃ before core after, cs = before ++ core ++ after ∧ (∀ c ∈ before, isBlank c = true) ∧
      (∀ c ∈ after, isBlank c = true) ∧ IsTight core := by
  induction h with
  | number => exact ⟨[], number, [], by simp, nofun, nofun, hnumber⟩
  | sign _ ih =>
    obtain ⟨before, core, after, rfl, _, hafter, hcore⟩ := ih
    exact ⟨[], '-' :: (before ++ core), after, rfl, nofun, hafter,
      hcore.behind ⟨by decide, by decide⟩ before⟩
  | @blanks signs before' cs after' hbefore' hafter' _ ih =>
    obtain ⟨before, core, after, rfl, hbefore, hafter, hcore⟩ := ih
    refine ⟨before' ++ before, core, after ++ after', by simp, ?_, ?_, hcore⟩
    · exact List.forall_mem_append.mpr ⟨hbefore', hbefore⟩
    · exact List.forall_mem_append.mpr ⟨hafter, hafter'⟩

/-- Behind a sign there is what there would be without it, but for the `_`. -/
theorem exists_behind_sign (hnumber : IsTight number) (h : IsSigned number signs cs) :
    ∃ rest, tidy ('-' :: cs) = '-' :: rest ∧ tidy rest = tidy cs := by
  obtain ⟨before, core, after, rfl, hbefore, hafter, hcore⟩ := exists_tight hnumber h
  have hsign := hcore.behind (c := '-') ⟨by decide, by decide⟩ before
  -- the blanks before `core` are inside the text now, and go with the next call
  refine ⟨joined (before ++ core), ?_, ?_⟩
  · calc tidy ('-' :: (before ++ core ++ after))
        = tidy ([] ++ ('-' :: (before ++ core)) ++ after) := rfl
      _ = tidy ('-' :: (before ++ core)) := tidy_blanks nofun hafter
      _ = joined ('-' :: (before ++ core)) := Script.tidy_of_ends hsign.head hsign.last
      _ = '-' :: joined (before ++ core) := joined_cons _ (by decide)
  · rw [Script.tidy_joined hbefore hcore.head hcore.last, tidy_blanks hbefore hafter]

/-- The reader takes as many signs off a literal as there are. -/
theorem peels_of_isSigned (hnumber : IsTight number) (hminus : number.head? ≠ some '-')
    (h : IsSigned number signs cs) : Peels signs cs (joined number) := by
  induction h with
  | number =>
    have htidy : tidy number = joined number := Script.tidy_of_ends hnumber.head hnumber.last
    have hother : ∀ rest, tidy number ≠ '-' :: rest := by
      intro rest hrest
      rw [htidy] at hrest
      rw [← (Script.ends_joined hnumber.head hnumber.last).1, hrest] at hminus
      exact hminus rfl
    rw [← htidy]
    exact .done hother
  | sign h ih =>
    obtain ⟨rest, hsign, hrest⟩ := exists_behind_sign hnumber h
    exact .sign hsign (ih.congr hrest)
  | blanks hbefore hafter _ ih => exact ih.congr (tidy_blanks hbefore hafter)

/-! ## 4. Other numbers -/

/-- A character that there may be in the literal of a decimal integer, as it is read. -/
inductive IsPlain : Char → Prop where
  | digit {c : Char} : (decimalDigit? c).isSome = true → IsPlain c
  | minus : IsPlain '-'
  | plus : IsPlain '+'
  | bar : IsPlain '_'
  | blank {c : Char} : isBlank c = true → IsPlain c

theorem isSome_of_readDigits? (h : readDigits? digit? base n cs = some m) :
    ∀ c ∈ cs, (digit? c).isSome = true := by
  induction cs generalizing n with
  | nil => exact nofun
  | cons c cs ih =>
    rw [readDigits?] at h
    cases hd : digit? c with
    | none =>
      rw [hd] at h
      cases h
    | some d =>
      rw [hd] at h
      exact List.forall_mem_cons.mpr ⟨by rw [hd]; rfl, ih h⟩

theorem isPlain_of_readRadix? {k : Int} (h : readRadix? decimalDigit? 10 cs = some k) :
    ∀ c ∈ cs, IsPlain c := by
  have hdigits {cs : List Char} {f : Nat → Option Int}
      (h : (readNatural? decimalDigit? 10 cs).bind f = some k) : ∀ c ∈ cs, IsPlain c := by
    intro c hc
    obtain ⟨m, hm, _⟩ := Option.bind_eq_some_iff.mp h
    unfold readNatural? at hm
    split at hm
    · cases hm
    · exact .digit (isSome_of_readDigits? hm c hc)
  unfold readRadix? at h
  split at h
  · exact List.forall_mem_cons.mpr ⟨.minus, hdigits h⟩
  · exact List.forall_mem_cons.mpr ⟨.plus, hdigits h⟩
  · exact hdigits h

/-- What goes when a text is tidied are blanks and `_`. -/
theorem isPlain_or_mem_tidy (hc : c ∈ cs) : IsPlain c ∨ c ∈ tidy cs := by
  obtain ⟨before, after, hcs, hbefore, hafter⟩ := Text.exists_of_stripBoth isBlank cs
  rw [hcs] at hc
  rcases List.mem_append.mp hc with hc | hc
  · rcases List.mem_append.mp hc with hc | hc
    · exact Or.inl (.blank (hbefore c hc))
    · by_cases hbar : c = '_'
      · exact Or.inl (hbar ▸ .bar)
      · exact Or.inr (List.mem_filter.mpr ⟨hc, decide_eq_true hbar⟩)
  · exact Or.inl (.blank (hafter c hc))

theorem mem_of_mem_tidy (hc : c ∈ tidy cs) : c ∈ cs := by
  obtain ⟨before, after, hcs, _⟩ := Text.exists_of_stripBoth isBlank cs
  rw [hcs]
  exact List.mem_append_left after (List.mem_append_right before (List.mem_filter.mp hc).1)

/-- **An integer is read off** a text without the mark of the base 16 only if there is nothing in
    it but decimal digits, signs, blanks and `_`. -/
theorem isPlain_of_readLiteral? {k : Int} (hunmarked : IsUnmarked cs)
    (h : readLiteral? cs = some k) : ∀ c ∈ cs, IsPlain c := by
  fun_induction readLiteral? cs generalizing k with
  | case1 cs rest htidy ih =>
    obtain ⟨l, hl, _⟩ := Option.bind_eq_some_iff.mp h
    have hunmarked' : IsUnmarked rest := fun c hc =>
      hunmarked c (mem_of_mem_tidy (htidy ▸ List.mem_cons_of_mem '-' hc))
    have hsigned : ∀ c ∈ '-' :: rest, IsPlain c :=
      List.forall_mem_cons.mpr ⟨.minus, ih hunmarked' hl⟩
    intro c hc
    rcases isPlain_or_mem_tidy hc with hplain | hc
    · exact hplain
    · exact hsigned c (htidy ▸ hc)
  | case2 cs hother =>
    rw [readMagnitude?_of_unmarked fun c hc => hunmarked c (mem_of_mem_tidy hc)] at h
    intro c hc
    rcases isPlain_or_mem_tidy hc with hplain | hc
    · exact hplain
    · exact isPlain_of_readRadix? h c hc

theorem IsSide.isUnmarked (h : IsSide cs) : IsUnmarked cs := by
  rcases h with rfl | ⟨ds, h⟩
  · exact nofun
  · exact h.isUnmarked (Nat.le_refl 10)

theorem IsExponent.isUnmarked (h : IsExponent cs) : IsUnmarked cs := by
  obtain ⟨hmark, hsign, hdigits⟩ := h
  refine IsUnmarked.cons ?_ (IsUnmarked.append ?_ (hdigits.isUnmarked (Nat.le_refl 10)))
  · rcases hmark with rfl | rfl <;> decide
  · rcases hsign with rfl | rfl | rfl <;> simp [IsUnmarked]

theorem IsOtherNumber.isUnmarked (h : IsOtherNumber number) : IsUnmarked number := by
  cases h with
  | fraction hwhole hpart _ hexponent =>
    refine hwhole.isUnmarked.append (.cons ⟨by decide, by decide⟩ (hpart.isUnmarked.append ?_))
    rcases hexponent with rfl | hexponent
    · exact nofun
    · exact hexponent.isUnmarked
  | exponent hwhole hexponent =>
    exact (hwhole.isUnmarked (Nat.le_refl 10)).append hexponent.isUnmarked
  | binary hmark hdigits | octal hmark hdigits =>
    refine .cons ⟨by decide, by decide⟩ (.cons ?_ (hdigits.isUnmarked (by decide)))
    rcases hmark with rfl | rfl <;> decide

/-- What makes another number of it is a point, or the mark of an exponent or of a base. -/
theorem IsOtherNumber.exists_mark (h : IsOtherNumber number) :
    ∃ c ∈ number, c ∈ ['.', 'e', 'E', 'b', 'B', 'o', 'O'] := by
  cases h with
  | fraction _ _ _ _ => exact ⟨'.', by simp, by decide⟩
  | exponent _ hexponent =>
    obtain @⟨mark, _, _, _, hmark, _, _⟩ := hexponent
    refine ⟨mark, by simp, ?_⟩
    rcases hmark with rfl | rfl <;> decide
  | @binary mark _ _ hmark _ | @octal mark _ _ hmark _ =>
    refine ⟨mark, by simp, ?_⟩
    rcases hmark with rfl | rfl <;> decide

theorem not_isPlain (h : c ∈ ['.', 'e', 'E', 'b', 'B', 'o', 'O']) : ¬ IsPlain c := by
  have hsome : ∀ c ∈ ['.', 'e', 'E', 'b', 'B', 'o', 'O'], decimalDigit? c = none := by
    simp [decimalDigit?]
  have hblank : ∀ c ∈ ['.', 'e', 'E', 'b', 'B', 'o', 'O'], isBlank c = false := by
    simp [isBlank, Text.blankRanges]
  intro hplain
  cases hplain with
  | digit hdigit =>
    rw [hsome c h] at hdigit
    cases hdigit
  | blank hc =>
    rw [hblank c h] at hc
    cases hc
  | minus | plus | bar => simp at h

theorem IsSigned.mem (h : IsSigned number signs cs) (hc : c ∈ number) : c ∈ cs := by
  induction h with
  | number => exact hc
  | sign _ ih => exact List.mem_cons_of_mem '-' ih
  | blanks _ _ _ ih => exact List.mem_append_left _ (List.mem_append_right _ ih)

theorem isUnmarked_of_isBlank (h : ∀ c ∈ cs, isBlank c = true) : IsUnmarked cs := fun c hc =>
  ⟨ne_of_apply_ne isBlank (by rw [h c hc]; decide), ne_of_apply_ne isBlank (by rw [h c hc]; decide)⟩

theorem IsSigned.isUnmarked (h : IsSigned number signs cs) (hnumber : IsUnmarked number) :
    IsUnmarked cs := by
  induction h with
  | number => exact hnumber
  | sign _ ih => exact .cons ⟨by decide, by decide⟩ ih
  | blanks hbefore hafter _ ih =>
    exact ((isUnmarked_of_isBlank hbefore).append ih).append (isUnmarked_of_isBlank hafter)

/-- Nothing is read off another number, whatever its sign is. -/
theorem readLiteral?_of_isOtherNumber (h : IsSigned number signs cs) (hother : IsOtherNumber number) :
    readLiteral? cs = none := by
  obtain ⟨c, hc, hmark⟩ := hother.exists_mark
  refine Option.eq_none_iff_forall_ne_some.mpr fun k hk => ?_
  exact not_isPlain hmark
    (isPlain_of_readLiteral? (h.isUnmarked hother.isUnmarked) hk c (h.mem hc))

/-! ## 5. The laws -/

/-- **What is read off a literal.** The reader comes to an end on it. If its number is an integer
    in decimal or hexadecimal, the reader takes off its signs, one with each call, and finds the
    integer it denotes, if the number is less than `2 ^ 63`, and nothing if it is not. In any other
    number it finds nothing. -/
theorem integer_reading_laws {literal : String} (h : IsSigned number signs literal.toList) :
    (∃ calls rest, Peels calls literal.toList rest) ∧
      (∀ m, IsNumber number m → Peels signs literal.toList (joined number) ∧
        readInteger? literal = if m ≤ 2 ^ 63 - 1 then some ((-1) ^ signs * (m : Int)) else none) ∧
      (IsOtherNumber number → readInteger? literal = none) := by
  refine ⟨exists_peels literal.toList, fun m hm => ?_, readLiteral?_of_isOtherNumber h⟩
  have hpeels := peels_of_isSigned hm.isTight hm.head?_ne_minus h
  refine ⟨hpeels, ?_⟩
  rw [readInteger?, hpeels.readLiteral?_eq, readMagnitude?_joined hm, checked_natCast]
  split
  · exact negated_some ‹_›
  · exact negated_none

/-- The greatest integer behind two signs, the next one behind a sign, and a number with a
    fraction. -/
theorem integer_reading_laws_bounds :
    (IsSigned "0x7FFF_ffff_FFFF_FFFF".toList 2 "- -0x7FFF_ffff_FFFF_FFFF ".toList ∧
        IsNumber "0x7FFF_ffff_FFFF_FFFF".toList 9223372036854775807 ∧
        readInteger? "- -0x7FFF_ffff_FFFF_FFFF " = some 9223372036854775807) ∧
      (IsSigned "9223372036854775808".toList 1 "-9223372036854775808".toList ∧
        IsNumber "9223372036854775808".toList 9223372036854775808 ∧
        readInteger? "-9223372036854775808" = none) ∧
      IsSigned "1_0.5e-3".toList 1 "-1_0.5e-3".toList ∧ IsOtherNumber "1_0.5e-3".toList ∧
        readInteger? "-1_0.5e-3" = none := by
  have hgreatest : IsNumber "0x7FFF_ffff_FFFF_FFFF".toList 9223372036854775807 := by
    have hdigits : WrittenWith 16 "7FFF_ffff_FFFF_FFFF".toList
        [7, 15, 15, 15, 15, 15, 15, 15, 15, 15, 15, 15, 15, 15, 15, 15] := by
      repeat
        first
          | exact .one ⟨by decide, by decide⟩
          | refine .cons 1 ⟨by decide, by decide⟩ ?_
          | refine .cons 0 ⟨by decide, by decide⟩ ?_
    exact .hexadecimal (.inl rfl) hdigits (by decide)
  have hnext : IsNumber "9223372036854775808".toList 9223372036854775808 := by
    have hdigits : WrittenWith 10 "9223372036854775808".toList
        [9, 2, 2, 3, 3, 7, 2, 0, 3, 6, 8, 5, 4, 7, 7, 5, 8, 0, 8] := by
      repeat
        first
          | exact .one ⟨by decide, by decide⟩
          | refine .cons 0 ⟨by decide, by decide⟩ ?_
    exact .decimal hdigits (.inr (by decide)) (by decide)
  have hother : IsOtherNumber "1_0.5e-3".toList := by
    have hwhole : WrittenWith 10 "1_0".toList [1, 0] :=
      .cons 1 ⟨by decide, by decide⟩ (.one ⟨by decide, by decide⟩)
    have hpart : WrittenWith 10 "5".toList [5] := .one ⟨by decide, by decide⟩
    have hexponent : IsExponent "e-3".toList :=
      .mk (.inl rfl) (.inr (.inr rfl)) (.one (d := 3) ⟨by decide, by decide⟩)
    exact .fraction (.inr ⟨_, hwhole⟩) (.inr ⟨_, hpart⟩) (.inl nofun) (.inr hexponent)
  have hblank : ∀ c ∈ [' '], isBlank c = true := by simp [isBlank, Text.blankRanges]
  have htwo : IsSigned "0x7FFF_ffff_FFFF_FFFF".toList 2 "- -0x7FFF_ffff_FFFF_FFFF ".toList := by
    have hinner : IsSigned "0x7FFF_ffff_FFFF_FFFF".toList 1
        ([' '] ++ '-' :: "0x7FFF_ffff_FFFF_FFFF".toList ++ [' ']) :=
      .blanks hblank hblank (.sign .number)
    exact .sign hinner
  have hone : IsSigned "9223372036854775808".toList 1 "-9223372036854775808".toList := .sign .number
  have hminus : IsSigned "1_0.5e-3".toList 1 "-1_0.5e-3".toList := .sign .number
  exact ⟨⟨htwo, hgreatest, ((integer_reading_laws htwo).2.1 _ hgreatest).2⟩,
    ⟨hone, hnext, ((integer_reading_laws hone).2.1 _ hnext).2⟩,
    hminus, hother, (integer_reading_laws hminus).2.2 hother⟩

end ClassScript.Emission
