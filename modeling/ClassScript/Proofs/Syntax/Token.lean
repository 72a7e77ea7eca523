/-
  File:      ClassScript/Proofs/Syntax/Token.lean
  Subject:   Tokens lie on the characters of a text.

  The reader of tokens counts bytes: it looks at one byte, or decodes one
  character, and goes on behind it. It never stops inside of a character. A
  byte below 128 is a character of its own, and elsewhere the first byte of a
  character says how many follow.

  * `Onward`: reading goes on from one offset to another, on characters;
  * `Gap`: nothing but blanks and comments stands between two offsets;
  * `gap_tokenStart`, `gap_autoSemicolon`: what is skipped is a gap;
  * `Token.gap_scan`, `Token.onward_scan`: where the next token lies;
  * `Token.text_scan`: its text is what stands there;
  * `Token.exists_of_quoted`: a literal text stands between quotation marks.
-/
import ClassScript.Proofs.Syntax.Source
import ClassScript.Syntax.Token

namespace ClassScript.Syntax

variable {s : String} {src : Source} {i j k : Nat}

/-! ## 1. Bytes and characters -/

/-- A byte that is a character of its own. The byte 0, which is read past the end, is none. -/
def IsAscii (b : UInt8) : Prop := b ≠ 0 ∧ b < 128

instance (b : UInt8) : Decidable (IsAscii b) := inferInstanceAs (Decidable (_ ∧ _))

theorem toNat_ofNat_byte {n : Nat} (h : n < 256) : (UInt8.ofNat n).toNat = n :=
  UInt8.toNat_ofNat_of_lt' h

/-- The first byte of a character says how many there are. -/
theorem utf8Size_of_head {c : Char} {b : UInt8} {bs : List UInt8}
    (h : String.utf8EncodeChar c = b :: bs) : c.utf8Size =
      if b.toNat < 0x80 then 1
      else if b.toNat < 0xE0 then 2 else if b.toNat < 0xF0 then 3 else 4 := by
  rw [← String.length_utf8EncodeChar, h]
  unfold String.utf8EncodeChar at h
  dsimp only at h
  split at h
  · obtain ⟨rfl, rfl⟩ := List.cons.inj h
    rw [toNat_ofNat_byte (by omega), if_pos (by omega)]
    rfl
  · split at h
    · obtain ⟨rfl, rfl⟩ := List.cons.inj h
      rw [toNat_ofNat_byte (by omega), if_neg (by omega), if_pos (by omega)]
      rfl
    · split at h
      · obtain ⟨rfl, rfl⟩ := List.cons.inj h
        rw [toNat_ofNat_byte (by omega), if_neg (by omega), if_neg (by omega), if_pos (by omega)]
        rfl
      · obtain ⟨rfl, rfl⟩ := List.cons.inj h
        rw [toNat_ofNat_byte (by omega), if_neg (by omega), if_neg (by omega), if_neg (by omega)]
        rfl

/-- A byte below 128 occurs in no longer character. -/
theorem encode_of_ascii {c : Char} {b : UInt8} (h : b ∈ String.utf8EncodeChar c)
    (hb : b < 128) : String.utf8EncodeChar c = [b] := by
  have hsmall : b.toNat < 128 := hb
  have hbyte (n : Nat) (hn : n < 256) (e : b = UInt8.ofNat n) : b.toNat = n := by
    rw [e, toNat_ofNat_byte hn]
  unfold String.utf8EncodeChar at h ⊢
  dsimp only at h ⊢
  split at h
  · rw [List.mem_singleton.mp h, if_pos ‹_›]
  -- all bytes of a longer character are at least 128
  · split at h
    · simp only [List.mem_cons, List.not_mem_nil, or_false] at h
      rcases h with h | h <;> have h := hbyte _ (by omega) h <;> omega
    · split at h
      · simp only [List.mem_cons, List.not_mem_nil, or_false] at h
        rcases h with h | h | h <;> have h := hbyte _ (by omega) h <;> omega
      · simp only [List.mem_cons, List.not_mem_nil, or_false] at h
        rcases h with h | h | h | h <;> have h := hbyte _ (by omega) h <;> omega

theorem exists_of_ascii {cs : List Char} {b : UInt8} (h : (bytesOf cs)[i]? = some b)
    (hb : b < 128) : ∃ before c after, cs = before ++ c :: after ∧ width before = i ∧
      c.utf8Size = 1 := by
  induction cs generalizing i with
  | nil => simp at h
  | cons c cs ih =>
    rw [bytesOf_cons, List.getElem?_append] at h
    split at h
    · rename_i hlt
      have hone : c.utf8Size = 1 := by
        rw [← String.length_utf8EncodeChar, encode_of_ascii (List.mem_of_getElem? h) hb]
        rfl
      rw [String.length_utf8EncodeChar, hone] at hlt
      exact ⟨[], c, cs, rfl, by rw [width_nil]; omega, hone⟩
    · rename_i hge
      obtain ⟨before, d, after, rfl, hw, hone⟩ := ih h
      rw [String.length_utf8EncodeChar] at hge hw
      exact ⟨c :: before, d, after, rfl, by rw [width_cons]; omega, hone⟩

theorem lt_size_of_byte (h : src.byte i ≠ 0) : i < src.size := by
  by_cases hi : i < src.bytes.size
  · exact hi
  · exact absurd (dif_neg hi) h

/-- A byte that is a character of its own stands between two boundaries. -/
theorem isBoundary_of_ascii (h : IsAscii ((Source.ofString s).byte i)) :
    IsBoundary s i ∧ IsBoundary s (i + 1) := by
  obtain ⟨before, c, after, hs, hw, hone⟩ :=
    exists_of_ascii (getElem?_bytesOf (lt_size_of_byte h.1)) h.2
  refine ⟨isBoundary_iff.mpr ⟨before, c :: after, hs, hw⟩,
    isBoundary_iff.mpr ⟨before ++ [c], after, by rw [hs, List.append_assoc]; rfl, ?_⟩⟩
  rw [width_append, hw, width_cons, hone, width_nil]

/-- A character starts at every boundary before the end. -/
theorem exists_char (hi : IsBoundary s i) (hlt : i < (Source.ofString s).size) :
    ∃ c, Stands s i (i + c.utf8Size) [c] := by
  obtain ⟨before, after, hs, hw⟩ := isBoundary_iff.mp hi
  cases after with
  | nil =>
    have hsize : (Source.ofString s).size = width s.toList := by
      change s.toByteArray.size = _
      rw [toByteArray_eq, size_utf8Encode]
    rw [hsize, hs, List.append_nil] at hlt
    omega
  | cons c after => exact ⟨c, before, after, hs, hw, by rw [width_cons, width_nil, Nat.add_zero]⟩

theorem utf8EncodeChar_of_stands {c : Char} (h : Stands s i (i + c.utf8Size) [c]) :
    ∃ bs, String.utf8EncodeChar c = (Source.ofString s).byte i :: bs := by
  have hbytes := h.map_byte
  obtain ⟨n, hn⟩ : ∃ n, c.utf8Size = n + 1 := ⟨c.utf8Size - 1, by have := c.utf8Size_pos; omega⟩
  rw [Nat.add_sub_cancel_left, hn, List.range'_succ, List.map_cons, bytesOf_cons, bytesOf_nil,
    List.append_nil] at hbytes
  exact ⟨_, hbytes.symm⟩

/-- A byte that is a character of its own is this character. -/
theorem stands_of_byte {c : Char} {b : UInt8} (hc : String.utf8EncodeChar c = [b]) (hb : IsAscii b)
    (h : (Source.ofString s).byte i = b) : Stands s i (i + 1) [c] := by
  have hascii : IsAscii ((Source.ofString s).byte i) := h ▸ hb
  obtain ⟨d, hd⟩ := exists_char (isBoundary_of_ascii hascii).1 (lt_size_of_byte hascii.1)
  obtain ⟨bs, hbs⟩ := utf8EncodeChar_of_stands hd
  have hone : String.utf8EncodeChar d = [b] :=
    encode_of_ascii (by rw [hbs, h]; exact List.mem_cons_self) hb.2
  have hsize : d.utf8Size = 1 := by rw [← String.length_utf8EncodeChar, hone]; rfl
  have hsame : [d] = [c] := by
    refine String.ofList_injective (String.toByteArray_inj.mp ?_)
    rw [String.toByteArray_ofList, String.toByteArray_ofList, utf8Encode_eq, utf8Encode_eq,
      bytesOf_cons, bytesOf_cons, hone, hc]
  rw [hsize] at hd
  rwa [(List.cons.inj hsame).1] at hd

/-- Decoding takes all bytes of a character. -/
theorem decode_width {c : Char} (h : Stands s i (i + c.utf8Size) [c]) :
    ((Source.ofString s).decode i).2 = c.utf8Size := by
  obtain ⟨bs, hbs⟩ := utf8EncodeChar_of_stands h
  rw [utf8Size_of_head hbs, Source.decode]
  split
  · rfl
  · split
    · rfl
    · split <;> rfl

theorem decode_pos (src : Source) (i : Nat) : 0 < (src.decode i).2 := by
  unfold Source.decode
  dsimp only
  split
  · exact Nat.one_pos
  · split
    · exact Nat.two_pos
    · split <;> exact Nat.succ_pos _

/-! ## 2. Reading goes on -/

/-- Reading goes on from the offset `i` to `j`, and does not stop inside of a character. -/
structure Onward (s : String) (i j : Nat) : Prop where
  le : i ≤ j
  boundary : IsBoundary s i → IsBoundary s j

namespace Onward

protected theorem rfl : Onward s i i := ⟨Nat.le_refl i, id⟩

theorem trans (h₁ : Onward s i j) (h₂ : Onward s j k) : Onward s i k :=
  ⟨Nat.le_trans h₁.le h₂.le, h₂.boundary ∘ h₁.boundary⟩

/-- Over a byte that is a character of its own. -/
theorem ascii (h : IsAscii ((Source.ofString s).byte i)) : Onward s i (i + 1) :=
  ⟨Nat.le_succ i, fun _ => (isBoundary_of_ascii h).2⟩

/-- Over the byte `b`. -/
theorem byte {b : UInt8} (h : (Source.ofString s).byte i = b) (hb : IsAscii b) :
    Onward s i (i + 1) :=
  ascii (h ▸ hb)

/-- Over a character. -/
theorem decode (h : i < (Source.ofString s).size) :
    Onward s i (i + ((Source.ofString s).decode i).2) := by
  refine ⟨Nat.le_add_right i _, fun hi => ?_⟩
  obtain ⟨c, hc⟩ := exists_char hi h
  rw [decode_width hc]
  exact hc.stop

end Onward

theorem isAscii_of_between {a b c : UInt8} (ha : 0 < a) (hc : c < 128) (h : a ≤ b ∧ b ≤ c) :
    IsAscii b := by
  rw [UInt8.lt_iff_toNat_lt] at ha hc
  rw [UInt8.le_iff_toNat_le, UInt8.le_iff_toNat_le] at h
  refine ⟨fun hb => ?_, UInt8.lt_iff_toNat_lt.mpr (Nat.lt_of_le_of_lt h.2 hc)⟩
  exact absurd (Nat.lt_of_lt_of_le ha h.1) (hb ▸ Nat.lt_irrefl _)

theorem isAscii_of_isDigitByte {b : UInt8} (h : isDigitByte b = true) : IsAscii b := by
  rw [isDigitByte, Bool.and_eq_true, decide_eq_true_eq, decide_eq_true_eq] at h
  exact isAscii_of_between (by decide) (by decide) h

theorem isAscii_of_isHexByte {b : UInt8} (h : isHexByte b = true) : IsAscii b := by
  simp only [isHexByte, Bool.or_eq_true, Bool.and_eq_true, decide_eq_true_eq] at h
  rcases h with (h | h) | h
  · exact isAscii_of_isDigitByte h
  all_goals exact isAscii_of_between (by decide) (by decide) h

/-! ## 3. Blanks and comments -/

theorem le_lineBreakFrom (src : Source) (fuel i : Nat) : i ≤ lineBreakFrom src fuel i := by
  induction fuel generalizing i with
  | zero => exact Nat.le_refl i
  | succ fuel ih =>
    rw [lineBreakFrom]
    dsimp only
    split
    · exact Nat.le_refl i
    · exact Nat.le_trans (Nat.le_add_right i _) (ih _)

/-- A line breaks on the characters of a text, if it does not end with the text. -/
theorem isBoundary_lineBreakFrom (fuel : Nat)
    (h : IsBoundary s i ∨ (Source.ofString s).size ≤ i) :
    IsBoundary s (min (Source.ofString s).size (lineBreakFrom (.ofString s) fuel i)) := by
  have hstop {i : Nat} (h : IsBoundary s i ∨ (Source.ofString s).size ≤ i) :
      IsBoundary s (min (Source.ofString s).size i) := by
    rcases h with h | h
    · rwa [Nat.min_eq_right h.le_size]
    · rw [Nat.min_eq_left h]
      exact isBoundary_size
  induction fuel generalizing i with
  | zero => exact hstop h
  | succ fuel ih =>
    rw [lineBreakFrom]
    dsimp only
    split
    · exact hstop h
    · refine ih ?_
      by_cases hlt : i < (Source.ofString s).size
      · exact .inl ((Onward.decode hlt).boundary (h.resolve_right (Nat.not_le.mpr hlt)))
      · exact .inr (Nat.le_trans (Nat.not_lt.mp hlt) (Nat.le_add_right i _))

theorem onward_lineBreak (fuel : Nat) (h : IsBoundary s i) :
    Onward s i (min (Source.ofString s).size (lineBreakFrom (.ofString s) fuel i)) :=
  ⟨Nat.le_min.mpr ⟨h.le_size, le_lineBreakFrom _ fuel i⟩,
    fun h => isBoundary_lineBreakFrom fuel (.inl h)⟩

theorem le_blockEnd {fuel : Nat} (h : blockEnd? src fuel i = some j) : i ≤ j := by
  induction fuel generalizing i with
  | zero => cases h
  | succ fuel ih =>
    rw [blockEnd?] at h
    split at h
    · split at h
      · exact Option.some.inj h ▸ Nat.le_add_right i 2
      · exact Nat.le_of_succ_le (ih h)
    · cases h

theorem isBoundary_blockEnd {fuel : Nat} (h : blockEnd? (.ofString s) fuel i = some j) :
    IsBoundary s j := by
  induction fuel generalizing i with
  | zero => cases h
  | succ fuel ih =>
    rw [blockEnd?] at h
    split at h
    · split at h
      · rename_i hend
        rw [Bool.and_eq_true, decide_eq_true_eq, decide_eq_true_eq] at hend
        have hslash : IsAscii ((Source.ofString s).byte (i + 1)) := by
          rw [hend.2]
          decide
        exact Option.some.inj h ▸ (isBoundary_of_ascii hslash).2
      · exact ih h
    · cases h

/-- A comment ends between characters. -/
theorem onward_commentEnd (h : commentEnd? (.ofString s) i = some j) : Onward s i j := by
  rw [commentEnd?] at h
  split at h
  · rename_i hline
    rw [Bool.and_eq_true, decide_eq_true_eq, decide_eq_true_eq] at hline
    rw [← Option.some.inj h]
    exact onward_lineBreak _ (isBoundary_of_ascii (hline.1 ▸ by decide)).1
  · split at h
    · have hle := le_blockEnd h
      exact ⟨by omega, fun _ => isBoundary_blockEnd h⟩
    · cases h

/-- A byte below 128 is decoded alone. -/
theorem decode_of_byte {b : UInt8} (h : src.byte i = b) (hb : b < 128) :
    src.decode i = (b.toNat, 1) := by
  have hlt : b.toNat < 0x80 := hb
  rw [Source.decode, h, if_pos hlt]

/-- No comment is empty. -/
theorem lt_commentEnd (h : commentEnd? src i = some j) : i < j := by
  rw [commentEnd?] at h
  split at h
  · rename_i hline
    rw [Bool.and_eq_true, decide_eq_true_eq, decide_eq_true_eq] at hline
    have hlt : i < src.size := lt_size_of_byte (by rw [hline.1]; decide)
    obtain ⟨fuel, hfuel⟩ : ∃ fuel, src.size - i = fuel + 1 := ⟨src.size - i - 1, by omega⟩
    rw [hfuel, lineBreakFrom, decode_of_byte hline.1 (by decide)] at h
    have hle := le_lineBreakFrom src fuel (i + 1)
    have h : min src.size (lineBreakFrom src fuel (i + 1)) = j := Option.some.inj h
    omega
  · split at h
    · have hle := le_blockEnd h
      omega
    · cases h

/-- Nothing but blanks and comments stands from the offset `i` up to `j`. -/
inductive Gap (src : Source) : Nat → Nat → Prop where
  | nil (i : Nat) : Gap src i i
  | blank {i j : Nat} (hlt : i < src.size) (hblank : isSeparator (src.decode i).1 = true)
      (rest : Gap src (i + (src.decode i).2) j) : Gap src i j
  | comment {i j k : Nat} (hend : commentEnd? src i = some k) (rest : Gap src k j) : Gap src i j

theorem Gap.trans (h₁ : Gap src i j) (h₂ : Gap src j k) : Gap src i k := by
  induction h₁ with
  | nil i => exact h₂
  | blank hlt hblank _ ih => exact .blank hlt hblank (ih h₂)
  | comment hend _ ih => exact .comment hend (ih h₂)

theorem Gap.onward (h : Gap (.ofString s) i j) : Onward s i j := by
  induction h with
  | nil i => exact .rfl
  | blank hlt _ _ ih => exact (Onward.decode hlt).trans ih
  | comment hend _ ih => exact (onward_commentEnd hend).trans ih

theorem gap_skipTrivia (src : Source) (fuel i : Nat) : Gap src i (skipTrivia src fuel i) := by
  induction fuel generalizing i with
  | zero => exact .nil i
  | succ fuel ih =>
    rw [skipTrivia]
    split
    · exact .nil i
    · rename_i hlt
      dsimp only
      split
      · exact .blank (Nat.not_le.mp hlt) ‹_› (ih _)
      · split
        · split
          · exact .comment ‹_› (ih _)
          · exact .nil i
        · exact .nil i

/-- **What stands before a token** are blanks and comments. -/
theorem gap_tokenStart (src : Source) (i : Nat) : Gap src i (tokenStart src i) :=
  gap_skipTrivia src _ i

/-- A statement that ends without a semicolon ends behind blanks and comments. -/
theorem gap_autoSemicolonFrom {context : EndContext} {fuel last : Nat} (hlast : Gap src i last)
    (hj : Gap src last j) (h : autoSemicolonFrom src context last fuel j = some k) :
    Gap src i k := by
  induction fuel generalizing last j with
  | zero =>
    rw [← Option.some.inj h]
    exact hlast
  | succ fuel ih =>
    rw [autoSemicolonFrom] at h
    have hdone (h : some last = some k) : Gap src i k := Option.some.inj h ▸ hlast
    split at h
    · exact hdone h
    · rename_i hlt
      dsimp only at h
      split at h
      · split at h
        · split at h
          · exact hdone h
          · cases h
        · exact hdone h
      · split at h
        · split at h
          · exact hdone h
          · cases h
        · split at h
          · rename_i hblank
            exact ih hlast (hj.trans (.blank (Nat.not_le.mp hlt) hblank (.nil _))) h
          · split at h
            · rename_i stop hend
              exact ih (hlast.trans (hj.trans (.comment hend (.nil stop)))) (.nil stop) h
            · cases h

theorem gap_autoSemicolon {context : EndContext} (h : autoSemicolon? src context i = some j) :
    Gap src i j :=
  gap_autoSemicolonFrom (.nil i) (.nil i) h

/-! ## 4. Words and numbers -/

theorem onward_hexDigitsEnd (fuel i : Nat) : Onward s i (hexDigitsEnd (.ofString s) fuel i) := by
  induction fuel generalizing i with
  | zero => exact .rfl
  | succ fuel ih =>
    rw [hexDigitsEnd]
    split
    · exact (Onward.ascii (isAscii_of_isHexByte ‹_›)).trans (ih _)
    · exact .rfl

theorem onward_escapeEnd (h : escapeEnd? (.ofString s) i = some j) : Onward s i j := by
  rw [escapeEnd?] at h
  split at h
  · rename_i hlead
    rw [Bool.and_eq_true, decide_eq_true_eq, decide_eq_true_eq] at hlead
    have htwo : Onward s i (i + 2) :=
      (Onward.byte hlead.1 (by decide)).trans (.byte hlead.2 (by decide))
    split at h
    · rename_i hbrace
      dsimp only at h
      split at h
      · rename_i hdigits
        rw [Bool.and_eq_true, decide_eq_true_eq, decide_eq_true_eq] at hdigits
        exact Option.some.inj h ▸ htwo.trans ((Onward.byte hbrace (by decide)).trans
          ((onward_hexDigitsEnd _ _).trans (.byte hdigits.2 (by decide))))
      · cases h
    · split at h
      · rename_i hdigits
        have hfour := onward_hexDigitsEnd (s := s) 4 (i + 2)
        rw [hdigits] at hfour
        exact Option.some.inj h ▸ htwo.trans hfour
      · cases h
  · cases h

theorem onward_wordEnd (fuel i : Nat) : Onward s i (wordEnd (.ofString s) fuel i) := by
  induction fuel generalizing i with
  | zero => exact .rfl
  | succ fuel ih =>
    rw [wordEnd]
    split
    · exact .rfl
    · rename_i hlt
      dsimp only
      split
      · exact (Onward.decode (Nat.not_le.mp hlt)).trans (ih _)
      · split
        · exact (onward_escapeEnd ‹_›).trans (ih _)
        · exact .rfl

theorem onward_runEnd {p : UInt8 → Bool} (hp : ∀ b, p b = true → IsAscii b) (fuel i : Nat) :
    Onward s i (runEnd (.ofString s) p fuel i) := by
  induction fuel generalizing i with
  | zero => exact .rfl
  | succ fuel ih =>
    rw [runEnd]
    split
    · exact (Onward.ascii (hp _ ‹_›)).trans (ih _)
    · split
      · rename_i hjoined
        rw [Bool.and_eq_true, decide_eq_true_eq] at hjoined
        have hmark := Onward.byte hjoined.1 (by decide)
        exact hmark.trans ((Onward.ascii (hp _ hjoined.2)).trans (ih _))
      · exact .rfl

theorem onward_digits (fuel i : Nat) : Onward s i (runEnd (.ofString s) isDigitByte fuel i) :=
  onward_runEnd (fun _ => isAscii_of_isDigitByte) fuel i

theorem onward_exponentEnd (i : Nat) : Onward s i (exponentEnd (.ofString s) i) := by
  rw [exponentEnd]
  split
  · rename_i hletter
    have hone : Onward s i (i + 1) := by
      rw [Bool.or_eq_true, decide_eq_true_eq, decide_eq_true_eq] at hletter
      rcases hletter with h | h
      · exact .byte h (by decide)
      · exact .byte h (by decide)
    have hsigned : Onward s i (if (Source.ofString s).byte (i + 1) = 43 ||
        (Source.ofString s).byte (i + 1) = 45 then i + 2 else i + 1) := by
      split
      · rename_i hsign
        rw [Bool.or_eq_true, decide_eq_true_eq, decide_eq_true_eq] at hsign
        rcases hsign with h | h
        · exact hone.trans (.byte h (by decide))
        · exact hone.trans (.byte h (by decide))
      · exact hone
    dsimp only
    generalize (if (Source.ofString s).byte (i + 1) = 43 ||
      (Source.ofString s).byte (i + 1) = 45 then i + 2 else i + 1) = signed at hsigned ⊢
    split
    · exact hsigned.trans (onward_digits _ _)
    · exact .rfl
  · exact .rfl

theorem onward_basedEnd (h : basedEnd? (.ofString s) i = some j) : Onward s i j := by
  rw [basedEnd?] at h
  dsimp only at h
  -- a zero, a letter, and digits of one kind
  have hrun (p : UInt8 → Bool) (hp : ∀ b, p b = true → IsAscii b)
      (hlead : Onward s i (i + 2))
      (h : (if p ((Source.ofString s).byte (i + 2)) = true then
        some (runEnd (.ofString s) p ((Source.ofString s).size - i) (i + 2)) else none) = some j) :
      Onward s i j := by
    split at h
    · exact Option.some.inj h ▸ hlead.trans (onward_runEnd hp _ _)
    · cases h
  split at h
  · rename_i hzero
    have hone : Onward s i (i + 1) := .byte hzero (by decide)
    have hlead {b c : UInt8} (hb : IsAscii b) (hc : IsAscii c)
        (h : (decide ((Source.ofString s).byte (i + 1) = b) ||
          decide ((Source.ofString s).byte (i + 1) = c)) = true) : Onward s i (i + 2) := by
      rw [Bool.or_eq_true, decide_eq_true_eq, decide_eq_true_eq] at h
      rcases h with h | h
      · exact hone.trans (.byte h hb)
      · exact hone.trans (.byte h hc)
    split at h
    · rename_i hletter
      exact hrun isHexByte (fun _ => isAscii_of_isHexByte) (hlead (by decide) (by decide) hletter) h
    · split at h
      · rename_i hletter
        refine hrun (fun b => b = 48 || b = 49) (fun b hb => ?_)
          (hlead (by decide) (by decide) hletter) h
        rw [Bool.or_eq_true, decide_eq_true_eq, decide_eq_true_eq] at hb
        rcases hb with rfl | rfl <;> decide
      · split at h
        · rename_i hletter
          refine hrun (fun b => 48 ≤ b && b ≤ 55) (fun b hb => ?_)
            (hlead (by decide) (by decide) hletter) h
          rw [Bool.and_eq_true, decide_eq_true_eq, decide_eq_true_eq] at hb
          exact isAscii_of_between (by decide) (by decide) hb
        · cases h
  · cases h

theorem onward_numberEnd (i : Nat) : Onward s i (numberEnd (.ofString s) i) := by
  rw [numberEnd]
  split
  · rename_i based hbased
    rw [bigEnd]
    split
    · exact (onward_basedEnd hbased).trans (.byte ‹_› (by decide))
    · exact onward_basedEnd hbased
  · have hwhole := onward_digits (s := s) ((Source.ofString s).size - i) i
    dsimp only
    split
    · exact hwhole.trans ((Onward.byte ‹_› (by decide)).trans
        ((onward_digits _ _).trans (onward_exponentEnd _)))
    · split
      · exact hwhole.trans (.byte ‹_› (by decide))
      · exact hwhole.trans (onward_exponentEnd _)

/-! ## 5. Texts, regular expressions and templates -/

theorem onward_quoteEnd {quote : UInt8} (hquote : IsAscii quote) {fuel : Nat}
    (h : quoteEnd? (.ofString s) quote fuel i = some j) : Onward s i j := by
  have hspec : i ≤ j ∧ IsBoundary s j := by
    induction fuel generalizing i with
    | zero => cases h
    | succ fuel ih =>
      rw [quoteEnd?] at h
      dsimp only at h
      split at h
      · cases h
      · split at h
        · rename_i hend
          obtain rfl := Option.some.inj h
          exact ⟨Nat.le_succ i, (isBoundary_of_ascii (hend ▸ hquote)).2⟩
        · split at h
          · split at h
            · exact ⟨by have := (ih h).1; omega, (ih h).2⟩
            · exact ⟨by have := (ih h).1; omega, (ih h).2⟩
          · split at h
            · cases h
            · exact ⟨Nat.le_of_succ_le (ih h).1, (ih h).2⟩
  exact ⟨hspec.1, fun _ => hspec.2⟩

/-- A text between quotes ends with its quote. -/
theorem byte_of_quoteEnd {quote : UInt8} {fuel : Nat} (h : quoteEnd? src quote fuel i = some j) :
    i < j ∧ src.byte (j - 1) = quote := by
  induction fuel generalizing i with
  | zero => cases h
  | succ fuel ih =>
    rw [quoteEnd?] at h
    dsimp only at h
    split at h
    · cases h
    · split at h
      · rename_i hend
        obtain rfl := Option.some.inj h
        exact ⟨Nat.lt_succ_self i, hend⟩
      · split at h
        · split at h <;> exact ⟨by have := (ih h).1; omega, (ih h).2⟩
        · split at h
          · cases h
          · exact ⟨Nat.lt_of_succ_lt (ih h).1, (ih h).2⟩

/-- Characters between two quotation marks that are the same. -/
def IsQuoted (cs : List Char) : Prop :=
  ∃ q inner, (q = '"' ∨ q = '\'') ∧ cs = q :: (inner ++ [q])

theorem exists_stands_quoted {fuel : Nat} {b : UInt8} (hb : b = 34 ∨ b = 39)
    (h : (Source.ofString s).byte i = b)
    (hend : quoteEnd? (.ofString s) b fuel (i + 1) = some j) :
    ∃ cs, Stands s i j cs ∧ IsQuoted cs := by
  obtain ⟨q, hq, hencode⟩ : ∃ q, (q = '"' ∨ q = '\'') ∧ String.utf8EncodeChar q = [b] := by
    rcases hb with rfl | rfl
    · exact ⟨'"', .inl rfl, by decide⟩
    · exact ⟨'\'', .inr rfl, by decide⟩
  have hascii : IsAscii b := by rcases hb with rfl | rfl <;> decide
  obtain ⟨hlt, hlast⟩ := byte_of_quoteEnd hend
  have hopen := stands_of_byte hencode hascii h
  have hclose := stands_of_byte hencode hascii hlast
  obtain ⟨inner, hinner⟩ := exists_stands hopen.stop (isBoundary_of_ascii (hlast ▸ hascii)).1
    (Nat.le_sub_one_of_lt hlt)
  rw [Nat.sub_add_cancel (Nat.one_le_of_lt hlt)] at hclose
  exact ⟨_, hopen.append (hinner.append hclose), q, inner, hq, rfl⟩

theorem patternEnd?_spec {inClass : Bool} {fuel : Nat}
    (h : patternEnd? (.ofString s) inClass fuel i = some j) : i ≤ j ∧ IsBoundary s j := by
  induction fuel generalizing i inClass with
  | zero => cases h
  | succ fuel ih =>
    rw [patternEnd?] at h
    dsimp only at h
    split at h
    · cases h
    · split at h
      · cases h
      · split at h
        · split at h
          · cases h
          · exact ⟨by have := (ih h).1; omega, (ih h).2⟩
        · split at h
          · exact ⟨Nat.le_of_succ_le (ih h).1, (ih h).2⟩
          · split at h
            · exact ⟨Nat.le_of_succ_le (ih h).1, (ih h).2⟩
            · split at h
              · rename_i hend
                rw [Bool.and_eq_true, decide_eq_true_eq] at hend
                obtain rfl := Option.some.inj h
                exact ⟨Nat.le_succ i, (isBoundary_of_ascii (hend.1 ▸ by decide)).2⟩
              · exact ⟨Nat.le_of_succ_le (ih h).1, (ih h).2⟩

/-- A regular expression ends between characters. -/
theorem onward_regexEnd (h : regexEnd? (.ofString s) i = some j) : Onward s i j := by
  obtain ⟨stop, hstop, rfl⟩ := Option.map_eq_some_iff.mp h
  obtain ⟨hle, hboundary⟩ := patternEnd?_spec hstop
  refine .trans ⟨Nat.le_of_succ_le hle, fun _ => hboundary⟩ (onward_runEnd (fun b hb => ?_) _ _)
  rw [Bool.and_eq_true, decide_eq_true_eq, decide_eq_true_eq] at hb
  exact isAscii_of_between (by decide) (by decide) hb

/-- A piece of a template ends before its closing mark, or before the two marks that open a
    substitution. -/
theorem templatePieceEnd?_spec {fuel : Nat}
    (h : templatePieceEnd? (.ofString s) fuel i = some j) : Onward s i j ∧
      Onward s j (j + 1) ∧ ((Source.ofString s).byte j ≠ 96 → Onward s j (j + 2)) := by
  have hspec : i ≤ j ∧ IsBoundary s j ∧ Onward s j (j + 1) ∧
      ((Source.ofString s).byte j ≠ 96 → Onward s j (j + 2)) := by
    induction fuel generalizing i with
    | zero => cases h
    | succ fuel ih =>
      rw [templatePieceEnd?] at h
      dsimp only at h
      split at h
      · cases h
      · split at h
        · rename_i htick
          obtain rfl := Option.some.inj h
          exact ⟨Nat.le_refl i, (isBoundary_of_ascii (htick ▸ by decide)).1,
            .byte htick (by decide), fun hno => absurd htick hno⟩
        · split at h
          · rename_i hopen
            rw [Bool.and_eq_true, decide_eq_true_eq, decide_eq_true_eq] at hopen
            obtain rfl := Option.some.inj h
            have hone : Onward s i (i + 1) := .byte hopen.1 (by decide)
            exact ⟨Nat.le_refl i, (isBoundary_of_ascii (hopen.1 ▸ by decide)).1, hone,
              fun _ => hone.trans (.byte hopen.2 (by decide))⟩
          · split at h
            · exact ⟨by have := (ih h).1; omega, (ih h).2⟩
            · exact ⟨Nat.le_of_succ_le (ih h).1, (ih h).2⟩
  exact ⟨⟨hspec.1, fun _ => hspec.2.1⟩, hspec.2.2⟩

/-! ## 6. Tokens -/

theorem Onward.stands {bs : List UInt8} (hbs : ∀ b ∈ bs, IsAscii b)
    (h : standsAt (.ofString s) i bs = true) : Onward s i (i + bs.length) := by
  induction bs generalizing i with
  | nil => exact .rfl
  | cons b bs ih =>
    rw [standsAt, Bool.and_eq_true, Bool.and_eq_true, beq_iff_eq] at h
    have hrest := ih (fun c hc => hbs c (List.mem_cons_of_mem b hc)) h.2
    rw [List.length_cons, Nat.add_comm bs.length 1, ← Nat.add_assoc]
    exact (Onward.byte h.1.2 (hbs b List.mem_cons_self)).trans hrest

theorem map_byte_of_standsAt {bs : List UInt8} (h : standsAt src i bs = true) :
    (List.range' i bs.length).map src.byte = bs := by
  induction bs generalizing i with
  | nil => rfl
  | cons b bs ih =>
    rw [standsAt, Bool.and_eq_true, Bool.and_eq_true, beq_iff_eq] at h
    rw [List.length_cons, List.range'_succ, List.map_cons, h.1.2, ih h.2]

/-- The marks are made of bytes that are characters of their own. -/
theorem mem_markBytes_spec {m : String × List UInt8} (h : m ∈ markBytes) :
    m.2 = bytesOf m.1.toList ∧ m.2.length = m.1.utf8ByteSize ∧ ∀ b ∈ m.2, IsAscii b := by
  have hall : ∀ m ∈ markBytes, m.2 = bytesOf m.1.toList ∧ m.2.length = m.1.utf8ByteSize ∧
      ∀ b ∈ m.2, IsAscii b := by
    decide +kernel
  exact hall m h

theorem markAt?_spec {mark : String} (h : markAt? src i = some mark) :
    ∃ m ∈ markBytes, m.1 = mark ∧ standsAt src i m.2 = true := by
  rw [markAt?] at h
  split at h
  · rename_i hasked
    rw [Bool.and_eq_true, Bool.and_eq_true, decide_eq_true_eq] at hasked
    have hlt : i < src.size := lt_size_of_byte (by rw [hasked.1.1]; decide)
    refine ⟨("?", [63]), by decide +kernel, Option.some.inj h, ?_⟩
    simp [standsAt, hlt, hasked.1.1]
  · obtain ⟨m, hm, rfl⟩ := Option.map_eq_some_iff.mp h
    exact ⟨m, List.mem_of_find?_eq_some hm, rfl, by simpa using List.find?_some hm⟩

/-- A text whose bytes stand somewhere is read there. -/
theorem text_of_stands {t : String} (ha : IsBoundary s i)
    (hb : IsBoundary s (i + (bytesOf t.toList).length))
    (h : standsAt (.ofString s) i (bytesOf t.toList) = true) :
    (Source.ofString s).text i (i + (bytesOf t.toList).length) = t := by
  obtain ⟨cs, hcs⟩ := exists_stands ha hb (Nat.le_add_right i _)
  have hbytes := hcs.map_byte
  rw [Nat.add_sub_cancel_left, map_byte_of_standsAt h] at hbytes
  rw [hcs.text_eq]
  refine String.toByteArray_inj.mp ?_
  rw [String.toByteArray_ofList, utf8Encode_eq, ← hbytes, toByteArray_eq, utf8Encode_eq]

theorem isBoundary_mark {mark : String} (h : markAt? (.ofString s) i = some mark) :
    Onward s i (i + mark.utf8ByteSize) := by
  obtain ⟨m, hm, rfl, hstands⟩ := markAt?_spec h
  obtain ⟨_, hlen, hascii⟩ := mem_markBytes_spec hm
  exact hlen ▸ Onward.stands hascii hstands

namespace Token

@[simp] theorem start_readAt (src : Source) (i : Nat) : (readAt src i).start = i := by
  unfold readAt
  dsimp only
  repeat' split
  all_goals rfl

/-- A token ends between characters. -/
theorem onward_readAt (s : String) (i : Nat) : Onward s i (readAt (.ofString s) i).stop := by
  unfold readAt
  dsimp only
  split
  · exact .rfl
  · rename_i hlt
    have hchar : Onward s i (i + ((Source.ofString s).decode i).2) :=
      .decode (Nat.not_le.mp hlt)
    split
    · exact onward_numberEnd i
    · split
      · split
        · exact onward_wordEnd _ i
        · exact hchar
      · split
        · rename_i hquote
          rw [Bool.or_eq_true, decide_eq_true_eq, decide_eq_true_eq] at hquote
          have hascii : IsAscii ((Source.ofString s).byte i) := by
            rcases hquote with h | h <;> rw [h] <;> decide
          split
          · exact (Onward.ascii hascii).trans (onward_quoteEnd hascii ‹_›)
          · exact .ascii hascii
        · split
          · exact .byte ‹_› (by decide)
          · split
            · rename_i hhash
              have hone : Onward s i (i + 1) := .byte hhash (by decide)
              split
              · exact hone.trans (onward_wordEnd _ _)
              · exact hone
            · split
              · exact isBoundary_mark ‹_›
              · exact hchar

/-- **The text of a word or a mark** is what stands there. -/
theorem text_readAt (hi : IsBoundary s i) (h : (readAt (.ofString s) i).lexeme = .word ∨
    (readAt (.ofString s) i).lexeme = .mark) :
    (readAt (.ofString s) i).text = (Source.ofString s).text i (readAt (.ofString s) i).stop := by
  have hcases : (∃ j, readAt (.ofString s) i = ⟨.word, (Source.ofString s).text i j, i, j⟩) ∨
      ∃ mark, markAt? (.ofString s) i = some mark ∧
        readAt (.ofString s) i = ⟨.mark, mark, i, i + mark.utf8ByteSize⟩ := by
    unfold readAt at h ⊢
    dsimp only at h ⊢
    repeat' split
    all_goals simp_all
  rcases hcases with ⟨j, hj⟩ | ⟨mark, hmark, hj⟩
  · rw [hj]
  · rw [hj]
    have hstop := (isBoundary_mark hmark).boundary hi
    obtain ⟨m, hm, rfl, hstands⟩ := markAt?_spec hmark
    obtain ⟨hbytes, hlen, _⟩ := mem_markBytes_spec hm
    rw [← hlen, hbytes] at hstop ⊢
    rw [hbytes] at hstands
    exact (text_of_stands hi hstop hstands).symm

/-- **A literal text** stands between two quotation marks that are the same. -/
theorem exists_of_quoted (h : (readAt (.ofString s) i).lexeme = .quoted) :
    ∃ cs, Stands s i (readAt (.ofString s) i).stop cs ∧ IsQuoted cs := by
  have hcases : ∃ j, ((Source.ofString s).byte i = 34 ∨ (Source.ofString s).byte i = 39) ∧
      quoteEnd? (.ofString s) ((Source.ofString s).byte i) ((Source.ofString s).size - i) (i + 1) =
        some j ∧
      readAt (.ofString s) i = ⟨.quoted, "", i, j⟩ := by
    unfold readAt at h ⊢
    dsimp only at h ⊢
    repeat' split
    all_goals simp_all
  obtain ⟨j, hquote, hend, hread⟩ := hcases
  rw [hread]
  exact exists_stands_quoted hquote rfl hend

/-! ### The next token -/

theorem start_scan (src : Source) (i : Nat) : (scan src i).start = tokenStart src i :=
  start_readAt src _

/-- The next token stands behind a gap. -/
theorem gap_scan (src : Source) (i : Nat) : Gap src i (scan src i).start :=
  start_scan src i ▸ gap_tokenStart src i

theorem onward_scan (s : String) (i : Nat) :
    Onward s (scan (.ofString s) i).start (scan (.ofString s) i).stop :=
  start_scan _ i ▸ onward_readAt s _

theorem text_scan (hi : IsBoundary s i) (h : (scan (.ofString s) i).lexeme = .word ∨
    (scan (.ofString s) i).lexeme = .mark) : (scan (.ofString s) i).text =
      (Source.ofString s).text (scan (.ofString s) i).start (scan (.ofString s) i).stop := by
  rw [start_scan]
  exact text_readAt ((gap_tokenStart _ i).onward.boundary hi) h

end Token

end ClassScript.Syntax
