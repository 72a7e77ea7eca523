/-
  File:      ClassScript/Proofs/Syntax/Source.lean
  Subject:   What byte offsets say about the characters of a text.

  Trees and edits count bytes; what a reader sees are characters. An offset
  is a boundary if no character straddles it. Between two boundaries stand
  whole characters, and only there are slices, blanks and lines of the text
  what they seem to be.

  * `IsBoundary`, `Stands`: offsets between characters, and what stands
    between two of them;
  * `IsInk`: a byte belongs to a character that is not blank;
  * `isBlankBetween_eq_true_iff`: a range is blank exactly if it has no ink;
  * `lineStart_le`, `lt_lineStart`, `le_lineEnd`: the line around an offset.
-/
import ClassScript.Emission.Basic

namespace ClassScript.Syntax

/-! ## 1. Characters and their bytes -/

/-- The number of bytes of some characters. -/
def width : List Char → Nat
  | [] => 0
  | c :: cs => c.utf8Size + width cs

@[simp] theorem width_nil : width [] = 0 := rfl

@[simp] theorem width_cons (c : Char) (cs : List Char) : width (c :: cs) = c.utf8Size + width cs :=
  rfl

@[simp] theorem width_append (as bs : List Char) : width (as ++ bs) = width as + width bs := by
  induction as with
  | nil => rw [List.nil_append, width_nil, Nat.zero_add]
  | cons a as ih => rw [List.cons_append, width_cons, width_cons, ih, Nat.add_assoc]

theorem width_eq_zero {cs : List Char} (h : width cs = 0) : cs = [] := by
  cases cs with
  | nil => rfl
  | cons c cs =>
    have hc := c.utf8Size_pos
    simp only [width_cons] at h
    omega

/-- The bytes of some characters, as a list. -/
def bytesOf (cs : List Char) : List UInt8 := cs.flatMap String.utf8EncodeChar

@[simp] theorem bytesOf_nil : bytesOf [] = [] := rfl

@[simp] theorem bytesOf_cons (c : Char) (cs : List Char) :
    bytesOf (c :: cs) = String.utf8EncodeChar c ++ bytesOf cs := rfl

@[simp] theorem bytesOf_append (as bs : List Char) :
    bytesOf (as ++ bs) = bytesOf as ++ bytesOf bs := List.flatMap_append

@[simp] theorem length_bytesOf (cs : List Char) : (bytesOf cs).length = width cs := by
  induction cs with
  | nil => rfl
  | cons c cs ih =>
    rw [bytesOf_cons, List.length_append, String.length_utf8EncodeChar, ih, width_cons]

theorem utf8Encode_eq (cs : List Char) : cs.utf8Encode = (bytesOf cs).toByteArray := rfl

@[simp] theorem toList_utf8Encode (cs : List Char) : cs.utf8Encode.data.toList = bytesOf cs := by
  rw [utf8Encode_eq, List.data_toByteArray]

@[simp] theorem size_utf8Encode (cs : List Char) : cs.utf8Encode.size = width cs := by
  rw [← length_bytesOf, ← toList_utf8Encode]
  rfl

theorem toByteArray_eq (s : String) : s.toByteArray = s.toList.utf8Encode := by
  rw [← String.toByteArray_ofList, String.ofList_toList]

/-- The character one of whose bytes is the `i`th. -/
def characterAt? : List Char → Nat → Option Char
  | [], _ => none
  | c :: cs, i => if i < c.utf8Size then some c else characterAt? cs (i - c.utf8Size)

theorem mem_of_characterAt? {cs : List Char} {i : Nat} {c : Char}
    (h : characterAt? cs i = some c) : c ∈ cs := by
  induction cs generalizing i with
  | nil => cases h
  | cons d cs ih =>
    rw [characterAt?] at h
    split at h
    · rw [Option.some.inj h]
      exact List.mem_cons_self
    · exact List.mem_cons_of_mem d (ih h)

theorem characterAt?_append_left {as : List Char} {i : Nat} (bs : List Char) (h : i < width as) :
    characterAt? (as ++ bs) i = characterAt? as i := by
  induction as generalizing i with
  | nil => simp at h
  | cons a as ih =>
    rw [width_cons] at h
    simp only [List.cons_append, characterAt?]
    split
    · rfl
    · exact ih (by omega)

theorem characterAt?_append_right {as : List Char} {i : Nat} (bs : List Char) (h : width as ≤ i) :
    characterAt? (as ++ bs) i = characterAt? bs (i - width as) := by
  induction as generalizing i with
  | nil => rfl
  | cons a as ih =>
    rw [width_cons] at h
    rw [List.cons_append, characterAt?, if_neg (by omega), ih (by omega), width_cons, Nat.sub_sub]

/-- Every character has a first byte. -/
theorem exists_characterAt? {cs : List Char} {c : Char} (h : c ∈ cs) :
    ∃ i < width cs, characterAt? cs i = some c := by
  obtain ⟨before, after, rfl⟩ := List.append_of_mem h
  have hc := c.utf8Size_pos
  refine ⟨width before, by simp only [width_append, width_cons]; omega, ?_⟩
  rw [characterAt?_append_right _ (Nat.le_refl _), Nat.sub_self, characterAt?, if_pos hc]

/-- The byte of a line feed occurs in no other character. -/
theorem eq_lineFeed_of_mem {c : Char} (h : (10 : UInt8) ∈ String.utf8EncodeChar c) : c = '\n' := by
  have hten (n : Nat) (e : (10 : UInt8) = UInt8.ofNat n) : n % 256 = 10 := by
    simpa using (congrArg UInt8.toNat e).symm
  have hv : c.val.toNat = 10 := by
    unfold String.utf8EncodeChar at h
    dsimp only at h
    -- all bytes of a longer character are at least 128
    split at h
    · have h := hten _ (List.mem_singleton.mp h)
      omega
    · split at h
      · simp only [List.mem_cons, List.not_mem_nil, or_false] at h
        rcases h with h | h <;> have h := hten _ h <;> omega
      · split at h
        · simp only [List.mem_cons, List.not_mem_nil, or_false] at h
          rcases h with h | h | h <;> have h := hten _ h <;> omega
        · simp only [List.mem_cons, List.not_mem_nil, or_false] at h
          rcases h with h | h | h | h <;> have h := hten _ h <;> omega
  exact Char.ext (UInt32.toNat_inj.mp hv)

/-! ## 2. Boundaries and what stands between them -/

variable {s : String} {a b i : Nat} {cs : List Char}

/-- No character straddles the offset `i`. -/
def IsBoundary (s : String) (i : Nat) : Prop := (⟨i⟩ : String.Pos.Raw).IsValid s

instance (s : String) (i : Nat) : Decidable (IsBoundary s i) :=
  inferInstanceAs (Decidable (String.Pos.Raw.IsValid s ⟨i⟩))

theorem isBoundary_iff :
    IsBoundary s i ↔ ∃ before after, s.toList = before ++ after ∧ width before = i := by
  rw [IsBoundary, String.Pos.Raw.isValid_iff_exists_append]
  constructor
  · rintro ⟨s₁, s₂, rfl, h⟩
    refine ⟨s₁.toList, s₂.toList, String.toList_append, ?_⟩
    rw [← size_utf8Encode, ← toByteArray_eq]
    exact (congrArg String.Pos.Raw.byteIdx h).symm
  · rintro ⟨before, after, hs, rfl⟩
    refine ⟨String.ofList before, String.ofList after, ?_, ?_⟩
    · rw [← String.ofList_append, ← hs, String.ofList_toList]
    · apply String.Pos.Raw.ext
      rw [← size_utf8Encode, ← String.toByteArray_ofList]
      rfl

/-- The characters `cs` stand from the offset `a` up to `b`. -/
def Stands (s : String) (a b : Nat) (cs : List Char) : Prop :=
  ∃ before after, s.toList = before ++ (cs ++ after) ∧ width before = a ∧ a + width cs = b

/-- Between two boundaries stand whole characters. -/
theorem exists_stands (ha : IsBoundary s a) (hb : IsBoundary s b) (hab : a ≤ b) :
    ∃ cs, Stands s a b cs := by
  obtain ⟨p, q, hp, rfl⟩ := isBoundary_iff.mp ha
  obtain ⟨p', q', hp', rfl⟩ := isBoundary_iff.mp hb
  rcases List.append_eq_append_iff.mp (hp.symm.trans hp') with ⟨m, rfl, rfl⟩ | ⟨m, rfl, rfl⟩
  · exact ⟨m, p, q', hp, rfl, (width_append p m).symm⟩
  · have hm : m = [] := width_eq_zero (by rw [width_append] at hab; omega)
    subst hm
    exact ⟨[], p', q, by simpa using hp, by simp, by simp⟩

/-- The offsets from the start to the end of a text. -/
theorem IsBoundary.le_size (h : IsBoundary s i) : i ≤ (Source.ofString s).size := by
  obtain ⟨p, q, hp, rfl⟩ := isBoundary_iff.mp h
  change _ ≤ s.toByteArray.size
  rw [toByteArray_eq, size_utf8Encode, hp, width_append]
  omega

theorem isBoundary_zero : IsBoundary s 0 := isBoundary_iff.mpr ⟨[], s.toList, rfl, rfl⟩

theorem isBoundary_size : IsBoundary s (Source.ofString s).size := by
  refine isBoundary_iff.mpr ⟨s.toList, [], (List.append_nil _).symm, ?_⟩
  rw [← size_utf8Encode, ← toByteArray_eq]
  rfl

namespace Stands

theorem stop (h : Stands s a b cs) : IsBoundary s b := by
  obtain ⟨p, q, hs, rfl, rfl⟩ := h
  exact isBoundary_iff.mpr ⟨p ++ cs, q, by rw [hs, List.append_assoc], width_append p cs⟩

/-- A slice between boundaries is made of the bytes that stand there. -/
theorem slice_eq (h : Stands s a b cs) : (Source.ofString s).slice a b = cs.utf8Encode := by
  obtain ⟨p, q, hs, rfl, rfl⟩ := h
  change s.toByteArray.extract _ _ = _
  have hskip := ByteArray.extract_append_size_add (a := p.utf8Encode)
    (b := cs.utf8Encode ++ q.utf8Encode) (i := 0) (j := cs.utf8Encode.size)
  rw [toByteArray_eq, hs, List.utf8Encode_append, List.utf8Encode_append, ← size_utf8Encode p,
    ← size_utf8Encode cs]
  exact hskip.trans (ByteArray.extract_append_eq_left rfl)

/-- The text between boundaries is what stands there. -/
theorem text_eq (h : Stands s a b cs) : (Source.ofString s).text a b = String.ofList cs := by
  have hv : (Source.ofString s).slice a b |>.IsValidUTF8 := ⟨cs, h.slice_eq⟩
  rw [Source.text, Source.textOf, String.fromUTF8?, dif_pos hv, Option.getD_some]
  exact String.toByteArray_inj.mp (h.slice_eq.trans String.toByteArray_ofList.symm)

/-- The `i`th byte belongs to a character that stands around it. -/
theorem characterAt?_eq (h : Stands s a b cs) (ha : a ≤ i) (hb : i < b) :
    characterAt? s.toList i = characterAt? cs (i - a) := by
  obtain ⟨p, q, hs, rfl, rfl⟩ := h
  rw [hs, characterAt?_append_right _ ha, characterAt?_append_left _ (by omega)]

end Stands

/-- What stands up to an offset and what stands from there on. -/
theorem Stands.append {j : Nat} {ds : List Char} (h₁ : Stands s a b cs) (h₂ : Stands s b j ds) :
    Stands s a j (cs ++ ds) := by
  obtain ⟨p, q, hs, rfl, rfl⟩ := h₁
  obtain ⟨p', q', hs', hw, rfl⟩ := h₂
  have hsame : p' = p ++ cs := by
    have heq : (p ++ cs) ++ q = p' ++ (ds ++ q') := by rw [List.append_assoc, ← hs, hs']
    rw [← width_append] at hw
    rcases List.append_eq_append_iff.mp heq with ⟨m, rfl, -⟩ | ⟨m, heq, -⟩
    · have hm : m = [] := width_eq_zero (by rw [width_append] at hw; omega)
      rw [hm, List.append_nil]
    · have hm : m = [] := width_eq_zero (by rw [heq, width_append] at hw; omega)
      rw [heq, hm, List.append_nil]
  exact ⟨p, q', by rw [hs', hsame, List.append_assoc, List.append_assoc], rfl,
    by rw [width_append, Nat.add_assoc]⟩

/-- A text is what stands in it up to an offset, and what stands behind. -/
theorem text_append {j : Nat} (ha : IsBoundary s a) (hb : IsBoundary s b) (hj : IsBoundary s j)
    (hab : a ≤ b) (hbj : b ≤ j) : (Source.ofString s).text a j =
      (Source.ofString s).text a b ++ (Source.ofString s).text b j := by
  obtain ⟨cs, hcs⟩ := exists_stands ha hb hab
  obtain ⟨ds, hds⟩ := exists_stands hb hj hbj
  rw [(hcs.append hds).text_eq, hcs.text_eq, hds.text_eq, String.ofList_append]

/-! ## 3. Ink -/

/-- The byte at `i` belongs to a character that is not blank. -/
def IsInk (s : String) (i : Nat) : Prop :=
  (characterAt? s.toList i).any (fun c => !Text.isBlank c) = true

instance (s : String) (i : Nat) : Decidable (IsInk s i) :=
  inferInstanceAs (Decidable ((characterAt? s.toList i).any _ = true))

theorem isInk_iff : IsInk s i ↔ ∃ c, characterAt? s.toList i = some c ∧ Text.isBlank c = false := by
  rw [IsInk, Option.any_eq_true]
  simp only [Bool.not_eq_eq_eq_not, Bool.not_true]

/-- Text that starts with no blank has ink at its start. -/
theorem Stands.ink {c : Char} (h : Stands s a b (c :: cs)) (hc : Text.isBlank c = false) :
    IsInk s a := by
  have hpos := c.utf8Size_pos
  have hlt : a < b := by
    obtain ⟨_, _, _, _, rfl⟩ := h
    rw [width_cons]
    omega
  refine isInk_iff.mpr ⟨c, ?_, hc⟩
  rw [h.characterAt?_eq (Nat.le_refl a) hlt, Nat.sub_self, characterAt?, if_pos hpos]

open Emission (isBlankBetween)

theorem Stands.isBlankBetween_eq (h : Stands s a b cs) :
    isBlankBetween (Source.ofString s) a b = cs.all Text.isBlank := by
  have hv : ((Source.ofString s).slice a b).IsValidUTF8 := ⟨cs, h.slice_eq⟩
  have htext : String.fromUTF8 _ hv = String.ofList cs :=
    String.toByteArray_inj.mp (h.slice_eq.trans String.toByteArray_ofList.symm)
  have hab : a ≤ b := by
    obtain ⟨_, _, _, _, rfl⟩ := h
    omega
  rw [isBlankBetween, decide_eq_true hab, Bool.true_and, String.fromUTF8?, dif_pos hv, htext]
  exact congrArg (List.all · Text.isBlank) String.toList_ofList

/-- **A range between boundaries is blank exactly if it has no ink.** -/
theorem isBlankBetween_eq_true_iff (ha : IsBoundary s a) (hb : IsBoundary s b) (hab : a ≤ b) :
    isBlankBetween (Source.ofString s) a b = true ↔ ∀ i, a ≤ i → i < b → ¬IsInk s i := by
  obtain ⟨cs, h⟩ := exists_stands ha hb hab
  have hw : a + width cs = b := by
    obtain ⟨_, _, _, _, hw⟩ := h
    exact hw
  rw [h.isBlankBetween_eq, List.all_eq_true]
  constructor
  · intro hall i hai hib hink
    obtain ⟨c, hc, hblank⟩ := isInk_iff.mp hink
    rw [h.characterAt?_eq hai hib] at hc
    rw [hall c (mem_of_characterAt? hc)] at hblank
    cases hblank
  · intro hno c hc
    obtain ⟨j, hj, hcj⟩ := exists_characterAt? hc
    cases hblank : Text.isBlank c with
    | true => rfl
    | false =>
      refine absurd (isInk_iff.mpr ⟨c, ?_, hblank⟩) (hno (a + j) (by omega) (by omega))
      rwa [h.characterAt?_eq (by omega) (by omega), Nat.add_sub_cancel_left]

theorem isBlankBetween_self (h : IsBoundary s a) :
    isBlankBetween (Source.ofString s) a a = true :=
  (isBlankBetween_eq_true_iff h h (Nat.le_refl a)).mpr fun i hai hia => absurd hia (by omega)

/-- A range that is not blank has ink. -/
theorem exists_ink (ha : IsBoundary s a) (hb : IsBoundary s b) (hab : a ≤ b)
    (h : isBlankBetween (Source.ofString s) a b = false) : ∃ i, a ≤ i ∧ i < b ∧ IsInk s i := by
  refine Classical.byContradiction fun hno => ?_
  rw [(isBlankBetween_eq_true_iff ha hb hab).mpr fun i hai hib hi => hno ⟨i, hai, hib, hi⟩] at h
  cases h

/-! ## 4. Lines -/

variable {src : Source} {j : Nat}

theorem lineStart_le (src : Source) (i : Nat) : src.lineStart i ≤ i := by
  induction i with
  | zero => exact Nat.le_refl 0
  | succ n ih =>
    rw [Source.lineStart]
    split
    · exact Nat.le_refl _
    · omega

/-- A line starts at the start of the text or after a line feed. -/
theorem lineStart_cases (src : Source) (i : Nat) :
    src.lineStart i = 0 ∨ ∃ j, src.lineStart i = j + 1 ∧ src.byte j = 10 := by
  induction i with
  | zero => exact .inl rfl
  | succ n ih =>
    rw [Source.lineStart]
    split
    · exact .inr ⟨n, rfl, ‹_›⟩
    · exact ih

/-- No line feed stands between the start of a line and an offset in it. -/
theorem lt_lineStart (h : src.byte j = 10) (hj : j < i) : j < src.lineStart i := by
  induction i with
  | zero => omega
  | succ n ih =>
    rw [Source.lineStart]
    split
    · exact hj
    · rename_i hn
      refine ih (Nat.lt_of_le_of_ne (by omega) ?_)
      rintro rfl
      exact hn h

theorem le_lineEnd (src : Source) (i : Nat) : i ≤ src.lineEnd i := by
  have hfrom (fuel : Nat) : ∀ i, i ≤ src.lineEndFrom fuel i := by
    induction fuel with
    | zero => exact Nat.le_refl
    | succ n ih =>
      intro i
      rw [Source.lineEndFrom]
      split
      · omega
      · exact Nat.le_of_succ_le (ih (i + 1))
  exact hfrom _ i

/-- A line ends at the end of the text or after a line feed. -/
theorem lineEnd_cases (h : i ≤ src.size) :
    src.lineEnd i = src.size ∨ ∃ j, i ≤ j ∧ src.lineEnd i = j + 1 ∧ src.byte j = 10 := by
  have hfrom (fuel : Nat) : ∀ i, src.lineEndFrom fuel i = i + fuel ∨
      ∃ j, i ≤ j ∧ src.lineEndFrom fuel i = j + 1 ∧ src.byte j = 10 := by
    induction fuel with
    | zero => exact fun i => .inl rfl
    | succ n ih =>
      intro i
      rw [Source.lineEndFrom]
      split
      · exact .inr ⟨i, Nat.le_refl i, rfl, ‹_›⟩
      · rcases ih (i + 1) with h | ⟨j, hj, h⟩
        · exact .inl (by omega)
        · exact .inr ⟨j, by omega, h⟩
  rcases hfrom (src.size - i) i with h | h
  · exact .inl (h.trans (by omega))
  · exact .inr h

/-- The byte of a line feed is a character of its own. -/
theorem exists_of_getElem?_bytesOf {cs : List Char} {i : Nat} (h : (bytesOf cs)[i]? = some 10) :
    ∃ before after, cs = before ++ '\n' :: after ∧ width before = i := by
  induction cs generalizing i with
  | nil => simp at h
  | cons c cs ih =>
    rw [bytesOf_cons, List.getElem?_append, String.length_utf8EncodeChar] at h
    split at h
    · obtain rfl := eq_lineFeed_of_mem (List.mem_of_getElem? h)
      refine ⟨[], cs, rfl, ?_⟩
      have hone : Char.utf8Size '\n' = 1 := rfl
      simp only [width_nil]
      omega
    · obtain ⟨before, after, rfl, hw⟩ := ih h
      exact ⟨c :: before, after, rfl, by rw [width_cons]; omega⟩

/-- One byte of a text, in the list of all. -/
theorem getElem?_bytesOf (h : i < (Source.ofString s).size) :
    (bytesOf s.toList)[i]? = some ((Source.ofString s).byte i) := by
  have hbytes : (Source.ofString s).bytes.data.toList = bytesOf s.toList := by
    change s.toByteArray.data.toList = _
    rw [toByteArray_eq, toList_utf8Encode]
  have hbyte : (Source.ofString s).byte i = (Source.ofString s).bytes.get i h := dif_pos h
  rw [hbyte, ← hbytes]
  exact List.getElem?_eq_getElem (by exact h)

/-- The bytes between boundaries are those of the characters that stand there. -/
theorem Stands.map_byte (h : Stands s a b cs) :
    (List.range' a (b - a)).map (Source.ofString s).byte = bytesOf cs := by
  have hsize := h.stop.le_size
  obtain ⟨p, q, hs, rfl, rfl⟩ := h
  refine List.ext_getElem? fun k => ?_
  by_cases hk : k < width cs
  · have hall := getElem?_bytesOf (s := s) (i := width p + k) (by omega)
    rw [hs, bytesOf_append, bytesOf_append, List.getElem?_append_right (by simp),
      List.getElem?_append_left (by rw [length_bytesOf, length_bytesOf]; omega), length_bytesOf,
      Nat.add_sub_cancel_left] at hall
    rw [hall, List.getElem?_map, List.getElem?_range' (by omega), Option.map_some, Nat.one_mul]
  · rw [List.getElem?_eq_none (by simp; omega),
      List.getElem?_eq_none (by rw [length_bytesOf]; omega)]

theorem exists_of_byte (h : (Source.ofString s).byte i = 10) :
    ∃ before after, s.toList = before ++ '\n' :: after ∧ width before = i := by
  by_cases hi : i < (Source.ofString s).size
  · exact exists_of_getElem?_bytesOf (h ▸ getElem?_bytesOf hi)
  · have hzero : (Source.ofString s).byte i = 0 := dif_neg hi
    rw [hzero] at h
    cases h

theorem isBoundary_succ_of_byte (h : (Source.ofString s).byte i = 10) : IsBoundary s (i + 1) := by
  obtain ⟨before, after, hs, hw⟩ := exists_of_byte h
  refine isBoundary_iff.mpr ⟨before ++ ['\n'], after, by rw [hs, List.append_assoc]; rfl, ?_⟩
  rw [width_append, hw]
  rfl

theorem isBoundary_lineStart (s : String) (i : Nat) :
    IsBoundary s ((Source.ofString s).lineStart i) := by
  rcases lineStart_cases (Source.ofString s) i with h | ⟨j, h, hj⟩
  · rw [h]
    exact isBoundary_zero
  · rw [h]
    exact isBoundary_succ_of_byte hj

theorem isBoundary_lineEnd (h : i ≤ (Source.ofString s).size) :
    IsBoundary s ((Source.ofString s).lineEnd i) := by
  rcases lineEnd_cases h with h | ⟨j, _, h, hj⟩
  · rw [h]
    exact isBoundary_size
  · rw [h]
    exact isBoundary_succ_of_byte hj

end ClassScript.Syntax
