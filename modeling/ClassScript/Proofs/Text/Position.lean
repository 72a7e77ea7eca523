/-
  File:      ClassScript/Proofs/Text/Position.lean
  Subject:   Places and byte offsets are two names of one thing.

  A text is a run of lines, each but the last one with a line feed behind it.
  The line of an offset is known from the line feeds before it, and its column
  from the bytes behind the last of these. To find the offset of a place is to
  skip whole lines and then to go on in one line, at most to its end. So each
  offset has one place that leads back to it, and places that lie outside of
  the text lead to a nearest one in it.

  * `Position.Before`: the order of places, by line and then by column;
  * `Position.ofOffset_eq`: the place of an offset, counted;
  * `offsetFrom_behind`: lines that are skipped count with all their bytes;
  * `offsetOf_ofOffset`: the place of an offset leads back to it;
  * `offsetOf_le`, `offsetOf_mono`, `offsetOf_of_beyond`: any place at all;
  * `Position.before_ofOffset`: a larger offset has a later place.
-/
import ClassScript.Text.Position

namespace ClassScript

variable {bs as last rest : List UInt8} {b : UInt8} {line line' column column' i j : Nat}
  {p q : Position}

/-! ## 1. The order of places -/

/-- `p` stands before `q`: on an earlier line, or earlier on the same one. -/
def Position.Before (p q : Position) : Prop :=
  p.line < q.line ∨ p.line = q.line ∧ p.column < q.column

instance (p q : Position) : Decidable (p.Before q) :=
  inferInstanceAs (Decidable (p.line < q.line ∨ p.line = q.line ∧ p.column < q.column))

/-- Of two places one is before the other, if they are not the same. -/
theorem Position.before_or_eq_or_before (p q : Position) : p.Before q ∨ p = q ∨ q.Before p := by
  obtain ⟨line, column⟩ := p
  obtain ⟨line', column'⟩ := q
  simp only [Before, mk.injEq]
  omega

/-! ## 2. Lines -/

/-- The bytes behind the last line feed. -/
def lastLine (bs : List UInt8) : List UInt8 := (firstLine bs.reverse).reverse

@[simp] theorem firstLine_lineFeed (bs : List UInt8) : firstLine (10 :: bs) = [] := rfl

theorem firstLine_cons (h : b ≠ 10) (bs : List UInt8) : firstLine (b :: bs) = b :: firstLine bs :=
  List.takeWhile_cons_of_pos (decide_eq_true h)

theorem firstLine_append (h : 10 ∉ as) (bs : List UInt8) :
    firstLine (as ++ bs) = as ++ firstLine bs := by
  refine List.takeWhile_append_of_pos fun b hb => decide_eq_true ?_
  rintro rfl
  exact h hb

theorem lastLine_of_notMem (h : 10 ∉ bs) : lastLine bs = bs := by
  have hreverse : 10 ∉ bs.reverse := fun hb => h (List.mem_reverse.mp hb)
  have hfirst := firstLine_append hreverse []
  rw [List.append_nil, show firstLine [] = [] from rfl, List.append_nil] at hfirst
  rw [lastLine, hfirst, List.reverse_reverse]

theorem lastLine_append_lineFeed (as : List UInt8) (h : 10 ∉ last) :
    lastLine (as ++ 10 :: last) = last := by
  have hreverse : 10 ∉ last.reverse := fun hb => h (List.mem_reverse.mp hb)
  rw [lastLine, List.reverse_append, List.reverse_cons, List.append_assoc, List.singleton_append,
    firstLine_append hreverse, firstLine_lineFeed, List.append_nil, List.reverse_reverse]

/-- A line feed is the last one of a text if it is in it at all. -/
theorem exists_lastLineFeed (h : 10 ∈ bs) : ∃ as last, bs = as ++ 10 :: last ∧ 10 ∉ last := by
  obtain ⟨last, as, hsplit, hlast⟩ := List.eq_append_cons_of_mem (List.mem_reverse.mpr h)
  refine ⟨as.reverse, last.reverse, ?_, fun hmem => hlast (List.mem_reverse.mp hmem)⟩
  rw [← List.reverse_reverse bs, hsplit]
  simp

/-! ## 3. The place of an offset -/

theorem Position.advance_append (p : Position) (as bs : List UInt8) :
    p.advance (as ++ bs) = (p.advance as).advance bs := List.foldl_append

/-- Within a line only the column grows. -/
theorem Position.advance_of_notMem (h : 10 ∉ bs) (p : Position) :
    p.advance bs = ⟨p.line, p.column + bs.length⟩ := by
  induction bs generalizing p with
  | nil => rfl
  | cons b bs ih =>
    have hstep : p.step b = ⟨p.line, p.column + 1⟩ :=
      if_neg fun hb : b = 10 => h (hb ▸ List.mem_cons_self)
    show (p.step b).advance bs = _
    rw [ih fun hbs => h (List.mem_cons_of_mem b hbs), hstep, List.length_cons, Nat.add_assoc,
      Nat.add_comm 1]

theorem Position.line_advance (p : Position) (bs : List UInt8) :
    (p.advance bs).line = p.line + bs.count 10 := by
  induction bs generalizing p with
  | nil => rfl
  | cons b bs ih =>
    show ((p.step b).advance bs).line = _
    rw [ih, step]
    by_cases hb : b = 10
    · rw [if_pos hb, hb, List.count_cons_self, Nat.add_assoc, Nat.add_comm 1]
    · rw [if_neg hb, List.count_cons_of_ne hb]

/-- **The place of an offset**: one more than the line feeds before it, and one more than the
    bytes behind the last of them. -/
theorem Position.ofOffset_eq (bs : List UInt8) (i : Nat) :
    Position.ofOffset bs i =
      ⟨1 + (bs.take i).count 10, 1 + (lastLine (bs.take i)).length⟩ := by
  unfold Position.ofOffset
  by_cases h : 10 ∈ bs.take i
  · obtain ⟨as, last, hsplit, hlast⟩ := exists_lastLineFeed h
    have hfeed : (start.advance as).step 10 = ⟨(start.advance as).line + 1, 1⟩ := if_pos rfl
    rw [hsplit, lastLine_append_lineFeed as hlast, advance_append]
    show ((start.advance as).step 10).advance last = _
    rw [hfeed, advance_of_notMem hlast, line_advance, List.count_append, List.count_cons_self,
      List.count_eq_zero.mpr hlast]
    simp only [start, Nat.zero_add, Nat.add_assoc]
  · rw [advance_of_notMem h, lastLine_of_notMem h, List.count_eq_zero.mpr h]
    rfl

/-! ## 4. The offset of a place -/

theorem offsetFrom_lineFeed (bs : List UInt8) (line column : Nat) :
    offsetFrom (10 :: bs) (line + 1) column = 1 + offsetFrom bs line column := by
  rw [offsetFrom, if_pos rfl]

theorem offsetFrom_cons (h : b ≠ 10) (bs : List UInt8) (line column : Nat) :
    offsetFrom (b :: bs) (line + 1) column = 1 + offsetFrom bs (line + 1) column := by
  rw [offsetFrom, if_neg h]

/-- **Lines that are skipped** count with all their bytes, the line feeds behind them included. -/
theorem offsetFrom_behind (as rest : List UInt8) (line column : Nat) :
    offsetFrom (as ++ 10 :: rest) (as.count 10 + line + 1) column =
      as.length + 1 + offsetFrom rest line column := by
  induction as with
  | nil =>
    rw [List.nil_append, List.count_nil, Nat.zero_add, offsetFrom_lineFeed, List.length_nil]
  | cons a as ih =>
    rw [List.cons_append, List.length_cons]
    by_cases ha : a = 10
    · rw [ha, List.count_cons_self, offsetFrom_lineFeed, Nat.add_right_comm, ih]
      omega
    · rw [List.count_cons_of_ne ha, offsetFrom_cons ha, ih]
      omega

/-- In the first line, an offset is a column. -/
theorem offsetFrom_firstLine (h : 10 ∉ as) (rest : List UInt8) :
    offsetFrom (as ++ rest) 0 as.length = as.length := by
  rw [offsetFrom, firstLine_append h, List.length_append]
  omega

/-- **The place of an offset leads back to it.** -/
theorem offsetOf_ofOffset (h : i ≤ bs.length) : offsetOf bs (.ofOffset bs i) = i := by
  have hlength : (bs.take i).length = i := List.length_take_of_le h
  have hbs : bs.take i ++ bs.drop i = bs := List.take_append_drop i bs
  rw [Position.ofOffset_eq, Nat.add_comm 1, offsetOf]
  show offsetFrom bs ((bs.take i).count 10) (1 + (lastLine (bs.take i)).length - 1) = i
  rw [Nat.add_sub_cancel_left]
  by_cases hfeed : 10 ∈ bs.take i
  · obtain ⟨as, last, hsplit, hlast⟩ := exists_lastLineFeed hfeed
    have hcount : (as ++ 10 :: last).count 10 = as.count 10 + 1 := by
      rw [List.count_append, List.count_cons_self, List.count_eq_zero.mpr hlast]
    have hskip := offsetFrom_behind as (last ++ bs.drop i) 0 last.length
    rw [Nat.add_zero, offsetFrom_firstLine hlast] at hskip
    rw [hsplit] at hlength hbs
    rw [hsplit, lastLine_append_lineFeed as hlast, hcount, ← hbs, List.append_assoc,
      List.cons_append]
    rw [List.length_append, List.length_cons] at hlength
    omega
  · have hfirst := offsetFrom_firstLine hfeed (bs.drop i)
    rw [hbs] at hfirst
    rw [lastLine_of_notMem hfeed, List.count_eq_zero.mpr hfeed, hfirst, hlength]

/-! ## 5. Any place at all -/

theorem offsetFrom_le (bs : List UInt8) (line column : Nat) :
    offsetFrom bs line column ≤ bs.length := by
  induction bs generalizing line with
  | nil => cases line <;> simp [offsetFrom, firstLine]
  | cons b bs ih =>
    cases line with
    | zero =>
      have hfirst : (firstLine (b :: bs)).length ≤ (b :: bs).length :=
        (List.takeWhile_prefix _).length_le
      exact Nat.le_trans (Nat.min_le_right _ _) hfirst
    | succ line =>
      rw [List.length_cons]
      by_cases hb : b = 10
      · have hrest := ih line
        rw [hb, offsetFrom_lineFeed]
        omega
      · have hrest := ih (line + 1)
        rw [offsetFrom_cons hb]
        omega

/-- Any place leads to an offset in the text. -/
theorem offsetOf_le (bs : List UInt8) (p : Position) : offsetOf bs p ≤ bs.length := by
  unfold offsetOf
  split
  · exact Nat.zero_le _
  · exact offsetFrom_le bs _ _

/-- In one line, a larger column leads no less far. -/
theorem offsetFrom_mono_column (bs : List UInt8) (line : Nat) (h : column ≤ column') :
    offsetFrom bs line column ≤ offsetFrom bs line column' := by
  induction bs generalizing line with
  | nil => cases line <;> simp [offsetFrom, firstLine]
  | cons b bs ih =>
    cases line with
    | zero =>
      simp only [offsetFrom]
      omega
    | succ line =>
      by_cases hb : b = 10
      · rw [hb, offsetFrom_lineFeed, offsetFrom_lineFeed]
        exact Nat.add_le_add_left (ih line) 1
      · rw [offsetFrom_cons hb, offsetFrom_cons hb]
        exact Nat.add_le_add_left (ih (line + 1)) 1

/-- A later line leads no less far, whatever the columns. -/
theorem offsetFrom_mono_line (h : line < line') (column column' : Nat) :
    offsetFrom bs line column ≤ offsetFrom bs line' column' := by
  induction bs generalizing line line' column with
  | nil => cases line <;> simp [offsetFrom, firstLine]
  | cons b bs ih =>
    obtain ⟨later, rfl⟩ : ∃ n, line' = n + 1 := ⟨line' - 1, by omega⟩
    cases line with
    | zero =>
      by_cases hb : b = 10
      · rw [hb, offsetFrom, firstLine_lineFeed, List.length_nil, Nat.min_zero]
        exact Nat.zero_le _
      · have hrest := ih h (column - 1)
        rw [offsetFrom_cons hb, offsetFrom, firstLine_cons hb, List.length_cons]
        rw [offsetFrom] at hrest
        omega
    | succ line =>
      by_cases hb : b = 10
      · rw [hb, offsetFrom_lineFeed, offsetFrom_lineFeed]
        exact Nat.add_le_add_left (ih (Nat.lt_of_succ_lt_succ h) column) 1
      · rw [offsetFrom_cons hb, offsetFrom_cons hb]
        exact Nat.add_le_add_left (ih h column) 1

/-- **A later place** leads no less far. -/
theorem offsetOf_mono (bs : List UInt8) (h : p.Before q) : offsetOf bs p ≤ offsetOf bs q := by
  obtain ⟨line, column⟩ := p
  obtain ⟨line', column'⟩ := q
  cases line with
  | zero => exact Nat.zero_le _
  | succ line =>
    cases line' with
    | zero => simp [Position.Before] at h
    | succ line' =>
      rcases h with h | ⟨h, hcolumn⟩
      · exact offsetFrom_mono_line (Nat.lt_of_succ_lt_succ h) _ _
      · obtain rfl := Nat.succ.inj h
        exact offsetFrom_mono_column bs line (Nat.sub_le_sub_right (Nat.le_of_lt hcolumn) 1)

theorem offsetFrom_of_beyond (h : bs.count 10 < line) (column : Nat) :
    offsetFrom bs line column = bs.length := by
  induction bs generalizing line with
  | nil =>
    cases line with
    | zero => cases h
    | succ line => rfl
  | cons b bs ih =>
    cases line with
    | zero => cases h
    | succ line =>
      rw [List.length_cons, Nat.add_comm bs.length]
      by_cases hb : b = 10
      · rw [hb, List.count_cons_self] at h
        rw [hb, offsetFrom_lineFeed, ih (Nat.lt_of_succ_lt_succ h)]
      · rw [List.count_cons_of_ne hb] at h
        rw [offsetFrom_cons hb, ih h]

/-- A place on a line that the text does not have leads to its end. -/
theorem offsetOf_of_beyond (h : 1 + bs.count 10 < p.line) : offsetOf bs p = bs.length := by
  obtain ⟨line, column⟩ := p
  cases line with
  | zero => cases h
  | succ line =>
    rw [Nat.add_comm] at h
    exact offsetFrom_of_beyond (Nat.lt_of_succ_lt_succ h) (column - 1)

/-! ## 6. Offsets in order -/

/-- **A larger offset has a later place.** -/
theorem Position.before_ofOffset (h : i < j) (hj : j ≤ bs.length) :
    (ofOffset bs i).Before (ofOffset bs j) := by
  have hback : offsetOf bs (ofOffset bs i) = i := offsetOf_ofOffset (by omega)
  have hback' : offsetOf bs (ofOffset bs j) = j := offsetOf_ofOffset hj
  rcases before_or_eq_or_before (ofOffset bs i) (ofOffset bs j) with hij | hij | hij
  · exact hij
  · rw [hij] at hback
    omega
  · have hle := offsetOf_mono bs hij
    omega

end ClassScript
