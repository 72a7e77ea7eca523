/-
  File:      ClassScript/Proofs/Text/Split.lean
  Subject:   The pieces of a text between separators.

  Paths are cut at each `/`, and the names of constants at each `_`. The
  pieces have no separators, and make the text again with one between each
  two of them; other pieces do not.

  * `exists_splitOn`, `splitOn_append_flatten`: the pieces and the text;
  * `splitOn_append`: a cut in two;
  * `notMem_of_mem_splitOn`, `flatten_splitOn`: what is in the pieces;
  * `nil_mem_splitOn_iff`: when a piece is empty.
-/
import ClassScript.Text.Blank

namespace ClassScript.Text

variable {sep : Char} {x : List Char}

/-! ## 1. The pieces and the text -/

/-- The pieces with the separator between them are the text again. -/
theorem exists_splitOn (sep : Char) (x : List Char) :
    ∃ piece rest, splitOn sep x = piece :: rest ∧
      x = piece ++ (rest.map (sep :: ·)).flatten := by
  induction x with
  | nil => exact ⟨[], [], rfl, rfl⟩
  | cons c cs ih =>
    obtain ⟨piece, rest, hcut, hjoin⟩ := ih
    unfold splitOn
    by_cases hc : c = sep
    · refine ⟨[], piece :: rest, by rw [if_pos hc, hcut], ?_⟩
      rw [List.map_cons, List.flatten_cons, List.nil_append, List.cons_append, ← hjoin, hc]
    · refine ⟨c :: piece, rest, by rw [if_neg hc, hcut], ?_⟩
      rw [List.cons_append, ← hjoin]

theorem splitOn_ne_nil (cs : List Char) : splitOn sep cs ≠ [] := by
  obtain ⟨piece, rest, hcut, _⟩ := exists_splitOn sep cs
  rw [hcut]
  exact List.cons_ne_nil piece rest

/-- A separator cuts a text in two. -/
theorem splitOn_append (as bs : List Char) :
    splitOn sep (as ++ sep :: bs) = splitOn sep as ++ splitOn sep bs := by
  induction as with
  | nil =>
    show splitOn sep (sep :: bs) = [] :: splitOn sep bs
    rw [splitOn, if_pos rfl]
  | cons a as ih =>
    rw [List.cons_append, splitOn, ih, splitOn]
    split
    · rfl
    · cases hpieces : splitOn sep as with
      | nil => exact absurd hpieces (splitOn_ne_nil as)
      | cons piece rest => rfl

/-- A text without separators is one piece. -/
theorem splitOn_of_notMem {cs : List Char} (h : sep ∉ cs) : splitOn sep cs = [cs] := by
  induction cs with
  | nil => rfl
  | cons c cs ih =>
    have hc : c ≠ sep := fun hc => h (hc ▸ List.mem_cons_self)
    rw [splitOn, if_neg hc, ih fun hcs => h (List.mem_cons_of_mem c hcs)]

/-- Pieces without the separator are found again in the text they are joined to. -/
theorem splitOn_append_flatten {pieces : List (List Char)} {piece : List Char}
    (hpiece : sep ∉ piece) (hpieces : ∀ p ∈ pieces, sep ∉ p) :
    splitOn sep (piece ++ (pieces.map (sep :: ·)).flatten) = piece :: pieces := by
  induction pieces generalizing piece with
  | nil => rw [List.map_nil, List.flatten_nil, List.append_nil, splitOn_of_notMem hpiece]
  | cons next pieces ih =>
    obtain ⟨hnext, hrest⟩ := List.forall_mem_cons.mp hpieces
    rw [List.map_cons, List.flatten_cons, List.cons_append, splitOn_append,
      splitOn_of_notMem hpiece, ih hnext hrest, List.singleton_append]

/-! ## 2. What is in the pieces -/

/-- The pieces have the characters of the text, without the separator. -/
theorem flatten_splitOn : (splitOn sep x).flatten = x.filter (· ≠ sep) := by
  induction x with
  | nil => rfl
  | cons c cs ih =>
    obtain ⟨piece, rest, hcut, _⟩ := exists_splitOn sep cs
    rw [hcut, List.flatten_cons] at ih
    by_cases hc : c = sep
    · simp [splitOn, hc, hcut, ih]
    · simp [splitOn, hc, hcut, ih]

/-- No piece has a separator. -/
theorem notMem_of_mem_splitOn {cs piece : List Char} (h : piece ∈ splitOn sep cs) :
    sep ∉ piece := by
  intro hsep
  have hmem : sep ∈ (splitOn sep cs).flatten := List.mem_flatten.mpr ⟨piece, h, hsep⟩
  rw [flatten_splitOn] at hmem
  exact of_decide_eq_true (List.mem_filter.mp hmem).2 rfl

/-! ## 3. Empty pieces -/

/-- The first piece is empty where the text starts with the separator. -/
theorem head?_splitOn_eq_nil_iff :
    (splitOn sep x).head? = some [] ↔ x = [] ∨ x.head? = some sep := by
  cases x with
  | nil => simp [splitOn]
  | cons c cs =>
    obtain ⟨piece, rest, hcut, _⟩ := exists_splitOn sep cs
    by_cases hc : c = sep
    · simp [splitOn, hc]
    · simp [splitOn, hc, hcut]

/-- A piece behind the first one is empty where the text ends with the separator, or has it twice
    in a row. -/
theorem nil_mem_tail_splitOn_iff :
    [] ∈ (splitOn sep x).tail ↔ x.getLast? = some sep ∨ [sep, sep] <:+: x := by
  induction x with
  | nil => simp [splitOn]
  | cons c cs ih =>
    have hlast : (c :: cs).getLast? = some sep ↔
        (cs = [] ∧ c = sep) ∨ cs.getLast? = some sep := by
      cases cs with
      | nil => simp
      | cons d cs => simp [List.getLast?_cons_cons]
    have htwice : [sep, sep] <+: c :: cs ↔ c = sep ∧ cs.head? = some sep := by
      cases cs with
      | nil => simp
      | cons d cs => simp [List.cons_prefix_cons, eq_comm]
    rw [List.infix_cons_iff, hlast, htwice]
    obtain ⟨piece, rest, hcut, _⟩ := exists_splitOn sep cs
    by_cases hc : c = sep
    · -- the first piece of the rest is now one behind the first
      have hfirst : (splitOn sep cs).head? = some [] ↔ _ := head?_splitOn_eq_nil_iff
      rw [hcut, List.tail_cons] at ih
      rw [hcut, List.head?_cons, Option.some.injEq] at hfirst
      rw [splitOn, if_pos hc, hcut, List.tail_cons, List.mem_cons, ih, eq_comm, hfirst]
      simp only [hc, and_true, true_and, or_assoc]
      exact or_congr_right or_left_comm
    · rw [hcut, List.tail_cons] at ih
      simp [splitOn, hc, hcut, ih]

/-- **A cut gives an empty piece** where the text is empty, where the separator stands at one of
    its ends, and where it stands twice in a row. -/
theorem nil_mem_splitOn_iff :
    [] ∈ splitOn sep x ↔
      x = [] ∨ x.head? = some sep ∨ x.getLast? = some sep ∨ [sep, sep] <:+: x := by
  have hfirst : (splitOn sep x).head? = some [] ↔ _ := head?_splitOn_eq_nil_iff
  have hrest : [] ∈ (splitOn sep x).tail ↔ _ := nil_mem_tail_splitOn_iff
  obtain ⟨piece, rest, hcut, _⟩ := exists_splitOn sep x
  rw [hcut, List.head?_cons, Option.some.injEq] at hfirst
  rw [hcut, List.tail_cons] at hrest
  rw [hcut, List.mem_cons, eq_comm, hfirst, hrest, or_assoc]

end ClassScript.Text
