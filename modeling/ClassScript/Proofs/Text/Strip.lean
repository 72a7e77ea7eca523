/-
  File:      ClassScript/Proofs/Text/Strip.lean
  Subject:   What is left of a text without some characters at its ends.

  Names lose their quotes and literals their blanks in this way. Characters
  of the kind that goes may be added at either end without a difference, and
  a text that has none of them at its ends stays as it is.

  * `exists_of_stripBoth`: a text is what is left of it, and what went;
  * `stripBoth_cons_of_pos`, `stripBoth_concat_of_pos`: one more at an end;
  * `stripBoth_of_ends`, `exists_of_stripBoth_cons`: what stays;
  * `IsTrimmed`, `trimEnd_eq_iff`: a text without the blanks at its end;
  * `dropHead?_eq_some_iff`: a text without a head.
-/
import ClassScript.Text.Blank

namespace ClassScript.Text

variable {p : Char → Bool} {c : Char} {cs : List Char}

theorem dropWhile_of_head (h : ∀ c ∈ cs.head?, p c = false) : cs.dropWhile p = cs := by
  cases cs with
  | nil => rfl
  | cons c cs => rw [List.dropWhile_cons, h c rfl, if_neg Bool.false_ne_true]

/-- A text is what is left of it, between characters of the kind that goes. -/
theorem exists_of_stripBoth (p : Char → Bool) (cs : List Char) :
    ∃ a b, cs = a ++ stripBoth p cs ++ b ∧ (∀ c ∈ a, p c = true) ∧ ∀ c ∈ b, p c = true := by
  have hopen := List.takeWhile_append_dropWhile (p := p) (l := cs)
  have hclose := List.takeWhile_append_dropWhile (p := p) (l := (cs.dropWhile p).reverse)
  refine ⟨cs.takeWhile p, ((cs.dropWhile p).reverse.takeWhile p).reverse, ?_, ?_, ?_⟩
  · have hrest : cs.dropWhile p =
        stripBoth p cs ++ ((cs.dropWhile p).reverse.takeWhile p).reverse := by
      rw [stripBoth, ← List.reverse_append, hclose, List.reverse_reverse]
    rw [List.append_assoc, ← hrest, hopen]
  · exact fun c hc => List.all_eq_true.mp List.all_takeWhile c hc
  · exact fun c hc => List.all_eq_true.mp List.all_takeWhile c (List.mem_reverse.mp hc)

theorem stripBoth_cons_of_pos (h : p c = true) : stripBoth p (c :: cs) = stripBoth p cs := by
  rw [stripBoth, List.dropWhile_cons_of_pos h, stripBoth]

theorem stripBoth_append_of_all {a : List Char} (h : ∀ c ∈ a, p c = true) :
    stripBoth p (a ++ cs) = stripBoth p cs := by
  induction a with
  | nil => rfl
  | cons c a ih =>
    rw [List.cons_append, stripBoth_cons_of_pos (h c List.mem_cons_self),
      ih fun x hx => h x (List.mem_cons_of_mem c hx)]

theorem stripBoth_concat_of_pos (h : p c = true) : stripBoth p (cs ++ [c]) = stripBoth p cs := by
  unfold stripBoth
  rw [List.dropWhile_append]
  by_cases hempty : (cs.dropWhile p).isEmpty
  · rw [if_pos hempty, List.dropWhile_cons_of_pos h, List.isEmpty_iff.mp hempty]
    rfl
  · rw [if_neg hempty, List.reverse_append, List.reverse_singleton, List.singleton_append,
      List.dropWhile_cons_of_pos h]

theorem stripBoth_concat_of_all {a : List Char} (h : ∀ c ∈ a, p c = true) :
    stripBoth p (cs ++ a) = stripBoth p cs := by
  induction a generalizing cs with
  | nil => rw [List.append_nil]
  | cons c a ih =>
    rw [List.append_cons, ih fun x hx => h x (List.mem_cons_of_mem c hx),
      stripBoth_concat_of_pos (h c List.mem_cons_self)]

/-- A text with other characters at its ends stays as it is. -/
theorem stripBoth_of_ends (hhead : ∀ c ∈ cs.head?, p c = false)
    (hlast : ∀ c ∈ cs.getLast?, p c = false) : stripBoth p cs = cs := by
  have hreverse : ∀ c ∈ cs.reverse.head?, p c = false := by rwa [List.head?_reverse]
  rw [stripBoth, dropWhile_of_head hhead, dropWhile_of_head hreverse, List.reverse_reverse]

/-- A character of another kind stays at the start. -/
theorem exists_of_stripBoth_cons (h : p c = false) (cs : List Char) :
    ∃ rest, stripBoth p (c :: cs) = c :: rest := by
  obtain ⟨a, b, hcs, ha, hb⟩ := exists_of_stripBoth p (c :: cs)
  cases a with
  | cons x a =>
    obtain rfl : c = x := (List.cons.inj hcs).1
    rw [ha c List.mem_cons_self] at h
    cases h
  | nil =>
    cases hstrip : stripBoth p (c :: cs) with
    | cons x rest =>
      rw [hstrip] at hcs
      exact ⟨rest, by rw [(List.cons.inj hcs).1]⟩
    | nil =>
      rw [hstrip] at hcs
      have hmem : c ∈ b := by
        rw [show b = c :: cs from hcs.symm]
        exact List.mem_cons_self
      rw [hb c hmem] at h
      cases h

/-- `body` is `s` without the blanks at its end. -/
structure IsTrimmed (s body : String) : Prop where
  exists_blanks : ∃ blanks, s = body ++ blanks ∧ ∀ c ∈ blanks.toList, isBlank c = true
  last_not_blank : ∀ c ∈ body.toList.getLast?, isBlank c = false

/-- What is left of a text is determined by what has to be left of it. -/
theorem trimEnd_eq_iff {s body : String} : trimEnd s = body ↔ IsTrimmed s body := by
  constructor
  · rintro rfl
    have hsplit := List.takeWhile_append_dropWhile (p := isBlank) (l := s.toList.reverse)
    refine ⟨⟨String.ofList (s.toList.reverse.takeWhile isBlank).reverse, ?_, fun c hc => ?_⟩,
      fun c hc => ?_⟩
    · refine String.toList_inj.mp ?_
      rw [trimEnd, ← String.ofList_append, ← List.reverse_append, hsplit, List.reverse_reverse,
        String.ofList_toList]
    · rw [String.toList_ofList, List.mem_reverse] at hc
      exact List.all_eq_true.mp List.all_takeWhile c hc
    · rw [trimEnd, String.toList_ofList, List.getLast?_reverse] at hc
      have hhead := List.head?_dropWhile_not isBlank s.toList.reverse
      rw [hc] at hhead
      exact hhead
  · rintro ⟨⟨blanks, rfl, hblanks⟩, hlast⟩
    have hreverse : ∀ c ∈ blanks.toList.reverse, isBlank c = true :=
      fun c hc => hblanks c (List.mem_reverse.mp hc)
    rw [← List.head?_reverse] at hlast
    rw [trimEnd, String.toList_append, List.reverse_append, List.dropWhile_append_of_pos hreverse,
      dropWhile_of_head hlast, List.reverse_reverse, String.ofList_toList]

/-- What is left of a text without its head. -/
theorem dropHead?_eq_some_iff {head s rest : String} :
    dropHead? head s = some rest ↔ s = head ++ rest := by
  unfold dropHead?
  constructor
  · intro h
    split at h
    · rename_i hprefix
      obtain ⟨back, hback⟩ := List.isPrefixOf_iff_prefix.mp hprefix
      rw [← Option.some.inj h]
      refine String.toList_inj.mp ?_
      rw [String.toList_append, String.toList_ofList, ← hback, List.drop_left]
    · cases h
  · rintro rfl
    rw [String.toList_append, if_pos (List.isPrefixOf_iff_prefix.mpr (List.prefix_append _ _)),
      List.drop_left, String.ofList_toList]

end ClassScript.Text
