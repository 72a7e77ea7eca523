/-
  File:      ClassScript/Proofs/Emission/Range.lean
  Subject:   What edits make of a range of the text.

  All edits performed at once make a text of each range, and those of ranges
  that follow one another follow one another too. Where nothing is edited the
  range is copied. A text that comes in at a place in a range splits what is
  made of it into what stands before the place and what stands behind.

  * `Edit.rangeAtOnce`: what edits make of a range;
  * `Edit.rangeAtOnce_append`: of a range and the one behind it;
  * `Edit.rangeAtOnce_insertion`: of a range in which a text comes in.
-/
import ClassScript.Proofs.Emission.Edit

namespace ClassScript.Emission.Edit

open Syntax (Source IsBoundary bytesOf)

variable {src : Source} {s : String} {e : Edit} {es fs : List Edit} {a b c p : Nat}

/-- The bytes that the edits, all performed at once, make of the range from `a` up to `b`. -/
def rangeAtOnce (src : Source) (edits : List Edit) (a b : Nat) : List UInt8 :=
  (List.range' a (b - a)).flatMap (atOnceAt src edits)

theorem rangeAtOnce_append (hab : a ≤ b) (hbc : b ≤ c) :
    rangeAtOnce src es a c = rangeAtOnce src es a b ++ rangeAtOnce src es b c := by
  rw [rangeAtOnce, range'_split hab hbc, List.flatMap_append]
  rfl

/-- A range in which no edit starts is copied. -/
theorem rangeAtOnce_of_before (ha : IsBoundary s a) (hb : IsBoundary s b) (hab : a ≤ b)
    (h : ∀ e ∈ es, b ≤ e.start) :
    rangeAtOnce (.ofString s) es a b = bytesOf ((Source.ofString s).text a b).toList :=
  flatMap_atOnceAt_of_out ha hb hab fun e he _ _ hib => .inl (Nat.lt_of_lt_of_le hib (h e he))

/-- The range of the first edit becomes its text, and what is behind is up to the others. -/
theorem rangeAtOnce_cons (hlt : e.start < e.stop) (hle : e.stop ≤ b)
    (hes : ∀ x ∈ es, e.stop ≤ x.start) :
    rangeAtOnce (.ofString s) (e :: es) e.start b =
      bytesOf e.text.toList ++ rangeAtOnce (.ofString s) es e.stop b := by
  rw [rangeAtOnce_append (Nat.le_of_lt hlt) hle, rangeAtOnce, flatMap_atOnceAt_inside hlt hes,
    rangeAtOnce, flatMap_atOnceAt_behind (Nat.le_of_lt hlt) (.inl hlt) (Nat.le_refl _)]
  rfl

/-! ## 1. A text that comes in -/

/-- At other places a text that comes in shows in nothing. -/
theorem atOnceAt_insertion_of_ne {i : Nat} (text : String) (h : i ≠ p) :
    atOnceAt src (es ++ insertion p text :: fs) i = atOnceAt src (es ++ fs) i := by
  have hrange : (insertion p text).hasRange i i = false := by
    rw [← Bool.not_eq_true, hasRange_iff]
    exact fun hp => h hp.1.symm
  have hfull : (insertion p text).replacesFrom i = false := by
    rw [← Bool.not_eq_true, replacesFrom_iff]
    exact fun hp => h hp.1.symm
  have hcov : covers (es ++ insertion p text :: fs) i = covers (es ++ fs) i := by
    have hout : (decide ((insertion p text).start ≤ i) && decide (i < (insertion p text).stop)) =
        false := by
      rw [Bool.and_eq_false_iff, decide_eq_false_iff_not, decide_eq_false_iff_not]
      simp only [insertion]
      omega
    simp only [covers, List.any_append, List.any_cons, hout, Bool.false_or]
  simp only [atOnceAt, startingAt, List.filter_append, List.filter_cons, hrange, hfull, hcov,
    Bool.false_eq_true, if_false]

/-- At its place a text comes in first if no other text comes in there before it. -/
theorem atOnceAt_insertion (text : String)
    (h : ∀ x ∈ es, x.hasRange p p = true → x.text = "") :
    atOnceAt src (es ++ insertion p text :: fs) p =
      bytesOf text.toList ++ atOnceAt src (es ++ fs) p := by
  have hrange : (insertion p text).hasRange p p = true := hasRange_iff.mpr ⟨rfl, rfl⟩
  have hfull : (insertion p text).replacesFrom p = false := by
    rw [← Bool.not_eq_true, replacesFrom_iff]
    exact fun hp => Nat.lt_irrefl p hp.2
  have hcov : covers (es ++ insertion p text :: fs) p = covers (es ++ fs) p := by
    have hout : (decide ((insertion p text).start ≤ p) && decide (p < (insertion p text).stop)) =
        false := by
      simp [insertion]
    simp only [covers, List.any_append, List.any_cons, hout, Bool.false_or]
  have hnone : (es.filter (hasRange p p)).flatMap (fun e => bytesOf e.text.toList) = [] := by
    refine List.flatMap_eq_nil_iff.mpr fun x hx => ?_
    obtain ⟨hx, hxp⟩ := List.mem_filter.mp hx
    rw [h x hx hxp]
    rfl
  simp only [atOnceAt, startingAt, List.filter_append, List.filter_cons, hrange, hfull, hcov,
    Bool.false_eq_true, if_false, if_true, List.flatMap_append, List.flatMap_cons, hnone,
    List.nil_append, List.append_assoc]
  rfl

/-- **A text that comes in** at a place in a range stands between what the other edits make of
    the range before the place and of the range behind it. -/
theorem rangeAtOnce_insertion (text : String) (hap : a ≤ p) (hpb : p < b)
    (h : ∀ x ∈ es, x.hasRange p p = true → x.text = "") :
    rangeAtOnce src (es ++ insertion p text :: fs) a b =
      rangeAtOnce src (es ++ fs) a p ++ bytesOf text.toList ++ rangeAtOnce src (es ++ fs) p b := by
  have hbefore : rangeAtOnce src (es ++ insertion p text :: fs) a p =
      rangeAtOnce src (es ++ fs) a p :=
    flatMap_congr_range' fun i _ hi => atOnceAt_insertion_of_ne text (by omega)
  have hbehind : rangeAtOnce src (es ++ insertion p text :: fs) (p + 1) b =
      rangeAtOnce src (es ++ fs) (p + 1) b :=
    flatMap_congr_range' fun i hi _ => atOnceAt_insertion_of_ne text (by omega)
  have hplace (xs : List Edit) : rangeAtOnce src xs p (p + 1) = atOnceAt src xs p := by
    rw [rangeAtOnce, Nat.add_sub_cancel_left, List.range'_one, List.flatMap_singleton]
  have hsplit (xs : List Edit) : rangeAtOnce src xs p b =
      atOnceAt src xs p ++ rangeAtOnce src xs (p + 1) b := by
    rw [rangeAtOnce_append (Nat.le_succ p) hpb, hplace]
  rw [rangeAtOnce_append hap (Nat.le_of_lt hpb), hsplit, hsplit, hbefore, hbehind,
    atOnceAt_insertion text h]
  simp only [List.append_assoc]

end ClassScript.Emission.Edit
