/-
  File:      ClassScript/Proofs/Text/PathOrder.lean
  Subject:   The order of paths.

  Paths are ordered by their steps, steps by their form, and names by their
  code points. Each level is a lexicographic order of the level below, so all
  of them are linear orders, and two paths are equal in the order exactly when
  they are the same path.

  * `byCodePoint_eq`, `orderOf_eq`: the two orders of lists;
  * instances of `Std.TransCmp` for steps and for paths;
  * `FilePath.same_iff`, `FilePath.order_eq_eq_iff`: equality of paths, and in
    their order.
-/
import ClassScript.Text.FilePath

namespace ClassScript

open Std (OrientedCmp TransCmp LawfulEqCmp)

/-! ## 1. Code points -/

theorem Text.byCodePoint_eq : Text.byCodePoint = List.compareLex (compareOn Char.toNat) := by
  funext as bs
  induction as generalizing bs with
  | nil => cases bs <;> rfl
  | cons a as ih =>
    cases bs with
    | nil => rfl
    | cons b bs =>
      rw [Text.byCodePoint, List.compareLex_cons_cons, ih, compareOn, Nat.compare_eq_ite_lt]
      split
      · rfl
      · split <;> rfl

namespace FilePath

/-! ## 2. Steps -/

/-- The characters of a step that is a name. -/
def Component.chars : Component → List Char
  | .name cs => cs
  | _ => []

theorem Component.order_eq :
    Component.order = compareLex (compareOn Component.rank)
      (fun a b => List.compareLex (compareOn Char.toNat) a.chars b.chars) := by
  funext a b
  rw [← Text.byCodePoint_eq]
  cases a <;> cases b <;> rfl

instance : LawfulEqCmp (compareOn Char.toNat) where
  compare_self := Nat.compare_eq_eq.mpr rfl
  eq_of_compare h := Char.toNat_inj.mp (Nat.compare_eq_eq.mp h)

instance : TransCmp fun a b : Component =>
    List.compareLex (compareOn Char.toNat) a.chars b.chars where
  eq_swap {a b} := @OrientedCmp.eq_swap _ (List.compareLex (compareOn Char.toNat)) _ a.chars b.chars
  isLE_trans {a b c} :=
    @TransCmp.isLE_trans _ (List.compareLex (compareOn Char.toNat)) _ a.chars b.chars c.chars

instance : TransCmp Component.order := by
  rw [Component.order_eq]
  infer_instance

/-- A step is what its form and its characters make it. -/
theorem Component.eq_of_rank_of_chars {a b : Component} (hrank : a.rank = b.rank)
    (hchars : a.chars = b.chars) : a = b := by
  cases a <;> cases b <;> first | rfl | exact congrArg Component.name hchars | cases hrank

instance : LawfulEqCmp Component.order where
  compare_self := Std.ReflCmp.compare_self
  eq_of_compare {a b} h := by
    rw [Component.order_eq, compareLex, Ordering.then_eq_eq] at h
    exact Component.eq_of_rank_of_chars (Nat.compare_eq_eq.mp h.1)
      (LawfulEqCmp.eq_of_compare h.2)

/-! ## 3. Paths -/

theorem orderOf_eq : orderOf = List.compareLex Component.order := by
  funext as bs
  induction as generalizing bs with
  | nil => cases bs <;> rfl
  | cons a as ih =>
    cases bs with
    | nil => rfl
    | cons b bs =>
      rw [orderOf, List.compareLex_cons_cons, ih]
      cases a.order b <;> rfl

instance : TransCmp orderOf := by
  rw [orderOf_eq]
  infer_instance

instance : LawfulEqCmp orderOf := by
  rw [orderOf_eq]
  infer_instance

instance : TransCmp order where
  eq_swap {p q} := @OrientedCmp.eq_swap _ orderOf _ p.components q.components
  isLE_trans {p q r} := @TransCmp.isLE_trans _ orderOf _ p.components q.components r.components

theorem same_iff {p q : FilePath} : p.same q = true ↔ p.components = q.components :=
  decide_eq_true_iff

theorem same_comm (p q : FilePath) : p.same q = q.same p :=
  decide_eq_decide.mpr eq_comm

/-- What is the same as the first of two equal paths is the same as the second. -/
theorem same_congr {p q : FilePath} (h : p.same q = true) (r : FilePath) :
    p.same r = q.same r := by
  unfold same
  rw [same_iff.mp h]

/-- Neither of two paths comes before the other exactly when they are the same path. -/
theorem order_eq_eq_iff {p q : FilePath} : p.order q = .eq ↔ p.same q = true := by
  unfold order same
  rw [LawfulEqCmp.compare_eq_iff_eq, decide_eq_true_iff]

end FilePath
end ClassScript
