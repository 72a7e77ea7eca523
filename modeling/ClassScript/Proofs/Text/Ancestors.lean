/-
  File:      ClassScript/Proofs/Text/Ancestors.lean
  Subject:   The folders above a path.

  A path is cut at its last separator, but what is idle at its end goes first:
  separators, and steps that lead nowhere. So the steps of a parent are those
  of the path but for the last one, however the path is written. A parent is
  shorter than its path, and so all ancestors are found.

  * `components_of_parent?`: the steps of a parent;
  * `Above`: how many folders a path is above another one;
  * `getElem?_ancestors`: the list of ancestors is the one by `Above`;
  * `Above.components_eq`, `Above.ne_empty`: the steps of an ancestor, and that
    no ancestor of an absolute path is empty.
-/
import Mathlib.Data.List.TakeWhile
import ClassScript.Proofs.Text.FilePath

namespace ClassScript

namespace FilePath

variable {cs : List Char} {p q r : FilePath} {k : Nat}

/-! ## 1. What is idle at the end -/

/-- What is idle is no step. -/
theorem componentsOf_dropIdleTail (cs : List Char) :
    componentsOf (dropIdleTail cs).reverse = componentsOf cs.reverse := by
  fun_induction dropIdleTail cs with
  | case1 => rfl
  | case2 cs hroot ih =>
    have hcs : cs.reverse ≠ [] := fun h => hroot (List.reverse_eq_nil_iff.mp h)
    rw [ih, List.reverse_cons, componentsOf_append_separator hcs]
  | case3 => rfl
  | case4 cs hroot ih =>
    have hcs : cs.reverse ≠ [] := fun h => hroot (List.reverse_eq_nil_iff.mp h)
    have hhere : componentsOf (cs.reverse ++ '/' :: ['.']) = componentsOf cs.reverse := by
      rw [componentsOf_append hcs]
      exact List.append_nil _
    rw [ih, List.reverse_cons, componentsOf_append_separator hcs, List.reverse_cons,
      List.reverse_cons, List.append_assoc]
    exact hhere.symm
  | case5 => rfl

theorem length_dropIdleTail_le (cs : List Char) : (dropIdleTail cs).length ≤ cs.length := by
  fun_induction dropIdleTail cs with
  | case1 => exact Nat.le_refl _
  | case2 cs hroot ih => exact Nat.le_succ_of_le ih
  | case3 => decide
  | case4 cs hroot ih => exact Nat.le_succ_of_le ih
  | case5 => exact Nat.le_refl _

/-- Read from its end, what is left does not start with a separator, unless it is the root, -/
theorem dropIdleTail_ne_separator (cs : List Char) (c : Char) (rest : List Char) :
    dropIdleTail cs ≠ '/' :: c :: rest := by
  fun_induction dropIdleTail cs with
  | case1 => simp
  | case2 cs hroot ih => exact ih
  | case3 => simp
  | case4 cs hroot ih => exact ih
  | case5 cs hroot hsep hdot hidle =>
    rintro rfl
    exact hsep _ rfl

/-- and not with a step that leads nowhere, unless the path starts there. -/
theorem dropIdleTail_ne_here (cs rest : List Char) : dropIdleTail cs ≠ '.' :: '/' :: rest := by
  fun_induction dropIdleTail cs with
  | case1 => simp
  | case2 cs hroot ih => exact ih
  | case3 => simp
  | case4 cs hroot ih => exact ih
  | case5 cs hroot hsep hdot hidle =>
    rintro rfl
    exact hidle _ rfl

/-! ## 2. Parents -/

theorem ofPiece?_of_ne {piece : List Char} (hempty : piece ≠ []) (hhere : piece ≠ ['.']) :
    ∃ step, Component.ofPiece? piece = some step := by
  unfold Component.ofPiece?
  split
  · exact absurd rfl hempty
  · exact absurd rfl hhere
  · exact ⟨_, rfl⟩
  · exact ⟨_, rfl⟩

/-- Behind the last separator of what is left, there is a step, but for the root. -/
theorem exists_last_piece (hsep : '/' ∈ dropIdleTail cs) (hroot : dropIdleTail cs ≠ ['/']) :
    ∃ last rest step, dropIdleTail cs = last ++ '/' :: rest ∧ '/' ∉ last ∧
      Component.ofPiece? last.reverse = some step := by
  obtain ⟨last, rest, hleft, hplain⟩ := List.eq_append_cons_of_mem hsep
  have hempty : last ≠ [] := by
    rintro rfl
    cases rest with
    | nil => exact hroot hleft
    | cons c rest => exact dropIdleTail_ne_separator cs c rest hleft
  have hhere : last ≠ ['.'] := by
    rintro rfl
    exact dropIdleTail_ne_here cs rest hleft
  obtain ⟨step, hstep⟩ : ∃ step, Component.ofPiece? last.reverse = some step :=
    ofPiece?_of_ne (by simpa using hempty) (by simpa using hhere)
  exact ⟨last, rest, step, hleft, hplain, hstep⟩

/-- A text without separators is one step at most. -/
theorem dropLast_componentsOf_of_notMem (h : '/' ∉ cs) : (componentsOf cs).dropLast = [] := by
  unfold componentsOf
  rw [Text.splitOn_of_notMem h]
  dsimp only
  split
  · rfl
  · split
    · rfl
    · cases Component.ofPiece? cs <;> rfl

/-- Without what is idle, a path that has a parent is what is left for the parent, and a piece. -/
theorem exists_of_parent? (h : p.parent? = some q) :
    ∃ last rest, dropIdleTail p.text.toList.reverse = last ++ rest ∧ last ≠ [] ∧
      q.text.toList = (dropIdleTail rest).reverse ∧
      p.components.dropLast = componentsOf rest.reverse := by
  have hsteps : p.components = componentsOf (dropIdleTail p.text.toList.reverse).reverse := by
    rw [componentsOf_dropIdleTail, List.reverse_reverse]
    rfl
  unfold parent? at h
  split at h
  · cases h
  · cases h
  · rename_i _ hstep hlast
    obtain rfl := Option.some.inj h
    rw [hsteps] at hlast ⊢
    by_cases hsep : '/' ∈ dropIdleTail p.text.toList.reverse
    · have hroot : dropIdleTail p.text.toList.reverse ≠ ['/'] := by
        intro hleft
        rw [hleft] at hlast
        exact hstep (Option.some.inj hlast).symm
      obtain ⟨last, rest, step, hleft, hplain, hpiece⟩ := exists_last_piece hsep hroot
      have hall : ∀ c ∈ last, decide (c ≠ '/') = true :=
        fun c hc => decide_eq_true fun hslash => hplain (hslash ▸ hc)
      refine ⟨last, '/' :: rest, hleft, ?_, ?_, ?_⟩
      · rintro rfl
        cases hpiece
      · rw [String.toList_ofList, hleft, List.dropWhile_append_of_pos hall]
        rfl
      · rw [hleft, List.reverse_append, List.reverse_cons, List.append_assoc]
        show (componentsOf (rest.reverse ++ '/' :: last.reverse)).dropLast = _
        rw [componentsOf_separator_append_piece _ (by simpa using hplain) hpiece,
          List.dropLast_concat]
    · -- all that is left is one step, and the parent is empty
      have hnone : (dropIdleTail p.text.toList.reverse).dropWhile (· ≠ '/') = [] :=
        List.dropWhile_eq_nil_iff.mpr fun c hc =>
          decide_eq_true fun hslash => hsep (hslash ▸ hc)
      refine ⟨_, [], (List.append_nil _).symm, fun hnil => ?_, ?_, ?_⟩
      · rw [hnil] at hlast
        cases hlast
      · rw [String.toList_ofList, hnone]
      · exact dropLast_componentsOf_of_notMem (by simpa using hsep)

/-- **The steps of a parent** are those of the path but for the last one. -/
theorem components_of_parent? (h : p.parent? = some q) :
    q.components = p.components.dropLast := by
  obtain ⟨last, rest, _, _, htext, hsteps⟩ := exists_of_parent? h
  rw [hsteps, ← componentsOf_dropIdleTail, ← htext]
  rfl

/-- A parent is shorter than its path. -/
theorem length_of_parent? (h : p.parent? = some q) : q.text.length < p.text.length := by
  obtain ⟨last, rest, hleft, hlast, htext, _⟩ := exists_of_parent? h
  have hpath := length_dropIdleTail_le p.text.toList.reverse
  have hparent := length_dropIdleTail_le rest
  have hpositive := List.length_pos_iff.mpr hlast
  rw [hleft, List.length_append, List.length_reverse, String.length_toList] at hpath
  rw [← String.length_toList, htext, List.length_reverse]
  omega

/-- The first step of a path that has a parent is the one of its parent, if it is the root. -/
theorem head?_of_parent? (h : p.parent? = some q) (hroot : p.components.head? = some .root) :
    q.components.head? = some .root := by
  rw [components_of_parent? h]
  unfold parent? at h
  cases hsteps : p.components with
  | nil =>
    rw [hsteps] at hroot
    cases hroot
  | cons first steps =>
    rw [hsteps] at hroot h
    obtain rfl := Option.some.inj hroot
    cases steps with
    | nil => cases h
    | cons second steps => rfl

/-! ## 3. Ancestors -/

/-- The path `q` is `k` folders above the path `p`. -/
inductive Above : FilePath → Nat → FilePath → Prop where
  | self (p : FilePath) : Above p 0 p
  | parent {p q r : FilePath} {k : Nat} (hparent : p.parent? = some q) (h : Above q k r) :
      Above p (k + 1) r

theorem getElem?_ancestorsUpTo {fuel : Nat} (h : p.text.length < fuel) :
    (ancestorsUpTo fuel p)[k]? = some q ↔ p.Above k q := by
  induction fuel generalizing p k with
  | zero => exact absurd h (Nat.not_lt_zero _)
  | succ fuel ih =>
    rw [ancestorsUpTo]
    cases k with
    | zero =>
      refine ⟨fun hq => ?_, fun hq => ?_⟩
      · obtain rfl := Option.some.inj hq
        exact .self p
      · cases hq
        rfl
    | succ k =>
      rw [List.getElem?_cons_succ]
      cases hparent : p.parent? with
      | none =>
        refine ⟨fun hq => absurd hq nofun, fun hq => ?_⟩
        cases hq with
        | parent hq _ => rw [hparent] at hq; cases hq
      | some parent =>
        have hshorter := length_of_parent? hparent
        refine (ih (by omega)).trans ⟨.parent hparent, fun hq => ?_⟩
        cases hq with
        | parent hq habove =>
          rw [hparent] at hq
          obtain rfl := Option.some.inj hq
          exact habove

/-- **All ancestors are found**, at their numbers. -/
theorem getElem?_ancestors : p.ancestors[k]? = some q ↔ p.Above k q :=
  getElem?_ancestorsUpTo (Nat.lt_succ_self _)

example : (⟨"/a/./b//c/"⟩ : FilePath).ancestors =
    [⟨"/a/./b//c/"⟩, ⟨"/a/./b"⟩, ⟨"/a"⟩, ⟨"/"⟩] := by decide +kernel

theorem Above.unique (h : p.Above k q) (h' : p.Above k r) : q = r :=
  Option.some.inj ((getElem?_ancestors.mpr h).symm.trans (getElem?_ancestors.mpr h'))

/-- The steps of an ancestor are the first ones of the path. -/
theorem Above.components_eq (h : p.Above k q) :
    q.components = p.components.take (p.components.length - k) := by
  induction h with
  | self p => rw [Nat.sub_zero, List.take_length]
  | parent hparent _ ih =>
    rw [ih, components_of_parent? hparent, List.length_dropLast, List.dropLast_eq_take,
      List.take_take]
    congr 1
    omega

/-- The first step of an absolute path is the root. -/
theorem head?_of_isAbsolute (h : p.isAbsolute = true) : p.components.head? = some .root := by
  unfold isAbsolute at h
  split at h
  · rename_i cs hcs
    have hcut : Text.splitOn '/' ('/' :: cs) = [] :: Text.splitOn '/' cs :=
      Text.splitOn_append [] cs
    unfold components componentsOf
    rw [hcs, hcut]
    dsimp only
    rw [if_pos List.isEmpty_nil, if_neg (by simpa using Text.splitOn_ne_nil cs)]
    rfl
  · cases h

theorem Above.head?_eq (h : p.Above k q) (hroot : p.components.head? = some .root) :
    q.components.head? = some .root := by
  induction h with
  | self p => exact hroot
  | parent hparent _ ih => exact ih (head?_of_parent? hparent hroot)

/-- No ancestor of an absolute path is empty. -/
theorem Above.ne_empty (h : p.Above k q) (hp : p.isAbsolute = true) : q ≠ ⟨""⟩ := by
  rintro rfl
  cases h.head?_eq (head?_of_isAbsolute hp)

end FilePath
end ClassScript
