/-
  File:      ClassScript/Proofs/Text/Spellings.lean
  Subject:   Each path of a list the first time it comes up.

  One path may be written in several ways. Where each path of a list is to
  count once, the spelling in which it comes up first stands for all of them.

  * `FilePath.firstSpellings`: each path the first time it comes up;
  * `FilePath.firstSpellings_append`: what a second list adds to a first one;
  * `FilePath.occurs_firstSpellings`, `FilePath.pairwise_firstSpellings`: no
    path is lost, and none comes twice.
-/
import Mathlib.Data.List.Induction
import ClassScript.Proofs.Text.PathOrder

namespace ClassScript

namespace FilePath

/-- The paths of a list, each in the spelling in which it comes up first. -/
def firstSpellings (paths : List FilePath) : List FilePath := paths.eraseDupsBy same

/-- Some path of the list is this one. -/
def occurs (paths : List FilePath) (p : FilePath) : Bool := paths.any p.same

variable {paths others : List FilePath} {p q : FilePath}

theorem occurs_iff : occurs paths p = true ↔ ∃ q ∈ paths, q.same p = true := by
  unfold occurs
  rw [List.any_eq_true]
  exact exists_congr fun q => and_congr_right fun _ => by rw [same_comm]

theorem occurs_of_mem (h : p ∈ paths) : occurs paths p = true :=
  occurs_iff.mpr ⟨p, h, same_iff.mpr rfl⟩

theorem occurs_append : occurs (paths ++ others) p = (occurs paths p || occurs others p) :=
  List.any_append

/-- An equal path occurs where a path does. -/
theorem occurs_of_same (h : p.same q = true) (hq : occurs paths q = true) :
    occurs paths p = true := by
  unfold occurs
  rw [funext (same_congr h)]
  exact hq

/-- The library's loop keeps in `seen` what has come up. A path at the end of the list is
    dropped if it has come up anywhere before. -/
theorem loop_concat (seen paths : List FilePath) (p : FilePath) :
    List.eraseDupsBy.loop same (paths ++ [p]) seen =
      List.eraseDupsBy.loop same paths seen ++ if occurs (seen ++ paths) p then [] else [p] := by
  induction paths generalizing seen with
  | nil =>
    rw [List.append_nil]
    show (match occurs seen p with | true => seen.reverse | false => (p :: seen).reverse) =
      seen.reverse ++ _
    cases occurs seen p with
    | true => exact (List.append_nil _).symm
    | false => exact List.reverse_cons
  | cons q paths ih =>
    show (match occurs seen q with
        | true => List.eraseDupsBy.loop same (paths ++ [p]) seen
        | false => List.eraseDupsBy.loop same (paths ++ [p]) (q :: seen)) =
      (match occurs seen q with
        | true => List.eraseDupsBy.loop same paths seen
        | false => List.eraseDupsBy.loop same paths (q :: seen)) ++ _
    have hcons : occurs (seen ++ q :: paths) p = (p.same q || occurs (seen ++ paths) p) := by
      rw [occurs_append, occurs_append, Bool.or_left_comm]
      rfl
    cases hseen : occurs seen q with
    | true =>
      have hold : occurs (seen ++ q :: paths) p = occurs (seen ++ paths) p := by
        rw [hcons]
        cases hsame : p.same q with
        | false => rfl
        | true => rw [occurs_append, occurs_of_same hsame hseen, Bool.true_or, Bool.true_or]
      rw [hold]
      exact ih seen
    | false =>
      rw [hcons]
      exact ih (q :: seen)

theorem firstSpellings_concat (paths : List FilePath) (p : FilePath) :
    firstSpellings (paths ++ [p]) =
      firstSpellings paths ++ if occurs paths p then [] else [p] :=
  loop_concat [] paths p

/-- The spellings in two lists: those of the second list are new if their paths are. -/
theorem firstSpellings_append (paths others : List FilePath) :
    firstSpellings (paths ++ others) =
      firstSpellings paths ++ (firstSpellings others).filter fun p => !occurs paths p := by
  induction others using List.reverseRecOn with
  | nil =>
    rw [List.append_nil]
    exact (List.append_nil _).symm
  | append_singleton others p ih =>
    rw [← List.append_assoc, firstSpellings_concat, firstSpellings_concat, ih, occurs_append,
      List.filter_append, List.append_assoc]
    congr 2
    cases hold : occurs paths p <;> cases occurs others p <;> simp [hold]

/-- Spellings are dropped, and no path changes its place. -/
theorem firstSpellings_sublist (paths : List FilePath) :
    (firstSpellings paths).Sublist paths := by
  induction paths using List.reverseRecOn with
  | nil => exact List.nil_sublist []
  | append_singleton paths p ih =>
    rw [firstSpellings_concat]
    refine ih.append ?_
    split
    · exact List.nil_sublist [p]
    · exact List.Sublist.refl [p]

theorem mem_of_mem_firstSpellings (h : p ∈ firstSpellings paths) : p ∈ paths :=
  (firstSpellings_sublist paths).mem h

/-- No path is lost. -/
theorem occurs_firstSpellings : occurs (firstSpellings paths) p = occurs paths p := by
  induction paths using List.reverseRecOn with
  | nil => rfl
  | append_singleton paths q ih =>
    rw [firstSpellings_concat, occurs_append, occurs_append, ih]
    cases hold : occurs paths q with
    | false => rfl
    | true =>
      cases hsame : p.same q with
      | false => simp [occurs, hsame]
      | true => rw [occurs_of_same hsame hold, Bool.true_or, Bool.true_or]

/-- No path comes twice. -/
theorem pairwise_firstSpellings (paths : List FilePath) :
    (firstSpellings paths).Pairwise fun p q => p.same q = false := by
  induction paths using List.reverseRecOn with
  | nil => exact List.Pairwise.nil
  | append_singleton paths q ih =>
    rw [firstSpellings_concat]
    split
    · rwa [List.append_nil]
    · rename_i hnew
      refine List.pairwise_append.mpr ⟨ih, List.pairwise_singleton _ _, fun p hp r hr => ?_⟩
      rw [List.mem_singleton.mp hr]
      exact Bool.eq_false_iff.mpr fun hsame =>
        hnew (occurs_iff.mpr ⟨p, mem_of_mem_firstSpellings hp, hsame⟩)

/-- Of the spellings of a path, the first one is kept. -/
theorem find?_of_mem_firstSpellings (h : p ∈ firstSpellings paths) :
    paths.find? (·.same p) = some p := by
  induction paths using List.reverseRecOn with
  | nil => cases h
  | append_singleton paths q ih =>
    rw [List.find?_append]
    rw [firstSpellings_concat, List.mem_append] at h
    rcases h with h | h
    · rw [ih h, Option.some_or]
    · split at h
      · cases h
      · rename_i hnew
        obtain rfl := List.mem_singleton.mp h
        have hnone : paths.find? (·.same p) = none :=
          List.find?_eq_none.mpr fun q hq hsame => hnew (occurs_iff.mpr ⟨q, hq, hsame⟩)
        rw [hnone, Option.none_or, List.find?_singleton, if_pos (same_iff.mpr rfl)]

end FilePath
end ClassScript
