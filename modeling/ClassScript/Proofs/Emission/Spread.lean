/-
  File:      ClassScript/Proofs/Emission/Spread.lean
  Subject:   The places that edits take, and edits that are spread out.

  An edit takes a place in the text, a range that it reaches beyond only if
  it takes whole lines out. What else reaches a place is a line that is taken
  out before or behind it; a place is clear if none does. Edits whose places
  do not overlap lie apart, and so do edits that are put one after the other.

  * `Removable`: a range that may be taken out with its lines;
  * `Clear`: no such range reaches a place;
  * `Sits`, `Sits.apart`: an edit at its place, and two edits at two places;
  * `Spread`: edits that lie apart, at places in one range.
-/
import ClassScript.Proofs.Emission.Edit
import ClassScript.Proofs.Emission.Layout

namespace ClassScript.Emission

open Syntax (Source Tree IsBoundary IsInk)

variable {s : String} {R : List (Nat × Nat)} {lo hi : Nat}

/-! ## 1. Ranges that are taken out with their lines -/

/-- A range with ink at its start and on the line it ends in. -/
structure Removable (s : String) (r : Nat × Nat) : Prop where
  start : IsBoundary s r.1
  stop : IsBoundary s r.2
  nonempty : r.1 < r.2
  ink : IsInk s r.1
  settled : isBlankBetween (.ofString s) ((Source.ofString s).lineStart r.2) r.2 = false

/-- None of the ranges `R` reaches `hi` from behind, or `lo` from before, with its lines. -/
structure Clear (s : String) (R : List (Nat × Nat)) (lo hi : Nat) : Prop where
  before : ∀ r ∈ R, r.2 ≤ lo →
    isBlankBetween (.ofString s) r.2 ((Source.ofString s).lineEnd r.2) = true →
      (Source.ofString s).lineEnd r.2 ≤ lo
  behind : ∀ r ∈ R, hi ≤ r.1 →
    isBlankBetween (.ofString s) ((Source.ofString s).lineStart r.1) r.1 = true →
      hi ≤ (Source.ofString s).lineStart r.1

/-- A line that is taken out has no ink behind its range. -/
theorem lineEnd_le_of_ink {a i : Nat} (ha : IsBoundary s a) (hai : a ≤ i) (hi : IsInk s i)
    (hblank : isBlankBetween (.ofString s) a ((Source.ofString s).lineEnd a) = true) :
    (Source.ofString s).lineEnd a ≤ i := by
  have hend := Syntax.isBoundary_lineEnd ha.le_size
  have hle := Syntax.le_lineEnd (.ofString s) a
  have hno := (Syntax.isBlankBetween_eq_true_iff ha hend hle).mp hblank
  by_cases hlt : i < (Source.ofString s).lineEnd a
  · exact absurd hi (hno i hai hlt)
  · omega

/-- A line that is taken out has no ink before its range. -/
theorem lt_lineStart_of_ink {a i : Nat} (ha : IsBoundary s a) (hia : i < a) (hi : IsInk s i)
    (hblank : isBlankBetween (.ofString s) ((Source.ofString s).lineStart a) a = true) :
    i < (Source.ofString s).lineStart a := by
  have hstart := Syntax.isBoundary_lineStart s a
  have hle := Syntax.lineStart_le (.ofString s) a
  have hno := (Syntax.isBlankBetween_eq_true_iff hstart ha hle).mp hblank
  by_cases hlt : i < (Source.ofString s).lineStart a
  · exact hlt
  · exact absurd hi (hno i (by omega) hia)

section Clear

variable (hR : ∀ r ∈ R, Removable s r)
include hR

/-- Nothing reaches beyond ink. -/
theorem before_of_ink (hlo : IsInk s lo) : ∀ r ∈ R, r.2 ≤ lo →
    isBlankBetween (.ofString s) r.2 ((Source.ofString s).lineEnd r.2) = true →
      (Source.ofString s).lineEnd r.2 ≤ lo :=
  fun r hr hle hblank => lineEnd_le_of_ink (hR r hr).stop hle hlo hblank

/-- Nothing reaches a place that no range is directly before. -/
theorem before_of_apart (hlo : IsBoundary s lo)
    (hno : ∀ r ∈ R, isBlankBetween (.ofString s) r.2 lo = false) : ∀ r ∈ R, r.2 ≤ lo →
    isBlankBetween (.ofString s) r.2 ((Source.ofString s).lineEnd r.2) = true →
      (Source.ofString s).lineEnd r.2 ≤ lo := by
  intro r hr hle hblank
  obtain ⟨i, hri, hilo, hink⟩ := Syntax.exists_ink (hR r hr).stop hlo hle (hno r hr)
  have := lineEnd_le_of_ink (hR r hr).stop hri hink hblank
  omega

/-- Nothing reaches a place with ink on the line it ends in. -/
theorem behind_of_settled (hhi : IsBoundary s hi)
    (hset : isBlankBetween (.ofString s) ((Source.ofString s).lineStart hi) hi = false) :
    ∀ r ∈ R, hi ≤ r.1 →
      isBlankBetween (.ofString s) ((Source.ofString s).lineStart r.1) r.1 = true →
        hi ≤ (Source.ofString s).lineStart r.1 := by
  intro r hr hle hblank
  obtain ⟨i, hsi, hihi, hink⟩ := Syntax.exists_ink (Syntax.isBoundary_lineStart s hi) hhi
    (Syntax.lineStart_le _ hi) hset
  have hlt := lt_lineStart_of_ink (hR r hr).start (by omega) hink hblank
  -- the line of `r` starts behind a line feed, and none stands between `i` and `hi`
  rcases Syntax.lineStart_cases (.ofString s) r.1 with h | ⟨j, h, hj⟩
  · omega
  · by_cases hjhi : j < hi
    · have := Syntax.lt_lineStart hj hjhi
      omega
    · omega

/-- Nothing reaches a place that starts at, or is followed by blanks up to, a place that no range
    is directly behind. -/
theorem behind_of_apart {p : Nat} (hp : IsBoundary s p) (hhi : IsBoundary s hi)
    (hblank : isBlankBetween (.ofString s) p hi = true)
    (hno : ∀ r ∈ R, isBlankBetween (.ofString s) p r.1 = false) : ∀ r ∈ R, hi ≤ r.1 →
      isBlankBetween (.ofString s) ((Source.ofString s).lineStart r.1) r.1 = true →
        hi ≤ (Source.ofString s).lineStart r.1 := by
  intro r hr hle hline
  have hphi : p ≤ hi := by
    rw [isBlankBetween, Bool.and_eq_true, decide_eq_true_eq] at hblank
    exact hblank.1
  obtain ⟨i, hpi, hir, hink⟩ := Syntax.exists_ink hp (hR r hr).start (by omega) (hno r hr)
  have hlt := lt_lineStart_of_ink (hR r hr).start hir hink hline
  have hnoink := (Syntax.isBlankBetween_eq_true_iff hp hhi hphi).mp hblank
  by_cases hihi : i < hi
  · exact absurd hink (hnoink i hpi hihi)
  · omega

theorem Removable.clear {r : Nat × Nat} (h : Removable s r) : Clear s R r.1 r.2 :=
  ⟨before_of_ink hR h.ink, behind_of_settled hR h.stop h.settled⟩

end Clear

/-! ## 2. Edits at their places -/

theorem dropLines_cases (src : Source) (a b : Nat) :
    dropLines src a b = .removal a b ∨
      isBlankBetween src (src.lineStart a) a = true ∧ isBlankBetween src b (src.lineEnd b) = true ∧
        dropLines src a b = .removal (src.lineStart a) (src.lineEnd b) := by
  rw [dropLines]
  split
  · rename_i h
    rw [Bool.and_eq_true] at h
    exact .inr ⟨h.1, h.2, rfl⟩
  · exact .inl rfl

/-- An edit has the place from `lo` up to `hi`: it lies there, or takes it out with its lines. -/
structure Sits (s : String) (R : List (Nat × Nat)) (e : Edit) (lo hi : Nat) : Prop where
  fits : e.Fits s
  clear : Clear s R lo hi
  shape : lo ≤ e.start ∧ e.stop ≤ hi ∨
    Removable s (lo, hi) ∧ (lo, hi) ∈ R ∧ e = dropLines (.ofString s) lo hi

theorem fits_dropLines {r : Nat × Nat} (h : Removable s r) :
    (dropLines (.ofString s) r.1 r.2).Fits s := by
  have hle := h.nonempty
  rcases dropLines_cases (.ofString s) r.1 r.2 with he | ⟨_, _, he⟩
  · rw [he]
    exact ⟨h.start, h.stop, Nat.le_of_lt hle⟩
  · have := Syntax.lineStart_le (.ofString s) r.1
    have := Syntax.le_lineEnd (.ofString s) r.2
    rw [he]
    refine ⟨Syntax.isBoundary_lineStart s r.1, Syntax.isBoundary_lineEnd h.stop.le_size, ?_⟩
    change (Source.ofString s).lineStart r.1 ≤ (Source.ofString s).lineEnd r.2
    omega

/-- A range that is taken out with its lines has its place. -/
theorem sits_dropLines (hR : ∀ r ∈ R, Removable s r) {r : Nat × Nat} (hr : r ∈ R) :
    Sits s R (dropLines (.ofString s) r.1 r.2) r.1 r.2 :=
  ⟨fits_dropLines (hR r hr), (hR r hr).clear hR, .inr ⟨hR r hr, hr, rfl⟩⟩

/-- The line of one place ends before the line of a later one starts. -/
theorem lineEnd_le_lineStart {src : Source} {a b : Nat} (ha : a ≤ src.size) (hb : b < src.size)
    (h : src.lineEnd a ≤ b) : src.lineEnd a ≤ src.lineStart b := by
  rcases Syntax.lineEnd_cases ha with heq | ⟨j, _, heq, hj⟩
  · omega
  · have := Syntax.lt_lineStart hj (by omega : j < b)
    omega

/-- **Edits at two places lie apart.** -/
theorem Sits.apart {e₁ e₂ : Edit} {lo₁ hi₁ lo₂ hi₂ : Nat} (h₁ : Sits s R e₁ lo₁ hi₁)
    (h₂ : Sits s R e₂ lo₂ hi₂) (h : hi₁ ≤ lo₂) : e₁.stop ≤ e₂.start := by
  rcases h₁.shape with ⟨_, hin₁⟩ | ⟨hrem₁, hmem₁, rfl⟩
  · rcases h₂.shape with ⟨hin₂, _⟩ | ⟨_, hmem₂, rfl⟩
    · omega
    · rcases dropLines_cases (.ofString s) lo₂ hi₂ with he | ⟨hblank, _, he⟩
      · rw [he]
        exact Nat.le_trans hin₁ h
      · rw [he]
        exact Nat.le_trans hin₁ (h₁.clear.behind _ hmem₂ h hblank)
  · rcases dropLines_cases (.ofString s) lo₁ hi₁ with he₁ | ⟨_, hblank₁, he₁⟩
    · rw [he₁]
      rcases h₂.shape with ⟨hin₂, _⟩ | ⟨_, hmem₂, rfl⟩
      · exact Nat.le_trans h hin₂
      · rcases dropLines_cases (.ofString s) lo₂ hi₂ with he₂ | ⟨hblank₂, _, he₂⟩
        · rw [he₂]
          exact h
        · rw [he₂]
          exact h₁.clear.behind _ hmem₂ h hblank₂
    · have hend := h₂.clear.before _ hmem₁ h hblank₁
      rw [he₁]
      rcases h₂.shape with ⟨hin₂, _⟩ | ⟨hrem₂, _, rfl⟩
      · exact Nat.le_trans hend hin₂
      · rcases dropLines_cases (.ofString s) lo₂ hi₂ with he₂ | ⟨_, _, he₂⟩
        · rw [he₂]
          exact hend
        · have hsize := hrem₂.stop.le_size
          rw [he₂]
          exact lineEnd_le_lineStart hrem₁.stop.le_size (Nat.lt_of_lt_of_le hrem₂.nonempty hsize)
            hend

/-! ## 3. Edits that are spread out -/

/-- Edits that lie apart, each at a place between `lo` and `hi`. -/
structure Spread (s : String) (R : List (Nat × Nat)) (lo hi : Nat) (edits : List Edit) : Prop where
  sits : ∀ e ∈ edits, ∃ a b, lo ≤ a ∧ b ≤ hi ∧ Sits s R e a b
  apart : edits.Pairwise Edit.Apart

namespace Spread

variable {es fs : List Edit} {lo' hi' : Nat}

theorem nil : Spread s R lo hi [] := ⟨fun _ h => absurd h List.not_mem_nil, .nil⟩

theorem single {e : Edit} (h : Sits s R e lo hi) : Spread s R lo hi [e] := by
  refine ⟨fun x hx => ?_, List.pairwise_singleton _ _⟩
  obtain rfl := List.mem_singleton.mp hx
  exact ⟨lo, hi, Nat.le_refl lo, Nat.le_refl hi, h⟩

theorem mono (h : Spread s R lo hi es) (hlo : lo' ≤ lo) (hhi : hi ≤ hi') :
    Spread s R lo' hi' es := by
  refine ⟨fun e he => ?_, h.apart⟩
  obtain ⟨a, b, ha, hb, hsits⟩ := h.sits e he
  exact ⟨a, b, by omega, by omega, hsits⟩

/-- Edits in a range and edits behind it. -/
theorem append (h₁ : Spread s R lo hi es) (h₂ : Spread s R lo' hi' fs) (h : hi ≤ lo')
    (hlo : lo ≤ lo') (hhi : hi ≤ hi') : Spread s R lo hi' (es ++ fs) := by
  refine ⟨fun e he => ?_, List.pairwise_append.mpr ⟨h₁.apart, h₂.apart, fun e₁ he₁ e₂ he₂ => ?_⟩⟩
  · rcases List.mem_append.mp he with he | he
    · exact (h₁.mono (Nat.le_refl lo) hhi).sits e he
    · exact (h₂.mono hlo (Nat.le_refl hi')).sits e he
  · obtain ⟨a₁, b₁, _, hb₁, hsits₁⟩ := h₁.sits e₁ he₁
    obtain ⟨a₂, b₂, ha₂, _, hsits₂⟩ := h₂.sits e₂ he₂
    exact .inl (hsits₁.apart hsits₂ (by omega))

theorem perm (h : Spread s R lo hi es) (hp : es.Perm fs) : Spread s R lo hi fs :=
  ⟨fun e he => h.sits e (hp.mem_iff.mpr he), (hp.pairwise_iff Edit.Apart.symm).mp h.apart⟩

theorem sublist (h : Spread s R lo hi fs) (hs : es.Sublist fs) : Spread s R lo hi es :=
  ⟨fun e he => h.sits e (hs.mem he), h.apart.sublist hs⟩

end Spread

end ClassScript.Emission
