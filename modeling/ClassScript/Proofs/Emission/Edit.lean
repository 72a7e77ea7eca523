/-
  File:      ClassScript/Proofs/Emission/Edit.lean
  Subject:   Edits that lie apart are all performed, and all at once.

  Edits are performed from the left to the right, and one that starts inside
  of what an earlier one replaced is left out without a word. If no two edits
  overlap, none is left out, and the order in which they are performed shows
  in nothing: each byte of the source is copied unless an edit replaces it,
  and the texts that come in stand where their edits start.

  * `Edit.Apart`: two edits touch at most;
  * `Edit.kept_eq_sort`: edits that lie apart are all performed;
  * `Edit.covers`, `Edit.atOnce`: the bytes that are replaced, and the edited
    text byte by byte;
  * `Edit.bytesOf_applyTo`: performing the edits one by one gives just that.
-/
import ClassScript.Emission.Edit
import ClassScript.Proofs.Syntax.Source

namespace ClassScript.Emission

open Syntax (Source IsBoundary Stands bytesOf)

namespace Edit

variable {e : Edit} {es edits : List Edit} {i j : Nat}

/-! ## 1. The order of edits -/

theorem precedes_iff {a b : Edit} :
    a.precedes b = true ↔ a.start < b.start ∨ a.start = b.start ∧ a.stop ≤ b.stop := by
  simp [precedes]

theorem place_perm (e : Edit) (es : List Edit) : (e.place es).Perm (e :: es) := by
  induction es with
  | nil => exact .refl _
  | cons x xs ih =>
    rw [place]
    split
    · exact .refl _
    · exact (ih.cons x).trans (.swap e x xs)

/-- Sorting loses and makes no edit. -/
theorem sort_perm (es : List Edit) : (sort es).Perm es := by
  induction es with
  | nil => exact .refl _
  | cons e es ih => exact (place_perm e (sort es)).trans (ih.cons e)

theorem pairwise_place (h : es.Pairwise fun a b => a.precedes b = true) :
    (e.place es).Pairwise fun a b => a.precedes b = true := by
  induction es with
  | nil => exact List.pairwise_singleton _ _
  | cons x xs ih =>
    obtain ⟨hx, hxs⟩ := List.pairwise_cons.mp h
    rw [place]
    split
    · rename_i hex
      refine List.pairwise_cons.mpr ⟨fun y hy => ?_, h⟩
      rcases List.mem_cons.mp hy with rfl | hy
      · exact hex
      · have hxy := precedes_iff.mp (hx y hy)
        have hex := precedes_iff.mp hex
        exact precedes_iff.mpr (by omega)
    · rename_i hex
      refine List.pairwise_cons.mpr ⟨fun y hy => ?_, ih hxs⟩
      rcases List.mem_cons.mp ((place_perm e xs).mem_iff.mp hy) with rfl | hy
      · rw [precedes_iff] at hex
        exact precedes_iff.mpr (by omega)
      · exact hx y hy

theorem pairwise_sort (es : List Edit) : (sort es).Pairwise fun a b => a.precedes b = true := by
  induction es with
  | nil => exact .nil
  | cons e es ih => exact pairwise_place ih

/-- An edit is one of the range from `i` up to `j`. -/
def hasRange (i j : Nat) (e : Edit) : Bool := e.start == i && e.stop == j

theorem hasRange_iff : e.hasRange i j = true ↔ e.start = i ∧ e.stop = j := by
  simp [hasRange]

theorem filter_place (e : Edit) (es : List Edit) (i j : Nat) :
    (e.place es).filter (hasRange i j) = (e :: es).filter (hasRange i j) := by
  induction es with
  | nil => rfl
  | cons x xs ih =>
    rw [place]
    split
    · rfl
    · rename_i hex
      rw [precedes_iff] at hex
      by_cases he : e.hasRange i j = true
      · have hx : ¬x.hasRange i j = true := by
          rw [hasRange_iff] at he ⊢
          omega
        rw [List.filter_cons_of_neg hx, ih, List.filter_cons_of_pos he, List.filter_cons_of_pos he,
          List.filter_cons_of_neg hx]
      · rw [List.filter_cons, ih, List.filter_cons_of_neg he, List.filter_cons_of_neg he,
          List.filter_cons]

/-- The edits of one range keep their order. -/
theorem filter_sort (es : List Edit) (i j : Nat) :
    (sort es).filter (hasRange i j) = es.filter (hasRange i j) := by
  induction es with
  | nil => rfl
  | cons e es ih =>
    rw [sort, filter_place, List.filter_cons, ih]
    exact (List.filter_cons ..).symm

/-! ## 2. Edits that lie apart -/

/-- No byte lies inside of two edits, and nothing comes in inside of one: they touch at most. -/
def Apart (a b : Edit) : Prop := a.stop ≤ b.start ∨ b.stop ≤ a.start

instance (a b : Edit) : Decidable (Apart a b) :=
  inferInstanceAs (Decidable (a.stop ≤ b.start ∨ b.stop ≤ a.start))

theorem Apart.symm {a b : Edit} (h : Apart a b) : Apart b a := Or.symm h

/-- In order, each of some edits that lie apart stops before the next one starts. -/
theorem pairwise_sort_of_apart (hord : ∀ e ∈ edits, e.start ≤ e.stop)
    (h : edits.Pairwise Apart) : (sort edits).Pairwise fun a b => a.stop ≤ b.start := by
  have hperm := sort_perm edits
  have hapart := (hperm.pairwise_iff Apart.symm).mpr h
  refine (List.Pairwise.and (pairwise_sort edits) hapart).imp_of_mem fun {a b} ha hb hab => ?_
  have hpre := precedes_iff.mp hab.1
  have ha := hord a (hperm.mem_iff.mp ha)
  have hb := hord b (hperm.mem_iff.mp hb)
  rcases hab.2 with hle | hle <;> omega

theorem keptFrom_eq {cursor : Nat} (hcur : ∀ e ∈ es, cursor ≤ e.start)
    (h : es.Pairwise fun a b => a.stop ≤ b.start) : keptFrom cursor es = es := by
  induction es generalizing cursor with
  | nil => rfl
  | cons e es ih =>
    obtain ⟨he, hes⟩ := List.pairwise_cons.mp h
    have hstart := hcur e List.mem_cons_self
    rw [keptFrom, if_neg (by omega), ih he hes]

theorem keptFrom_sublist (cursor : Nat) (es : List Edit) : (keptFrom cursor es).Sublist es := by
  induction es generalizing cursor with
  | nil => exact .refl _
  | cons e es ih =>
    rw [keptFrom]
    split
    · exact (ih cursor).cons e
    · exact (ih e.stop).cons_cons e

/-- Only edits that were made are performed. -/
theorem mem_of_mem_kept (h : e ∈ kept edits) : e ∈ edits :=
  (sort_perm edits).mem_iff.mp ((keptFrom_sublist 0 _).mem h)

/-- **Edits that lie apart are all performed.** -/
theorem kept_eq_sort (hord : ∀ e ∈ edits, e.start ≤ e.stop) (h : edits.Pairwise Apart) :
    kept edits = sort edits :=
  keptFrom_eq (fun _ _ => Nat.zero_le _) (pairwise_sort_of_apart hord h)

/-! ## 3. All edits at once -/

/-- An edit replaces the byte at `i`. -/
def covers (edits : List Edit) (i : Nat) : Bool :=
  edits.any fun e => decide (e.start ≤ i) && decide (i < e.stop)

/-- An edit replaces something from `i` on. -/
def replacesFrom (i : Nat) (e : Edit) : Bool := e.start == i && decide (i < e.stop)

theorem replacesFrom_iff : e.replacesFrom i = true ↔ e.start = i ∧ i < e.stop := by
  simp [replacesFrom]

/-- The edits whose texts come in at `i`: those that replace nothing, and then one that does. -/
def startingAt (edits : List Edit) (i : Nat) : List Edit :=
  edits.filter (hasRange i i) ++ edits.filter (replacesFrom i)

/-- What the edited text has of the offset `i`: the texts that come in there, and the byte
    itself unless it is replaced. -/
def atOnceAt (src : Source) (edits : List Edit) (i : Nat) : List UInt8 :=
  (startingAt edits i).flatMap (fun e => bytesOf e.text.toList) ++
    if covers edits i || decide (src.size ≤ i) then [] else [src.byte i]

/-- The bytes of the text with all edits performed at once. -/
def atOnce (src : Source) (edits : List Edit) : List UInt8 :=
  (List.range' 0 (src.size + 1)).flatMap (atOnceAt src edits)

theorem covers_iff : covers edits i = true ↔ ∃ e ∈ edits, e.start ≤ i ∧ i < e.stop := by
  simp [covers]

/-- An edit that does not touch `i` says nothing about it. -/
theorem atOnceAt_cons_of_ne {src : Source} (hstart : e.start ≠ i)
    (hout : i < e.start ∨ e.stop ≤ i) :
    atOnceAt src (e :: es) i = atOnceAt src es i := by
  have hb : (e.start == i) = false := beq_eq_false_iff_ne.mpr hstart
  have hcov : covers (e :: es) i = covers es i := by
    have he : (decide (e.start ≤ i) && decide (i < e.stop)) = false := by
      rw [Bool.and_eq_false_iff, decide_eq_false_iff_not, decide_eq_false_iff_not]
      omega
    rw [covers, List.any_cons, he, Bool.false_or, covers]
  rw [atOnceAt, atOnceAt, hcov, startingAt, startingAt, List.filter_cons, List.filter_cons,
    hasRange, replacesFrom, hb]
  rfl

/-- Where no edit starts and nothing is replaced, the byte itself stands. -/
theorem atOnceAt_of_out {src : Source} (hi : i < src.size)
    (hout : ∀ e ∈ es, i < e.start ∨ e.start < i ∧ e.stop ≤ i) :
    atOnceAt src es i = [src.byte i] := by
  have hdec : decide (src.size ≤ i) = false := decide_eq_false (by omega)
  induction es with
  | nil => simp [atOnceAt, startingAt, covers, hdec]
  | cons e es ih =>
    have he := hout e List.mem_cons_self
    rw [atOnceAt_cons_of_ne (by omega) (by omega)]
    exact ih fun x hx => hout x (List.mem_cons_of_mem e hx)

/-! ## 4. One after the other -/

variable {s : String} {a b : Nat}

/-- An edit replaces whole characters. -/
structure Fits (s : String) (e : Edit) : Prop where
  start : IsBoundary s e.start
  stop : IsBoundary s e.stop
  start_le_stop : e.start ≤ e.stop

theorem range'_split {a b c : Nat} (hab : a ≤ b) (hbc : b ≤ c) :
    List.range' a (c - a) = List.range' a (b - a) ++ List.range' b (c - b) := by
  obtain ⟨m, rfl⟩ := Nat.exists_eq_add_of_le hab
  obtain ⟨n, rfl⟩ := Nat.exists_eq_add_of_le hbc
  rw [Nat.add_sub_cancel_left, Nat.add_sub_cancel_left, Nat.add_assoc, Nat.add_sub_cancel_left,
    List.range'_append_1]

theorem flatMap_congr_range' {f g : Nat → List UInt8} {n : Nat}
    (h : ∀ i, a ≤ i → i < a + n → f i = g i) :
    (List.range' a n).flatMap f = (List.range' a n).flatMap g := by
  rw [List.flatMap_def, List.flatMap_def]
  refine congrArg List.flatten (List.map_congr_left fun i hi => ?_)
  rw [List.mem_range'_1] at hi
  exact h i hi.1 hi.2

/-- A range that no edit touches is copied. -/
theorem flatMap_atOnceAt_of_out (ha : IsBoundary s a) (hb : IsBoundary s b) (hab : a ≤ b)
    (hout : ∀ e ∈ es, ∀ i, a ≤ i → i < b → i < e.start ∨ e.start < i ∧ e.stop ≤ i) :
    (List.range' a (b - a)).flatMap (atOnceAt (.ofString s) es) =
      bytesOf ((Source.ofString s).text a b).toList := by
  obtain ⟨cs, hcs⟩ := Syntax.exists_stands ha hb hab
  have hsize := hb.le_size
  have hmap : (List.range' a (b - a)).flatMap (atOnceAt (.ofString s) es) =
      (List.range' a (b - a)).map (Source.ofString s).byte := by
    rw [List.map_eq_flatMap]
    exact flatMap_congr_range' fun i hai hib =>
      atOnceAt_of_out (by omega) fun e he => hout e he i hai (by omega)
  rw [hmap, hcs.map_byte, hcs.text_eq, String.toList_ofList]

/-- Nothing but its text comes of the range of an edit. -/
theorem flatMap_atOnceAt_inside (hlt : e.start < e.stop) (hes : ∀ x ∈ es, e.stop ≤ x.start) :
    (List.range' e.start (e.stop - e.start)).flatMap (atOnceAt (.ofString s) (e :: es)) =
      bytesOf e.text.toList := by
  have hcov (i : Nat) (hi : e.start ≤ i) (hi' : i < e.stop) : covers (e :: es) i = true :=
    covers_iff.mpr ⟨e, List.mem_cons_self, hi, hi'⟩
  have hnone (i : Nat) (hi : i < e.stop) (p : Edit → Bool) (hp : ∀ x, p x = true → x.start = i) :
      es.filter p = [] := by
    refine List.filter_eq_nil_iff.mpr fun x hx hpx => ?_
    have := hes x hx
    have := hp x hpx
    omega
  have hempty (i : Nat) (hi : i < e.stop) : es.filter (hasRange i i) = [] :=
    hnone i hi _ fun x hx => (hasRange_iff.mp hx).1
  have hfull (i : Nat) (hi : i < e.stop) : es.filter (replacesFrom i) = [] :=
    hnone i hi _ fun x hx => (replacesFrom_iff.mp hx).1
  have hfirst : atOnceAt (.ofString s) (e :: es) e.start = bytesOf e.text.toList := by
    have hnot : ¬e.hasRange e.start e.start = true := by
      rw [hasRange_iff]
      omega
    rw [atOnceAt, startingAt, hcov e.start (Nat.le_refl _) hlt, List.filter_cons_of_neg hnot,
      List.filter_cons_of_pos (replacesFrom_iff.mpr ⟨rfl, hlt⟩), hempty e.start hlt,
      hfull e.start hlt]
    simp
  have hlater (i : Nat) (hi : e.start < i) (hi' : i < e.stop) :
      atOnceAt (.ofString s) (e :: es) i = [] := by
    have hne : (e.start == i) = false := beq_eq_false_iff_ne.mpr (by omega)
    rw [atOnceAt, startingAt, hcov i (by omega) hi', List.filter_cons, List.filter_cons, hasRange,
      replacesFrom, hne, hempty i hi', hfull i hi']
    rfl
  obtain ⟨n, hn⟩ : ∃ n, e.stop - e.start = n + 1 := ⟨e.stop - e.start - 1, by omega⟩
  rw [hn, List.range'_succ, List.flatMap_cons, hfirst,
    flatMap_congr_range' (g := fun _ => []) fun i hi hi' => hlater i (by omega) (by omega)]
  simp

/-- Behind the range of an edit, what comes of the text is up to the others. -/
theorem flatMap_atOnceAt_behind (hle : e.start ≤ e.stop) (hes : e.start < e.stop ∨ a ≠ e.start)
    (ha : e.stop ≤ a) (n : Nat) :
    (List.range' a n).flatMap (atOnceAt (.ofString s) (e :: es)) =
      (List.range' a n).flatMap (atOnceAt (.ofString s) es) :=
  flatMap_congr_range' fun i hi _ => atOnceAt_cons_of_ne (by omega) (by omega)

/-- What comes in first at one place is the text of the first edit there. -/
theorem atOnceAt_cons_of_empty {src : Source} (h : e.stop = e.start) :
    atOnceAt src (e :: es) e.start = bytesOf e.text.toList ++ atOnceAt src es e.start := by
  have hempty : e.hasRange e.start e.start = true := hasRange_iff.mpr ⟨rfl, h⟩
  have hfull : ¬e.replacesFrom e.start = true := by
    rw [replacesFrom_iff]
    omega
  have hcov : covers (e :: es) e.start = covers es e.start := by
    rw [covers, List.any_cons, h, covers]
    simp
  rw [atOnceAt, startingAt, hcov, List.filter_cons_of_pos hempty, List.filter_cons_of_neg hfull,
    List.cons_append, List.flatMap_cons, List.append_assoc]
  rfl

/-- What comes in with the first of some edits in order, and what comes of the text behind it. -/
theorem flatMap_atOnceAt_cons (he : Fits s e) (hes : ∀ x ∈ es, e.stop ≤ x.start) :
    (List.range' e.start ((Source.ofString s).size + 1 - e.start)).flatMap
        (atOnceAt (.ofString s) (e :: es)) =
      bytesOf e.text.toList ++
        (List.range' e.stop ((Source.ofString s).size + 1 - e.stop)).flatMap
          (atOnceAt (.ofString s) es) := by
  have hle := he.start_le_stop
  have hsize := he.stop.le_size
  rcases Nat.lt_or_eq_of_le hle with hlt | heq
  · rw [range'_split hle (by omega), List.flatMap_append, flatMap_atOnceAt_inside hlt hes,
      flatMap_atOnceAt_behind hle (.inl hlt) (Nat.le_refl _)]
  · obtain ⟨n, hn⟩ : ∃ n, (Source.ofString s).size + 1 - e.start = n + 1 :=
      ⟨(Source.ofString s).size - e.start, by omega⟩
    rw [← heq, hn, List.range'_succ, List.flatMap_cons, List.flatMap_cons,
      atOnceAt_cons_of_empty heq.symm,
      flatMap_atOnceAt_behind hle (.inr (by omega)) (by omega), List.append_assoc]

/-- Edits in order, performed one by one from `cursor` on, give what they give at once. -/
theorem bytesOf_performFrom {cursor : Nat} (hcur : IsBoundary s cursor)
    (hfit : ∀ e ∈ es, Fits s e) (hle : ∀ e ∈ es, cursor ≤ e.start)
    (h : es.Pairwise fun a b => a.stop ≤ b.start) :
    bytesOf (performFrom (.ofString s) cursor es).toList =
      (List.range' cursor ((Source.ofString s).size + 1 - cursor)).flatMap
        (atOnceAt (.ofString s) es) := by
  induction es generalizing cursor with
  | nil =>
    have hsize := hcur.le_size
    have hlast : atOnceAt (.ofString s) [] (Source.ofString s).size = [] := by
      simp [atOnceAt, startingAt]
    rw [performFrom, range'_split hsize (by omega), List.flatMap_append,
      flatMap_atOnceAt_of_out hcur Syntax.isBoundary_size hsize
        fun e he => absurd he List.not_mem_nil,
      Nat.add_sub_cancel_left, List.range'_one, List.flatMap_singleton, hlast, List.append_nil]
  | cons e es ih =>
    obtain ⟨he, hes⟩ := List.pairwise_cons.mp h
    have hfite := hfit e List.mem_cons_self
    have hlee := hle e List.mem_cons_self
    have hsize := hfite.start.le_size
    have hrest := ih hfite.stop (fun x hx => hfit x (List.mem_cons_of_mem e hx)) he hes
    rw [performFrom, String.toList_append, String.toList_append, Syntax.bytesOf_append,
      Syntax.bytesOf_append, hrest, range'_split hlee (by omega), List.flatMap_append,
      flatMap_atOnceAt_cons hfite he, flatMap_atOnceAt_of_out hcur hfite.start hlee,
      List.append_assoc]
    intro x hx i hci hie
    rcases List.mem_cons.mp hx with rfl | hx
    · exact .inl hie
    · have := he x hx
      have := hfite.start_le_stop
      omega

/-- At most one edit that replaces something starts at a place. -/
theorem filter_replacesFrom_of_perm (hperm : es.Perm edits) (h : edits.Pairwise Apart) (i : Nat) :
    es.filter (replacesFrom i) = edits.filter (replacesFrom i) := by
  have hperm := hperm.filter (replacesFrom i)
  have hno : (edits.filter (replacesFrom i)).Pairwise fun _ _ => False := by
    refine (h.filter _).imp_of_mem fun {a b} ha hb hab => ?_
    have ha := replacesFrom_iff.mp (List.mem_filter.mp ha).2
    have hb := replacesFrom_iff.mp (List.mem_filter.mp hb).2
    rcases hab with hab | hab <;> omega
  generalize edits.filter (replacesFrom i) = fs at hperm hno
  match fs, hno with
  | [], _ => exact List.perm_nil.mp hperm
  | [e], _ => exact List.perm_singleton.mp hperm
  | e :: x :: _, hno => exact absurd ((List.pairwise_cons.mp hno).1 x List.mem_cons_self) not_false

/-- Of edits that lie apart, only those at one empty range have an order. -/
theorem atOnce_of_perm (src : Source) (hperm : es.Perm edits) (h : edits.Pairwise Apart)
    (hempty : ∀ i, es.filter (hasRange i i) = edits.filter (hasRange i i)) :
    atOnce src es = atOnce src edits := by
  have hsame : atOnceAt src es = atOnceAt src edits := by
    funext i
    have hcov : covers es i = covers edits i := hperm.any_eq
    rw [atOnceAt, atOnceAt, hcov, startingAt, startingAt, hempty,
      filter_replacesFrom_of_perm hperm h]
  rw [atOnce, hsame, atOnce]

/-- **Edits that lie apart give what they give at once**, in whatever order they were made. -/
theorem bytesOf_applyTo (hfit : ∀ e ∈ edits, Fits s e) (h : edits.Pairwise Apart) :
    bytesOf (applyTo (.ofString s) edits).toList = atOnce (.ofString s) edits := by
  have hord (e : Edit) (he : e ∈ edits) : e.start ≤ e.stop := (hfit e he).start_le_stop
  rw [applyTo, kept_eq_sort hord h, bytesOf_performFrom Syntax.isBoundary_zero
    (fun e he => hfit e ((sort_perm edits).mem_iff.mp he)) (fun _ _ => Nat.zero_le _)
    (pairwise_sort_of_apart hord h)]
  exact atOnce_of_perm _ (sort_perm edits) h fun i => filter_sort edits i i

end Edit
end ClassScript.Emission
