/-
  File:      ClassScript/Proofs/Emission/Selection.lean
  Subject:   Which edits are performed, and what they make of a text.

  Edits are taken in the order of their ranges, those of one range in the order
  in which they were made. The text behind the last edit that was performed
  starts at a cursor, and an edit that starts before it is left out. All that
  counts of the past is this cursor: it is where the edits that were performed
  stop, at the latest.

  * `Selects`: an edit is left out if it starts before one performed earlier
    stops, and else is performed;
  * `Edit.selects_keptFrom`: the cursor decides just that;
  * `Edit.pairwise_kept`: edits that are performed lie apart;
  * `Edit.applyTo_eq_of_perm`: of edits that lie apart, only those at one empty
    range have an order;
  * `Edit.selection_laws`: the laws of edits.
-/
import ClassScript.Proofs.Emission.Edit

namespace ClassScript.Emission

open Syntax (Source IsBoundary bytesOf)

namespace Edit

variable {s : String} {e : Edit} {es ks done edits : List Edit} {cursor : Nat}

/-! ## 1. The edits that are performed -/

/-- Of edits that are taken one after the other, after those in `done` were performed, the edits
    `ks` are performed. -/
inductive Selects : List Edit → List Edit → List Edit → Prop where
  | stop (done : List Edit) : Selects done [] []
  | keep {done es ks : List Edit} {e : Edit} : (∀ k ∈ done, k.stop ≤ e.start) →
      Selects (done ++ [e]) es ks → Selects done (e :: es) (e :: ks)
  | drop {done es ks : List Edit} {e k : Edit} : k ∈ done → e.start < k.stop →
      Selects done es ks → Selects done (e :: es) ks

/-- There is no choice in it. -/
theorem Selects.unique {ls : List Edit} (h : Selects done es ks) (h' : Selects done es ls) :
    ks = ls := by
  induction h generalizing ls with
  | stop done =>
    cases h'
    rfl
  | keep hall _ ih =>
    cases h' with
    | keep _ h' => rw [ih h']
    | drop hk hlt _ => exact absurd (hall _ hk) (Nat.not_le.mpr hlt)
  | drop hk hlt _ ih =>
    cases h' with
    | keep hall _ => exact absurd (hall _ hk) (Nat.not_le.mpr hlt)
    | drop _ _ h' => exact ih h'

/-- **What the cursor decides.** It stands where the edits that were performed stop, at the
    latest. -/
theorem selects_keptFrom (hord : ∀ e ∈ es, e.start ≤ e.stop) (hle : ∀ k ∈ done, k.stop ≤ cursor)
    (hlast : ∀ i < cursor, ∃ k ∈ done, i < k.stop) : Selects done es (keptFrom cursor es) := by
  induction es generalizing done cursor with
  | nil => exact .stop done
  | cons e es ih =>
    have hrest : ∀ x ∈ es, x.start ≤ x.stop := fun x hx => hord x (List.mem_cons_of_mem e hx)
    rw [keptFrom]
    split
    · rename_i hlt
      obtain ⟨k, hk, hek⟩ := hlast e.start hlt
      exact .drop hk hek (ih hrest hle hlast)
    · rename_i hge
      have hstop := hord e List.mem_cons_self
      refine .keep (fun k hk => Nat.le_trans (hle k hk) (by omega)) (ih hrest ?_ ?_)
      · intro k hk
        rcases List.mem_append.mp hk with hk | hk
        · have := hle k hk
          omega
        · exact Nat.le_of_eq (congrArg stop (List.mem_singleton.mp hk))
      · exact fun i hi => ⟨e, List.mem_append_right done List.mem_cons_self, hi⟩

/-- The edits that are performed, and no others, are selected of the edits in order. -/
theorem selects_kept_iff (hord : ∀ e ∈ edits, e.start ≤ e.stop) :
    Selects [] (sort edits) ks ↔ ks = kept edits := by
  have h : Selects [] (sort edits) (kept edits) :=
    selects_keptFrom (fun e he => hord e ((sort_perm edits).mem_iff.mp he))
      (fun k hk => absurd hk List.not_mem_nil) fun i hi => absurd hi (Nat.not_lt_zero i)
  exact ⟨fun hks => hks.unique h, fun hks => hks ▸ h⟩

theorem le_start_of_mem_keptFrom (hord : ∀ e ∈ es, e.start ≤ e.stop) (h : e ∈ keptFrom cursor es) :
    cursor ≤ e.start := by
  induction es generalizing cursor with
  | nil => cases h
  | cons x es ih =>
    have hrest : ∀ y ∈ es, y.start ≤ y.stop := fun y hy => hord y (List.mem_cons_of_mem x hy)
    rw [keptFrom] at h
    split at h
    · exact ih hrest h
    · rcases List.mem_cons.mp h with rfl | h
      · omega
      · have := ih hrest h
        have := hord x List.mem_cons_self
        omega

/-- Each edit that is performed stops before the next one starts. -/
theorem pairwise_keptFrom (hord : ∀ e ∈ es, e.start ≤ e.stop) (cursor : Nat) :
    (keptFrom cursor es).Pairwise fun a b => a.stop ≤ b.start := by
  induction es generalizing cursor with
  | nil => exact .nil
  | cons e es ih =>
    have hrest : ∀ x ∈ es, x.start ≤ x.stop := fun x hx => hord x (List.mem_cons_of_mem e hx)
    rw [keptFrom]
    split
    · exact ih hrest cursor
    · exact List.pairwise_cons.mpr
        ⟨fun x hx => le_start_of_mem_keptFrom hrest hx, ih hrest e.stop⟩

theorem pairwise_kept (hord : ∀ e ∈ edits, e.start ≤ e.stop) :
    (kept edits).Pairwise fun a b => a.stop ≤ b.start :=
  pairwise_keptFrom (fun e he => hord e ((sort_perm edits).mem_iff.mp he)) 0

/-! ## 2. What they make of the text -/

/-- **The edited text** has the texts of the edits that are performed for their ranges, and else
    the bytes of the source. -/
theorem bytesOf_applyTo_kept (hfit : ∀ e ∈ edits, Fits s e) :
    bytesOf (applyTo (.ofString s) edits).toList = atOnce (.ofString s) (kept edits) :=
  bytesOf_performFrom Syntax.isBoundary_zero (fun e he => hfit e (mem_of_mem_kept he))
    (fun _ _ => Nat.zero_le _) (pairwise_kept fun e he => (hfit e he).start_le_stop)

theorem eq_of_bytesOf_eq {a b : String} (h : bytesOf a.toList = bytesOf b.toList) : a = b := by
  refine String.toByteArray_inj.mp ?_
  rw [Syntax.toByteArray_eq, Syntax.toByteArray_eq, Syntax.utf8Encode_eq, Syntax.utf8Encode_eq, h]

/-- **The order of edits that lie apart** shows in the edited text only where several of them come
    in at one place. -/
theorem applyTo_eq_of_perm (hfit : ∀ e ∈ edits, Fits s e) (h : edits.Pairwise Apart)
    (hperm : es.Perm edits) (hempty : ∀ i, es.filter (hasRange i i) = edits.filter (hasRange i i)) :
    applyTo (.ofString s) es = applyTo (.ofString s) edits := by
  refine eq_of_bytesOf_eq ?_
  rw [bytesOf_applyTo (fun e he => hfit e (hperm.mem_iff.mp he))
      ((hperm.pairwise_iff Apart.symm).mpr h),
    bytesOf_applyTo hfit h, atOnce_of_perm _ hperm h hempty]

/-- **The laws of edits.** Edits are taken by where they start and then by where they stop, those
    of one range in the order in which they were made. In this order, an edit is left out exactly
    if it starts before one performed earlier stops; so those that are performed lie apart. In the
    edited text their texts stand for their ranges, and every other byte of the source stands once
    and in order. If all edits lie apart, all are performed, and the order in which they were made
    does not show but in the texts that come in at one place. -/
theorem selection_laws (hfit : ∀ e ∈ edits, Fits s e) :
    ((sort edits).Perm edits ∧
      (sort edits).Pairwise (fun a b => a.start < b.start ∨ a.start = b.start ∧ a.stop ≤ b.stop) ∧
      ∀ i j, (sort edits).filter (hasRange i j) = edits.filter (hasRange i j)) ∧
    (∀ ks, Selects [] (sort edits) ks ↔ ks = kept edits) ∧
    (kept edits).Pairwise Apart ∧
    bytesOf (applyTo (.ofString s) edits).toList = atOnce (.ofString s) (kept edits) ∧
    (edits.Pairwise Apart →
      (kept edits).Perm edits ∧
      bytesOf (applyTo (.ofString s) edits).toList = atOnce (.ofString s) edits ∧
      ∀ es : List Edit, es.Perm edits →
        (∀ i, es.filter (hasRange i i) = edits.filter (hasRange i i)) →
          applyTo (.ofString s) es = applyTo (.ofString s) edits) := by
  have hord (e : Edit) (he : e ∈ edits) : e.start ≤ e.stop := (hfit e he).start_le_stop
  refine ⟨⟨sort_perm edits, (pairwise_sort edits).imp precedes_iff.mp, filter_sort edits⟩,
    fun _ => selects_kept_iff hord, (pairwise_kept hord).imp Or.inl, bytesOf_applyTo_kept hfit,
    fun h => ⟨?_, bytesOf_applyTo hfit h, fun _ hperm => applyTo_eq_of_perm hfit h hperm⟩⟩
  rw [kept_eq_sort hord h]
  exact sort_perm edits

/-! ## 3. Touching edits -/

instance (s : String) (e : Edit) : Decidable (Fits s e) :=
  decidable_of_iff (IsBoundary s e.start ∧ IsBoundary s e.stop ∧ e.start ≤ e.stop)
    ⟨fun h => ⟨h.1, h.2.1, h.2.2⟩, fun h => ⟨h.start, h.stop, h.start_le_stop⟩⟩

/-- Edits of the text `aébc` that touch, two of them at one place. -/
def touching : List Edit := [⟨3, 4, ""⟩, ⟨1, 3, "x"⟩, ⟨1, 1, "u"⟩, ⟨4, 4, "v"⟩, ⟨4, 4, "w"⟩]

/-- The same edits, made in another order; the two at one place are in the same one. -/
def shuffled : List Edit := [⟨4, 4, "v"⟩, ⟨1, 1, "u"⟩, ⟨4, 4, "w"⟩, ⟨1, 3, "x"⟩, ⟨3, 4, ""⟩]

/-- Touching edits, and one that overlaps two of them and starts where one of these does. -/
def crowded : List Edit := ⟨1, 4, "y"⟩ :: touching

theorem filter_shuffled :
    ∀ i, shuffled.filter (hasRange i i) = touching.filter (hasRange i i)
  | 0 | 1 | 2 | 3 | 4 => by decide
  | _ + 5 => rfl

/-- Of crowded edits the longer one is left out. Touching edits give one text in both orders; but
    it would show if the two at one place changed theirs. -/
theorem selection_laws_touching :
    (∀ e ∈ crowded, Fits "aébc" e) ∧ Selects [] (sort crowded) (sort touching) ∧
      (∀ e ∈ touching, Fits "aébc" e) ∧ touching.Pairwise Apart ∧ (kept touching).Perm touching ∧
      shuffled.Perm touching ∧
      (∀ i, shuffled.filter (hasRange i i) = touching.filter (hasRange i i)) ∧
      applyTo (.ofString "aébc") shuffled = "auxvwc" ∧
      applyTo (.ofString "aébc") touching.reverse = "auxwvc" := by
  have hcrowded : ∀ e ∈ crowded, Fits "aébc" e := by decide
  have htouching : ∀ e ∈ touching, Fits "aébc" e := by decide
  have hapart : touching.Pairwise Apart := by decide
  have hperm : shuffled.Perm touching := by decide
  have hleft : sort touching = kept crowded := by decide
  have htext : applyTo (.ofString "aébc") touching = "auxvwc" := by decide +kernel
  have hreverse : applyTo (.ofString "aébc") touching.reverse = "auxwvc" := by decide +kernel
  obtain ⟨-, hselects, -⟩ := selection_laws hcrowded
  obtain ⟨-, -, -, -, hlaws⟩ := selection_laws htouching
  obtain ⟨hall, -, horder⟩ := hlaws hapart
  exact ⟨hcrowded, (hselects _).mpr hleft, htouching, hapart, hall, hperm, filter_shuffled,
    (horder _ hperm filter_shuffled).trans htext, hreverse⟩

end Edit
end ClassScript.Emission
