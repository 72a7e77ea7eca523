/-
  File:      ClassScript/Proofs/Emission/Completeness.lean
  Subject:   Every byte of a type goes.

  A tree that goes as a whole covers all trees in it. A tree that stays takes
  the types among its own parts out, and by induction the same holds of its
  parts; what an export or a cast does not emit lies in front of or behind
  what it keeps, and is covered or stays as it is.

  * `typeRanges_eq`: types, by what becomes of a part;
  * `Settled`: a tree goes, or stays and makes its own edits;
  * `Layout.settled_program`: so does each tree of a program;
  * `Layout.covers_types`: the edits of a program cover all its types.
-/
import ClassScript.Proofs.Emission.Apart
import ClassScript.Proofs.Emission.Types

namespace ClassScript.Emission

open Syntax (Source Tree Kind)

variable {s : String} {root : Tree}

/-! ## 1. Types by what becomes of a part -/

/-- The emitter knows the types by their kinds. -/
theorem typeRanges_eq (t : Tree) : typeRanges t =
    match treatment t.kind with
    | .dropped | .droppedStatement | .droppedMember | .droppedWord => [rangeOf t]
    | .field =>
      if isTypeOnlyField t then [rangeOf t] else (t.children.filter isErasedWord).map rangeOf
    | .parameter | .declarator | .method => (t.children.filter isErasedWord).map rangeOf
    | .nonNull => ((t.token? "!").map rangeOf).toList
    | .abstractClass => ((t.token? "abstract").map rangeOf).toList
    | .cast => ((t.children.find? Tree.isNamed).map fun operand => (operand.stop, t.stop)).toList
    | _ => [] := by
  unfold typeRanges
  cases t.kind <;> rfl

theorem kind_of_export {k : Kind} (h : treatment k = .exportStatement) : k = .exportStatement := by
  cases k <;> first | rfl | cases h

theorem kind_of_import {k : Kind} (h : treatment k = .importStatement) : k = .importStatement := by
  cases k <;> first | rfl | cases h

theorem kind_of_enum {k : Kind} (h : treatment k = .enumDecl) : k = .enumDecl := by
  cases k <;> first | rfl | cases h

theorem treated_eq (t : Tree) : treated t =
    if t.kind == .enumDecl || isExportAssignment t then [] else t :: treatedOfAll t.children := by
  cases t
  rfl

theorem mem_treatedOfAll {n : Tree} {ts : List Tree} :
    n ∈ treatedOfAll ts ↔ ∃ t ∈ ts, n ∈ treated t := by
  induction ts with
  | nil => simp [treatedOfAll]
  | cons c cs ih => simp [treatedOfAll, ih]

/-- A treated tree is the tree itself or in one of its parts. -/
theorem mem_treated_cases {n t : Tree} (h : n ∈ treated t) :
    (t.kind ≠ .enumDecl ∧ isExportAssignment t = false) ∧
      (n = t ∨ ∃ c ∈ t.children, n ∈ treated c) := by
  rw [treated_eq] at h
  split at h
  · exact absurd h List.not_mem_nil
  · rename_i hout
    rw [Bool.or_eq_true, beq_iff_eq, not_or, Bool.not_eq_true] at hout
    refine ⟨hout, ?_⟩
    rcases List.mem_cons.mp h with rfl | h
    · exact .inl rfl
    · exact .inr (mem_treatedOfAll.mp h)

theorem mem_nodes_of_treated {n t : Tree} (h : n ∈ treated t) : n ∈ t.nodes := by
  induction t using Tree.induction with
  | step t ih =>
    rcases (mem_treated_cases h).2 with rfl | ⟨c, hc, hn⟩
    · exact Tree.mem_nodes_self n
    · exact Tree.mem_nodes_trans (ih c hc hn) (Tree.mem_nodes_of_child hc (Tree.mem_nodes_self t))

/-! ## 2. Ranges in ranges -/

section Ranges

variable (hl : Layout s root) {n t : Tree}
include hl

/-- A tree lies around all trees in it. -/
theorem Layout.around_node (ht : t ∈ root.nodes) (hn : n ∈ t.nodes) :
    t.start ≤ n.start ∧ n.stop ≤ t.stop := by
  induction t using Tree.induction with
  | step t ih =>
    rw [Tree.nodes_eq] at hn
    rcases List.mem_cons.mp hn with rfl | hn
    · exact ⟨Nat.le_refl _, Nat.le_refl _⟩
    · obtain ⟨c, hc, hnc⟩ := Tree.mem_inner_iff.mp hn
      have haround := (hl.nested t ht).around c hc
      have hin := ih c hc (Tree.mem_nodes_of_child hc ht) hnc
      exact ⟨Nat.le_trans haround.1 hin.1, Nat.le_trans hin.2 haround.2⟩

/-- The types of a tree lie in it. -/
theorem Layout.around_typeRange (ht : t ∈ root.nodes) {r : Nat × Nat} (hr : r ∈ typeRanges t) :
    t.start ≤ r.1 ∧ r.2 ≤ t.stop := by
  have hchild (c : Tree) (hc : c ∈ t.children) : t.start ≤ (rangeOf c).1 ∧ (rangeOf c).2 ≤ t.stop :=
    (hl.nested t ht).around c hc
  have hwords (hr : r ∈ (t.children.filter isErasedWord).map rangeOf) :
      t.start ≤ r.1 ∧ r.2 ≤ t.stop := by
    obtain ⟨c, hc, rfl⟩ := List.mem_map.mp hr
    exact hchild c (List.mem_filter.mp hc).1
  have hself (hr : r ∈ [rangeOf t]) : t.start ≤ r.1 ∧ r.2 ≤ t.stop := by
    obtain rfl := List.mem_singleton.mp hr
    exact ⟨Nat.le_refl _, Nat.le_refl _⟩
  have htoken (text : String) (hr : r ∈ ((t.token? text).map rangeOf).toList) :
      t.start ≤ r.1 ∧ r.2 ≤ t.stop := by
    obtain ⟨c, hc, rfl⟩ := Option.map_eq_some_iff.mp (Option.mem_toList.mp hr)
    exact hchild c (List.mem_of_find?_eq_some hc)
  rw [typeRanges_eq] at hr
  split at hr
  · exact hself hr
  · exact hself hr
  · exact hself hr
  · exact hself hr
  · split at hr
    · exact hself hr
    · exact hwords hr
  · exact hwords hr
  · exact hwords hr
  · exact hwords hr
  · exact htoken "!" hr
  · exact htoken "abstract" hr
  · obtain ⟨operand, hop, rfl⟩ := Option.map_eq_some_iff.mp (Option.mem_toList.mp hr)
    have hmem := List.mem_of_find?_eq_some hop
    have hle := (hl.nested operand (Tree.mem_nodes_of_child hmem ht)).start_le_stop
    exact ⟨Nat.le_trans (hchild operand hmem).1 hle, Nat.le_refl _⟩
  · exact absurd hr List.not_mem_nil

end Ranges

/-! ## 3. Edits that cover, and own edits -/

section Covers

variable {x : Edit} {edits : List Edit} {t : Tree} {src : Source}

theorem covers_of_mem {i : Nat} (hx : x ∈ edits) (hi : x.start ≤ i) (hi' : i < x.stop) :
    Edit.covers edits i = true :=
  Edit.covers_iff.mpr ⟨x, hx, hi, hi'⟩

theorem dropLines_around (src : Source) (a b : Nat) :
    (dropLines src a b).start ≤ a ∧ b ≤ (dropLines src a b).stop := by
  rcases dropLines_cases src a b with h | ⟨_, _, h⟩
  · rw [h]
    exact ⟨Nat.le_refl _, Nat.le_refl _⟩
  · rw [h]
    exact ⟨Syntax.lineStart_le src a, Syntax.le_lineEnd src b⟩

/-- A word goes as a whole, and from its start. -/
theorem dropWord_around (src : Source) (t : Tree) (following : List Tree) :
    (dropWord src t following).start = t.start ∧ t.stop ≤ (dropWord src t following).stop := by
  unfold dropWord
  split
  · exact ⟨rfl, Nat.le_refl _⟩
  · split
    · rename_i hblank
      exact ⟨rfl, le_of_isBlankBetween hblank⟩
    · exact ⟨rfl, Nat.le_refl _⟩

theorem exists_of_mem_eraseWords (src : Source) {parts : List Tree} {c : Tree} (hc : c ∈ parts)
    (hword : isErasedWord c = true) :
    ∃ x ∈ eraseWords src parts, x.start = c.start ∧ c.stop ≤ x.stop := by
  induction parts with
  | nil => exact absurd hc List.not_mem_nil
  | cons d ds ih =>
    rw [eraseWords]
    rcases List.mem_cons.mp hc with rfl | hc
    · rw [if_pos hword]
      exact ⟨_, List.mem_append_left _ List.mem_cons_self, dropWord_around src c ds⟩
    · obtain ⟨x, hx, hrange⟩ := ih hc
      exact ⟨x, List.mem_append_right _ hx, hrange⟩

theorem exists_of_mem_eraseWord (src : Source) {parts : List Tree} {c : Tree} {text : String}
    (hc : (parts.find? fun c => c.kind == .token text) = some c) :
    ∃ x ∈ eraseWord src text parts, x.start = c.start ∧ c.stop ≤ x.stop := by
  induction parts with
  | nil => cases hc
  | cons d ds ih =>
    rw [eraseWord]
    rw [List.find?_cons] at hc
    by_cases hd : d.kind = .token text
    · rw [beq_iff_eq.mpr hd] at hc
      obtain rfl := Option.some.inj hc
      rw [if_pos hd]
      exact ⟨_, List.mem_singleton.mpr rfl, dropWord_around src d ds⟩
    · rw [beq_eq_false_iff_ne.mpr hd] at hc
      rw [if_neg hd]
      exact ih hc

/-- The words that a tree takes out cover the types among its parts. -/
theorem covers_wordEdits (src : Source) (h : descends t = true) {r : Nat × Nat}
    (hr : r ∈ typeRanges t) :
    ∃ x ∈ wordEdits src t, x.start ≤ r.1 ∧ r.2 ≤ x.stop := by
  have hwords (hr : r ∈ (t.children.filter isErasedWord).map rangeOf) :
      ∃ x ∈ eraseWords src t.children, x.start ≤ r.1 ∧ r.2 ≤ x.stop := by
    obtain ⟨c, hc, rfl⟩ := List.mem_map.mp hr
    obtain ⟨hmem, hword⟩ := List.mem_filter.mp hc
    obtain ⟨x, hx, hstart, hstop⟩ := exists_of_mem_eraseWords src hmem hword
    exact ⟨x, hx, Nat.le_of_eq hstart, hstop⟩
  rw [typeRanges_eq] at hr
  unfold descends at h
  unfold wordEdits
  cases hk : treatment t.kind with
  | field =>
    rw [hk] at hr h
    rw [if_neg (by simpa using h)] at hr
    exact hwords hr
  | parameter | declarator | method =>
    rw [hk] at hr
    exact hwords hr
  | nonNull =>
    rw [hk] at hr
    obtain ⟨c, hc, rfl⟩ := Option.map_eq_some_iff.mp (Option.mem_toList.mp hr)
    exact ⟨drop c, by simp [hc], Nat.le_refl _, Nat.le_refl _⟩
  | abstractClass =>
    rw [hk] at hr
    obtain ⟨c, hc, rfl⟩ := Option.map_eq_some_iff.mp (Option.mem_toList.mp hr)
    obtain ⟨x, hx, hstart, hstop⟩ := exists_of_mem_eraseWord src hc
    exact ⟨x, hx, Nat.le_of_eq hstart, hstop⟩
  | kept =>
    rw [hk] at hr
    exact absurd hr List.not_mem_nil
  | _ =>
    rw [hk] at h
    cases h

/-- The edits that a tree makes itself if it stays. -/
def ownEdits (src : Source) (t : Tree) : List Edit :=
  match treatment t.kind with
  | .cast =>
    ((t.children.find? Tree.isNamed).map fun operand => .removal operand.stop t.stop).toList
  | _ => wordEdits src t ++ insertions src t

theorem isShut_of_descends (h : descends t = true) : isShut t = false := by
  unfold descends at h
  unfold isShut
  cases hk : treatment t.kind with
  | field | parameter => rw [hk] at h; simpa using h
  | dropped | droppedStatement | droppedMember | droppedWord => rw [hk] at h; cases h
  | _ => rfl

theorem ownEdits_of_descends (src : Source) (h : descends t = true) :
    ownEdits src t = wordEdits src t ++ insertions src t := by
  unfold descends at h
  unfold ownEdits
  cases hk : treatment t.kind with
  | cast => rw [hk] at h; cases h
  | _ => rfl

/-- The own edits of a tree that stays cover its types. -/
theorem covers_ownEdits (src : Source) (h : isShut t = false) {r : Nat × Nat}
    (hr : r ∈ typeRanges t) : ∃ x ∈ ownEdits src t, x.start ≤ r.1 ∧ r.2 ≤ x.stop := by
  by_cases hd : descends t = true
  · obtain ⟨x, hx, hrange⟩ := covers_wordEdits src hd hr
    exact ⟨x, ownEdits_of_descends src hd ▸ List.mem_append_left _ hx, hrange⟩
  · rw [typeRanges_eq] at hr
    unfold descends at hd
    unfold isShut at h
    unfold ownEdits
    cases hk : treatment t.kind with
    | cast =>
      rw [hk] at hr
      obtain ⟨operand, hop, rfl⟩ := Option.map_eq_some_iff.mp (Option.mem_toList.mp hr)
      exact ⟨_, by rw [hop]; exact List.mem_singleton.mpr rfl, Nat.le_refl _, Nat.le_refl _⟩
    | field | parameter =>
      rw [hk] at h hd
      simp [h] at hd
    | enumDecl | importStatement | exportStatement | kept | refused _ =>
      rw [hk] at hr
      exact absurd hr List.not_mem_nil
    | nonNull | abstractClass | declarator | method =>
      rw [hk] at hd
      exact absurd rfl hd
    | _ => rw [hk] at h; cases h

/-- One of the edits replaces the tree as a whole. -/
def IsCovered (edits : List Edit) (t : Tree) : Prop :=
  ∃ x ∈ edits, x.start ≤ t.start ∧ t.stop ≤ x.stop

instance (edits : List Edit) (t : Tree) : Decidable (IsCovered edits t) :=
  inferInstanceAs (Decidable (∃ x ∈ edits, x.start ≤ t.start ∧ t.stop ≤ x.stop))

/-- A tree goes with what goes around it, or it stays and makes its own edits. -/
def Settled (src : Source) (edits : List Edit) (t : Tree) : Prop :=
  IsCovered edits t ∨ isShut t = false ∧ ∀ x ∈ ownEdits src t, x ∈ edits

/-- Some trees are settled. -/
def AllSettled (src : Source) (edits : List Edit) (ts : List Tree) : Prop :=
  ∀ t ∈ ts, Settled src edits t

theorem Settled.mono {es fs : List Edit} (h : ∀ x ∈ es, x ∈ fs) (ht : Settled src es t) :
    Settled src fs t :=
  ht.imp (fun ⟨x, hx, hrange⟩ => ⟨x, h x hx, hrange⟩)
    fun ⟨hstays, hown⟩ => ⟨hstays, fun x hx => h x (hown x hx)⟩

theorem AllSettled.mono {es fs : List Edit} {ts : List Tree} (h : ∀ x ∈ es, x ∈ fs)
    (hts : AllSettled src es ts) : AllSettled src fs ts :=
  fun t ht => (hts t ht).mono h

/-- A tree without edits of its own is settled. -/
theorem settled_of_ownEdits (edits : List Edit) (hstays : isShut t = false)
    (hnone : ownEdits src t = []) : Settled src edits t :=
  .inr ⟨hstays, fun _ hx => absurd (hnone ▸ hx) List.not_mem_nil⟩

/-- The trees in a tree are settled, if it is itself, and those in its parts are. -/
theorem allSettled_treated {edits : List Edit} (hown : Settled src edits t)
    (hparts : ∀ c ∈ t.children, AllSettled src edits (treated c)) :
    AllSettled src edits (treated t) := by
  intro n hn
  rcases (mem_treated_cases hn).2 with rfl | ⟨c, hc, hnc⟩
  · exact hown
  · exact hparts c hc n hnc

end Covers

/-! ## 4. Exports -/

section Exports

variable {src : Source} {t part : Tree} {before after : List Tree}

theorem isExportedPart_of_part?
    (h : t.part? .declaration = some part ∨ t.part? .value = some part) :
    isExportedPart part = true := by
  rw [isExportedPart, Bool.or_eq_true]
  rcases h with h | h
  · exact .inl (List.find?_some (p := fun c : Tree => c.field == some .declaration) h)
  · exact .inr (List.find?_some (p := fun c : Tree => c.field == some .value) h)

/-- An export that keeps a part is an assignment to all exports, or the part is its declaration or
    its value. -/
theorem keptPart?_cases (h : keptPart? src t = some part) :
    t.hasToken "=" = true ∧ hasExported t = false ∨
      hasExported t = true ∧ isExportedPart part = true ∧ exportDecorator? t = none := by
  have hspec := exportForm_spec t
  unfold keptPart? at h
  split at h
  · cases h
  · cases hform : exportForm t with
    | declaration declaration =>
      rw [hform] at h hspec
      obtain rfl := Option.some.inj h
      exact .inr ⟨by simp [hasExported, hspec.2], isExportedPart_of_part? (.inl hspec.2), hspec.1⟩
    | value value =>
      rw [hform] at h hspec
      obtain rfl := Option.some.inj h
      exact .inr ⟨by simp [hasExported, hspec.2.2], isExportedPart_of_part? (.inr hspec.2.2),
        hspec.1⟩
    | assignment =>
      rw [hform] at hspec
      exact .inl ⟨hspec.2.2, by simp [hasExported, hspec.1, hspec.2.1]⟩
    | _ =>
      rw [hform] at h
      cases h

/-- What an export of the grammar says about the parts around what it exports. -/
theorem isExportOfGrammar_iff (hex : hasExported t = true) :
    isExportOfGrammar t = true ↔
      (t.hasToken "type" = false ∧ t.hasToken "namespace" = false ∧ t.hasToken "=" = false) ∧
      (t.children.filter isExportedPart).length = 1 ∧
      (∀ c ∈ t.children, isPlain c = true ∨ c.kind = .decorator ∨ isExportedPart c = true) ∧
      t.children.head?.map Tree.start = some t.start ∧
      t.children.getLast?.map Tree.stop = some t.stop := by
  simp only [isExportOfGrammar, hex, Bool.not_true, Bool.false_or, Bool.and_eq_true, beq_iff_eq,
    Bool.not_eq_true', Bool.or_eq_false_iff, List.all_eq_true, Bool.or_eq_true, and_assoc, or_assoc]

theorem not_decorator (hdec : exportDecorator? t = none) {c : Tree} (hc : c ∈ t.children) :
    c.kind ≠ .decorator := by
  intro hk
  have hnone := List.find?_eq_none.mp hdec c
  refine hnone (List.mem_filter.mpr ⟨hc, by rw [Tree.isNamed, hk]; rfl⟩) ?_
  rw [hk]
  rfl

/-- Around what an export of the grammar exports there are keywords, marks and comments. -/
theorem plain_of_exported (hg : isExportOfGrammar t = true) (hex : hasExported t = true)
    (hdec : exportDecorator? t = none) (hpart : isExportedPart part = true)
    (hparts : t.children = before ++ part :: after) {c : Tree} (hc : c ∈ before ∨ c ∈ after) :
    isPlain c = true := by
  obtain ⟨_, hone, hall, _⟩ := (isExportOfGrammar_iff hex).mp hg
  have hmem : c ∈ t.children := by
    rw [hparts, List.mem_append, List.mem_cons]
    exact hc.imp id .inr
  -- the one part that is exported is `part`
  have hnot : ¬isExportedPart c = true := by
    intro hcp
    rw [hparts, List.filter_append, List.filter_cons_of_pos hpart, List.length_append,
      List.length_cons] at hone
    rcases hc with hc | hc
    · have := List.length_pos_of_mem (List.mem_filter.mpr ⟨hc, hcp⟩)
      omega
    · have := List.length_pos_of_mem (List.mem_filter.mpr ⟨hc, hcp⟩)
      omega
  rcases hall c hmem with h | h | h
  · exact h
  · exact absurd h (not_decorator hdec hmem)
  · exact absurd h hnot

end Exports

/-! ## 5. Every part -/

section Parts

variable (hl : Layout s root) {n t : Tree} {before following : List Tree} {e : Emission}
include hl

/-- What covers a tree covers all trees in it. -/
theorem Layout.settled_whole (ht : t ∈ root.nodes) {edits : List Edit} {x : Edit} (hx : x ∈ edits)
    (hstart : x.start ≤ t.start) (hstop : t.stop ≤ x.stop) :
    AllSettled (.ofString s) edits (treated t) := by
  intro n hn
  have hin := hl.around_node ht (mem_nodes_of_treated hn)
  exact .inl ⟨x, hx, Nat.le_trans hstart hin.1, Nat.le_trans hin.2 hstop⟩

/-- A keyword, a mark or a comment stays as it is. -/
theorem Layout.settled_plain (hg : Grammatical (.ofString s) root) (ht : t ∈ root.nodes)
    (hplain : isPlain t = true) (edits : List Edit) :
    AllSettled (.ofString s) edits (treated t) := by
  rw [isPlain, Bool.or_eq_true, Bool.not_eq_true', beq_iff_eq] at hplain
  have hleaf : t.children = [] := hplain.elim (hl.tokens t ht) (hg.comments t ht)
  have hkept : treatment t.kind = .kept := by
    rcases hplain with htoken | hcomment
    · rw [Tree.isNamed] at htoken
      cases hk : t.kind with
      | token text => rfl
      | _ => rw [hk] at htoken; cases htoken
    · rw [hcomment]
      rfl
  refine allSettled_treated (settled_of_ownEdits edits ?_ ?_) fun c hc => ?_
  · rw [isShut, hkept]
  · rw [ownEdits, wordEdits, insertions, hkept]
    rfl
  · rw [hleaf] at hc
    exact absurd hc List.not_mem_nil

/-- The parts around one of them lie in front of it and behind it. -/
theorem Layout.beside (hn : n ∈ root.nodes) (hparts : n.children = before ++ t :: following) :
    (∀ c ∈ before, c.stop ≤ t.start) ∧ ∀ c ∈ following, t.stop ≤ c.start := by
  have hpair := (hl.row hn).pairwise
  rw [hparts] at hpair
  obtain ⟨_, hrest, hcross⟩ := List.pairwise_append.mp hpair
  exact ⟨fun c hc => hcross c hc t List.mem_cons_self, (List.pairwise_cons.mp hrest).1⟩

/-- What is taken out with its lines is the whole tree at least. -/
theorem Layout.stop_le_removalEnd (hn : n ∈ root.nodes)
    (hparts : n.children = before ++ t :: following) {stop : Nat}
    (h : removalEnd? (.ofString s) following t = some stop) : t.stop ≤ stop := by
  rcases (removalEnd?_cases h).2 with ⟨rfl, _⟩ | ⟨rfl, _⟩
  · exact Nat.le_refl _
  · unfold memberEnd
    split
    · exact Nat.le_refl _
    · rename_i next rest
      have hrow := hl.row_of_child hn hparts
      have hgap := le_of_isBlankBetween hrow.gap
      have hnext := hrow.start_le_stop next (List.mem_cons_of_mem t List.mem_cons_self)
      split <;> omega

theorem Layout.dropParameter_around (hn : n ∈ root.nodes)
    (hparts : n.children = before ++ t :: following) :
    (dropParameter t following).start = t.start ∧ t.stop ≤ (dropParameter t following).stop := by
  have hbeside := (hl.beside hn hparts).2
  unfold dropParameter
  split
  · rename_i comma next rest
    split
    · exact ⟨rfl, hbeside next (List.mem_cons_of_mem comma List.mem_cons_self)⟩
    · exact ⟨rfl, Nat.le_refl _⟩
  · exact ⟨rfl, Nat.le_refl _⟩

/-- An export covers what stands in front of the part it keeps, and nothing but marks and comments
    stand behind it. -/
theorem Layout.settled_exported (hg : Grammatical (.ofString s) root) (ht : t ∈ root.nodes)
    {after : List Tree} {part : Tree} {edits : List Edit} {text : String}
    (hk : treatment t.kind = .exportStatement) (hpart : keptPart? (.ofString s) t = some part)
    (hpartAt : t.children = before ++ part :: after)
    (hhead : ⟨t.start, part.start, text⟩ ∈ edits)
    (hinner : AllSettled (.ofString s) edits (treated part)) :
    AllSettled (.ofString s) edits (treated t) := by
  rcases keptPart?_cases hpart with ⟨heq, _⟩ | ⟨hex, hexp, hdec⟩
  · intro n hn
    have hno := (mem_treated_cases hn).1.2
    rw [isExportAssignment, kind_of_export hk, heq] at hno
    cases hno
  · refine allSettled_treated (settled_of_ownEdits edits ?_ ?_) fun c hc => ?_
    · rw [isShut, hk]
    · rw [ownEdits, wordEdits, insertions, hk]
      rfl
    · have hcn := Tree.mem_nodes_of_child hc ht
      rw [hpartAt, List.mem_append, List.mem_cons] at hc
      rcases hc with hc | rfl | hc
      · have hstart := ((hl.nested t ht).around c (by rw [hpartAt]; simp [hc])).1
        exact hl.settled_whole hcn hhead hstart ((hl.beside ht hpartAt).1 c hc)
      · exact hinner
      · refine hl.settled_plain hg hcn ?_ edits
        have hgrammar := hg.exports t ht (kind_of_export hk)
        exact plain_of_exported hgrammar hex hdec hexp hpartAt (.inr hc)

/-- A cast covers what stands behind its operand, and nothing but marks stand in front of it. -/
theorem Layout.settled_cast (hg : Grammatical (.ofString s) root) (ht : t ∈ root.nodes)
    {after : List Tree} {operand : Tree} {edits : List Edit} (hk : treatment t.kind = .cast)
    (hop : t.children.find? Tree.isNamed = some operand)
    (hopAt : t.children = before ++ operand :: after) (hbefore : ∀ c ∈ before, c.isNamed = false)
    (htail : .removal operand.stop t.stop ∈ edits)
    (hinner : AllSettled (.ofString s) edits (treated operand)) :
    AllSettled (.ofString s) edits (treated t) := by
  refine allSettled_treated (.inr ⟨by rw [isShut, hk], fun x hx => ?_⟩) fun c hc => ?_
  · rw [ownEdits, hk, hop] at hx
    obtain rfl := List.mem_singleton.mp hx
    exact htail
  · have hcn := Tree.mem_nodes_of_child hc ht
    have haround := (hl.nested t ht).around c hc
    rw [hopAt, List.mem_append, List.mem_cons] at hc
    rcases hc with hc | rfl | hc
    · exact hl.settled_plain hg hcn (by rw [isPlain, hbefore c hc]; rfl) edits
    · exact hinner
    · exact hl.settled_whole hcn htail ((hl.beside ht hopAt).2 c hc) haround.2

/-- A tree that lacks what its emission is about stays as it is. -/
theorem Layout.settled_bare (hg : Grammatical (.ofString s) root) (ht : t ∈ root.nodes)
    (hbare : isBare (.ofString s) t = true) (edits : List Edit) :
    AllSettled (.ofString s) edits (treated t) := by
  unfold isBare at hbare
  split at hbare
  · rename_i hk
    rw [Option.isNone_iff_eq_none] at hbare
    refine allSettled_treated (settled_of_ownEdits edits ?_ ?_) fun c hc => ?_
    · rw [isShut, hk]
    · rw [ownEdits, hk, hbare]
      rfl
    · have hunnamed := List.find?_eq_none.mp hbare c hc
      rw [Bool.not_eq_true] at hunnamed
      refine hl.settled_plain hg (Tree.mem_nodes_of_child hc ht) ?_ edits
      rw [isPlain, hunnamed]
      rfl
  · rename_i hk
    have himport := hg.imports t ht (kind_of_import hk)
    simp only [Bool.and_eq_true, Bool.not_eq_true', Option.isNone_iff_eq_none] at hbare
    obtain ⟨⟨htype, hrequire⟩, hsource⟩ := hbare
    rw [isImportOfGrammar, htype, hrequire, hsource] at himport
    cases himport
  · rename_i hk
    split at hbare
    · rename_i hform
      have hspec := exportForm_spec t
      rw [hform] at hspec
      intro n hn
      have hno := (mem_treated_cases hn).1.2
      rw [isExportAssignment, kind_of_export hk, hspec.2.2] at hno
      cases hno
    · cases hbare
  · cases hbare

/-- **Every tree in a part goes, or stays with its own edits.** -/
theorem Layout.settled_emit (hg : Grammatical (.ofString s) root) (t : Tree) :
    ∀ n ∈ root.nodes, ∀ before following, n.children = before ++ t :: following →
      ∀ e, emit (.ofString s) following t = .ok e →
        AllSettled (.ofString s) e.edits (treated t) := by
  induction t using Tree.induction with
  | step t ih =>
    intro n hn before following hparts e he
    have ht := mem_nodes_of_parts hn hparts
    have hpart {pre after : List Tree} {part : Tree} {inner : Emission}
        (hp : t.children = pre ++ part :: after) (h : emit (.ofString s) after part = .ok inner) :
        AllSettled (.ofString s) inner.edits (treated part) :=
      ih part (by rw [hp]; simp) t ht pre after hp inner h
    obtain ⟨es, hform, hperm⟩ := emits_of_emit he
    refine AllSettled.mono (fun x hx => hperm.symm.mem_iff.mp hx) ?_
    cases hform with
    | @removed stop hstop =>
      have haround := dropLines_around (.ofString s) t.start stop
      exact hl.settled_whole ht (List.mem_singleton.mpr rfl) haround.1
        (Nat.le_trans (hl.stop_le_removalEnd hn hparts hstop) haround.2)
    | dropped _ =>
      exact hl.settled_whole ht (List.mem_singleton.mpr rfl) (Nat.le_refl _) (Nat.le_refl _)
    | word _ =>
      have haround := dropWord_around (.ofString s) t following
      exact hl.settled_whole ht (List.mem_singleton.mpr rfl) (Nat.le_of_eq haround.1) haround.2
    | parameter _ _ =>
      have haround := hl.dropParameter_around hn hparts
      exact hl.settled_whole ht (List.mem_singleton.mpr rfl) (Nat.le_of_eq haround.1) haround.2
    | replaced text _ =>
      exact hl.settled_whole ht (List.mem_singleton.mpr rfl) (Nat.le_refl _) (Nat.le_refl _)
    | exported text hk hkept hpartAt hinner htail =>
      refine hl.settled_exported hg ht hk hkept hpartAt List.mem_cons_self ?_
      exact (hpart hpartAt hinner).mono fun x hx =>
        List.mem_cons_of_mem _ (List.mem_append_left _ hx)
    | cast hk hop hopAt hbefore hinner =>
      refine hl.settled_cast hg ht hk hop hopAt hbefore List.mem_cons_self ?_
      exact (hpart hopAt hinner).mono fun x hx => List.mem_cons_of_mem _ hx
    | descended hd hinner =>
      refine allSettled_treated (.inr ⟨isShut_of_descends hd, fun x hx => ?_⟩) fun c hc => ?_
      · rw [ownEdits_of_descends _ hd] at hx
        rw [← List.append_assoc]
        exact List.mem_append_left _ hx
      · obtain ⟨pre, after, hp⟩ := List.append_of_mem hc
        rw [hp] at hinner
        obtain ⟨own, hown, hmem⟩ := exists_of_emitAll hinner
        exact (hpart hp hown).mono fun x hx =>
          List.mem_append_right _ (List.mem_append_right _ (hmem x hx))
    | nothing hbare => exact hl.settled_bare hg ht hbare _

/-- **Every tree of a program goes, or stays with its own edits**, outside of enums and assignments
    to all exports. -/
theorem Layout.settled_program (hg : Grammatical (.ofString s) root)
    (he : emitAll (.ofString s) root.children = .ok e) :
    AllSettled (.ofString s) e.edits (treatedOfAll root.children) := by
  intro n hn
  obtain ⟨c, hc, hnc⟩ := mem_treatedOfAll.mp hn
  obtain ⟨pre, after, hp⟩ := List.append_of_mem hc
  rw [hp] at he
  obtain ⟨inner, hinner, hmem⟩ := exists_of_emitAll he
  exact ((hl.settled_emit hg c root (Tree.mem_nodes_self root) pre after hp inner hinner) n
    hnc).mono hmem

/-- The edits of a program cover all its types. -/
theorem Layout.covers_types (hg : Grammatical (.ofString s) root)
    (he : emitAll (.ofString s) root.children = .ok e) {i : Nat}
    (hi : InTypes (treatedOfAll root.children) i) : Edit.covers e.edits i = true := by
  obtain ⟨n, hn, r, hr, hlo, hhi⟩ := hi
  obtain ⟨c, hc, hnc⟩ := mem_treatedOfAll.mp hn
  have hnode := Tree.mem_nodes_trans (mem_nodes_of_treated hnc)
    (Tree.mem_nodes_of_child hc (Tree.mem_nodes_self root))
  rcases hl.settled_program hg he n hn with ⟨x, hx, hstart, hstop⟩ | ⟨hstays, hown⟩
  · have hrange := hl.around_typeRange hnode hr
    exact covers_of_mem hx (by omega) (by omega)
  · obtain ⟨x, hx, hstart, hstop⟩ := covers_ownEdits (.ofString s) hstays hr
    exact covers_of_mem (hown x hx) (by omega) (by omega)

end Parts

end ClassScript.Emission
