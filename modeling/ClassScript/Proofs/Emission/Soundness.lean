/-
  File:      ClassScript/Proofs/Emission/Soundness.lean
  Subject:   Nothing goes but types, and what is written anew.

  An edit that takes lines or blanks around a part takes no ink there. So all
  ink that an edit takes lies in the part it is made for, and that part is a
  type, is written anew, or goes with a type. By induction over the tree this
  holds of all edits of a program.

  Types come back in one place: a property that a parameter of a constructor
  declares is assigned under the text of its pattern, which keeps its types.

  * `Spares`: an edit takes no ink but of types and of what is written anew;
  * `Layout.spares_emit`: so do all edits of a part;
  * `Layout.erases_types`: which bytes of a program its script copies, and
    what it brings besides.
-/
import ClassScript.Proofs.Emission.Inserted

namespace ClassScript.Emission

open Syntax (Source Tree Kind IsBoundary IsInk bytesOf)

variable {s : String} {root : Tree}

/-! ## 1. Ink that an edit takes -/

/-- The byte at `i` is ink that belongs to a type or to what is written anew. -/
def MayGo (root : Tree) (i : Nat) : Prop := InTypes root.nodes i ∨ InRewritten root.nodes i

/-- An edit takes no ink but of types and of what is written anew. -/
def Spares (s : String) (root : Tree) (x : Edit) : Prop :=
  ∀ i, Within i (x.start, x.stop) → IsInk s i → MayGo root i

theorem no_ink_of_blank {a b i : Nat} (ha : IsBoundary s a) (hb : IsBoundary s b)
    (h : isBlankBetween (.ofString s) a b = true) (hai : a ≤ i) (hib : i < b) : ¬IsInk s i :=
  (Syntax.isBlankBetween_eq_true_iff ha hb (le_of_isBlankBetween h)).mp h i hai hib

/-- A range that is taken out with its lines has all the ink that goes. -/
theorem within_of_dropLines {r : Nat × Nat} (hr : Removable s r) {i : Nat}
    (hi : Within i
      ((dropLines (.ofString s) r.1 r.2).start, (dropLines (.ofString s) r.1 r.2).stop))
    (hink : IsInk s i) : Within i r := by
  rcases dropLines_cases (.ofString s) r.1 r.2 with h | ⟨hbefore, hbehind, h⟩
  · rw [h] at hi
    exact hi
  · rw [h] at hi
    obtain ⟨hlo, hhi⟩ := hi
    have hend := Syntax.isBoundary_lineEnd hr.stop.le_size
    constructor
    · by_cases hlt : i < r.1
      · have hline := Syntax.isBoundary_lineStart s r.1
        exact absurd hink (no_ink_of_blank hline hr.start hbefore hlo hlt)
      · omega
    · by_cases hle : r.2 ≤ i
      · exact absurd hink (no_ink_of_blank hr.stop hend hbehind hle hhi)
      · omega

/-- Ink from the first part of a row to the last one is ink of a part. -/
theorem Row.exists_within {stop last i : Nat} {c : Tree} {cs : List Tree}
    (h : Row s stop (c :: cs))
    (hbound : ∀ d ∈ c :: cs, IsBoundary s d.start ∧ IsBoundary s d.stop) (hstart : c.start ≤ i)
    (hlast : (c :: cs).getLast?.map Tree.stop = some last) (hi : i < last) (hink : IsInk s i) :
    ∃ d ∈ c :: cs, Within i (rangeOf d) := by
  induction cs generalizing c with
  | nil =>
    obtain rfl : c.stop = last := Option.some.inj hlast
    exact ⟨c, List.mem_cons_self, hstart, hi⟩
  | cons d ds ih =>
    by_cases hc : i < c.stop
    · exact ⟨c, List.mem_cons_self, hstart, hc⟩
    · by_cases hd : i < d.start
      · have hdmem : d ∈ c :: d :: ds := List.mem_cons_of_mem c List.mem_cons_self
        exact absurd hink (no_ink_of_blank (hbound c List.mem_cons_self).2 (hbound d hdmem).1 h.gap
          (by omega) hd)
      · rw [List.getLast?_cons_cons] at hlast
        obtain ⟨x, hx, hwithin⟩ := ih h.tail (fun x hx => hbound x (List.mem_cons_of_mem c hx))
          (by omega) hlast
        exact ⟨x, List.mem_cons_of_mem c hx, hwithin⟩

section Parts

variable (hl : Layout s root) {n t : Tree} {before following : List Tree} {i : Nat}
include hl

/-- A word that goes has all the ink that goes with it. -/
theorem Layout.within_of_dropWord (hn : n ∈ root.nodes)
    (hparts : n.children = before ++ t :: following)
    (hi : Within i ((dropWord (.ofString s) t following).start,
      (dropWord (.ofString s) t following).stop)) (hink : IsInk s i) : Within i (rangeOf t) := by
  unfold dropWord at hi
  split at hi
  · exact hi
  · rename_i next rest
    split at hi
    · rename_i hblank
      have ht := hl.nested t (mem_nodes_of_parts hn hparts)
      have hnext : n.children = (before ++ [t]) ++ next :: rest := by rw [hparts]; simp
      have hne := hl.nested next (mem_nodes_of_parts hn hnext)
      refine ⟨hi.1, ?_⟩
      change i < t.stop
      by_cases hle : t.stop ≤ i
      · exact absurd hink (no_ink_of_blank ht.stop hne.start hblank hle hi.2)
      · omega
    · exact hi

/-- A parameter that goes has, with the comma behind it, all the ink that goes. -/
theorem Layout.within_of_dropParameter (hn : n ∈ root.nodes)
    (hparts : n.children = before ++ t :: following)
    (hi : Within i ((dropParameter t following).start, (dropParameter t following).stop))
    (hink : IsInk s i) : Within i (t.start, parameterEnd t following) := by
  have ht := hl.nested t (mem_nodes_of_parts hn hparts)
  have hbeside := (hl.beside hn hparts).2
  have hle : t.stop ≤ parameterEnd t following := by
    unfold parameterEnd
    split
    · exact Nat.le_refl _
    · rename_i next rest
      have hnext : n.children = (before ++ [t]) ++ next :: rest := by rw [hparts]; simp
      have hne := (hl.nested next (mem_nodes_of_parts hn hnext)).start_le_stop
      have := hbeside next List.mem_cons_self
      split <;> omega
  unfold dropParameter at hi
  split at hi
  · rename_i comma next rest
    split at hi
    · rename_i hcomma
      have hcommaAt : n.children = (before ++ [t]) ++ comma :: next :: rest := by rw [hparts]; simp
      have hnextAt : n.children = (before ++ [t, comma]) ++ next :: rest := by rw [hparts]; simp
      have hgap := (hl.row_of_child hn hcommaAt).gap
      refine ⟨hi.1, ?_⟩
      change i < parameterEnd t (comma :: next :: rest)
      rw [parameterEnd, if_pos hcomma]
      by_cases hlt : i < comma.stop
      · exact hlt
      · exact absurd hink (no_ink_of_blank (hl.nested comma (mem_nodes_of_parts hn hcommaAt)).stop
          (hl.nested next (mem_nodes_of_parts hn hnextAt)).start hgap (by omega) hi.2)
    · exact ⟨hi.1, Nat.lt_of_lt_of_le hi.2 hle⟩
  · exact ⟨hi.1, Nat.lt_of_lt_of_le hi.2 hle⟩

/-- All ink from the first part of a tree to the last one is ink of a part. -/
theorem Layout.exists_child (hn : n ∈ root.nodes)
    (hfirst : n.children.head?.map Tree.start = some n.start)
    (hlast : n.children.getLast?.map Tree.stop = some n.stop) (hi : Within i (rangeOf n))
    (hink : IsInk s i) : ∃ c ∈ n.children, Within i (rangeOf c) := by
  have hbound (c : Tree) (hc : c ∈ n.children) : IsBoundary s c.start ∧ IsBoundary s c.stop :=
    have hc := hl.nested c (Tree.mem_nodes_of_child hc hn)
    ⟨hc.start, hc.stop⟩
  have hrow := hl.row hn
  cases hparts : n.children with
  | nil =>
    rw [hparts] at hfirst
    cases hfirst
  | cons c cs =>
    rw [hparts] at hfirst hlast hbound hrow
    obtain hstart : c.start = n.start := Option.some.inj hfirst
    exact hrow.exists_within hbound (by rw [hstart]; exact hi.1) hlast hi.2 hink

end Parts

/-! ## 2. What a part takes -/

/-- A tree that goes for its kind alone is a type. -/
theorem rangeOf_mem_typeRanges {t : Tree}
    (h : treatment t.kind ∈
      [Treatment.dropped, .droppedStatement, .droppedMember, .droppedWord]) :
    rangeOf t ∈ typeRanges t := by
  simp only [List.mem_cons, List.not_mem_nil, or_false] at h
  rw [typeRanges_eq]
  rcases h with h | h | h | h <;> rw [h] <;> exact List.mem_cons_self

theorem isTypeOnlyMember_eq (t : Tree) : isTypeOnlyMember t =
    match treatment t.kind with
    | .droppedMember => true
    | .field => isTypeOnlyField t
    | _ => false := by
  unfold isTypeOnlyMember
  cases t.kind <;> rfl

theorem isParameter_of_treatment {t : Tree} (h : treatment t.kind = .parameter) :
    isParameter t = true := by
  unfold isParameter
  revert h
  cases t.kind <;> intro h <;> first | rfl | cases h

section MayGo

variable {n t : Tree} {before following : List Tree} {r : Nat × Nat} {i : Nat}

theorem mayGo_of_types (ht : t ∈ root.nodes) (hr : r ∈ typeRanges t) (hi : Within i r) :
    MayGo root i :=
  .inl ⟨t, ht, r, hr, hi⟩

theorem mayGo_of_rewritten (ht : t ∈ root.nodes) (hr : r ∈ rewrittenRanges t) (hi : Within i r) :
    MayGo root i :=
  .inr ⟨t, ht, .inl ⟨r, hr, hi⟩⟩

theorem mayGo_of_attached (hn : n ∈ root.nodes) (hparts : n.children = before ++ t :: following)
    (hr : r ∈ attachedRanges t following) (hi : Within i r) : MayGo root i :=
  .inr ⟨n, hn, .inr ⟨(t, following), mem_withFollowing_iff.mpr ⟨before, hparts⟩, r, hr, hi⟩⟩

/-- An export without a declaration and a value may go as a whole. -/
theorem mayGo_of_names (ht : t ∈ root.nodes) (hk : t.kind = .exportStatement)
    (hno : hasExported t = false) (hi : Within i (rangeOf t)) : MayGo root i := by
  refine mayGo_of_rewritten ht (r := rangeOf t) ?_ hi
  rw [rewrittenRanges, hk]
  simp [hno]

/-- Of another export the keywords, marks and comments may go. -/
theorem mayGo_of_plain (ht : t ∈ root.nodes) (hk : t.kind = .exportStatement)
    (hex : hasExported t = true) {c : Tree} (hc : c ∈ t.children) (hplain : isPlain c = true)
    (hi : Within i (rangeOf c)) : MayGo root i := by
  refine mayGo_of_rewritten ht (r := rangeOf c) ?_ hi
  rw [rewrittenRanges, hk]
  dsimp only
  rw [if_pos hex]
  exact List.mem_map.mpr ⟨c, List.mem_filter.mpr ⟨hc, hplain⟩, rfl⟩

end MayGo

section Forms

variable (hl : Layout s root) (hg : Grammatical (.ofString s) root) {n t : Tree}
  {before following : List Tree} {i : Nat}
include hl

/-- The ink of a member without a counterpart may go, and so may the mark behind it. -/
theorem Layout.mayGo_of_member (hn : n ∈ root.nodes)
    (hparts : n.children = before ++ t :: following) (hmember : isTypeOnlyMember t = true)
    (hwhole : rangeOf t ∈ typeRanges t) (hi : Within i (t.start, memberEnd t following))
    (hink : IsInk s i) : MayGo root i := by
  have ht := mem_nodes_of_parts hn hparts
  by_cases hlt : i < t.stop
  · exact mayGo_of_types ht hwhole ⟨hi.1, hlt⟩
  · obtain ⟨hlo, hhi⟩ := hi
    change i < memberEnd t following at hhi
    unfold memberEnd at hhi
    split at hhi
    · omega
    · rename_i next rest
      split at hhi
      · rename_i hmark
        have hnext : n.children = (before ++ [t]) ++ next :: rest := by rw [hparts]; simp
        have hgap := (hl.row_of_child hn hparts).gap
        have hattached : rangeOf next ∈ attachedRanges t (next :: rest) := by
          simp [attachedRanges, hmember, markOf, hmark]
        refine mayGo_of_attached hn hparts hattached ⟨?_, hhi⟩
        change next.start ≤ i
        by_cases hle : next.start ≤ i
        · exact hle
        · exact absurd hink (no_ink_of_blank (hl.nested t ht).stop
            (hl.nested next (mem_nodes_of_parts hn hnext)).start hgap (by omega) (by omega))
      · omega

include hg

/-- An export that goes is one of types, or of a declaration without a counterpart. -/
theorem Layout.mayGo_of_dropsExport (ht : t ∈ root.nodes)
    (hk : treatment t.kind = .exportStatement) (hdrop : dropsExport (.ofString s) t = true)
    (hi : Within i (rangeOf t)) (hink : IsInk s i) : MayGo root i := by
  have hkind := kind_of_export hk
  cases hex : hasExported t with
  | false => exact mayGo_of_names ht hkind hex hi
  | true =>
    obtain ⟨⟨htype, hnamespace, _⟩, hone, hall, hfirst, hlast⟩ :=
      (isExportOfGrammar_iff hex).mp (hg.exports t ht hkind)
    have hspec := exportForm_spec t
    unfold dropsExport at hdrop
    cases hform : exportForm t with
    | declaration declaration =>
      rw [hform] at hspec hdrop
      have hmem := List.mem_of_find?_eq_some hspec.2
      obtain ⟨c, hc, hci⟩ := hl.exists_child ht hfirst hlast hi hink
      obtain ⟨pre, after, hparts⟩ := List.append_of_mem hmem
      rw [hparts, List.mem_append, List.mem_cons] at hc
      have hplain {d : Tree} (hd : d ∈ pre ∨ d ∈ after) (hdi : Within i (rangeOf d)) :
          MayGo root i := by
        refine mayGo_of_plain ht hkind hex ?_ ?_ hdi
        · rw [hparts, List.mem_append, List.mem_cons]
          exact hd.imp id .inr
        · exact plain_of_exported (hg.exports t ht hkind) hex hspec.1
            (isExportedPart_of_part? (.inl hspec.2)) hparts hd
      rcases hc with hc | rfl | hc
      · exact hplain (.inl hc) hci
      · exact mayGo_of_types (Tree.mem_nodes_of_child hmem ht)
          (rangeOf_mem_typeRanges (by simp [of_decide_eq_true hdrop])) hci
      · exact hplain (.inr hc) hci
    | typeOnly =>
      rw [hform, htype, hnamespace] at hspec
      cases hspec
    | names =>
      rw [hform] at hspec
      rw [hasExported, hspec.1, hspec.2] at hex
      cases hex
    | _ =>
      rw [hform] at hdrop
      cases hdrop

/-- What is taken out with its lines takes no other ink. -/
theorem Layout.spares_removed (hn : n ∈ root.nodes) (hparts : n.children = before ++ t :: following)
    {stop : Nat} (h : removalEnd? (.ofString s) following t = some stop) :
    Spares s root (dropLines (.ofString s) t.start stop) := by
  intro i hi hink
  have ht := mem_nodes_of_parts hn hparts
  have hr : (t.start, stop) ∈ removals (.ofString s) root :=
    mem_removals_iff.mpr ⟨n, hn, before, t, following, hparts, rfl, h⟩
  have hi := within_of_dropLines (hl.removable _ hr) hi hink
  unfold removalEnd? at h
  split at h
  · rename_i hk
    obtain rfl := Option.some.inj h
    exact mayGo_of_types ht (rangeOf_mem_typeRanges (by simp [hk])) hi
  · rename_i hk
    obtain rfl := Option.some.inj h
    exact hl.mayGo_of_member hn hparts (by rw [isTypeOnlyMember_eq, hk])
      (rangeOf_mem_typeRanges (by simp [hk])) hi hink
  · rename_i hk
    split at h
    · rename_i hfield
      obtain rfl := Option.some.inj h
      have htype : rangeOf t ∈ typeRanges t := by
        rw [typeRanges_eq, hk]
        dsimp only
        rw [if_pos hfield]
        exact List.mem_cons_self
      exact hl.mayGo_of_member hn hparts (by rw [isTypeOnlyMember_eq, hk]; exact hfield) htype hi
        hink
    · cases h
  · rename_i hk
    split at h
    · obtain rfl := Option.some.inj h
      refine mayGo_of_rewritten ht (r := rangeOf t) ?_ hi
      rw [rewrittenRanges, kind_of_import hk]
      exact List.mem_cons_self
    · cases h
  · rename_i hk
    split at h
    · rename_i hdrop
      obtain rfl := Option.some.inj h
      exact hl.mayGo_of_dropsExport hg ht hk hdrop hi hink
    · cases h
  · cases h

/-- In front of what an export keeps there is no other ink. -/
theorem Layout.spares_head (ht : t ∈ root.nodes) {part : Tree} (text : String)
    (hk : treatment t.kind = .exportStatement) (hpart : keptPart? (.ofString s) t = some part)
    {pre after : List Tree} (hpartAt : t.children = pre ++ part :: after) :
    Spares s root ⟨t.start, part.start, text⟩ := by
  intro i hi hink
  have hkind := kind_of_export hk
  have hmem : part ∈ t.children := by rw [hpartAt]; simp
  have hp := (hl.nested part (Tree.mem_nodes_of_child hmem ht)).start_le_stop
  have hpt := (hl.nested t ht).around part hmem
  have hit : Within i (rangeOf t) :=
    ⟨hi.1, Nat.lt_of_lt_of_le hi.2 (Nat.le_trans hp hpt.2)⟩
  rcases keptPart?_cases hpart with ⟨_, hno⟩ | ⟨hex, hexp, hdec⟩
  · exact mayGo_of_names ht hkind hno hit
  · obtain ⟨_, _, _, hfirst, hlast⟩ := (isExportOfGrammar_iff hex).mp (hg.exports t ht hkind)
    obtain ⟨c, hc, hci⟩ := hl.exists_child ht hfirst hlast hit hink
    have hc' := hc
    rw [hpartAt, List.mem_append, List.mem_cons] at hc'
    have hplain (hd : c ∈ pre ∨ c ∈ after) : MayGo root i :=
      mayGo_of_plain ht hkind hex hc
        (plain_of_exported (hg.exports t ht hkind) hex hdec hexp hpartAt hd) hci
    rcases hc' with hc' | rfl | hc'
    · exact hplain (.inl hc')
    · exact absurd hci.1 (Nat.not_le.mpr hi.2)
    · exact hplain (.inr hc')

end Forms

/-! ## 3. Edits of a tree's own -/

section Own

variable (hl : Layout s root) {n t : Tree} {before following : List Tree} {x : Edit}

/-- What gives way to a text is an enum, an import, or an export of names. -/
theorem spares_replaced (ht : t ∈ root.nodes) {src : Source} (h : isReplaced src t = true)
    (text : String) : Spares s root ⟨t.start, t.stop, text⟩ := by
  intro i hi _
  unfold isReplaced at h
  split at h
  · rename_i hk
    refine mayGo_of_rewritten ht (r := rangeOf t) ?_ hi
    rw [rewrittenRanges, kind_of_enum hk]
    exact List.mem_cons_self
  · rename_i hk
    refine mayGo_of_rewritten ht (r := rangeOf t) ?_ hi
    rw [rewrittenRanges, kind_of_import hk]
    exact List.mem_cons_self
  · rename_i hk
    have hspec := exportForm_spec t
    rw [Bool.and_eq_true] at h
    cases hform : exportForm t with
    | names =>
      rw [hform] at hspec
      exact mayGo_of_names ht (kind_of_export hk) (by rw [hasExported, hspec.1, hspec.2]; rfl) hi
    | _ =>
      rw [hform] at h
      exact absurd h.2 Bool.false_ne_true
  · cases h

theorem spares_insertion (place : Nat) (text : String) :
    Spares s root (.insertion place text) :=
  fun _ hi _ => absurd hi.1 (Nat.not_le.mpr hi.2)

theorem spares_insertions {src : Source} (h : x ∈ insertions src t) : Spares s root x := by
  unfold insertions at h
  split at h
  · split at h
    · rcases initialization_cases src t with hnone | ⟨body, text, _, hsome⟩
      · rw [hnone] at h
        exact absurd h List.not_mem_nil
      · rw [hsome] at h
        obtain rfl := List.mem_singleton.mp h
        exact spares_insertion _ text
    · exact absurd h List.not_mem_nil
  · exact absurd h List.not_mem_nil

theorem exists_of_eraseWords {src : Source} {parts : List Tree} (h : x ∈ eraseWords src parts) :
    ∃ pre c after, parts = pre ++ c :: after ∧ isErasedWord c = true ∧
      x = dropWord src c after := by
  induction parts with
  | nil => exact absurd h List.not_mem_nil
  | cons d ds ih =>
    rw [eraseWords] at h
    rcases List.mem_append.mp h with h | h
    · split at h
      · exact ⟨[], d, ds, rfl, ‹_›, List.mem_singleton.mp h⟩
      · exact absurd h List.not_mem_nil
    · obtain ⟨pre, c, after, rfl, hword, hx⟩ := ih h
      exact ⟨d :: pre, c, after, rfl, hword, hx⟩

theorem exists_of_eraseWord {src : Source} {text : String} {parts : List Tree}
    (h : x ∈ eraseWord src text parts) :
    ∃ pre c after, parts = pre ++ c :: after ∧
      (parts.find? fun c => c.kind == .token text) = some c ∧ x = dropWord src c after := by
  induction parts with
  | nil => exact absurd h List.not_mem_nil
  | cons d ds ih =>
    rw [eraseWord] at h
    by_cases hd : d.kind = .token text
    · rw [if_pos hd] at h
      exact ⟨[], d, ds, rfl, List.find?_cons_of_pos (beq_iff_eq.mpr hd), List.mem_singleton.mp h⟩
    · rw [if_neg hd] at h
      obtain ⟨pre, c, after, rfl, hfind, hx⟩ := ih h
      refine ⟨d :: pre, c, after, rfl, ?_, hx⟩
      rw [List.find?_cons_of_neg (by simpa using hd)]
      exact hfind

/-- The words that a tree takes out are types among its parts. -/
theorem exists_of_mem_wordEdits {src : Source} (hd : descends t = true)
    (h : x ∈ wordEdits src t) :
    ∃ pre c after, t.children = pre ++ c :: after ∧ rangeOf c ∈ typeRanges t ∧
      (x = drop c ∨ x = dropWord src c after) := by
  have hwords (h : x ∈ eraseWords src t.children) :
      ∃ pre c after, t.children = pre ++ c :: after ∧
        rangeOf c ∈ (t.children.filter isErasedWord).map rangeOf ∧
          (x = drop c ∨ x = dropWord src c after) := by
    obtain ⟨pre, c, after, hparts, hword, hx⟩ := exists_of_eraseWords h
    have hmem : c ∈ t.children := by rw [hparts]; simp
    exact ⟨pre, c, after, hparts,
      List.mem_map.mpr ⟨c, List.mem_filter.mpr ⟨hmem, hword⟩, rfl⟩, .inr hx⟩
  rw [typeRanges_eq]
  unfold descends at hd
  unfold wordEdits at h
  cases hk : treatment t.kind with
  | field =>
    rw [hk] at h hd
    dsimp only
    rw [if_neg (by simpa using hd)]
    exact hwords h
  | parameter | declarator | method =>
    rw [hk] at h
    exact hwords h
  | nonNull =>
    rw [hk] at h
    obtain ⟨c, hc, rfl⟩ := Option.map_eq_some_iff.mp (Option.mem_toList.mp h)
    obtain ⟨_, pre, after, hparts, _⟩ := List.find?_eq_some_iff_append.mp hc
    exact ⟨pre, c, after, hparts, by simp [hc], .inl rfl⟩
  | abstractClass =>
    rw [hk] at h
    obtain ⟨pre, c, after, hparts, hfind, hx⟩ := exists_of_eraseWord h
    have htoken : t.token? "abstract" = some c := hfind
    exact ⟨pre, c, after, hparts, by simp [htoken], .inr hx⟩
  | _ =>
    rw [hk] at h
    exact absurd h List.not_mem_nil

include hl

/-- The words that a tree takes out are types, and take no other ink. -/
theorem Layout.spares_wordEdits (ht : t ∈ root.nodes) (hd : descends t = true)
    (hx : x ∈ wordEdits (.ofString s) t) : Spares s root x := by
  intro i hi hink
  obtain ⟨pre, c, after, hparts, hrange, rfl | rfl⟩ := exists_of_mem_wordEdits hd hx
  · exact mayGo_of_types ht hrange hi
  · exact mayGo_of_types ht hrange (hl.within_of_dropWord ht hparts hi hink)

end Own

/-! ## 4. Every edit -/

section Program

variable (hl : Layout s root) (hg : Grammatical (.ofString s) root) {e : Emission}
include hl hg

/-- **The edits of a part take no ink but of types and of what is written anew.** -/
theorem Layout.spares_emit (t : Tree) :
    ∀ n ∈ root.nodes, ∀ before following, n.children = before ++ t :: following →
      ∀ e, emit (.ofString s) following t = .ok e → ∀ x ∈ e.edits, Spares s root x := by
  induction t using Tree.induction with
  | step t ih =>
    intro n hn before following hparts e he x hx
    have ht := mem_nodes_of_parts hn hparts
    have hpart {pre after : List Tree} {part : Tree} {inner : Emission}
        (hp : t.children = pre ++ part :: after) (h : emit (.ofString s) after part = .ok inner)
        (hx : x ∈ inner.edits) : Spares s root x :=
      ih part (by rw [hp]; simp) t ht pre after hp inner h x hx
    obtain ⟨es, hform, hperm⟩ := emits_of_emit he
    have hx := hperm.mem_iff.mp hx
    cases hform with
    | removed hstop =>
      obtain rfl := List.mem_singleton.mp hx
      exact hl.spares_removed hg hn hparts hstop
    | dropped hk =>
      obtain rfl := List.mem_singleton.mp hx
      intro i hi _
      exact mayGo_of_types ht (rangeOf_mem_typeRanges (by simp [hk])) hi
    | word hk =>
      obtain rfl := List.mem_singleton.mp hx
      intro i hi hink
      exact mayGo_of_types ht (rangeOf_mem_typeRanges (by simp [hk]))
        (hl.within_of_dropWord hn hparts hi hink)
    | parameter hk hthis =>
      obtain rfl := List.mem_singleton.mp hx
      intro i hi hink
      refine mayGo_of_attached hn hparts (r := (t.start, parameterEnd t following)) ?_
        (hl.within_of_dropParameter hn hparts hi hink)
      simp [attachedRanges, isParameter_of_treatment hk, hthis]
    | replaced text hrep =>
      obtain rfl := List.mem_singleton.mp hx
      exact spares_replaced ht hrep text
    | exported text hk hkept hpartAt hinner htail =>
      rcases List.mem_cons.mp hx with rfl | hx
      · exact hl.spares_head hg ht text hk hkept hpartAt
      · rcases List.mem_append.mp hx with hx | hx
        · exact hpart hpartAt hinner hx
        · rcases htail with rfl | ⟨text, rfl⟩
          · exact absurd hx List.not_mem_nil
          · obtain rfl := List.mem_singleton.mp hx
            exact spares_insertion _ text
    | cast hk hop hopAt _ hinner =>
      rcases List.mem_cons.mp hx with rfl | hx
      · intro i hi _
        refine mayGo_of_types ht ?_ hi
        rw [typeRanges_eq, hk]
        simp [hop, Edit.removal]
      · exact hpart hopAt hinner hx
    | descended hd hinner =>
      rcases List.mem_append.mp hx with hx | hx
      · exact hl.spares_wordEdits ht hd hx
      · rcases List.mem_append.mp hx with hx | hx
        · exact spares_insertions hx
        · obtain ⟨pre, c, after, own, hp, hown, hx⟩ := exists_of_mem_emitAll hinner hx
          exact hpart hp hown hx
    | nothing _ => exact absurd hx List.not_mem_nil

/-- What an edit of a program replaces is blank, or may go. -/
theorem Layout.mayGo_of_covers (he : emitAll (.ofString s) root.children = .ok e) {i : Nat}
    (hcov : Edit.covers e.edits i = true) (hink : IsInk s i) : MayGo root i := by
  obtain ⟨x, hx, hlo, hhi⟩ := Edit.covers_iff.mp hcov
  obtain ⟨pre, c, after, inner, hp, hinner, hx⟩ := exists_of_mem_emitAll he hx
  exact hl.spares_emit hg c root (Tree.mem_nodes_self root) pre after hp inner hinner x hx i
    ⟨hlo, hhi⟩ hink

/-- **Types go, and nothing else does.** The body of a script is the text with all edits performed
    at once. Outside of enums and assignments to all exports no byte of a type is copied from its
    place; and every byte of a character that is not blank is copied, unless it belongs to a type,
    to a statement that is written anew, or to a mark that goes with a type.

    What edits bring has no byte of a type either, with one exception: the properties that the
    parameters of a constructor declare are assigned under the texts of their patterns, with all
    types in them, wherever the constructor itself stays. -/
theorem Layout.erases_types (he : emitAll (.ofString s) root.children = .ok e) :
    (Script.ofTree (.ofString s) root =
        .ok (Script.header e ++ Edit.applyTo (.ofString s) e.edits) ∧
      bytesOf (Edit.applyTo (.ofString s) e.edits).toList = Edit.atOnce (.ofString s) e.edits) ∧
    (∀ i, InTypes (treatedOfAll root.children) i → Edit.covers e.edits i = true) ∧
    (∀ i, IsInk s i → ¬InTypes root.nodes i → ¬InRewritten root.nodes i →
      Edit.covers e.edits i = false) ∧
    (∀ x ∈ e.edits, Brings (.ofString s) root x) ∧
    ∀ t ∈ treatedOfAll root.children, DeclaresProperties (.ofString s) t →
      IsCovered e.edits t ∨ ∃ x ∈ e.edits, AssignsProperties (.ofString s) t x := by
  refine ⟨⟨ofTree_eq he, hl.bytesOf_body he⟩, fun _ hi => hl.covers_types hg he hi,
    fun i hink htypes hrewritten => ?_, hl.brings_program hg he,
    fun t ht hdeclares => hl.assigns_program hg he ht hdeclares⟩
  rw [← Bool.not_eq_true]
  intro hcov
  rcases hl.mayGo_of_covers hg he hcov hink with h | h
  · exact htypes h
  · exact hrewritten h

end Program

/-- An exported class with a property whose pattern holds a type. -/
def patternText : String := "export class C\x7b
constructor(
private\x7ba=b as T\x7d
:U)\x7b\x7d\x7d"

def patternProgram : Tree := ((Tree.ofSource (.ofString patternText)).toOption).getD default

def patternEmission : Emission :=
  ((emitAll (.ofString patternText) patternProgram.children).toOption).getD {}

/-- The constructor of the sample. -/
def patternConstructor : Tree :=
  ((treatedOfAll patternProgram.children).find? (·.kind == .methodDefinition)).getD default

/-- In the sample the modifier, the type of the parameter and the type of the cast go from their
    places. The export brings a name; the constructor is assigned its property with the type. -/
theorem patternProgram_erases_types :
    Layout patternText patternProgram ∧ Grammatical (.ofString patternText) patternProgram ∧
      emitAll (.ofString patternText) patternProgram.children = .ok patternEmission ∧
      (∀ i, InTypes (treatedOfAll patternProgram.children) i →
        Edit.covers patternEmission.edits i = true) ∧
      (∀ i, IsInk patternText i → ¬InTypes patternProgram.nodes i →
        ¬InRewritten patternProgram.nodes i → Edit.covers patternEmission.edits i = false) ∧
      (∀ x ∈ patternEmission.edits, Brings (.ofString patternText) patternProgram x) ∧
      (∃ x ∈ patternEmission.edits,
        AssignsProperties (.ofString patternText) patternConstructor x) ∧
      patternEmission.edits.map Edit.text =
        ["", "\n    this.\x7ba=b as T\x7d = \x7ba=b as T\x7d;", "", "", "", "\nexports.C = C;"] := by
  have hfacts : Layout patternText patternProgram ∧
      Grammatical (.ofString patternText) patternProgram ∧
      (emitAll (.ofString patternText) patternProgram.children).isOk = true ∧
      ((treatedOfAll patternProgram.children).find? (·.kind == .methodDefinition)).isSome = true ∧
      DeclaresProperties (.ofString patternText) patternConstructor ∧
      ¬IsCovered patternEmission.edits patternConstructor ∧
      patternEmission.edits.map Edit.text =
        ["", "\n    this.\x7ba=b as T\x7d = \x7ba=b as T\x7d;", "", "", "",
          "\nexports.C = C;"] := by
    decide +kernel
  obtain ⟨hlayout, hgrammar, hok, hfound, hdeclares, hstays, htexts⟩ := hfacts
  have hemission : emitAll (.ofString patternText) patternProgram.children =
      .ok patternEmission := by
    unfold patternEmission
    cases he : emitAll (.ofString patternText) patternProgram.children with
    | error _ => rw [he] at hok; cases hok
    | ok e => rfl
  have hmem : patternConstructor ∈ treatedOfAll patternProgram.children := by
    obtain ⟨t, ht⟩ := Option.isSome_iff_exists.mp hfound
    rw [patternConstructor, ht]
    exact List.mem_of_find?_eq_some ht
  obtain ⟨_, hcomplete, hsound, hbrings, hassigns⟩ :=
    Layout.erases_types hlayout hgrammar hemission
  have hassigned := (hassigns patternConstructor hmem hdeclares).resolve_left hstays
  exact ⟨hlayout, hgrammar, hemission, hcomplete, hsound, hbrings, hassigned, htexts⟩

/-- The cast in a pattern is taken out of the parameter, and comes back with the assignment. -/
theorem property_keeps_cast :
    (Script.ofText
        "class A\x7bconstructor(private \x7ba = b as number\x7d: T)\x7b\x7d\x7d").toOption =
      some ("\"use strict\";\nclass A\x7bconstructor(\x7ba = b\x7d)\x7b\n" ++
        "    this.\x7ba = b as number\x7d = \x7ba = b as number\x7d;\x7d\x7d") := by
  decide +kernel

end ClassScript.Emission
