/-
  File:      ClassScript/Proofs/Emission/Inserted.lean
  Subject:   What the texts that edits bring are made of.

  Besides words of scripts an edit brings names: of modules, and of what is
  imported, exported or declared. Emission goes through no type, so all types
  at the bytes of a tree it meets are types in this tree, and a name has none
  in it. With enums left aside there is one exception. A property that a
  parameter of a constructor declares is assigned under the text of the
  parameter's pattern, whatever stands in it.

  * `MadeOf`: a text of words of scripts and of pieces of some trees;
  * `HoldsOwn`, `IsFreeName`: all types at the bytes of a tree are its own,
    and a name at whose bytes there are none;
  * `AssignsProperties`: the edit for the properties of a constructor;
  * `Layout.brings_emit`: what an edit of a program brings.
-/
import ClassScript.Proofs.Emission.Completeness
import ClassScript.Proofs.Text.FilePath
import ClassScript.Proofs.Text.Strip

namespace ClassScript.Emission

open Syntax (Source Tree Kind Field)

/-! ## 1. Texts made of words and names -/

/-- The words that imports and exports are written with in scripts. -/
def scriptWords : List String :=
  ["const ", "const \x7b ", ", ", ": ", " \x7d = ", " = ", " = __importDefault(", ").default;",
    "require(", ")", ";", "\n", ".", "js", "\"", "exports.", "default", "exports.default = ",
    "module.exports = ", "Object.assign(exports, ", ");"]

/-- A text consists of words of scripts and of pieces of the texts of trees with `p`. -/
inductive MadeOf (src : Source) (p : Tree → Prop) : String → Prop where
  | nil : MadeOf src p ""
  | word {w rest : String} (hw : w ∈ scriptWords) (h : MadeOf src p rest) : MadeOf src p (w ++ rest)
  | piece {t : Tree} {before text after rest : String} (ht : p t)
      (htext : t.text src = before ++ text ++ after) (h : MadeOf src p rest) :
      MadeOf src p (text ++ rest)

section MadeOf

variable {src : Source} {p : Tree → Prop} {a b : String} {t : Tree}

theorem MadeOf.append (ha : MadeOf src p a) (hb : MadeOf src p b) : MadeOf src p (a ++ b) := by
  induction ha with
  | nil => rwa [String.empty_append]
  | word hw _ ih =>
    rw [String.append_assoc]
    exact .word hw ih
  | piece ht htext _ ih =>
    rw [String.append_assoc]
    exact .piece ht htext ih

theorem MadeOf.of_word (h : a ∈ scriptWords) : MadeOf src p a := by
  rw [← String.append_empty (s := a)]
  exact .word h .nil

theorem MadeOf.of_piece {before after : String} (ht : p t)
    (htext : t.text src = before ++ a ++ after) : MadeOf src p a := by
  rw [← String.append_empty (s := a)]
  exact .piece ht htext .nil

theorem MadeOf.of_text (ht : p t) : MadeOf src p (t.text src) := by
  have htext : t.text src = "" ++ t.text src ++ "" := by
    rw [String.empty_append, String.append_empty]
  exact .of_piece ht htext

theorem MadeOf.join {texts : List String} (h : ∀ x ∈ texts, MadeOf src p x) :
    MadeOf src p (String.join texts) := by
  induction texts with
  | nil => exact .nil
  | cons x xs ih =>
    rw [String.join_cons]
    exact (h x List.mem_cons_self).append (ih fun y hy => h y (List.mem_cons_of_mem x hy))

theorem MadeOf.intercalate {texts : List String} (ha : a ∈ scriptWords)
    (h : ∀ x ∈ texts, MadeOf src p x) : MadeOf src p (a.intercalate texts) := by
  induction texts with
  | nil => exact .nil
  | cons x xs ih =>
    have hx := h x List.mem_cons_self
    have hxs := ih fun y hy => h y (List.mem_cons_of_mem x hy)
    cases xs with
    | nil => rwa [String.intercalate_singleton]
    | cons y ys =>
      rw [String.intercalate_cons_cons]
      exact (hx.append (.of_word ha)).append hxs

/-- The name of a module in scripts is made of its literal: of its first character, of what stands
    between its marks, and of another extension. -/
theorem MadeOf.moduleName (ht : p t) : MadeOf src p (moduleName (t.text src)) := by
  have hquote : MadeOf src p (String.singleton (((t.text src).toList.head?).getD '"')) := by
    cases htext : (t.text src).toList with
    | nil => exact .of_word (by decide)
    | cons c cs =>
      have hcut : t.text src = "" ++ String.singleton (((c :: cs).head?).getD '"') ++
          String.ofList cs := String.toList_inj.mp (by simp [htext])
      exact .of_piece ht hcut
  have hstem : MadeOf src p (moduleStem (Text.strip isQuote (t.text src))) := by
    obtain ⟨x, y, hstrip, _⟩ := Text.exists_of_stripBoth isQuote (t.text src).toList
    have htext : t.text src =
        String.ofList x ++ Text.strip isQuote (t.text src) ++ String.ofList y := by
      refine String.toList_inj.mp ?_
      rw [String.toList_append, String.toList_append, String.toList_ofList, String.toList_ofList,
        Text.strip, String.toList_ofList, ← hstrip]
    rw [moduleStem]
    split
    · rename_i stem hdrop
      rw [Text.dropTail?_eq_some_iff.mp hdrop] at htext
      have hpiece : t.text src =
          String.ofList x ++ stem ++ ("." ++ sourceExtension ++ String.ofList y) := by
        rw [htext]
        simp only [String.append_assoc]
      exact ((MadeOf.of_piece ht hpiece).append (.of_word (by decide))).append
        (.of_word (by decide))
    · exact .of_piece ht htext
  exact (hquote.append hstem).append hquote

theorem MadeOf.requireCall (h : MadeOf src p a) : MadeOf src p (requireCall a) :=
  ((MadeOf.of_word (by decide)).append h).append (.of_word (by decide))

/-- Two texts between words. -/
theorem MadeOf.line {x y z : String} (ha : MadeOf src p a) (hb : MadeOf src p b)
    (hx : x ∈ scriptWords) (hy : y ∈ scriptWords) (hz : z ∈ scriptWords) :
    MadeOf src p (x ++ a ++ y ++ b ++ z) :=
  ((((MadeOf.of_word hx).append ha).append (.of_word hy)).append hb).append (.of_word hz)

theorem MadeOf.exportLine (ha : MadeOf src p a) (hb : MadeOf src p b) :
    MadeOf src p (exportLine a b) := by
  rw [Emission.exportLine]
  exact ha.line hb (by decide) (by decide) (by decide)

theorem MadeOf.exportTail (isDefault : Bool) {names : List String}
    (h : ∀ name ∈ names, MadeOf src p name) : MadeOf src p (exportTail isDefault names) := by
  unfold Emission.exportTail
  split
  · cases names with
    | nil => exact .nil
    | cons name names =>
      exact (MadeOf.of_word (by decide)).append
        (.exportLine (.of_word (by decide)) (h name List.mem_cons_self))
  · refine .join fun line hline => ?_
    obtain ⟨name, hname, rfl⟩ := List.mem_map.mp hline
    exact (MadeOf.of_word (by decide)).append (.exportLine (h name hname) (h name hname))

end MadeOf

/-! ## 2. Names without types -/

variable {s : String} {root t c u : Tree}

/-- A tree of the program, and all types at its bytes are types in it. -/
structure HoldsOwn (root t : Tree) : Prop where
  mem : t ∈ root.nodes
  types : ∀ i, Within i (rangeOf t) → InTypes root.nodes i → InTypes t.nodes i

/-- A name of the program at whose bytes there is no type. -/
def IsFreeName (root u : Tree) : Prop :=
  (∃ t ∈ root.nodes, u ∈ nameParts t) ∧ ∀ i, Within i (rangeOf u) → ¬InTypes root.nodes i

section Names

variable (hl : Layout s root)
include hl

/-- Two parts of a tree are one, or lie apart. -/
theorem Layout.apart_children (ht : t ∈ root.nodes) (hc : c ∈ t.children) (hu : u ∈ t.children) :
    c = u ∨ c.stop ≤ u.start ∨ u.stop ≤ c.start := by
  obtain ⟨before, after, hparts⟩ := List.append_of_mem hc
  obtain ⟨hbefore, hafter⟩ := hl.beside ht hparts
  rw [hparts, List.mem_append, List.mem_cons] at hu
  rcases hu with hu | rfl | hu
  · exact .inr (.inr (hbefore u hu))
  · exact .inl rfl
  · exact .inr (.inl (hafter u hu))

/-- A part holds its own types if the tree around it does, and none of the tree's own types is at
    its bytes. -/
theorem Layout.holdsOwn_part (h : HoldsOwn root t) (hc : c ∈ t.children)
    (hown : ∀ r ∈ typeRanges t, ∀ i, Within i (rangeOf c) → ¬Within i r) : HoldsOwn root c := by
  refine ⟨Tree.mem_nodes_of_child hc h.mem, fun i hi htypes => ?_⟩
  have haround := (hl.nested t h.mem).around c hc
  obtain ⟨n, hn, r, hr, hir⟩ := h.types i
    ⟨Nat.le_trans haround.1 hi.1, Nat.lt_of_lt_of_le hi.2 haround.2⟩ htypes
  rw [Tree.nodes_eq] at hn
  rcases List.mem_cons.mp hn with rfl | hn
  · exact absurd hir (hown r hr i hi)
  · obtain ⟨d, hd, hnd⟩ := Tree.mem_inner_iff.mp hn
    have hdr := Tree.mem_nodes_of_child hd h.mem
    have hin := hl.around_node hdr hnd
    have hrange := hl.around_typeRange (Tree.mem_nodes_trans hnd hdr) hr
    obtain ⟨hlo, hhi⟩ := hir
    obtain ⟨hclo, hchi⟩ := hi
    simp only [rangeOf] at hclo hchi
    rcases hl.apart_children h.mem hc hd with rfl | hapart | hapart
    · exact ⟨n, hnd, r, hr, hlo, hhi⟩
    · omega
    · omega

theorem Layout.holdsOwn_of_none (h : HoldsOwn root t) (hc : c ∈ t.children)
    (hnone : typeRanges t = []) : HoldsOwn root c :=
  hl.holdsOwn_part h hc fun _ hr => absurd (hnone ▸ hr) List.not_mem_nil

/-- A named part holds its own types if those of the tree around it are marks. -/
theorem Layout.holdsOwn_named (h : HoldsOwn root t) (hc : c ∈ t.children)
    (hnamed : c.isNamed = true)
    (hmarks : ∀ r ∈ typeRanges t, ∃ d ∈ t.children, d.isNamed = false ∧ r = rangeOf d) :
    HoldsOwn root c := by
  refine hl.holdsOwn_part h hc fun r hr i hi hir => ?_
  obtain ⟨d, hd, hmark, rfl⟩ := hmarks r hr
  obtain ⟨hlo, hhi⟩ := hir
  obtain ⟨hclo, hchi⟩ := hi
  simp only [rangeOf] at hlo hhi hclo hchi
  rcases hl.apart_children h.mem hc hd with rfl | hapart | hapart
  · rw [hnamed] at hmark
    cases hmark
  · omega
  · omega

end Names

/-- A name that holds its own types has none at its bytes. -/
theorem IsFreeName.of_holdsOwn {src : Source} (hg : Grammatical src root) (ht : t ∈ root.nodes)
    (hu : u ∈ nameParts t) (h : HoldsOwn root u) : IsFreeName root u := by
  refine ⟨⟨t, ht, hu⟩, fun i hi htypes => ?_⟩
  obtain ⟨n, hn, r, hr, _⟩ := h.types i hi htypes
  rw [hg.names t ht u hu n hn] at hr
  exact absurd hr List.not_mem_nil

/-- The types among the parts of a tree that stays are marks. -/
theorem marks_of_descends (h : descends t = true) :
    ∀ r ∈ typeRanges t, ∃ d ∈ t.children, d.isNamed = false ∧ r = rangeOf d := by
  intro r hr
  have hwords (hr : r ∈ (t.children.filter isErasedWord).map rangeOf) :
      ∃ d ∈ t.children, d.isNamed = false ∧ r = rangeOf d := by
    obtain ⟨d, hd, rfl⟩ := List.mem_map.mp hr
    obtain ⟨hmem, hword⟩ := List.mem_filter.mp hd
    refine ⟨d, hmem, ?_, rfl⟩
    rcases kind_of_isErasedWord hword with hk | hk | hk <;> rw [Tree.isNamed, hk] <;> rfl
  have htoken (text : String) (hr : r ∈ ((t.token? text).map rangeOf).toList) :
      ∃ d ∈ t.children, d.isNamed = false ∧ r = rangeOf d := by
    obtain ⟨d, hd, rfl⟩ := Option.map_eq_some_iff.mp (Option.mem_toList.mp hr)
    have hk : (d.kind == .token text) = true :=
      List.find?_some (p := fun c : Tree => c.kind == .token text) hd
    exact ⟨d, List.mem_of_find?_eq_some hd, by rw [Tree.isNamed, eq_of_beq hk]; rfl, rfl⟩
  rw [typeRanges_eq] at hr
  unfold descends at h
  cases hk : treatment t.kind with
  | field =>
    rw [hk] at hr h
    rw [if_neg (by simpa using h)] at hr
    exact hwords hr
  | parameter | declarator | method =>
    rw [hk] at hr
    exact hwords hr
  | nonNull =>
    rw [hk] at hr
    exact htoken "!" hr
  | abstractClass =>
    rw [hk] at hr
    exact htoken "abstract" hr
  | kept =>
    rw [hk] at hr
    exact absurd hr List.not_mem_nil
  | _ =>
    rw [hk] at h
    cases h

/-! ## 3. Texts of imports and exports -/

theorem mem_of_namedPart? {kind : Kind} (h : namedPart? kind t = some c) :
    c ∈ t.children ∧ c.kind = kind :=
  ⟨(List.mem_filter.mp (List.mem_of_find?_eq_some h)).1,
    eq_of_beq (List.find?_some (p := fun c : Tree => c.kind == kind) h)⟩

theorem mem_of_head?_named (h : t.named.head? = some c) : c ∈ t.children :=
  (List.mem_filter.mp (List.mem_of_head? h)).1

theorem mem_of_part? {f : Field} (h : t.part? f = some c) : c ∈ t.children :=
  List.mem_of_find?_eq_some h

section Statements

variable (hl : Layout s root) (hg : Grammatical (.ofString s) root) (h : HoldsOwn root t)
include hl hg h

/-- A name that is a part of an import or an export is free of types. -/
theorem Layout.isFreeName_part (hnone : typeRanges t = []) (hu : u ∈ nameParts t)
    (hc : u ∈ t.children) : IsFreeName root u :=
  .of_holdsOwn hg h.mem hu (hl.holdsOwn_of_none h hc hnone)

/-- The name of the module that a statement is from. -/
theorem Layout.madeOf_sourceName (hnone : typeRanges t = [])
    (hnames : nameParts t = (t.part? .source).toList) {source : String}
    (hsource : sourceName? (.ofString s) t = some source) :
    MadeOf (.ofString s) (IsFreeName root) source := by
  rw [sourceName?, Tree.partText?, Option.map_map] at hsource
  obtain ⟨u, hu, rfl⟩ := Option.map_eq_some_iff.mp hsource
  exact .moduleName (hl.isFreeName_part hg h hnone (by rw [hnames, hu]; simp) (mem_of_part? hu))

/-- The names of one thing that is imported or exported in braces. -/
theorem Layout.madeOf_specifierName (hkind : t.kind = .importSpecifier ∨ t.kind = .exportSpecifier)
    {f : Field} (hf : f = .name ∨ f = .renamed) {text : String}
    (hpart : t.partText? (.ofString s) f = some text) :
    MadeOf (.ofString s) (IsFreeName root) text := by
  have hnone : typeRanges t = [] := by
    unfold typeRanges
    rcases hkind with hk | hk <;> rw [hk] <;> rfl
  have hnames : nameParts t = (t.part? .name).toList ++ (t.part? .renamed).toList := by
    unfold nameParts
    rcases hkind with hk | hk <;> rw [hk]
  obtain ⟨u, hu, rfl⟩ := Option.map_eq_some_iff.mp hpart
  refine .of_text (hl.isFreeName_part hg h hnone ?_ (mem_of_part? hu))
  rw [hnames, List.mem_append, Option.mem_toList, Option.mem_toList]
  rcases hf with rfl | rfl
  · exact .inl hu
  · exact .inr hu

/-- One of the names that are imported in braces. -/
theorem Layout.madeOf_importedName {n : ImportedName}
    (hn : importedName? (.ofString s) t = some n) :
    MadeOf (.ofString s) (IsFreeName root) n.text := by
  unfold importedName? at hn
  split at hn
  · rename_i hcond
    have hkind : t.kind = .importSpecifier := by
      simp only [Bool.and_eq_true, beq_iff_eq] at hcond
      exact hcond.1.1
    obtain ⟨name, hname, rfl⟩ := Option.map_eq_some_iff.mp hn
    have hname := hl.madeOf_specifierName hg h (.inl hkind) (.inl rfl) hname
    rw [ImportedName.text]
    cases hrenamed : t.partText? (.ofString s) .renamed with
    | none => exact hname
    | some other =>
      have hother := hl.madeOf_specifierName hg h (.inl hkind) (.inr rfl) hrenamed
      exact (hname.append (.of_word (by decide))).append hother
  · cases hn

/-- What a part of an import brings. -/
theorem Layout.madeOf_line {b : Binding} {call : String} (hb : binding? (.ofString s) t = some b)
    (hcall : MadeOf (.ofString s) (IsFreeName root) call) :
    MadeOf (.ofString s) (IsFreeName root) (b.line call) := by
  unfold binding? at hb
  split at hb
  · rename_i hkind
    obtain rfl := Option.some.inj hb
    have hname : MadeOf (.ofString s) (IsFreeName root) (t.text (.ofString s)) :=
      .of_text (IsFreeName.of_holdsOwn hg h.mem (u := t) (by rw [nameParts, hkind]; simp) h)
    rw [Binding.line]
    exact hname.line hcall (by decide) (by decide) (by decide)
  · rename_i hkind
    obtain ⟨u, hu, rfl⟩ := Option.map_eq_some_iff.mp hb
    have hname : MadeOf (.ofString s) (IsFreeName root) (u.text (.ofString s)) :=
      .of_text (hl.isFreeName_part hg h (by unfold typeRanges; rw [hkind]; rfl)
        (by rw [nameParts, hkind, hu]; simp) (mem_of_head?_named hu))
    rw [Binding.line]
    exact hname.line hcall (by decide) (by decide) (by decide)
  · rename_i hkind
    have hnone : typeRanges t = [] := by unfold typeRanges; rw [hkind]; rfl
    have hlist : MadeOf (.ofString s) (IsFreeName root)
        (", ".intercalate ((t.named.filterMap (importedName? (.ofString s))).map
          ImportedName.text)) := by
      refine .intercalate (by decide) fun x hx => ?_
      obtain ⟨n, hn, rfl⟩ := List.mem_map.mp hx
      obtain ⟨c, hc, hname⟩ := List.mem_filterMap.mp hn
      have hmem := (List.mem_filter.mp hc).1
      exact hl.madeOf_importedName hg (hl.holdsOwn_of_none h hmem hnone) hname
    cases hfound : t.named.filterMap (importedName? (.ofString s)) with
    | nil =>
      rw [hfound] at hb
      cases hb
    | cons n ns =>
      rw [hfound] at hb hlist
      obtain rfl := Option.some.inj hb
      rw [Binding.line]
      exact hlist.line hcall (by decide) (by decide) (by decide)
  · cases hb

/-- The constant for a module that is required. -/
theorem Layout.madeOf_requireLine (hkind : t.kind = .importRequire) :
    MadeOf (.ofString s) (IsFreeName root) (requireLine (.ofString s) t) := by
  have hnone : typeRanges t = [] := by unfold typeRanges; rw [hkind]; rfl
  have hname : MadeOf (.ofString s) (IsFreeName root)
      (((namedPart? .identifier t).map (Tree.text (.ofString s))).getD "") := by
    cases hpart : namedPart? .identifier t with
    | none => exact .nil
    | some u =>
      obtain ⟨hmem, hku⟩ := mem_of_namedPart? hpart
      have hown := hl.holdsOwn_of_none h hmem hnone
      exact .of_text (.of_holdsOwn hg hown.mem (by rw [nameParts, hku]; simp) hown)
  have hsource : MadeOf (.ofString s) (IsFreeName root)
      ((sourceName? (.ofString s) t).getD "") := by
    cases hpart : sourceName? (.ofString s) t with
    | none => exact .nil
    | some source =>
      exact hl.madeOf_sourceName hg h hnone (by rw [nameParts, hkind]) hpart
  exact hname.line hsource.requireCall (by decide) (by decide) (by decide)

/-- **An import** brings names without types. -/
theorem Layout.madeOf_import (hkind : t.kind = .importStatement) :
    ∀ x ∈ (lowerImport (.ofString s) t).edits, MadeOf (.ofString s) (IsFreeName root) x.text := by
  intro x hx
  have hnone : typeRanges t = [] := by unfold typeRanges; rw [hkind]; rfl
  unfold lowerImport at hx
  split at hx
  · obtain rfl := List.mem_singleton.mp hx
    rw [dropStatement, text_dropLines]
    exact .nil
  · split at hx
    · rename_i clause hclause
      obtain rfl := List.mem_singleton.mp hx
      obtain ⟨hmem, hk⟩ := mem_of_namedPart? hclause
      exact hl.madeOf_requireLine hg (hl.holdsOwn_of_none h hmem hnone) hk
    · rename_i source _ hsource
      obtain rfl := List.mem_singleton.mp hx
      have hcall :=
        (hl.madeOf_sourceName hg h hnone (by rw [nameParts, hkind]) hsource).requireCall
      refine .intercalate (by decide) fun line hline => ?_
      obtain ⟨b, hb, rfl⟩ := List.mem_map.mp hline
      have hbare : MadeOf (.ofString s) (IsFreeName root)
          (Binding.bare.line (requireCall source)) := hcall.append (.of_word (by decide))
      unfold bindings at hb
      split at hb
      · obtain rfl := List.mem_singleton.mp hb
        exact hbare
      · rename_i clause hclause
        obtain ⟨hmem, hk⟩ := mem_of_namedPart? hclause
        have hown := hl.holdsOwn_of_none h hmem hnone
        split at hb
        · obtain rfl := List.mem_singleton.mp hb
          exact hbare
        · obtain ⟨c, hc, hbinding⟩ := List.mem_filterMap.mp hb
          have hcm := (List.mem_filter.mp hc).1
          exact hl.madeOf_line hg
            (hl.holdsOwn_of_none hown hcm (by unfold typeRanges; rw [hk]; rfl)) hbinding hcall
    · exact absurd hx List.not_mem_nil

/-- What is assigned for one of several names that are exported. -/
theorem Layout.madeOf_specifierLine {source : Option String} {line : String}
    (hsource : ∀ name ∈ source, MadeOf (.ofString s) (IsFreeName root) name)
    (hline : specifierLine? (.ofString s) source t = some line) :
    MadeOf (.ofString s) (IsFreeName root) line := by
  unfold specifierLine? at hline
  split at hline
  · rename_i hcond
    have hkind : t.kind = .exportSpecifier := by
      simp only [Bool.and_eq_true, beq_iff_eq] at hcond
      exact hcond.1
    have hpart {f : Field} {text : String} (hf : f = .name ∨ f = .renamed)
        (hpart : t.partText? (.ofString s) f = some text) :
        MadeOf (.ofString s) (IsFreeName root) text :=
      hl.madeOf_specifierName hg h (.inr hkind) hf hpart
    obtain ⟨name, hname, rfl⟩ := Option.map_eq_some_iff.mp hline
    have hname := hpart (.inl rfl) hname
    refine .exportLine ?_ ?_
    · cases hrenamed : t.partText? (.ofString s) .renamed with
      | none => exact hname
      | some other => exact hpart (.inr rfl) hrenamed
    · cases source with
      | none => exact hname
      | some source =>
        exact ((hsource source rfl).requireCall.append (.of_word (by decide))).append hname
  · cases hline

/-- The lines of an export that declares nothing. -/
theorem Layout.madeOf_exportLines (hkind : t.kind = .exportStatement) :
    ∀ line ∈ exportLines (.ofString s) t, MadeOf (.ofString s) (IsFreeName root) line := by
  intro line hline
  have hnone : typeRanges t = [] := by unfold typeRanges; rw [hkind]; rfl
  have hsource : ∀ name ∈ sourceName? (.ofString s) t,
      MadeOf (.ofString s) (IsFreeName root) name := fun name hname =>
    hl.madeOf_sourceName hg h hnone (by rw [nameParts, hkind]) hname
  unfold exportLines at hline
  dsimp only at hline
  split at hline
  · rename_i clause _ hclause
    obtain ⟨hmem, hk⟩ := mem_of_namedPart? hclause
    obtain ⟨c, hc, hspecifier⟩ := List.mem_filterMap.mp hline
    have hcm := (List.mem_filter.mp hc).1
    exact hl.madeOf_specifierLine hg
      (hl.holdsOwn_of_none (hl.holdsOwn_of_none h hmem hnone) hcm
        (by unfold typeRanges; rw [hk]; rfl)) hsource hspecifier
  · rename_i whole source _ hwhole hfound
    obtain rfl := List.mem_singleton.mp hline
    obtain ⟨hmem, hk⟩ := mem_of_namedPart? hwhole
    refine .exportLine ?_ (hsource source hfound).requireCall
    cases hhead : whole.named.head? with
    | none => exact .nil
    | some u =>
      exact .of_text (hl.isFreeName_part hg (hl.holdsOwn_of_none h hmem hnone)
        (by unfold typeRanges; rw [hk]; rfl) (by rw [nameParts, hk, hhead]; simp)
        (mem_of_head?_named hhead))
  · rename_i source _ _ hfound
    obtain rfl := List.mem_singleton.mp hline
    exact ((MadeOf.of_word (by decide)).append (hsource source hfound).requireCall).append
      (.of_word (by decide))
  · exact absurd hline List.not_mem_nil

end Statements

/-! ## 4. Declared names -/

section Names

variable {src : Source} {name : String}

theorem exists_of_mem_boundNamesOfRole {role : Field} {parts : List Tree}
    (h : name ∈ boundNamesOfRole src role parts) : ∃ c ∈ parts, name ∈ boundNames src c := by
  induction parts with
  | nil => exact absurd h List.not_mem_nil
  | cons c cs ih =>
    rw [boundNamesOfRole] at h
    split at h
    · exact ⟨c, List.mem_cons_self, h⟩
    · obtain ⟨d, hd, hname⟩ := ih h
      exact ⟨d, List.mem_cons_of_mem c hd, hname⟩

theorem exists_of_mem_boundNamesOfParts {parts : List Tree}
    (h : name ∈ boundNamesOfParts src parts) : ∃ c ∈ parts, name ∈ boundNames src c := by
  induction parts with
  | nil => exact absurd h List.not_mem_nil
  | cons c cs ih =>
    rw [boundNamesOfParts] at h
    rcases List.mem_append.mp h with h | h
    · split at h
      · exact ⟨c, List.mem_cons_self, h⟩
      · exact absurd h List.not_mem_nil
    · obtain ⟨d, hd, hname⟩ := ih h
      exact ⟨d, List.mem_cons_of_mem c hd, hname⟩

/-- A name that a pattern binds is the pattern, or bound by a part of it. -/
theorem mem_boundNames_cases (h : name ∈ boundNames src t) :
    t ∈ nameParts t ∧ name = t.text src ∨
      typeRanges t = [] ∧ ∃ c ∈ t.children, name ∈ boundNames src c := by
  obtain ⟨kind, field, start, stop, parts⟩ := t
  unfold boundNames at h
  cases kind
  case identifier | shorthandPattern =>
    exact .inl ⟨List.mem_singleton.mpr rfl, List.mem_singleton.mp h⟩
  case objectAssignmentPattern | assignmentPattern | pairPattern =>
    exact .inr ⟨rfl, exists_of_mem_boundNamesOfRole h⟩
  case objectPattern | arrayPattern | restPattern =>
    exact .inr ⟨rfl, exists_of_mem_boundNamesOfParts h⟩
  all_goals exact absurd h List.not_mem_nil

/-- A declaration declares variables, or the name that is a part of it. -/
theorem declaration_cases (src : Source) (h : isDeclaration t = true)
    (hkept : treatment t.kind ≠ .droppedStatement) :
    isVariableDecl t = true ∧ typeRanges t = [] ∧ declaredNames src t = declaratorNames src t ∨
      declaredNames src t = (t.partText? src .name).toList ∧
        nameParts t = (t.part? .name).toList ∧
        (typeRanges t = [] ∨ descends t = true ∧ (t.part? .name).all Tree.isNamed = true) := by
  obtain ⟨kind, field, start, stop, parts⟩ := t
  cases kind
  case lexicalDecl | variableDecl => exact .inl ⟨rfl, rfl, rfl⟩
  case abstractClassDecl => exact .inr ⟨rfl, rfl, .inr ⟨rfl, h⟩⟩
  case classDecl | functionDecl | generatorDecl | enumDecl | namespaceBlock | moduleBlock
      | importAlias => exact .inr ⟨rfl, rfl, .inl rfl⟩
  case interfaceDecl | typeAlias | ambientDecl | functionSignature => exact absurd rfl hkept
  all_goals cases h

end Names

section Declarations

variable (hl : Layout s root) (hg : Grammatical (.ofString s) root)
include hl hg

/-- **A pattern** binds names without types. -/
theorem Layout.madeOf_boundName (t : Tree) (h : HoldsOwn root t) :
    ∀ name ∈ boundNames (.ofString s) t, MadeOf (.ofString s) (IsFreeName root) name := by
  induction t using Tree.induction with
  | step t ih =>
    intro name hname
    rcases mem_boundNames_cases hname with ⟨hself, rfl⟩ | ⟨hnone, c, hc, hname⟩
    · exact .of_text (.of_holdsOwn hg h.mem hself h)
    · exact ih c hc (hl.holdsOwn_of_none h hc hnone) name hname

/-- **A declaration** declares names without types. -/
theorem Layout.madeOf_declaredName (h : HoldsOwn root t) (hd : isDeclaration t = true)
    (hkept : treatment t.kind ≠ .droppedStatement) :
    ∀ name ∈ declaredNames (.ofString s) t, MadeOf (.ofString s) (IsFreeName root) name := by
  intro name hname
  rcases declaration_cases (.ofString s) hd hkept with
    ⟨hvariables, hnone, heq⟩ | ⟨heq, hnames, hmarks⟩
  · rw [heq] at hname
    obtain ⟨v, hv, hname⟩ := List.mem_flatMap.mp hname
    have hvm := (List.mem_filter.mp hv).1
    have hown := hl.holdsOwn_of_none h hvm hnone
    have hvariable := List.all_eq_true.mp (hg.declarators t h.mem hvariables) v hv
    rw [isVariable, Bool.or_eq_true, beq_iff_eq, beq_iff_eq] at hvariable
    split at hname
    · rename_i pattern hpattern
      have hpm := mem_of_part? hpattern
      rcases hvariable with hk | hk
      · by_cases hnamed : pattern.isNamed = true
        · refine hl.madeOf_boundName hg pattern (hl.holdsOwn_named hown hpm hnamed ?_) name hname
          exact marks_of_descends (by rw [descends, hk]; rfl)
        · -- a mark binds no name
          obtain ⟨kind, field, start, stop, parts⟩ := pattern
          cases kind with
          | token text => exact absurd hname List.not_mem_nil
          | _ => exact absurd rfl hnamed
      · rw [hg.comments v hown.mem hk] at hpm
        exact absurd hpm List.not_mem_nil
    · exact absurd hname List.not_mem_nil
  · rw [heq, Option.mem_toList] at hname
    obtain ⟨u, hu, rfl⟩ := Option.map_eq_some_iff.mp hname
    have hum := mem_of_part? hu
    refine .of_text (.of_holdsOwn hg h.mem (by rw [hnames, hu]; simp) ?_)
    rcases hmarks with hnone | ⟨hdescends, hnamed⟩
    · exact hl.holdsOwn_of_none h hum hnone
    · rw [hu] at hnamed
      exact hl.holdsOwn_named h hum hnamed (marks_of_descends hdescends)

end Declarations

/-! ## 5. Properties of constructors -/

/-- The parameters of a method. -/
def parameterTrees (t : Tree) : List Tree :=
  match t.part? .parameters with
  | some list => list.named.filter isParameter
  | none => []

/-- The patterns of the parameters of a method that declare properties. -/
def propertyPatterns (t : Tree) : List Tree :=
  ((parameterTrees t).filter declaresProperty).filterMap (·.part? .pattern)

/-- A constructor with parameters that declare properties, and with a body. -/
structure DeclaresProperties (src : Source) (t : Tree) : Prop where
  kind : t.kind = .methodDefinition
  name : t.partText? src .name = some "constructor"
  body : t.part? .body ≠ none
  patterns : propertyPatterns t ≠ []

instance (src : Source) (t : Tree) : Decidable (DeclaresProperties src t) :=
  decidable_of_iff
    (t.kind = .methodDefinition ∧ t.partText? src .name = some "constructor" ∧
      (t.part? .body).isSome = true ∧ (propertyPatterns t).isEmpty = false)
    ⟨fun ⟨h₁, h₂, h₃, h₄⟩ =>
        ⟨h₁, h₂, Option.isSome_iff_ne_none.mp h₃, List.isEmpty_eq_false_iff.mp h₄⟩,
      fun ⟨h₁, h₂, h₃, h₄⟩ =>
        ⟨h₁, h₂, Option.isSome_iff_ne_none.mpr h₃, List.isEmpty_eq_false_iff.mpr h₄⟩⟩

/-- An assignment of the property of `this` with the text of the pattern `p`, under this text. -/
def propertyLine (src : Source) (indent : String) (p : Tree) : String :=
  "\n" ++ indent ++ "this." ++ p.text src ++ " = " ++ p.text src ++ ";"

/-- The edit `x` comes in inside of the constructor `t`, and assigns the properties that its
    parameters declare, each under the text of its pattern. -/
structure AssignsProperties (src : Source) (t : Tree) (x : Edit) : Prop where
  kind : t.kind = .methodDefinition
  name : t.partText? src .name = some "constructor"
  empty : x.start = x.stop
  inside : t.start ≤ x.start ∧ x.stop ≤ t.stop
  text : ∃ indent, Text.allBlank indent = true ∧
    x.text = String.join ((propertyPatterns t).map (propertyLine src indent))

theorem propertyParameters_eq_map (src : Source) (t : Tree) :
    propertyParameters src t = (propertyPatterns t).map (Tree.text src) := by
  unfold propertyParameters propertyPatterns parameterTrees
  cases t.part? .parameters with
  | none => rfl
  | some list => exact List.map_filterMap.symm

theorem allBlank_indentation (src : Source) (t : Tree) :
    Text.allBlank (indentation src t ++ "    ") = true := by
  rw [Text.allBlank, String.toList_append, List.all_append, indentation, Text.leadingBlank,
    String.toList_ofList, List.all_takeWhile]
  rfl

/-- The assignments of a constructor are no edit if there are none, and else one text. -/
theorem initialization_eq {src : Source} {body : Tree} (hbody : t.part? .body = some body) :
    initialization src t =
      if propertyParameters src t = [] then []
      else [.insertion (initializationPlace body)
        (propertyAssignments (indentation src t ++ "    ") (propertyParameters src t))] := by
  unfold initialization
  rw [hbody]
  cases propertyParameters src t <;> rfl

theorem mem_insertions {src : Source} {x : Edit} (hx : x ∈ insertions src t) :
    treatment t.kind = .method ∧ isConstructor src t = true ∧ x ∈ initialization src t := by
  unfold insertions at hx
  split at hx
  · split at hx
    · exact ⟨‹_›, ‹_›, hx⟩
    · exact absurd hx List.not_mem_nil
  · exact absurd hx List.not_mem_nil

section Properties

variable (hl : Layout s root)
include hl

/-- The place for assignments is in the body. -/
theorem Layout.initializationPlace_inside {body : Tree} (hb : body ∈ root.nodes)
    (hlt : body.start < body.stop) :
    body.start ≤ initializationPlace body ∧ initializationPlace body ≤ body.stop := by
  unfold initializationPlace
  split
  · rename_i first rest hnamed
    split
    · have hfirst : first ∈ body.children := by
        have hmem : first ∈ body.named := by rw [hnamed]; exact List.mem_cons_self
        exact (List.mem_filter.mp hmem).1
      have haround := (hl.nested body hb).around first hfirst
      have hle := (hl.nested first (Tree.mem_nodes_of_child hfirst hb)).start_le_stop
      omega
    · omega
  · omega

/-- The edit that a constructor makes itself assigns its properties. -/
theorem Layout.assignsProperties (ht : t ∈ root.nodes) {x : Edit}
    (hx : x ∈ insertions (.ofString s) t) : AssignsProperties (.ofString s) t x := by
  obtain ⟨hk, hc, hx⟩ := mem_insertions hx
  have hkind : t.kind = .methodDefinition := by
    revert hk
    cases t.kind <;> intro hk <;> first | rfl | cases hk
  obtain ⟨body, hbody⟩ : ∃ body, t.part? .body = some body := by
    rcases initialization_cases (.ofString s) t with hnone | ⟨body, _, hbody, _⟩
    · rw [hnone] at hx
      exact absurd hx List.not_mem_nil
    · exact ⟨body, hbody⟩
  have hmem := mem_of_part? hbody
  have hb := Tree.mem_nodes_of_child hmem ht
  have haround := (hl.nested t ht).around body hmem
  have hlt : body.start < body.stop := by
    obtain ⟨_, brace, rest, hparts, _, _, hbrace⟩ := exists_brace (hl.bodies t ht) hk hc hbody
    have hin := (hl.nested body hb).around brace (by rw [hparts]; exact List.mem_cons_self)
    omega
  obtain ⟨hlo, hhi⟩ := hl.initializationPlace_inside hb hlt
  rw [initialization_eq hbody] at hx
  split at hx
  · exact absurd hx List.not_mem_nil
  · obtain rfl := List.mem_singleton.mp hx
    refine ⟨hkind, eq_of_beq hc, rfl,
      ⟨Nat.le_trans haround.1 hlo, Nat.le_trans hhi haround.2⟩,
      _, allBlank_indentation (.ofString s) t, ?_⟩
    rw [propertyParameters_eq_map]
    simp only [Edit.insertion, propertyAssignments, List.map_map]
    rfl

end Properties

/-! ## 6. Every edit -/

/-- What an edit of a program brings: anything in the place of an enum, words and names without
    types, or assignments of properties. -/
inductive Brings (src : Source) (root : Tree) (x : Edit) : Prop where
  | lowered {t : Tree} (ht : t ∈ root.nodes) (hkind : t.kind = .enumDecl)
      (hrange : rangeOf t = (x.start, x.stop))
  | names (h : MadeOf src (IsFreeName root) x.text)
  | properties {t : Tree} (ht : t ∈ root.nodes) (h : AssignsProperties src t x)

/-- An edit may bring a word. -/
theorem Brings.of_word {src : Source} {x : Edit} {w : String} (hx : x.text = w)
    (hw : w ∈ scriptWords) : Brings src root x :=
  .names (hx ▸ .of_word hw)

theorem Brings.of_empty {src : Source} {x : Edit} (h : x.text = "") : Brings src root x :=
  .names (h ▸ .nil)

theorem text_dropWord (src : Source) (t : Tree) (following : List Tree) :
    (dropWord src t following).text = "" := by
  unfold dropWord
  split
  · rfl
  · split <;> rfl

theorem text_dropParameter (t : Tree) (following : List Tree) :
    (dropParameter t following).text = "" := by
  unfold dropParameter
  split
  · split <;> rfl
  · rfl

theorem text_of_mem_eraseWords {src : Source} {parts : List Tree} {x : Edit}
    (hx : x ∈ eraseWords src parts) : x.text = "" := by
  induction parts with
  | nil => exact absurd hx List.not_mem_nil
  | cons c cs ih =>
    rw [eraseWords] at hx
    rcases List.mem_append.mp hx with hx | hx
    · split at hx
      · obtain rfl := List.mem_singleton.mp hx
        exact text_dropWord src c cs
      · exact absurd hx List.not_mem_nil
    · exact ih hx

theorem text_of_mem_eraseWord {src : Source} {text : String} {parts : List Tree} {x : Edit}
    (hx : x ∈ eraseWord src text parts) : x.text = "" := by
  induction parts with
  | nil => exact absurd hx List.not_mem_nil
  | cons c cs ih =>
    rw [eraseWord] at hx
    split at hx
    · obtain rfl := List.mem_singleton.mp hx
      exact text_dropWord src c cs
    · exact ih hx

/-- Words that go leave no text. -/
theorem text_of_mem_wordEdits {src : Source} {x : Edit} (hx : x ∈ wordEdits src t) :
    x.text = "" := by
  unfold wordEdits at hx
  split at hx
  · obtain ⟨c, _, rfl⟩ := Option.map_eq_some_iff.mp (Option.mem_toList.mp hx)
    rfl
  · exact text_of_mem_eraseWord hx
  all_goals first | exact text_of_mem_eraseWords hx | exact absurd hx List.not_mem_nil

section Program

variable (hl : Layout s root) (hg : Grammatical (.ofString s) root)
include hl hg

/-- The tail of an exported declaration consists of names without types. -/
theorem Layout.madeOf_declarationEnd {d : Tree} (h : HoldsOwn root t)
    (hkind : t.kind = .exportStatement) (hd : t.part? .declaration = some d)
    (hkept : treatment d.kind ≠ .droppedStatement) {x : Edit}
    (hx : x ∈ declarationEnd (.ofString s) t d) :
    MadeOf (.ofString s) (IsFreeName root) x.text := by
  have hmem := mem_of_part? hd
  have hdeclaration := hg.declarations t h.mem hkind
  rw [hd] at hdeclaration
  have hown := hl.holdsOwn_of_none h hmem (by unfold typeRanges; rw [hkind]; rfl)
  have hnames := hl.madeOf_declaredName hg hown hdeclaration hkept
  unfold declarationEnd at hx
  dsimp only at hx
  split at hx
  · exact absurd hx List.not_mem_nil
  · obtain rfl := List.mem_singleton.mp hx
    exact .exportTail _ hnames

/-- What the edits of an export bring, if its parts bring what they may. -/
theorem Layout.brings_export {following : List Tree} {e : Emission} {x : Edit}
    (h : HoldsOwn root t) (hkind : t.kind = .exportStatement)
    (he : emit (.ofString s) following t = .ok e) (hx : x ∈ e.edits)
    (hpart : ∀ {pre after : List Tree} {part : Tree} {inner : Emission},
      t.children = pre ++ part :: after → HoldsOwn root part →
        emit (.ofString s) after part = .ok inner → x ∈ inner.edits →
          Brings (.ofString s) root x) : Brings (.ofString s) root x := by
  have hfirst {p : Tree → Bool} {part : Tree} {inner : Emission}
      (hfind : t.children.find? p = some part)
      (hinner : emitFirst (.ofString s) p t.children = .ok inner) (hx : x ∈ inner.edits) :
      Brings (.ofString s) root x := by
    obtain ⟨pre, after, hp, _, hemit⟩ := exists_of_emitFirst hfind hinner
    refine hpart hp ?_ hemit hx
    exact hl.holdsOwn_of_none h (List.mem_of_find?_eq_some hfind)
      (by unfold typeRanges; rw [hkind]; rfl)
  have hspec := exportForm_spec t
  rw [emit_export hkind] at he
  cases hform : exportForm t with
  | typeOnly =>
    rw [hform] at he
    cases he
    obtain rfl := List.mem_singleton.mp hx
    exact .of_empty (text_dropLines _ _ _)
  | decorated decorator =>
    rw [hform] at he
    cases he
  | declaration d =>
    rw [hform] at he hspec
    dsimp only at he
    split at he
    · cases he
      obtain rfl := List.mem_singleton.mp hx
      exact .of_empty (text_dropLines _ _ _)
    · rename_i hkept
      obtain ⟨inner, hinner, rfl⟩ := exists_of_map_ok he
      rcases List.mem_append.mp hx with hx | hx
      · rcases List.mem_cons.mp hx with rfl | hx
        · exact .of_empty rfl
        · exact hfirst hspec.2 hinner hx
      · exact .names (hl.madeOf_declarationEnd hg h hkind hspec.2 hkept hx)
  | value value =>
    rw [hform] at he hspec
    obtain ⟨inner, hinner, rfl⟩ := exists_of_map_ok he
    rcases List.mem_append.mp hx with hx | hx
    · rcases List.mem_cons.mp hx with rfl | hx
      · exact .of_word (w := "exports.default = ") rfl (by decide)
      · unfold valueEnd at hx
        rw [edits_ofEdits] at hx
        split at hx
        · exact absurd hx List.not_mem_nil
        · obtain rfl := List.mem_singleton.mp hx
          exact .of_word (w := ";") rfl (by decide)
    · exact hfirst hspec.2.2 hinner hx
  | assignment =>
    rw [hform] at he
    dsimp only at he
    split at he
    · rename_i value hvalue
      obtain ⟨inner, hinner, rfl⟩ := exists_of_map_ok he
      rcases List.mem_cons.mp hx with rfl | hx
      · exact .of_word (w := "module.exports = ") rfl (by decide)
      · exact hfirst hvalue hinner hx
    · cases he
      exact absurd hx List.not_mem_nil
  | names =>
    rw [hform] at he
    cases he
    obtain rfl := List.mem_singleton.mp hx
    have hlines := hl.madeOf_exportLines hg h hkind
    rw [exportNamesEdit]
    split
    · exact .of_empty (text_dropLines _ _ _)
    · exact .names (.intercalate (by decide) hlines)

/-- **What the edits of a part bring**, if all types at its bytes are its own. -/
theorem Layout.brings_emit (t : Tree) (h : HoldsOwn root t) :
    ∀ following e, emit (.ofString s) following t = .ok e →
      ∀ x ∈ e.edits, Brings (.ofString s) root x := by
  induction t using Tree.induction with
  | step t ih =>
    intro following e he x hx
    have hpart {pre after : List Tree} {part : Tree} {inner : Emission}
        (hp : t.children = pre ++ part :: after) (hown : HoldsOwn root part)
        (hinner : emit (.ofString s) after part = .ok inner) (hx : x ∈ inner.edits) :
        Brings (.ofString s) root x :=
      ih part (by rw [hp]; simp) hown after inner hinner x hx
    by_cases himport : t.kind = .importStatement
    · rw [emit_import following himport] at he
      cases he
      exact .names (hl.madeOf_import hg h himport x hx)
    by_cases hexport : t.kind = .exportStatement
    · exact hl.brings_export hg h hexport he hx hpart
    obtain ⟨es, hform, hperm⟩ := emits_of_emit he
    have hx := hperm.mem_iff.mp hx
    cases hform with
    | removed hstop =>
      obtain rfl := List.mem_singleton.mp hx
      exact .of_empty (text_dropLines _ _ _)
    | dropped _ =>
      obtain rfl := List.mem_singleton.mp hx
      exact .of_empty rfl
    | word _ =>
      obtain rfl := List.mem_singleton.mp hx
      exact .of_empty (text_dropWord _ _ _)
    | parameter _ _ =>
      obtain rfl := List.mem_singleton.mp hx
      exact .of_empty (text_dropParameter _ _)
    | replaced text hrep =>
      obtain rfl := List.mem_singleton.mp hx
      unfold isReplaced at hrep
      split at hrep
      · rename_i hk
        exact .lowered h.mem (kind_of_enum hk) rfl
      · rename_i hk
        exact absurd (kind_of_import hk) himport
      · rename_i hk
        exact absurd (kind_of_export hk) hexport
      · cases hrep
    | exported text hk _ _ _ _ => exact absurd (kind_of_export hk) hexport
    | @cast pre after operand inner hk hop hopAt hmarks hinner =>
      rcases List.mem_cons.mp hx with rfl | hx
      · exact .of_empty rfl
      · refine hpart hopAt ?_ hinner hx
        -- the type of a cast stands behind its operand
        refine hl.holdsOwn_part h (List.mem_of_find?_eq_some hop) fun r hr i hi hir => ?_
        rw [typeRanges_eq, hk, hop] at hr
        obtain rfl := List.mem_singleton.mp hr
        exact absurd hi.2 (Nat.not_lt.mpr hir.1)
    | descended hd hinner =>
      rcases List.mem_append.mp hx with hx | hx
      · exact .of_empty (text_of_mem_wordEdits hx)
      rcases List.mem_append.mp hx with hx | hx
      · exact .properties h.mem (hl.assignsProperties h.mem hx)
      · obtain ⟨pre, c, after, own, hp, hown, hx⟩ := exists_of_mem_emitAll hinner hx
        have hc : c ∈ t.children := by rw [hp]; simp
        by_cases hnamed : c.isNamed = true
        · refine hpart hp ?_ hown hx
          exact hl.holdsOwn_named h hc hnamed (marks_of_descends hd)
        · -- a mark has no edits
          rw [Bool.not_eq_true] at hnamed
          rw [hl.emit_token (Tree.mem_nodes_of_child hc h.mem) hnamed hown] at hx
          exact absurd hx List.not_mem_nil
    | nothing _ => exact absurd hx List.not_mem_nil

variable {e : Emission}

/-- **What the edits of a program bring.** -/
theorem Layout.brings_program (he : emitAll (.ofString s) root.children = .ok e) :
    ∀ x ∈ e.edits, Brings (.ofString s) root x := by
  intro x hx
  obtain ⟨pre, c, after, inner, hp, hinner, hx⟩ := exists_of_mem_emitAll he hx
  have hroot : HoldsOwn root root := ⟨Tree.mem_nodes_self root, fun _ _ h => h⟩
  have hc : c ∈ root.children := by rw [hp]; simp
  have hown := hl.holdsOwn_of_none hroot hc (by unfold typeRanges; rw [hg.program]; rfl)
  exact hl.brings_emit hg c hown after inner hinner x hx

/-- **The properties of a constructor** are assigned, unless the constructor goes. -/
theorem Layout.assigns_program (he : emitAll (.ofString s) root.children = .ok e)
    (ht : t ∈ treatedOfAll root.children) (h : DeclaresProperties (.ofString s) t) :
    IsCovered e.edits t ∨ ∃ x ∈ e.edits, AssignsProperties (.ofString s) t x := by
  obtain ⟨c, hc, htc⟩ := mem_treatedOfAll.mp ht
  have hnode := Tree.mem_nodes_trans (mem_nodes_of_treated htc)
    (Tree.mem_nodes_of_child hc (Tree.mem_nodes_self root))
  refine (hl.settled_program hg he t ht).imp id fun ⟨_, hown⟩ => ?_
  obtain ⟨body, hbody⟩ := Option.ne_none_iff_exists'.mp h.body
  have hk : treatment t.kind = .method := by rw [h.kind]; rfl
  have hinsertions : insertions (.ofString s) t = initialization (.ofString s) t := by
    rw [insertions, hk]
    exact if_pos (beq_iff_eq.mpr h.name)
  have hmem : Edit.insertion (initializationPlace body)
      (propertyAssignments (indentation (.ofString s) t ++ "    ")
        (propertyParameters (.ofString s) t)) ∈ insertions (.ofString s) t := by
    rw [hinsertions, initialization_eq hbody, if_neg, List.mem_singleton]
    rw [propertyParameters_eq_map, List.map_eq_nil_iff]
    exact h.patterns
  refine ⟨_, hown _ ?_, hl.assignsProperties hnode hmem⟩
  rw [ownEdits, hk]
  exact List.mem_append_right _ hmem

end Program

end ClassScript.Emission
