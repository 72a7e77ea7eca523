/-
  File:      ClassScript/Proofs/Emission/Bindings.lean
  Subject:   The names that an exported declaration gives to others.

  A pattern takes a value apart, and its names stand among keys of properties
  and first values, which may hold names too. The names it binds are those
  that stand in no key and in no first value. Walking through the pattern and
  leaving these parts out meets them all, one after the other in the order of
  the text.

  Behind an exported declaration stands one assignment for each name it binds,
  and nothing stands for a declaration without a counterpart in the script.

  * `isPattern`, `IsBinding`: a pattern, and a name that it binds;
  * `declaredBindings`: the names bound by a declaration of variables;
  * `declaratorNames_eq`: these are the ones that are exported;
  * `emit_exported_declaration`: what becomes of an exported declaration.
-/
import ClassScript.Proofs.Emission.ClassHead
import ClassScript.Proofs.Emission.Types
import ClassScript.Proofs.Syntax.Order

namespace ClassScript.Emission

open Syntax (Source Tree Kind Field Ordered treesOf)

variable {src : Source} {s : String} {t d p r n : Tree} {following : List Tree}

/-! ## 1. Patterns and the names they bind -/

/-- A tree is a name in a pattern. -/
def isBindingName (t : Tree) : Bool := t.kind == .identifier || t.kind == .shorthandPattern

mutual

/-- A tree is a name, or a pattern of an object, of an array, with a first value, of a renamed
    property, or of what is left over. -/
def isPattern : Tree → Bool
  | .node kind _ start stop parts =>
    match kind with
    | .identifier | .shorthandPattern => parts.isEmpty && decide (start < stop)
    | .objectAssignmentPattern | .assignmentPattern => hasPattern .left parts
    | .pairPattern => hasPattern .value parts
    | .objectPattern | .arrayPattern | .restPattern => arePatterns parts
    | _ => false

/-- Of some parts, one has the role `role`, and it is a pattern. -/
def hasPattern (role : Field) : List Tree → Bool
  | [] => false
  | c :: cs =>
    if c.field = some role then isPattern c && cs.all (·.field != some role)
    else hasPattern role cs

/-- All parts are patterns, but for marks and comments. -/
def arePatterns : List Tree → Bool
  | [] => true
  | c :: cs => (if isPlain c then c.children.isEmpty else isPattern c) && arePatterns cs

end

/-- The part `c` of `n` is the key of a property or the first value of a pattern. -/
def isUnbound (n c : Tree) : Bool :=
  match n.kind with
  | .objectAssignmentPattern | .assignmentPattern => c.field != some .left
  | .pairPattern => c.field != some .value
  | _ => false

/-- `r` is a name in the pattern `p` that stands in no key and in no first value. -/
structure IsBinding (p r : Tree) : Prop where
  mem : r ∈ p.nodes
  name : isBindingName r = true
  outside : ∀ n ∈ p.nodes, ∀ c ∈ n.children, isUnbound n c = true → r ∉ c.nodes

/-- The names on a walk through a pattern that leaves out keys and first values. -/
def bindingsOf (p : Tree) : List Tree := (p.reached isUnbound).filter isBindingName

/-! ## 2. Walks through patterns -/

theorem isPlain_of_name (h : isBindingName p = true) : isPlain p = false := by
  rw [isBindingName, Bool.or_eq_true, beq_iff_eq, beq_iff_eq] at h
  rcases h with h | h <;> rw [isPlain, Tree.isNamed, h] <;> rfl

/-- A part that is left in a pattern is a pattern. -/
theorem isPattern_of_hasPattern {role : Field} {parts : List Tree} {c : Tree}
    (h : hasPattern role parts = true) (hc : c ∈ parts) (hrole : c.field = some role) :
    isPattern c = true := by
  induction parts with
  | nil => exact absurd hc List.not_mem_nil
  | cons b bs ih =>
    rw [hasPattern] at h
    split at h
    · obtain ⟨hb, hbs⟩ := Bool.and_eq_true_iff.mp h
      rcases List.mem_cons.mp hc with rfl | hc
      · exact hb
      · exact absurd hrole (by simpa using List.all_eq_true.mp hbs c hc)
    · rename_i hb
      rcases List.mem_cons.mp hc with rfl | hc
      · exact absurd hrole hb
      · exact ih h hc

theorem isPattern_of_arePatterns {parts : List Tree} {c : Tree} (h : arePatterns parts = true)
    (hc : c ∈ parts) : isPlain c = true ∧ c.children = [] ∨ isPattern c = true := by
  induction parts with
  | nil => exact absurd hc List.not_mem_nil
  | cons b bs ih =>
    rw [arePatterns] at h
    obtain ⟨hb, hbs⟩ := Bool.and_eq_true_iff.mp h
    rcases List.mem_cons.mp hc with rfl | hc
    · split at hb
      · rename_i hplain
        exact .inl ⟨hplain, List.isEmpty_iff.mp hb⟩
      · exact .inr hb
    · exact ih hbs hc

/-- A pattern is a name, or has patterns for its parts that are no keys and no first values. -/
theorem isPattern_cases (h : isPattern p = true) :
    isBindingName p = true ∧ p.children = [] ∧ p.start < p.stop ∨
      isBindingName p = false ∧ ∀ c ∈ p.children, isUnbound p c = false →
        isPlain c = true ∧ c.children = [] ∨ isPattern c = true := by
  obtain ⟨kind, field, start, stop, parts⟩ := p
  unfold isPattern at h
  cases kind
  case identifier | shorthandPattern =>
    obtain ⟨hleaf, hlt⟩ := Bool.and_eq_true_iff.mp h
    exact .inl ⟨rfl, List.isEmpty_iff.mp hleaf, of_decide_eq_true hlt⟩
  case objectAssignmentPattern | assignmentPattern | pairPattern =>
    refine .inr ⟨rfl, fun c hc hbound => .inr (isPattern_of_hasPattern h hc ?_)⟩
    simpa [isUnbound, Tree.kind] using hbound
  case objectPattern | arrayPattern | restPattern =>
    exact .inr ⟨rfl, fun c hc _ => isPattern_of_arePatterns h hc⟩
  all_goals cases h

/-- The names on a walk through a pattern are leaves, and not empty. -/
theorem leaf_of_reached (h : isPattern p = true) (hr : r ∈ p.reached isUnbound)
    (hname : isBindingName r = true) : r.children = [] ∧ r.start < r.stop := by
  induction p using Tree.induction with
  | step p ih =>
    rw [Tree.reached_eq] at hr
    rcases isPattern_cases h with ⟨_, hleaf, hlt⟩ | ⟨hnone, hparts⟩
    · rw [hleaf, Tree.reachedIn] at hr
      obtain rfl := List.mem_singleton.mp hr
      exact ⟨hleaf, hlt⟩
    · rcases List.mem_cons.mp hr with rfl | hr
      · rw [hname] at hnone
        cases hnone
      · obtain ⟨c, hc, hbound, hrc⟩ := Tree.mem_reachedIn_iff.mp hr
        rcases hparts c hc hbound with ⟨hplain, hleaf⟩ | hpattern
        · rw [Tree.reached_of_leaf hleaf] at hrc
          obtain rfl := List.mem_singleton.mp hrc
          rw [isPlain_of_name hname] at hplain
          cases hplain
        · exact ih c hc hpattern hrc

/-- **The names on the walk** are those the pattern binds. -/
theorem mem_bindingsOf_iff (hp : Ordered p) (h : isPattern p = true) :
    r ∈ bindingsOf p ↔ IsBinding p r := by
  rw [bindingsOf, List.mem_filter]
  constructor
  · rintro ⟨hr, hname⟩
    have hlt := (leaf_of_reached h hr hname).2
    exact ⟨Tree.mem_nodes_of_reached hr, hname, hp.not_mem_of_reached hlt hr⟩
  · intro hr
    exact ⟨Tree.mem_reached_of_outside hr.mem hr.outside, hr.name⟩

/-- They stand in the order of the text. -/
theorem pairwise_bindingsOf (hp : Ordered p) (h : isPattern p = true) :
    (bindingsOf p).Pairwise fun a b => a.stop ≤ b.start :=
  hp.pairwise_reached fun _ hn hname => (leaf_of_reached h hn hname).1

/-! ## 3. The names that are collected -/

/-- What is left out on a walk through parts has no names there. -/
theorem bindings_of_skipped {parts : List Tree} (h : ∀ c ∈ parts, isUnbound n c = true) :
    Tree.reachedIn isUnbound n parts = [] := by
  rw [Tree.reachedIn_eq, List.flatMap_eq_nil_iff]
  intro c hc
  obtain ⟨hc, hmeet⟩ := List.mem_filter.mp hc
  rw [h c hc] at hmeet
  cases hmeet

theorem boundNamesOfRole_eq {role : Field} {parts : List Tree}
    (hrole : ∀ c, isUnbound n c = (c.field != some role)) (h : hasPattern role parts = true)
    (ih : ∀ c ∈ parts, isPattern c = true →
      boundNames src c = (bindingsOf c).map (Tree.text src)) :
    boundNamesOfRole src role parts =
      ((Tree.reachedIn isUnbound n parts).filter isBindingName).map (Tree.text src) := by
  induction parts with
  | nil => cases h
  | cons c cs ihcs =>
    rw [hasPattern] at h
    rw [boundNamesOfRole, Tree.reachedIn, hrole]
    by_cases hc : c.field = some role
    · rw [if_pos hc] at h ⊢
      obtain ⟨hpattern, hothers⟩ := Bool.and_eq_true_iff.mp h
      have hrest : Tree.reachedIn isUnbound n cs = [] := bindings_of_skipped fun d hd => by
        rw [hrole]
        exact List.all_eq_true.mp hothers d hd
      rw [ih c List.mem_cons_self hpattern, hrest, List.append_nil, hc]
      simp [bindingsOf]
    · rw [if_neg hc] at h ⊢
      rw [ihcs h fun d hd => ih d (List.mem_cons_of_mem c hd), if_pos (by simpa using hc),
        List.nil_append]

/-- A mark or a comment binds no name. -/
theorem boundNames_of_plain (h : isPlain p = true) :
    (if p.isNamed then boundNames src p else []) = [] := by
  split
  · rename_i hnamed
    rw [isPlain, hnamed] at h
    obtain ⟨kind, field, start, stop, parts⟩ := p
    obtain rfl : kind = .comment := eq_of_beq h
    rfl
  · rfl

theorem boundNamesOfParts_eq {parts : List Tree} (hall : ∀ c, isUnbound n c = false)
    (h : arePatterns parts = true)
    (ih : ∀ c ∈ parts, isPattern c = true →
      boundNames src c = (bindingsOf c).map (Tree.text src)) :
    boundNamesOfParts src parts =
      ((Tree.reachedIn isUnbound n parts).filter isBindingName).map (Tree.text src) := by
  induction parts with
  | nil => rfl
  | cons c cs ihcs =>
    rw [arePatterns] at h
    obtain ⟨hc, hcs⟩ := Bool.and_eq_true_iff.mp h
    rw [boundNamesOfParts, Tree.reachedIn, hall, List.filter_append, List.map_append,
      ihcs hcs fun d hd => ih d (List.mem_cons_of_mem c hd)]
    congr 1
    by_cases hplain : isPlain c = true
    · -- a mark or a comment has no parts, and is no name
      rw [if_pos hplain] at hc
      have hnone : isBindingName c = false := by
        rw [← Bool.not_eq_true]
        intro hname
        rw [isPlain_of_name hname] at hplain
        cases hplain
      rw [boundNames_of_plain hplain, Tree.reached_of_leaf (List.isEmpty_iff.mp hc)]
      simp [hnone]
    · rw [if_neg hplain] at hc
      have hnamed : c.isNamed = true := by
        rw [isPlain, Bool.or_eq_true, not_or] at hplain
        simpa using hplain.1
      rw [if_pos hnamed, ih c List.mem_cons_self hc]
      rfl

/-- **The names a pattern binds** are collected, in their order. -/
theorem boundNames_eq (h : isPattern p = true) :
    boundNames src p = (bindingsOf p).map (Tree.text src) := by
  induction p using Tree.induction with
  | step p ih =>
    rw [bindingsOf, Tree.reached_eq, List.filter_cons]
    obtain ⟨kind, field, start, stop, parts⟩ := p
    unfold isPattern at h
    unfold boundNames
    cases kind
    case identifier | shorthandPattern =>
      obtain ⟨hleaf, _⟩ := Bool.and_eq_true_iff.mp h
      obtain rfl := List.isEmpty_iff.mp hleaf
      rfl
    case objectAssignmentPattern | assignmentPattern | pairPattern =>
      exact boundNamesOfRole_eq (fun _ => rfl) h ih
    case objectPattern | arrayPattern | restPattern =>
      exact boundNamesOfParts_eq (fun _ => rfl) h ih
    all_goals cases h

/-! ## 4. Declarations -/

/-- The patterns of a declaration of variables. -/
def declaredPatterns (d : Tree) : List Tree := d.named.filterMap (·.part? .name)

/-- The names that a declaration of variables binds. -/
def declaredBindings (d : Tree) : List Tree := (declaredPatterns d).flatMap bindingsOf

theorem declaratorNames_eq (h : ∀ p ∈ declaredPatterns d, isPattern p = true) :
    declaratorNames src d = (declaredBindings d).map (Tree.text src) := by
  unfold declaredPatterns at h
  unfold declaratorNames declaredBindings declaredPatterns
  generalize d.named = parts at h ⊢
  induction parts with
  | nil => rfl
  | cons c cs ih =>
    rw [List.flatMap_cons, List.filterMap_cons]
    rw [List.filterMap_cons] at h
    cases hname : c.part? .name with
    | none =>
      rw [hname] at h
      exact ih h
    | some p =>
      rw [hname] at h
      rw [List.flatMap_cons, List.map_append, ← boundNames_eq (h p List.mem_cons_self),
        ih fun q hq => h q (List.mem_cons_of_mem p hq)]

/-- A pattern lies in its declarator. -/
theorem ordered_of_mem_declaredPatterns (hd : Ordered d) (hp : p ∈ declaredPatterns d) :
    Ordered p := by
  obtain ⟨c, hc, hname⟩ := List.mem_filterMap.mp hp
  exact (hd.child (List.mem_filter.mp hc).1).child (List.mem_of_find?_eq_some hname)

theorem mem_declaredBindings_iff (hd : Ordered d)
    (h : ∀ p ∈ declaredPatterns d, isPattern p = true) :
    r ∈ declaredBindings d ↔ ∃ p ∈ declaredPatterns d, IsBinding p r := by
  rw [declaredBindings, List.mem_flatMap]
  refine exists_congr fun p => and_congr_right fun hp => ?_
  exact mem_bindingsOf_iff (ordered_of_mem_declaredPatterns hd hp) (h p hp)

/-- All names that a declaration binds stand in the order of the text. -/
theorem pairwise_declaredBindings (hd : Ordered d)
    (h : ∀ p ∈ declaredPatterns d, isPattern p = true) :
    (declaredBindings d).Pairwise fun a b => a.stop ≤ b.start := by
  rw [declaredBindings, List.pairwise_flatMap]
  refine ⟨fun p hp => pairwise_bindingsOf (ordered_of_mem_declaredPatterns hd hp) (h p hp), ?_⟩
  have hin {c p : Tree} (hc : c ∈ d.children) (hname : c.part? .name = some p) {a : Tree}
      (ha : a ∈ bindingsOf p) : c.start ≤ a.start ∧ a.stop ≤ c.stop := by
    have hp := List.mem_of_find?_eq_some hname
    have haround := (hd.child hc).self.around p hp
    have hwithin := ((hd.child hc).child hp).within
      (Tree.mem_nodes_of_reached (List.mem_filter.mp ha).1)
    omega
  rw [declaredPatterns, List.pairwise_filterMap]
  refine (hd.self.apart.filter _).imp_of_mem fun {c c'} hc hc' hapart p hp p' hp' a ha b hb => ?_
  have hac := hin (List.mem_filter.mp hc).1 hp ha
  have hbc := hin (List.mem_filter.mp hc').1 hp' hb
  omega

/-! ## 5. Exported declarations -/

/-- The assignments behind an exported declaration of some names: a default export has the first
    one only. -/
def exportAssignments (isDefault : Bool) (names : List String) : List String :=
  if isDefault then (names.head?.map (exportLine "default")).toList
  else names.map fun name => exportLine name name

/-- What an exported declaration comes to, from what it comes to by itself: the words before it go,
    and assignments follow, a line each. -/
def exportedAs (t d : Tree) (lines : List String) (inner : Emission) : Emission where
  edits := .removal t.start d.start :: (inner.edits ++
    if lines.isEmpty then [] else [.insertion t.stop (String.join (lines.map ("\n" ++ ·)))])
  usesModules := true
  importsDefault := inner.importsDefault

theorem isEmpty_join_lines (lines : List String) :
    (String.join (lines.map ("\n" ++ ·))).isEmpty = lines.isEmpty := by
  cases lines with
  | nil => rfl
  | cons line lines =>
    rw [List.map_cons, String.join_cons, List.isEmpty_cons, ← Bool.not_eq_true, String.isEmpty_iff]
    simp

theorem declarationEnd_eq (src : Source) (t d : Tree) :
    declarationEnd src t d =
      let lines := exportAssignments (t.hasToken "default") (declaredNames src d)
      if lines.isEmpty then [] else [.insertion t.stop (String.join (lines.map ("\n" ++ ·)))] := by
  have htail (isDefault : Bool) (names : List String) : exportTail isDefault names =
      String.join ((exportAssignments isDefault names).map ("\n" ++ ·)) := by
    unfold exportTail exportAssignments
    cases isDefault with
    | false => simp [List.map_map, Function.comp_def]
    | true => cases names <;> simp
  unfold declarationEnd
  dsimp only
  rw [htail, isEmpty_join_lines]

/-- An export with a declaration and no decorator keeps it, or takes all of it out. -/
theorem exportForm_eq_declaration (ht : t ∈ treesOf s) (hkind : t.kind = .exportStatement)
    (hd : t.part? .declaration = some d) (hplain : exportDecorator? t = none) :
    exportForm t = .declaration d := by
  have hspec := exportForm_spec t
  rcases exportForm_of_class (Syntax.allFormed_of_mem_treesOf ht) hkind (.inl hd) with
    ⟨decorator, hform⟩ | hform | hform
  · rw [hform] at hspec
    rw [hplain] at hspec
    cases hspec
  · exact hform
  · rw [hform] at hspec
    rw [hd] at hspec
    cases hspec.2.1

section Exported

variable (ht : t ∈ treesOf s) (hkind : t.kind = .exportStatement)
  (hd : t.part? .declaration = some d) (hplain : exportDecorator? t = none)
include ht hkind hd hplain

/-- A declaration that is kept is emitted, and the assignments follow. -/
theorem emit_kept_declaration (src : Source) (following : List Tree) :
    ∃ before after, t.children = before ++ d :: after ∧
      (treatment d.kind ≠ .droppedStatement →
        emit src following t = (emit src after d).map
          (exportedAs t d (exportAssignments (t.hasToken "default") (declaredNames src d)))) := by
  have hform := exportForm_eq_declaration ht hkind hd hplain
  obtain ⟨before, after, hparts, _, hafter⟩ := emitFirst_eq src hd
  refine ⟨before, after, hparts, fun hkept => ?_⟩
  rw [emit_export hkind, hform]
  dsimp only
  rw [if_neg hkept, hafter, declarationEnd_eq]
  congr 1
  funext inner
  change Emission.mk _ _ (inner.importsDefault || false) = _
  rw [Bool.or_false]
  rfl

/-- A declaration without a counterpart goes, and nothing comes in for it. -/
theorem emit_dropped_declaration (hdropped : treatment d.kind = .droppedStatement) :
    emit src following t = .ok (modules ++ ofEdit (dropStatement src t)) := by
  have hform := exportForm_eq_declaration ht hkind hd hplain
  rw [emit_export hkind, hform]
  exact if_pos hdropped

end Exported

/-- A declaration of variables. -/
def declaresVariables (d : Tree) : Bool := d.kind == .lexicalDecl || d.kind == .variableDecl

/-- A declaration that has one name, its own. -/
def declaresName (d : Tree) : Bool :=
  match d.kind with
  | .classDecl | .abstractClassDecl | .functionDecl | .generatorDecl | .enumDecl => true
  | _ => false

/-- A declaration without a counterpart in a script. -/
def declaresType (d : Tree) : Bool :=
  match d.kind with
  | .interfaceDecl | .typeAlias | .ambientDecl | .functionSignature => true
  | _ => false

theorem declaredNames_of_name (src : Source) {name : Tree} (h : declaresName d = true)
    (hname : d.part? .name = some name) :
    declaredNames src d = [name.text src] ∧ treatment d.kind ≠ .droppedStatement := by
  unfold declaresName at h
  unfold declaredNames Tree.partText?
  rw [hname]
  split at h
  all_goals rename_i hk
  case h_6 => cases h
  all_goals rw [hk]; exact ⟨rfl, nofun⟩

theorem treatment_of_type (h : declaresType d = true) :
    treatment d.kind = .droppedStatement := by
  unfold declaresType at h
  split at h
  all_goals rename_i hk
  case h_5 => cases h
  all_goals rw [hk]; rfl

/-- **What becomes of an exported declaration.** If it declares variables, the assignments behind it
    are to the names that its patterns bind, which stand in no key and in no first value: one for
    each, in the order of the text. If it has a name, there is one assignment, of this name to
    itself, or to `default` in a default export. If it has no counterpart in a script, all of the
    statement goes, and nothing comes in. -/
theorem emit_exported_declaration (ht : t ∈ treesOf s) (hkind : t.kind = .exportStatement)
    (hd : t.part? .declaration = some d) (hplain : exportDecorator? t = none) :
    let src := Source.ofString s
    ∃ before after, t.children = before ++ d :: after ∧
      (declaresVariables d = true → (∀ p ∈ declaredPatterns d, isPattern p = true) →
        ∃ bindings : List Tree,
          (∀ r, r ∈ bindings ↔ ∃ p ∈ declaredPatterns d, IsBinding p r) ∧
          (bindings.Pairwise fun a b => a.stop ≤ b.start) ∧
          emit src following t = (emit src after d).map (exportedAs t d
            (exportAssignments (t.hasToken "default") (bindings.map (Tree.text src))))) ∧
      (declaresName d = true → ∀ name, d.part? .name = some name →
        emit src following t = (emit src after d).map (exportedAs t d
          [exportLine (if t.hasToken "default" then "default" else name.text src)
            (name.text src)])) ∧
      (declaresType d = true → ∃ x, emit src following t = .ok (modules ++ ofEdit x) ∧
        x.text = "" ∧ x.start ≤ t.start ∧ t.stop ≤ x.stop) := by
  intro src
  have hordered := (Syntax.allFormed_of_mem_treesOf ht).ordered.child (List.mem_of_find?_eq_some hd)
  obtain ⟨before, after, hparts, hkept⟩ :=
    emit_kept_declaration ht hkind hd hplain src following
  refine ⟨before, after, hparts, fun hvariables hpatterns => ?_, fun hname name hpart => ?_,
    fun htype => ?_⟩
  · have hnames : declaredNames src d = (declaredBindings d).map (Tree.text src) := by
      rw [← declaratorNames_eq hpatterns, declaredNames]
      rcases (Bool.or_eq_true _ _).mp hvariables with hk | hk <;> rw [eq_of_beq hk]
    have hstays : treatment d.kind ≠ .droppedStatement := by
      rcases (Bool.or_eq_true _ _).mp hvariables with hk | hk <;> rw [eq_of_beq hk] <;> exact nofun
    exact ⟨declaredBindings d, fun r => mem_declaredBindings_iff hordered hpatterns,
      pairwise_declaredBindings hordered hpatterns, hnames ▸ hkept hstays⟩
  · obtain ⟨hnames, hstays⟩ := declaredNames_of_name src hname hpart
    rw [hkept hstays, hnames]
    cases t.hasToken "default" <;> rfl
  · refine ⟨dropStatement src t,
      emit_dropped_declaration ht hkind hd hplain (treatment_of_type htype), ?_,
      dropLines_around src t.start t.stop⟩
    rcases dropLines_cases src t.start t.stop with h | ⟨_, _, h⟩ <;> rw [dropStatement, h] <;> rfl

/-- The first export of a text. -/
def export? (text : String) : Option Tree := (treesOf text).find? (·.kind == .exportStatement)

/-- An export of names in patterns, among keys, first values, a hole, and what is left over. -/
def nestedText : String :=
  "export const \x7b a, b: c, d = e, ...f \x7d = x, [g, , \x7b [h]: [i] \x7d, j = k] = y;\n"

/-- The names `b`, `e`, `h` and `k` are not bound, and neither are `x` and `y`. -/
theorem emit_exported_declaration_nested :
    let src := Source.ofString nestedText
    (∃ t d after, ∃ bindings : List Tree, export? nestedText = some t ∧
      t.part? .declaration = some d ∧
      (∀ r, r ∈ bindings ↔ ∃ p ∈ declaredPatterns d, IsBinding p r) ∧
      (bindings.Pairwise fun a b => a.stop ≤ b.start) ∧
      emit src [] t = (emit src after d).map (exportedAs t d
        (exportAssignments (t.hasToken "default") (bindings.map (Tree.text src))))) ∧
    (Script.ofText nestedText).toOption =
      some ("\"use strict\";\nObject.defineProperty(exports, \"__esModule\", \x7b value: true \x7d);\n" ++
        "const \x7b a, b: c, d = e, ...f \x7d = x, [g, , \x7b [h]: [i] \x7d, j = k] = y;\n" ++
        "exports.a = a;\nexports.c = c;\nexports.d = d;\nexports.f = f;\n" ++
        "exports.g = g;\nexports.i = i;\nexports.j = j;\n") := by
  intro src
  let t := (export? nestedText).getD default
  let d := (t.part? .declaration).getD default
  have hfacts : (export? nestedText).isSome = true ∧ (t.part? .declaration).isSome = true ∧
      (exportDecorator? t).isNone = true ∧ declaresVariables d = true ∧
      ∀ p ∈ declaredPatterns d, isPattern p = true := by decide +kernel
  obtain ⟨hfound, hsome, hplain, hvariables, hpatterns⟩ := hfacts
  have ht : export? nestedText = some t := Syntax.eq_some_getD hfound
  have hd : t.part? .declaration = some d := Syntax.eq_some_getD hsome
  have hkind : t.kind = .exportStatement := by
    obtain ⟨hkind, _⟩ := List.find?_eq_some_iff_append.mp ht
    exact eq_of_beq hkind
  obtain ⟨_, after, _, hnames, _⟩ := emit_exported_declaration (List.mem_of_find?_eq_some ht) hkind
    hd (Option.isNone_iff_eq_none.mp hplain)
  obtain ⟨bindings, hbindings, horder, hemit⟩ := hnames hvariables hpatterns
  exact ⟨⟨t, d, after, bindings, ht, hd, hbindings, horder, hemit⟩, by decide +kernel⟩

end ClassScript.Emission
