/-
  File:      ClassScript/Proofs/Emission/Enum/Copying.lean
  Subject:   The values of an enum are copied with their types.

  Wherever else an expression stands, emission takes its types out. The value
  of a member is not emitted but copied, so all of its types stay in the
  script. A value without types, and with nothing in it that is lowered, has
  no edits anywhere: of such a value the enum has the text that is emitted in
  another place, but for the qualified names.

  * `isUntouched`, `emit_of_untouched`: what emission leaves as it is written;
  * `CopiesValue`: what an assignment makes of a value;
  * `lowerEnum_copies`: the assignments of an enum.
-/
import ClassScript.Proofs.Emission.Enum.Execution
import ClassScript.Proofs.Emission.Enum.References
import ClassScript.Proofs.Emission.Soundness

namespace ClassScript.Emission

open Syntax (Source Tree Kind IsBoundary bytesOf)

variable {src : Source} {s enum : String} {members : List String} {t value m : Tree}
  {following : List Tree}

/-! ## 1. What stays as it is written -/

/-- Emission neither takes anything out of a tree, nor lowers or refuses it. -/
def isUntouched (t : Tree) : Bool :=
  (typeRanges t).isEmpty && !(isParameter t && isThisParameter t) &&
    match treatment t.kind with
    | .refused _ | .enumDecl | .importStatement | .exportStatement => false
    | _ => true

theorem typeRanges_of_untouched (h : isUntouched t = true) : typeRanges t = [] := by
  rw [isUntouched, Bool.and_eq_true_iff, Bool.and_eq_true_iff, List.isEmpty_iff] at h
  exact h.1.1

/-- The parts of an untouched tree are all treated; but a cast without an operand is left alone. -/
theorem isUntouched_cases (h : isUntouched t = true) :
    descends t = true ∨ treatment t.kind = .cast ∧ t.children.find? Tree.isNamed = none := by
  have hranges := typeRanges_of_untouched h
  rw [isUntouched, Bool.and_eq_true_iff, Bool.and_eq_true_iff] at h
  obtain ⟨⟨_, hthis⟩, hlowered⟩ := h
  rw [typeRanges_eq] at hranges
  unfold descends
  cases htreat : treatment t.kind <;> rw [htreat] at hranges hlowered <;>
    dsimp only at hranges hlowered ⊢
  case dropped | droppedStatement | droppedMember | droppedWord => cases hranges
  case refused | enumDecl | importStatement | exportStatement => cases hlowered
  case cast =>
    rw [Option.toList_eq_nil_iff, Option.map_eq_none_iff] at hranges
    exact .inr ⟨rfl, hranges⟩
  case field =>
    split at hranges
    · cases hranges
    · rename_i hfield
      exact .inl (by simpa using hfield)
  case parameter =>
    rw [isParameter_of_treatment htreat, Bool.true_and] at hthis
    exact .inl hthis
  case nonNull | abstractClass | declarator | method | kept => exact .inl rfl

/-- The words that go are type syntax. -/
theorem wordEdits_of_untouched (hd : descends t = true) (h : isUntouched t = true) :
    wordEdits src t = [] := by
  refine List.eq_nil_iff_forall_not_mem.mpr fun x hx => ?_
  obtain ⟨_, c, _, _, hrange, _⟩ := exists_of_mem_wordEdits hd hx
  rw [typeRanges_of_untouched h] at hrange
  exact absurd hrange List.not_mem_nil

/-- A parameter without type syntax declares no property. -/
theorem declaresProperty_of_untouched (h : ∀ n ∈ t.nodes, isUntouched n = true)
    (ht : isParameter t = true) : declaresProperty t = false := by
  have hnone {n : Tree} (hn : n ∈ t.nodes) := typeRanges_of_untouched (h n hn)
  rw [← Bool.not_eq_true, declaresProperty, List.any_eq_true]
  rintro ⟨c, hc, hmodifier⟩
  rw [Bool.or_eq_true, beq_iff_eq, beq_iff_eq] at hmodifier
  rcases hmodifier with haccess | hreadonly
  · have hrange := hnone (Tree.mem_nodes_of_child hc t.mem_nodes_self)
    rw [typeRanges_eq, haccess] at hrange
    cases hrange
  · have hrange := hnone t.mem_nodes_self
    have htreat : treatment t.kind = .parameter := by
      rcases (Bool.or_eq_true _ _).mp ht with hkind | hkind <;> rw [eq_of_beq hkind] <;> rfl
    rw [typeRanges_eq, htreat] at hrange
    have hword : c ∈ t.children.filter isErasedWord :=
      List.mem_filter.mpr ⟨hc, by rw [isErasedWord, hreadonly]; rfl⟩
    rw [List.map_eq_nil_iff.mp hrange] at hword
    exact absurd hword List.not_mem_nil

theorem insertions_of_untouched (h : ∀ n ∈ t.nodes, isUntouched n = true) :
    insertions src t = [] := by
  have hnone : propertyParameters src t = [] := by
    unfold propertyParameters
    split
    · rename_i list hlist
      refine List.filterMap_eq_nil_iff.mpr fun p hp => ?_
      obtain ⟨hp, hdeclares⟩ := List.mem_filter.mp hp
      obtain ⟨hp, hparameter⟩ := List.mem_filter.mp hp
      have hpMem : p ∈ t.nodes := Tree.mem_nodes_of_child (List.mem_filter.mp hp).1
        (Tree.mem_nodes_of_child (List.mem_of_find?_eq_some hlist) t.mem_nodes_self)
      rw [declaresProperty_of_untouched (fun n hn => h n (Tree.mem_nodes_trans hn hpMem))
        hparameter] at hdeclares
      cases hdeclares
    · rfl
  unfold insertions initialization
  rw [hnone]
  split
  · exact ite_self _
  · rfl

/-- **What is untouched** has no edits, wherever it stands. -/
theorem emit_of_untouched (h : ∀ n ∈ t.nodes, isUntouched n = true) :
    emit src following t = .ok {} := by
  induction t using Tree.induction generalizing following with
  | step t ih =>
    have hparts : ∀ parts : List Tree, (∀ c ∈ parts, c ∈ t.children) →
        emitAll src parts = .ok {} := by
      intro parts
      induction parts with
      | nil => exact fun _ => rfl
      | cons c cs ihcs =>
        intro hmem
        have hc := hmem c List.mem_cons_self
        have hfirst : emit src cs c = .ok {} := ih c hc fun n hn =>
          h n (Tree.mem_nodes_trans hn (Tree.mem_nodes_of_child hc t.mem_nodes_self))
        rw [emitAll, hfirst, ihcs fun d hd => hmem d (List.mem_cons_of_mem c hd)]
        rfl
    have hself := h t t.mem_nodes_self
    rcases isUntouched_cases hself with hdescends | ⟨hcast, hnone⟩
    · rw [emit_of_descends hdescends, hparts t.children fun _ => id,
        wordEdits_of_untouched hdescends hself, insertions_of_untouched h]
      rfl
    · rw [emit_cast hcast, hnone]

/-! ## 2. Values with their types -/

/-- Each piece of type syntax has a leaf that is no name: the keyword or the mark it starts with. -/
def TypesMarked (value : Tree) : Prop :=
  ∀ n ∈ value.nodes, ∀ r ∈ typeRanges n, ∃ c ∈ value.nodes,
    c.children = [] ∧ c.kind ≠ .identifier ∧ c.start < c.stop ∧ r.1 ≤ c.start ∧ c.stop ≤ r.2

instance (value : Tree) : Decidable (TypesMarked value) :=
  inferInstanceAs (Decidable (∀ n ∈ value.nodes, _))

/-- What the assignment `a` makes of the value `value` of a member, of which the names `refs` are
    qualified. -/
structure CopiesValue (s enum : String) (value : Tree) (a : Assignment) (refs : List Tree) :
    Prop where
  /-- It is the text of the value with these names qualified. -/
  text : bytesOf (a.value.text enum).toList =
    Edit.rangeAtOnce (.ofString s) (qualifications (.ofString s) enum refs) value.start value.stop
  /-- All bytes of types are replaced exactly if there are none. -/
  types : (∀ i, InTypes value.nodes i →
      Edit.covers (qualifications (.ofString s) enum refs) i = true) ↔
    ∀ n ∈ value.nodes, typeRanges n = []
  /-- A value that is untouched has the edits it has elsewhere, and these names qualified. -/
  elsewhere : (∀ n ∈ value.nodes, isUntouched n = true) → ∀ following, ∃ e,
    emit (.ofString s) following value = .ok e ∧
      bytesOf (a.value.text enum).toList =
        Edit.rangeAtOnce (.ofString s) (e.edits ++ qualifications (.ofString s) enum refs)
          value.start value.stop

/-- A literal text is copied in one piece. -/
theorem pieces_of_literal (h : ValueTree s value) (hkind : value.kind = .stringLiteral)
    (members : List String) :
    pieces (.ofString s) members value = [.copied (value.text (.ofString s))] := by
  have hleaf := h.leaves value value.mem_nodes_self (.inr (.inr hkind))
  have hnone : referencesIn value = [] := by
    obtain ⟨kind, field, start, stop, parts⟩ := value
    obtain rfl : kind = .stringLiteral := hkind
    obtain rfl : parts = [] := hleaf
    rfl
  rw [pieces, hnone]
  rfl

/-- The value of a member is assigned in its pieces. -/
theorem valueOf_of_value {e : EnumMember} (hm : EnumMember.ofTree? (.ofString s) members m = some e)
    (hvalue : memberValue? m = some value) (htree : ValueTree s value) (counter : Counter) :
    counter.valueOf e = .written (pieces (.ofString s) members value) := by
  obtain ⟨key, _, rfl⟩ := Option.map_eq_some_iff.mp hm
  have hgiven : givenValue (.ofString s) members m =
      if value.kind = .stringLiteral then .literalText (value.text (.ofString s))
      else if value.kind = .templateLiteral then .template (pieces (.ofString s) members value)
      else .expression (pieces (.ofString s) members value)
        (readInteger? (value.text (.ofString s))) := by
    have hpart : (if m.kind = .enumAssignment then m.part? .value else none) = some value := hvalue
    rw [givenValue, hpart]
  unfold Counter.valueOf
  dsimp only
  rw [hgiven]
  split_ifs with hliteral htemplate
  · rw [pieces_of_literal htree hliteral]
  · rfl
  · rfl

/-- The names that are qualified leave a byte of each piece of type syntax. -/
theorem exists_uncovered {refs : List Tree} (h : ValueTree s value) (hmarked : TypesMarked value)
    (hrefs : ∀ r ∈ refs, IsReference value r) {n : Tree} (hn : n ∈ value.nodes) {r : Nat × Nat}
    (hr : r ∈ typeRanges n) (enum : String) :
    ∃ i, Within i r ∧ Edit.covers (qualifications (.ofString s) enum refs) i = false := by
  obtain ⟨c, hc, hleaf, hkind, hlt, hstart, hstop⟩ := hmarked n hn r hr
  refine ⟨c.start, ⟨hstart, Nat.lt_of_lt_of_le hlt hstop⟩, ?_⟩
  exact h.covers_leaf enum hrefs hc hleaf (fun hmem => hkind (hrefs c hmem).kind)
    ⟨Nat.le_refl _, hlt⟩

/-- **A value is copied.** -/
theorem copiesValue_of_written {a : Assignment} (h : ValueTree s value)
    (hmarked : TypesMarked value) (enum : String)
    (ha : a.value = .written (pieces (.ofString s) members value)) :
    CopiesValue s enum value a
      ((referencesIn value).filter (namesMember (.ofString s) members)) := by
  have htext : bytesOf (a.value.text enum).toList = Edit.rangeAtOnce (.ofString s)
      (qualifications (.ofString s) enum
        ((referencesIn value).filter (namesMember (.ofString s) members)))
      value.start value.stop := by
    rw [ha]
    exact bytesOf_piecesFrom h.namesFrom enum members
  have hrefs : ∀ r ∈ (referencesIn value).filter (namesMember (.ofString s) members),
      IsReference value r := fun r hr => (mem_memberReferences_iff h).mp hr |>.1
  refine ⟨htext, ⟨fun hcovered n hn => ?_, fun hnone i hi => ?_⟩, fun huntouched following => ?_⟩
  · refine List.eq_nil_iff_forall_not_mem.mpr fun r hr => ?_
    obtain ⟨i, hi, hout⟩ := exists_uncovered h hmarked hrefs hn hr enum
    rw [hcovered i ⟨n, hn, r, hr, hi⟩] at hout
    cases hout
  · obtain ⟨n, hn, r, hr, _⟩ := hi
    rw [hnone n hn] at hr
    exact absurd hr List.not_mem_nil
  · exact ⟨{}, emit_of_untouched huntouched, htext⟩

/-! ## 3. The lowered enum -/

/-- The keys of the members of an enum. -/
def memberKeys (src : Source) (t : Tree) : List String := t.bodyParts.filterMap (memberKey? src)

/-- The assignment `a` of the member `m` copies its value, if it has one. -/
def CopiesMember (s enum : String) (members : List String) (m : Tree) (a : Assignment) : Prop :=
  ∀ value ∈ memberValue? m, ∃ refs : List Tree,
    (∀ r, r ∈ refs ↔ IsReference value r ∧ r.text (.ofString s) ∈ members) ∧
      CopiesValue s enum value a refs

theorem copiesMember_bodyFrom {parts : List Tree} {ms : List EnumMember}
    (h : List.Forall₂ (fun m e => EnumMember.ofTree? (.ofString s) members m = some e) parts ms)
    (hvalues : ∀ m ∈ parts, ∀ value ∈ memberValue? m, ValueTree s value ∧ TypesMarked value)
    (enum : String) (counter : Counter) :
    List.Forall₂ (CopiesMember s enum members) parts (bodyFrom counter ms) := by
  induction h generalizing counter with
  | nil => exact .nil
  | @cons m e parts ms hm _ ih =>
    refine .cons (fun value hvalue => ?_)
      (ih (fun m hm => hvalues m (List.mem_cons_of_mem _ hm)) (counter.next e))
    obtain ⟨htree, hmarked⟩ := hvalues m List.mem_cons_self value hvalue
    refine ⟨_, fun r => mem_memberReferences_iff htree, ?_⟩
    exact copiesValue_of_written htree hmarked enum (valueOf_of_value hm hvalue htree counter)

/-- **What becomes of types in an enum.** If the enum can be lowered, each value is copied, with the
    names of members qualified that are in no function and in no class. No byte of its types is
    left exactly if it has none; and if nothing in it is emitted otherwise than it is written, it
    has the text that is emitted in any other place, with these names qualified. -/
theorem lowerEnum_copies {emission : Emission} (h : lowerEnum (.ofString s) t = .ok emission)
    (hvalues : ∀ m ∈ namedParts t, ∀ value ∈ memberValue? m,
      ValueTree s value ∧ TypesMarked value) :
    let src := Source.ofString s
    ∃ body text,
      emission = .ofEdit ⟨t.start, t.stop, text⟩ ∧
      IsEnumText (t.nameText src) (indentation src t) body text ∧
      List.Forall₂ (CopiesMember s (t.nameText src) (memberKeys src t)) (namedParts t) body := by
  intro src
  unfold lowerEnum at h
  obtain ⟨body, hbody, rfl⟩ := exists_of_map_ok h
  obtain rfl := eq_bodyFrom_of_assignments hbody
  exact ⟨_, _, rfl, isEnumText_iff.mpr rfl,
    copiesMember_bodyFrom (forall₂_enumMembers src t) hvalues _ _⟩

/-- An enum with a value that has no types, and one with a cast in it. -/
def castText : String := "enum E \x7b A = 1, B = A + f(2), C = (B as number) \x7d"

/-- The second value has the text of any other place but for its name, and the third one keeps its
    type. -/
theorem lowerEnum_copies_cast :
    let src := Source.ofString castText
    let t := enumOf castText
    (∃ body text,
      lowerEnum src t = .ok (.ofEdit ⟨t.start, t.stop, text⟩) ∧
      IsEnumText (t.nameText src) (indentation src t) body text ∧
      List.Forall₂ (CopiesMember castText (t.nameText src) (memberKeys src t)) (namedParts t)
        body) ∧
      (assignmentsIn? castText).map (fun body => body.map fun a => a.value.text "E") =
        some ["1", "E.A + f(2)", "(E.B as number)"] := by
  intro src t
  have hvalues : ∀ m ∈ namedParts t, ∀ value ∈ memberValue? m,
      ValueTree castText value ∧ TypesMarked value := by decide +kernel
  have hok : (lowerEnum src t).isOk = true := by decide +kernel
  refine ⟨?_, by decide +kernel⟩
  cases he : lowerEnum src t with
  | error _ => rw [he] at hok; cases hok
  | ok emission =>
    obtain ⟨body, text, rfl, htext, hcopies⟩ := lowerEnum_copies he hvalues
    exact ⟨body, text, rfl, htext, hcopies⟩

/-- In an enum a cast keeps its type, and the script is none; in any other place it is taken out. -/
theorem enum_keeps_cast :
    (Script.ofText "enum E\x7bA=1 as number\x7d").toOption =
        some ("\"use strict\";\nvar E;\n(function (E) \x7b\n" ++
          "    E[E[\"A\"] = 1 as number] = \"A\";\n\x7d)(E || (E = \x7b\x7d));") ∧
      (Script.ofText "x=1 as number").toOption = some "\"use strict\";\nx=1" := by
  decide +kernel

end ClassScript.Emission
