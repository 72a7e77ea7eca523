/-
  File:      ClassScript/Proofs/Emission/Initialization.lean
  Subject:   The properties that the parameters of a constructor declare.

  A parameter with a modifier is a property, and the constructor assigns it.
  The assignments come in after all that is written before their place, and
  before all that is written behind it: behind the first statement, if it calls
  the constructor of the superclass, and else behind the brace of the body. A
  comment is no statement.

  Two things are missed. Of the modifiers `override` alone is not seen, so such
  a parameter is not assigned. And a comment in front of the call hides it, so
  the assignments come in before the comment.

  * `declaredProperties`, `assignmentPlace`: what is to be assigned, and where;
  * `rangeAtOnce_emit_constructor`: what is made of a constructor.
-/
import ClassScript.Proofs.Emission.Range
import ClassScript.Proofs.Emission.Bounds

namespace ClassScript.Emission

open Syntax (Source Tree Kind bytesOf treesOf AllFormed)

variable {src : Source} {s : String} {t body : Tree} {following : List Tree} {e : Emission}

/-! ## 1. What is to be assigned, and where -/

/-- A parameter is declared with the modifier `override`. -/
def overrides (p : Tree) : Bool := p.children.any (·.kind == .overrideModifier)

/-- The names of the parameters that are declared with a modifier. -/
def declaredProperties (src : Source) (t : Tree) : List String :=
  ((parameterTrees t).filter fun p => declaresProperty p || overrides p).filterMap
    (·.partText? src .pattern)

/-- The first statement of a body. -/
def firstStatement? (body : Tree) : Option Tree := body.named.find? (·.kind ≠ .comment)

/-- The end of the first part of a body, its brace. -/
def braceEnd (body : Tree) : Nat := (body.children.head?.map Tree.stop).getD body.start

/-- The place for assignments: behind a first statement that calls the constructor of the
    superclass, and else behind the brace. -/
def assignmentPlace (body : Tree) : Nat :=
  match firstStatement? body with
  | some first => if isSuperCall first then first.stop else braceEnd body
  | none => braceEnd body

/-- No parameter has `override` for its only modifier. -/
def OverridesMarked (t : Tree) : Prop :=
  ∀ p ∈ parameterTrees t, overrides p = true → declaresProperty p = true

/-- No comment stands in front of a first statement that calls the constructor of the superclass. -/
def SuperCallLeads (body : Tree) : Prop :=
  ∀ first ∈ firstStatement? body, isSuperCall first = true →
    ∀ c ∈ body.named.head?, c.kind ≠ .comment

instance (t : Tree) : Decidable (OverridesMarked t) :=
  inferInstanceAs (Decidable (∀ p ∈ parameterTrees t, _))

instance (body : Tree) : Decidable (SuperCallLeads body) :=
  inferInstanceAs (Decidable (∀ first ∈ firstStatement? body, _))

/-- The parameters that are assigned are the declared ones. -/
theorem propertyParameters_eq (h : OverridesMarked t) :
    propertyParameters src t = declaredProperties src t := by
  have hfilter : (parameterTrees t).filter declaresProperty =
      (parameterTrees t).filter fun p => declaresProperty p || overrides p := by
    refine List.filter_congr fun p hp => ?_
    cases hoverrides : overrides p with
    | false => rw [Bool.or_false]
    | true => rw [h p hp hoverrides, Bool.true_or]
  rw [declaredProperties, ← hfilter]
  unfold propertyParameters parameterTrees
  cases t.part? .parameters <;> rfl

/-- They are assigned at their place. -/
theorem initializationPlace_eq (hbrace : braceEnd body = body.start + 1)
    (h : SuperCallLeads body) : initializationPlace body = assignmentPlace body := by
  unfold initializationPlace assignmentPlace
  cases hnamed : body.named with
  | nil =>
    have hnone : firstStatement? body = none := by rw [firstStatement?, hnamed]; rfl
    rw [hnone]
    exact hbrace.symm
  | cons c rest =>
    by_cases hcomment : c.kind = .comment
    · -- a comment is no call, and by the hypothesis no call follows it
      have hcall : isSuperCall c = false := by rw [isSuperCall, hcomment]; rfl
      dsimp only
      rw [hcall, hbrace]
      cases hfirst : firstStatement? body with
      | none => rfl
      | some first =>
        have hno : ¬isSuperCall first = true := fun hsuper =>
          h first hfirst hsuper c (by rw [hnamed]; rfl) hcomment
        dsimp only
        rw [if_neg hno]
        rfl
    · have hfirst : firstStatement? body = some c := by
        rw [firstStatement?, hnamed, List.find?_cons_of_pos (by simpa using hcomment)]
      rw [hfirst, hbrace]

/-! ## 2. The place in the method -/

theorem braceEnd_eq (h : AllFormed s t) (hk : treatment t.kind = .method)
    (hbody : t.part? .body = some body) : braceEnd body = body.start + 1 := by
  obtain ⟨brace, rest, hparts, _, hstop⟩ := exists_brace_of_method h hk hbody
  rw [braceEnd, hparts]
  exact hstop

theorem start_le_initializationPlace (h : AllFormed s t) (hbody : t.part? .body = some body) :
    t.start ≤ initializationPlace body := by
  have hmem : body ∈ t.children := List.mem_of_find?_eq_some hbody
  have hstart := (h.ordered.self.around body hmem).1
  unfold initializationPlace
  split
  · rename_i first rest hnamed
    split
    · have hfirst : first ∈ body.children := by
        have hfirst : first ∈ body.named := by rw [hnamed]; exact List.mem_cons_self
        exact (List.mem_filter.mp hfirst).1
      have haround := ((h.child hmem).ordered.self.around first hfirst).1
      have hle := ((h.child hmem).child hfirst).ordered.self.start_le_stop
      omega
    · omega
  · omega

/-! ## 3. The emitted constructor -/

/-- What the parts of a method come to, with its words taken out. -/
def methodEdits (src : Source) (t : Tree) (inner : Emission) : List Edit :=
  wordEdits src t ++ inner.edits

/-- **What is made of a constructor.** All that stands before the place for assignments comes
    first, then one assignment for each property that a parameter declares, in their order, and
    then all that stands behind; for these two, nothing but words and the edits of the parts counts.
    This is so if `override` is no parameter's only modifier, and no comment stands in front of the
    call of the constructor of the superclass. -/
theorem rangeAtOnce_emit_constructor (ht : t ∈ treesOf s) (hkind : t.kind = .methodDefinition)
    (hconstructor : isConstructor (.ofString s) t = true) (hbody : t.part? .body = some body)
    (hoverrides : OverridesMarked t) (hcall : SuperCallLeads body)
    (he : emit (.ofString s) following t = .ok e) :
    let src := Source.ofString s
    let place := assignmentPlace body
    ∃ inner, emitAll src t.children = .ok inner ∧ ∀ stop, place < stop →
      Edit.rangeAtOnce src e.edits t.start stop =
        Edit.rangeAtOnce src (methodEdits src t inner) t.start place ++
          bytesOf (propertyAssignments (indentation src t ++ "    ")
            (declaredProperties src t)).toList ++
          Edit.rangeAtOnce src (methodEdits src t inner) place stop := by
  intro src place
  have hformed := Syntax.allFormed_of_mem_treesOf ht
  have hk : treatment t.kind = .method := by rw [hkind]; rfl
  have hd : descends t = true := by rw [descends, hk]
  have hplace : initializationPlace body = place :=
    initializationPlace_eq (braceEnd_eq hformed hk hbody) hcall
  have hstart : t.start ≤ place := hplace ▸ start_le_initializationPlace hformed hbody
  rw [emit_of_descends hd] at he
  obtain ⟨inner, hinner, rfl⟩ := exists_of_map_ok he
  refine ⟨inner, hinner, fun stop hstop => ?_⟩
  have hinsertions : insertions src t = initialization src t := by
    rw [insertions, hk]
    dsimp only
    rw [if_pos hconstructor]
  rw [edits_append, edits_ofEdits, hinsertions, initialization_eq hbody, hplace,
    propertyParameters_eq hoverrides, List.append_assoc]
  split
  · rename_i hnone
    rw [hnone]
    have htext : bytesOf (propertyAssignments (indentation src t ++ "    ") []).toList = [] := rfl
    rw [htext, List.append_nil]
    exact Edit.rangeAtOnce_append hstart (Nat.le_of_lt hstop)
  · exact Edit.rangeAtOnce_insertion _ hstart hstop fun x hx _ => text_of_mem_wordEdits hx

/-- The first constructor of a text. -/
def constructor? (text : String) : Option Tree :=
  (treesOf text).find? fun n => n.kind == .methodDefinition && isConstructor (.ofString text) n

/-- A constructor with modifiers of all kinds, a plain parameter, and a comment behind the call. -/
def derivedText : String :=
  "class A extends B\x7bconstructor(private x,y,public override z?)\x7bsuper(y);/*c*/f()\x7d\x7d"

/-- Two of the parameters are assigned, behind the call. -/
theorem rangeAtOnce_emit_constructor_derived :
    let src := Source.ofString derivedText
    ∃ t body e inner, constructor? derivedText = some t ∧ t.part? .body = some body ∧
      emit src [] t = .ok e ∧ emitAll src t.children = .ok inner ∧
      assignmentPlace body < t.stop ∧
      Edit.rangeAtOnce src e.edits t.start t.stop =
        Edit.rangeAtOnce src (methodEdits src t inner) t.start (assignmentPlace body) ++
          bytesOf "\n    this.x = x;\n    this.z = z;".toList ++
          Edit.rangeAtOnce src (methodEdits src t inner) (assignmentPlace body) t.stop := by
  intro src
  let t := (constructor? derivedText).getD default
  let body := (t.part? .body).getD default
  have hfacts : (constructor? derivedText).isSome = true ∧ (t.part? .body).isSome = true ∧
      (emit src [] t).isOk = true ∧ OverridesMarked t ∧ SuperCallLeads body ∧
      assignmentPlace body < t.stop ∧
      propertyAssignments (indentation src t ++ "    ") (declaredProperties src t) =
        "\n    this.x = x;\n    this.z = z;" := by decide +kernel
  obtain ⟨hfound, hsome, hok, hoverrides, hcall, hlt, htext⟩ := hfacts
  have ht : constructor? derivedText = some t := Syntax.eq_some_getD hfound
  have hbody : t.part? .body = some body := Syntax.eq_some_getD hsome
  obtain ⟨hmethod, _⟩ := List.find?_eq_some_iff_append.mp ht
  obtain ⟨hkind, hconstructor⟩ := Bool.and_eq_true_iff.mp hmethod
  cases he : emit src [] t with
  | error _ => rw [he] at hok; cases hok
  | ok e =>
    obtain ⟨inner, hinner, hrange⟩ := rangeAtOnce_emit_constructor
      (List.mem_of_find?_eq_some ht) (eq_of_beq hkind) hconstructor hbody hoverrides hcall he
    have hwhole := hrange t.stop hlt
    rw [htext] at hwhole
    exact ⟨t, body, e, inner, ht, hbody, he, hinner, hlt, hwhole⟩

/-- A parameter with `override` for its only modifier is not assigned, and in front of a comment
    before the call another one is. -/
theorem missed_properties :
    (Script.ofText "class A extends B\x7bconstructor(override x)\x7bsuper();\x7d\x7d").toOption =
        some "\"use strict\";\nclass A extends B\x7bconstructor(x)\x7bsuper();\x7d\x7d" ∧
      (Script.ofText "class A extends B\x7bconstructor(private x)\x7b/*c*/super();\x7d\x7d").toOption =
        some ("\"use strict\";\nclass A extends B\x7bconstructor(x)\x7b\n" ++
          "    this.x = x;/*c*/super();\x7d\x7d") := by
  decide +kernel

end ClassScript.Emission
