/-
  File:      ClassScript/Proofs/Emission/Visit.lean
  Subject:   What the emission of one tree comes to.

  Emission asks for the kind of a tree, for some of its parts, and for what
  follows it. All that it can do then is one of nine things; each of them
  names the edits that are the tree's own, and the parts whose emission is
  added to them.

  * `wordEdits`, `insertions`: the edits that a tree makes between its parts;
  * `Emits`: the nine forms of emission, with their edits;
  * `emits_of_emit`: emission that succeeds has one of the nine forms;
  * `emit_import`, `emit_export`, `emit_cast`, `emit_of_descends`: emission as
    an equation, by the kind of the tree.
-/
import ClassScript.Proofs.Emission.Layout

namespace ClassScript.Emission

open Syntax (Source Tree Kind)

/-! ## 1. A tree's own edits -/

/-- The edits that take words out from between the parts of a tree. -/
def wordEdits (src : Source) (t : Tree) : List Edit :=
  match treatment t.kind with
  | .nonNull => ((t.token? "!").map drop).toList
  | .abstractClass => eraseWord src "abstract" t.children
  | .field | .parameter | .declarator | .method => eraseWords src t.children
  | _ => []

/-- The edits that bring texts in between the parts of a tree. -/
def insertions (src : Source) (t : Tree) : List Edit :=
  match treatment t.kind with
  | .method => if isConstructor src t then initialization src t else []
  | _ => []

/-- A tree stays, and all its parts are treated. -/
def descends (t : Tree) : Bool :=
  match treatment t.kind with
  | .nonNull | .abstractClass | .declarator | .method | .kept => true
  | .field => !isTypeOnlyField t
  | .parameter => !isThisParameter t
  | _ => false

/-- A tree goes as a whole. -/
def isShut (t : Tree) : Bool :=
  match treatment t.kind with
  | .dropped | .droppedStatement | .droppedMember | .droppedWord => true
  | .field => isTypeOnlyField t
  | .parameter => isThisParameter t
  | _ => false

/-- A tree gives way to a text. -/
def isReplaced (src : Source) (t : Tree) : Bool :=
  match treatment t.kind with
  | .enumDecl => true
  | .importStatement =>
    !(t.hasToken "type" || t.hasToken "typeof") &&
      ((namedPart? .importRequire t).isSome || (sourceName? src t).isSome)
  | .exportStatement =>
    !dropsExport src t &&
      match exportForm t with
      | .names => true
      | _ => false
  | _ => false

/-- A tree lacks what its emission is about: a cast its operand, an import its source, or an
    assignment to all exports its value. -/
def isBare (src : Source) (t : Tree) : Bool :=
  match treatment t.kind with
  | .cast => (t.children.find? Tree.isNamed).isNone
  | .importStatement =>
    !(t.hasToken "type" || t.hasToken "typeof") && (namedPart? .importRequire t).isNone &&
      (sourceName? src t).isNone
  | .exportStatement =>
    match exportForm t with
    | .assignment => (t.children.find? Tree.isNamed).isNone
    | _ => false
  | _ => false

/-! ## 2. The forms of emission -/

/-- The emission of the tree `t` with the parts `following` behind it may consist of these edits. -/
inductive Emits (src : Source) (following : List Tree) (t : Tree) : List Edit → Prop where
  | removed {stop : Nat} (h : removalEnd? src following t = some stop) :
      Emits src following t [dropLines src t.start stop]
  | dropped (h : treatment t.kind = .dropped) : Emits src following t [drop t]
  | word (h : treatment t.kind = .droppedWord) : Emits src following t [dropWord src t following]
  | parameter (h : treatment t.kind = .parameter) (hthis : isThisParameter t = true) :
      Emits src following t [dropParameter t following]
  | replaced (text : String) (h : isReplaced src t = true) :
      Emits src following t [⟨t.start, t.stop, text⟩]
  /-- Of an export only a declaration or a value stays; a text may follow at its end. -/
  | exported (text : String) {before after : List Tree} {part : Tree} {inner : Emission}
      {tail : List Edit} (h : treatment t.kind = .exportStatement)
      (hpart : keptPart? src t = some part) (hparts : t.children = before ++ part :: after)
      (hinner : emit src after part = .ok inner)
      (htail : tail = [] ∨ ∃ text, tail = [.insertion t.stop text]) :
      Emits src following t (⟨t.start, part.start, text⟩ :: (inner.edits ++ tail))
  /-- Of a cast only its operand stays. -/
  | cast {before after : List Tree} {operand : Tree} {inner : Emission}
      (h : treatment t.kind = .cast) (hop : t.children.find? Tree.isNamed = some operand)
      (hparts : t.children = before ++ operand :: after) (hbefore : ∀ c ∈ before, c.isNamed = false)
      (hinner : emit src after operand = .ok inner) :
      Emits src following t (.removal operand.stop t.stop :: inner.edits)
  | descended {inner : Emission} (h : descends t = true)
      (hinner : emitAll src t.children = .ok inner) :
      Emits src following t (wordEdits src t ++ (insertions src t ++ inner.edits))
  | nothing (h : isBare src t = true) : Emits src following t []

/-! ## 3. Emission has these forms -/

variable {src : Source} {following : List Tree} {t : Tree} {e : Emission}

@[simp] theorem edits_append (a b : Emission) : (a ++ b).edits = a.edits ++ b.edits := rfl

@[simp] theorem edits_ofEdit (x : Edit) : (ofEdit x).edits = [x] := rfl

@[simp] theorem edits_ofEdits (xs : List Edit) : (ofEdits xs).edits = xs := rfl

@[simp] theorem edits_modules : modules.edits = [] := rfl

theorem text_dropLines (src : Source) (start stop : Nat) :
    (dropLines src start stop).text = "" := by
  rw [dropLines]
  split <;> rfl

/-- What is mapped to a success is a success. -/
theorem exists_of_map_ok {α β ε : Type} {x : Except ε α} {f : α → β} {b : β}
    (h : x.map f = .ok b) : ∃ a, x = .ok a ∧ f a = b := by
  cases x with
  | error _ => cases h
  | ok a => exact ⟨a, rfl, Except.ok.inj h⟩

/-- The first part that passes is emitted with the parts behind it. -/
theorem emitFirst_eq (src : Source) {p : Tree → Bool} {parts : List Tree} {part : Tree}
    (hfind : parts.find? p = some part) :
    ∃ before after, parts = before ++ part :: after ∧ (∀ c ∈ before, p c = false) ∧
      emitFirst src p parts = emit src after part := by
  obtain ⟨hp, before, after, rfl, hbefore⟩ := List.find?_eq_some_iff_append.mp hfind
  have hnone (c : Tree) (hc : c ∈ before) : p c = false := by simpa using hbefore c hc
  clear hfind hbefore
  refine ⟨before, after, rfl, hnone, ?_⟩
  induction before with
  | nil => rw [List.nil_append, emitFirst, if_pos hp]
  | cons b before ih =>
    rw [List.cons_append, emitFirst, hnone b List.mem_cons_self, if_neg Bool.false_ne_true]
    exact ih fun c hc => hnone c (List.mem_cons_of_mem b hc)

theorem exists_of_emitFirst {p : Tree → Bool} {parts : List Tree} {part : Tree} {inner : Emission}
    (hfind : parts.find? p = some part) (h : emitFirst src p parts = .ok inner) :
    ∃ before after, parts = before ++ part :: after ∧ (∀ c ∈ before, p c = false) ∧
      emit src after part = .ok inner := by
  obtain ⟨before, after, hparts, hbefore, heq⟩ := emitFirst_eq src hfind
  exact ⟨before, after, hparts, hbefore, heq ▸ h⟩

/-- The edits of a list of parts: those of the first one, and those of the rest. -/
theorem emitAll_cons_ok {c : Tree} {cs : List Tree} (h : emitAll src (c :: cs) = .ok e) :
    ∃ first rest, emit src cs c = .ok first ∧ emitAll src cs = .ok rest ∧
      e.edits = first.edits ++ rest.edits := by
  rw [emitAll] at h
  cases hc : emit src cs c with
  | error _ => rw [hc] at h; cases h
  | ok first =>
    rw [hc] at h
    obtain ⟨rest, hrest, rfl⟩ := exists_of_map_ok h
    exact ⟨first, rest, rfl, hrest, rfl⟩

/-- Each part of a list has an emission, whose edits are among those of the list. -/
theorem exists_of_emitAll {before after : List Tree} {c : Tree}
    (h : emitAll src (before ++ c :: after) = .ok e) :
    ∃ inner, emit src after c = .ok inner ∧ ∀ x ∈ inner.edits, x ∈ e.edits := by
  induction before generalizing e with
  | nil =>
    obtain ⟨first, rest, hfirst, _, hedits⟩ := emitAll_cons_ok h
    exact ⟨first, hfirst, fun x hx => hedits ▸ List.mem_append_left _ hx⟩
  | cons b before ih =>
    obtain ⟨first, rest, _, hrest, hedits⟩ := emitAll_cons_ok h
    obtain ⟨inner, hinner, hmem⟩ := ih hrest
    exact ⟨inner, hinner, fun x hx => hedits ▸ List.mem_append_right _ (hmem x hx)⟩

/-- Each edit of a list of parts is one of a part. -/
theorem exists_of_mem_emitAll {parts : List Tree} {x : Edit} (h : emitAll src parts = .ok e)
    (hx : x ∈ e.edits) : ∃ before c after inner, parts = before ++ c :: after ∧
      emit src after c = .ok inner ∧ x ∈ inner.edits := by
  induction parts generalizing e with
  | nil =>
    cases h
    exact absurd hx List.not_mem_nil
  | cons c cs ih =>
    obtain ⟨first, rest, hfirst, hrest, hedits⟩ := emitAll_cons_ok h
    rcases List.mem_append.mp (hedits ▸ hx) with hx | hx
    · exact ⟨[], c, cs, first, rfl, hfirst, hx⟩
    · obtain ⟨before, d, after, inner, rfl, hinner, hx⟩ := ih hrest hx
      exact ⟨c :: before, d, after, inner, rfl, hinner, hx⟩

theorem emits_of_import (h : treatment t.kind = .importStatement) :
    ∃ es, Emits src following t es ∧ (lowerImport src t).edits.Perm es := by
  rw [lowerImport]
  split
  · rename_i htype
    exact ⟨_, .removed (by simp only [removalEnd?, h, if_pos htype]), .refl _⟩
  · rename_i htype
    rw [Bool.not_eq_true] at htype
    split
    · rename_i clause hclause
      refine ⟨_, .replaced (requireLine src clause) ?_, .refl _⟩
      simp [isReplaced, h, htype, hclause]
    · rename_i source hclause hsource
      refine ⟨_, .replaced _ ?_, .refl _⟩
      simp [isReplaced, h, htype, hsource]
    · rename_i hclause hsource
      exact ⟨_, .nothing (by simp [isBare, h, htype, hclause, hsource]), .refl _⟩

/-- What each form of exports says about the parts of the export. -/
theorem exportForm_spec (t : Tree) :
    match exportForm t with
    | .typeOnly => (t.hasToken "type" || t.hasToken "namespace") = true
    | .decorated decorator => exportDecorator? t = some decorator
    | .declaration declaration =>
      exportDecorator? t = none ∧ t.part? .declaration = some declaration
    | .value value =>
      exportDecorator? t = none ∧ t.part? .declaration = none ∧ t.part? .value = some value
    | .assignment =>
      t.part? .declaration = none ∧ t.part? .value = none ∧ t.hasToken "=" = true
    | .names => t.part? .declaration = none ∧ t.part? .value = none := by
  unfold exportForm
  by_cases htype : (t.hasToken "type" || t.hasToken "namespace") = true
  · rw [if_pos htype]
    exact htype
  · rw [if_neg htype]
    cases hdec : exportDecorator? t with
    | some decorator => rfl
    | none =>
      cases hdecl : t.part? .declaration with
      | some declaration => exact ⟨rfl, rfl⟩
      | none =>
        cases hvalue : t.part? .value with
        | some value => exact ⟨rfl, rfl, rfl⟩
        | none =>
          by_cases heq : t.hasToken "=" = true
          · dsimp only
            rw [if_pos heq]
            exact ⟨rfl, rfl, heq⟩
          · dsimp only
            rw [if_neg heq]
            exact ⟨rfl, rfl⟩

theorem removalEnd?_of_dropsExport (h : treatment t.kind = .exportStatement)
    (hdrop : dropsExport src t = true) : removalEnd? src following t = some t.stop := by
  simp only [removalEnd?, h, if_pos hdrop]

/-- An export without a declaration or a value gives way to its lines, or goes. -/
theorem emits_of_exportNames (h : treatment t.kind = .exportStatement)
    (hform : exportForm t = .names) : Emits src following t [exportNamesEdit src t] := by
  rw [exportNamesEdit]
  split
  · rename_i hlines
    exact .removed (removalEnd?_of_dropsExport h (by simp [dropsExport, hform, hlines]))
  · rename_i hlines
    refine .replaced _ ?_
    simp only [isReplaced, h, dropsExport, hform, Bool.and_true, Bool.not_eq_true',
      List.isEmpty_eq_false_iff]
    exact hlines

/-- The semicolon behind an exported value is the only edit there. -/
theorem valueEnd_cases (src : Source) (t : Tree) :
    valueEnd src t = [] ∨ ∃ text, valueEnd src t = [.insertion t.stop text] := by
  rw [valueEnd]
  split
  · exact .inl rfl
  · exact .inr ⟨_, rfl⟩

/-- The lines behind an exported declaration are the only edit there. -/
theorem declarationEnd_cases (src : Source) (t declaration : Tree) :
    declarationEnd src t declaration = [] ∨
      ∃ text, declarationEnd src t declaration = [.insertion t.stop text] := by
  rw [declarationEnd]
  split
  · exact .inl rfl
  · exact .inr ⟨_, rfl⟩

/-- The emission of an export has one of the forms. -/
theorem emits_of_export (hk : treatment t.kind = .exportStatement)
    (h : emit src following t = .ok e) : ∃ es, Emits src following t es ∧ e.edits.Perm es := by
  have hspec := exportForm_spec t
  obtain ⟨kind, role, start, stop, parts⟩ := t
  have hkind : treatment kind = .exportStatement := hk
  rw [emit, hkind] at h
  dsimp only at h
  split at h
  case h_1 hform =>
    cases h
    exact ⟨_, .removed (removalEnd?_of_dropsExport hk (by rw [dropsExport, hform])), .refl _⟩
  case h_2 => cases h
  case h_3 declaration hform =>
    split at h
    · rename_i hdropped
      cases h
      refine ⟨_, .removed (removalEnd?_of_dropsExport hk ?_), .refl _⟩
      simp only [dropsExport, hform, hdropped, decide_true]
    · rename_i hkept
      have hpart : keptPart? src (.node kind role start stop parts) = some declaration := by
        simp only [keptPart?, dropsExport, hform, hkept, decide_false, Bool.false_eq_true,
          if_false]
      obtain ⟨inner, hinner, rfl⟩ := exists_of_map_ok h
      rw [hform] at hspec
      obtain ⟨before, after, hparts, _, hemit⟩ := exists_of_emitFirst hspec.2 hinner
      exact ⟨_, .exported "" hk hpart hparts hemit (declarationEnd_cases src _ declaration),
        by simp [Edit.removal, Tree.start]⟩
  case h_4 value hform =>
    have hpart : keptPart? src (.node kind role start stop parts) = some value := by
      simp only [keptPart?, dropsExport, hform, Bool.false_eq_true, if_false]
    obtain ⟨inner, hinner, rfl⟩ := exists_of_map_ok h
    rw [hform] at hspec
    obtain ⟨before, after, hparts, _, hemit⟩ := exists_of_emitFirst hspec.2.2 hinner
    refine ⟨_, .exported "exports.default = " hk hpart hparts hemit (valueEnd_cases src _), ?_⟩
    simp only [edits_append, edits_modules, edits_ofEdit, edits_ofEdits, List.nil_append,
      List.cons_append]
    exact .cons _ List.perm_append_comm
  case h_5 hform =>
    have hpart : keptPart? src (.node kind role start stop parts) = parts.find? Tree.isNamed := by
      simp only [keptPart?, dropsExport, hform, Bool.false_eq_true, if_false, Tree.children]
    split at h
    · rename_i value hvalue
      obtain ⟨inner, hinner, rfl⟩ := exists_of_map_ok h
      obtain ⟨before, after, hparts, _, hemit⟩ := exists_of_emitFirst hvalue hinner
      exact ⟨_, .exported "module.exports = " hk (hpart.trans hvalue) hparts hemit (.inl rfl),
        by simp [Tree.start]⟩
    · rename_i hvalue
      cases h
      refine ⟨_, .nothing ?_, .refl _⟩
      simp only [isBare, Tree.kind, hkind, hform, Tree.children, hvalue, Option.isNone_none]
  case h_6 hform =>
    cases h
    exact ⟨_, emits_of_exportNames hk hform, .refl _⟩

/-- **Emission that succeeds has one of the forms**, up to the order of its edits. -/
theorem emits_of_emit (h : emit src following t = .ok e) :
    ∃ es, Emits src following t es ∧ e.edits.Perm es := by
  have hemit := h
  obtain ⟨kind, role, start, stop, parts⟩ := t
  rw [emit] at h
  dsimp only at h
  split at h
  case h_1 hk =>
    cases h
    exact ⟨_, .dropped hk, .refl _⟩
  case h_2 hk =>
    cases h
    exact ⟨_, .removed (by simp only [removalEnd?, Tree.kind, hk]), .refl _⟩
  case h_3 hk =>
    cases h
    rw [dropMember_eq]
    exact ⟨_, .removed (by simp only [removalEnd?, Tree.kind, hk]), .refl _⟩
  case h_4 hk =>
    cases h
    exact ⟨_, .word hk, .refl _⟩
  case h_5 => cases h
  case h_6 hk =>
    obtain ⟨body, _, rfl⟩ := exists_of_map_ok h
    exact ⟨_, .replaced _ (by simp only [isReplaced, Tree.kind, hk]), .refl _⟩
  case h_7 hk =>
    cases h
    exact emits_of_import hk
  case h_8 hk => exact emits_of_export hk hemit
  case h_9 hk =>
    split at h
    · rename_i operand hop
      obtain ⟨inner, hinner, rfl⟩ := exists_of_map_ok h
      obtain ⟨before, after, hparts, hbefore, hemit⟩ := exists_of_emitFirst hop hinner
      exact ⟨_, .cast hk hop hparts hbefore hemit, .refl _⟩
    · rename_i hop
      cases h
      exact ⟨_, .nothing (by simp only [isBare, Tree.kind, hk, Tree.children, hop]; rfl), .refl _⟩
  case h_12 hk =>
    split at h
    · rename_i hfield
      cases h
      rw [dropMember_eq]
      exact ⟨_, .removed (by simp only [removalEnd?, Tree.kind, hk, if_pos hfield]), .refl _⟩
    · rename_i hfield
      obtain ⟨inner, hinner, rfl⟩ := exists_of_map_ok h
      exact ⟨_, .descended (by simp [descends, Tree.kind, hk, hfield]) hinner,
        by simp [wordEdits, insertions, Tree.kind, Tree.children, hk]⟩
  case h_13 hk =>
    split at h
    · rename_i hthis
      cases h
      exact ⟨_, .parameter hk hthis, .refl _⟩
    · rename_i hthis
      obtain ⟨inner, hinner, rfl⟩ := exists_of_map_ok h
      exact ⟨_, .descended (by simp [descends, Tree.kind, hk, hthis]) hinner,
        by simp [wordEdits, insertions, Tree.kind, Tree.children, hk]⟩
  case h_16 hk =>
    exact ⟨_, .descended (by simp [descends, Tree.kind, hk]) h,
      by simp [wordEdits, insertions, Tree.kind, hk]⟩
  all_goals
    rename_i hk
    obtain ⟨inner, hinner, rfl⟩ := exists_of_map_ok h
    exact ⟨_, .descended (by simp [descends, Tree.kind, hk]) hinner,
      by simp [wordEdits, insertions, Tree.kind, Tree.children, hk]⟩

/-! ## 4. The emission of single kinds of trees -/

theorem emit_import (following : List Tree) (hkind : t.kind = .importStatement) :
    emit src following t = .ok (lowerImport src t) := by
  obtain ⟨kind, role, start, stop, parts⟩ := t
  obtain rfl : kind = .importStatement := hkind
  rw [emit]
  rfl

/-- The emission of an export, by its form. -/
theorem emit_export (h : t.kind = .exportStatement) :
    emit src following t =
      match exportForm t with
      | .typeOnly => .ok (.modules ++ .ofEdit (dropStatement src t))
      | .decorated decorator => .error (.unsupported .decorator (decorator.position src))
      | .declaration declaration =>
        if treatment declaration.kind = .droppedStatement then
          .ok (.modules ++ .ofEdit (dropStatement src t))
        else
          (emitFirst src (fun c => c.field == some .declaration) t.children).map fun inner =>
            .modules ++ .ofEdit (.removal t.start declaration.start) ++ inner ++
              .ofEdits (declarationEnd src t declaration)
      | .value value =>
        (emitFirst src (fun c => c.field == some .value) t.children).map fun inner =>
          .modules ++ .ofEdit ⟨t.start, value.start, "exports.default = "⟩ ++
            .ofEdits (valueEnd src t) ++ inner
      | .assignment =>
        match t.children.find? Tree.isNamed with
        | some value =>
          (emitFirst src Tree.isNamed t.children).map fun inner =>
            .modules ++ .ofEdit ⟨t.start, value.start, "module.exports = "⟩ ++ inner
        | none => .ok .modules
      | .names => .ok (.modules ++ .ofEdit (exportNamesEdit src t)) := by
  obtain ⟨kind, role, start, stop, parts⟩ := t
  obtain rfl : kind = .exportStatement := h
  rw [emit]
  rfl

/-- The emission of a cast is that of its operand. -/
theorem emit_cast (h : treatment t.kind = .cast) :
    emit src following t =
      match t.children.find? Tree.isNamed with
      | some value =>
        (emitFirst src Tree.isNamed t.children).map fun inner =>
          .ofEdit (.removal value.stop t.stop) ++ inner
      | none => .ok {} := by
  obtain ⟨kind, role, start, stop, parts⟩ := t
  dsimp only [Tree.kind] at h
  rw [emit, h]
  rfl

/-- **A tree whose parts are all treated** has its own edits, and those of its parts. -/
theorem emit_of_descends (h : descends t = true) :
    emit src following t = (emitAll src t.children).map fun inner =>
      ofEdits (wordEdits src t ++ insertions src t) ++ inner := by
  obtain ⟨kind, role, start, stop, parts⟩ := t
  unfold descends at h
  unfold wordEdits insertions
  rw [emit]
  dsimp only [Tree.kind, Tree.children] at h ⊢
  cases htreat : treatment kind <;> rw [htreat] at h <;> dsimp only at h ⊢ <;> try cases h
  case field => rw [if_neg (by simpa using h), List.append_nil]
  case parameter => rw [if_neg (by simpa using h), List.append_nil]
  case kept => cases emitAll src parts <;> rfl
  all_goals simp only [List.append_nil]

end ClassScript.Emission
