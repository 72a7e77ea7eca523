/-
  File:      ClassScript/Proofs/Syntax/Grammar/Classes.lean
  Subject:   The rules of classes are sound, and classes have their form.

  The parts of a class come in one order: decorators, the word `class`, a
  name, what it extends and implements, and its body. A class in an expression
  may have no name, and then nothing is said about its form.

  * `IsClassParts`: the parts of a class with a name;
  * `ClassForm.of_parts`: they make up the form of a class.
-/
import ClassScript.Proofs.Syntax.Grammar.Expressions
import ClassScript.Syntax.Grammar.Classes

namespace ClassScript.Syntax

open Reader

variable {s : String} {P : Tree → Prop} {nested : Nested} {i j : Nat}

/-! ## 1. The parts of a class -/

/-- A part is a decorator, without a role. -/
def IsDecorator (t : Tree) : Prop := t.kind = .decorator ∧ t.field = none

/-- What stands before the name of a class. -/
def IsClassHead (s : String) (ts : List Tree) : Prop :=
  ∃ lead keyword, ts = lead ++ [keyword] ∧ (∀ c ∈ lead, IsClassLead s c) ∧ IsToken s "class" keyword

/-- The name of a class. -/
def IsClassName (t : Tree) : Prop :=
  t.field = some .name ∧ t.kind = .other "type_identifier" ∧ t.children = []

/-- The body of a class. -/
def IsClassBody (s : String) (t : Tree) : Prop :=
  t.field = some .body ∧ t.kind = .classBody ∧ StartsWith s "\x7b" t

/-- What stands behind the name of a class. -/
def IsClassTail (s : String) (ts : List Tree) : Prop :=
  ∃ middle body, ts = middle ++ [body] ∧ (∀ c ∈ middle, IsClassMiddle s c) ∧
    IsClassBody s body

/-- The parts of a class with a name. -/
def IsClassParts (s : String) (ts : List Tree) : Prop :=
  ∃ head name tail, ts = head ++ name :: tail ∧ IsClassHead s head ∧ IsClassName name ∧
    IsClassTail s tail

theorem ClassForm.of_parts {kind : Kind} {first : Tree} {rest : List Tree}
    (h : IsClassParts s (first :: rest)) :
    ClassForm s (.node kind none first.start j (first :: rest)) := by
  obtain ⟨_, name, _, hparts, ⟨lead, keyword, rfl, hlead, hkeyword⟩, ⟨hfield, hleaf⟩,
    middle, body, rfl, hmiddle, hbody⟩ := h
  have hall : first :: rest = lead ++ keyword :: ([] ++ name :: (middle ++ body :: [])) :=
    hparts.trans (by simp)
  exact .intro hall rfl hlead hkeyword nofun hfield hleaf hmiddle hbody.2 nofun

section Nested

variable [∀ p, Sound s IsBare (nested p)]

/-! ## 2. Heritage -/

instance : Sound s Any (superclass nested) := by unfold superclass; infer_instance

theorem shaped_extendsClause : Shaped s (IsOne fun t => t.kind = .extendsClause ∧
    StartsWith s "extends" t) (extendsClause nested) :=
  .startsWith rfl (((shaped_keyword "extends").mono fun _ => IsOne.opens).opens_append)

theorem shaped_classHeritage : Shaped s (IsOne (IsClassMiddle s)) (classHeritage nested) := by
  have hextends : Sound s (IsHeritagePart s) (extendsClause nested) :=
    shaped_extendsClause.sound_of_one.mono fun _ h => .inr (.inr h)
  have himplements : Sound s (IsHeritagePart s) (implementsClause nested) :=
    (Shaped.of_node inferInstance).sound_of_one.mono fun _ h => .inr (.inl h.1)
  have hparts : Sound s (IsHeritagePart s)
      (extendsClause nested ++ opt (implementsClause nested) <|> implementsClause nested) :=
    inferInstance
  exact (Shaped.of_sound hparts).node (fun _ _ _ _ => .of_free rfl)
    fun _ _ _ h => ⟨rfl, .inr (.inr ⟨rfl, h⟩)⟩

/-! ## 3. Members -/

instance (end_ : EndContext) : Sound s HasNoRole (classMemberEnd end_) := by
  unfold classMemberEnd; infer_instance

instance : Sound s IsBare (staticBlock nested) := by unfold staticBlock; infer_instance

instance : Sound s HasNoRole (method nested) :=
  .bind IsNoBody fun _ _ _ hhead => .look fun _ => .ite
    (fun _ => .mono (.method (.append (.pure (hhead.mono fun _ h he => absurd he h))))
      fun _ => And.right)
    fun _ => .append (.mono (.node rfl (.pure hhead.any)) fun _ => And.right)

instance : Sound s HasNoRole (abstractMethod nested) := by unfold abstractMethod; infer_instance

instance : Sound s HasNoRole fieldModifiers := by unfold fieldModifiers; infer_instance

instance : Sound s HasNoRole (fieldDefinition nested) :=
  .bind Any fun _ _ _ hhead => .more hhead fun _ _ h =>
    .append (.mono (.node rfl (.pure h)) fun _ => And.right)

instance : Sound s HasNoRole (decoratedMethod nested) :=
  .bind HasNoRole fun _ _ _ hlead => .more hlead fun _ _ h =>
    .ite (fun _ => .pure h) fun _ => .refuse

instance : Sound s HasNoRole (classMember nested) := by unfold classMember; infer_instance

theorem shaped_classBody : Shaped s (IsOne fun t => t.kind = .classBody ∧ StartsWith s "\x7b" t)
    (classBody nested) :=
  .startsWith rfl (((shaped_mark "\x7b").mono fun _ => IsOne.opens).opens_append.opens_append)

/-! ## 4. Classes -/

theorem shaped_className : Shaped s (IsOne IsClassName) className := by
  have hleaf : Shaped s (IsOne fun t => t.kind = .other "type_identifier" ∧ t.children = [])
      (leaf (fun _ => .other "type_identifier") fun t =>
        t.lexeme == .word && t.text != "extends" && t.text != "implements") :=
    .leaf (fun _ _ => rfl) fun _ => ⟨rfl, rfl⟩
  exact hleaf.role fun | .node .., h => ⟨rfl, h⟩

theorem shaped_classTail : Shaped s (IsClassTail s) (classTail nested) := by
  have htypes : Sound s (IsClassMiddle s) (typeParameters nested) :=
    (Shaped.of_node inferInstance).sound_of_one.mono fun _ h => ⟨h.2, .inr (.inl h.1)⟩
  have hheritage : Sound s (IsClassMiddle s) (classHeritage nested) :=
    shaped_classHeritage.sound_of_one
  have hmiddle : Sound s (IsClassMiddle s)
      (opt (typeParameters nested) ++ opt (classHeritage nested)) := inferInstance
  have hbody : Shaped s (IsOne (IsClassBody s)) (role .body (classBody nested)) :=
    shaped_classBody.role fun | .node .., h => ⟨rfl, h⟩
  exact (Shaped.of_sound hmiddle).append hbody fun middle _ hm ⟨body, hts, hb⟩ =>
    ⟨middle, body, by rw [hts], hm, hb⟩

instance : Sound s IsDecorator (decorator nested) :=
  have h : Sound s IsBare (decorator nested) := inferInstance
  (Shaped.of_node h).sound_of_one

instance : Sound s (IsClassLead s) (many (decorator nested)) :=
  have h : Sound s IsDecorator (many (decorator nested)) := inferInstance
  h.mono fun _ h => ⟨h.2, .inl h.1⟩

/-- A class has its form, or no name. -/
def IsClassShape (s : String) (ts : List Tree) : Prop :=
  IsClassParts s ts ∨ ∀ t ∈ ts, t.field ≠ some .name

theorem Form.of_shape {kind : Kind} {first : Tree} {rest : List Tree}
    (hkind : kind = .classDecl ∨ kind = .abstractClassDecl ∨ kind = .classExpression)
    (h : IsClassShape s (first :: rest)) :
    Form s (.node kind none first.start j (first :: rest)) := by
  have hform (hname : ((first :: rest).find? fun c => c.field == some .name).isSome = true) :
      ClassForm s (.node kind none first.start j (first :: rest)) := by
    obtain hparts | hnone := h
    · exact .of_parts hparts
    · obtain ⟨c, hc, hfield⟩ := List.find?_isSome.mp hname
      exact absurd (eq_of_beq hfield) (hnone c hc)
  rcases hkind with rfl | rfl | rfl <;> exact hform

/-- The parts of a class, in front of its end. -/
theorem shaped_class {lead name : Grammar} (hlead : Sound s (IsClassLead s) lead)
    (hname : Shaped s (fun ts => IsOne IsClassName ts ∨ ts = []) name) :
    Shaped s (IsClassShape s) (lead ++ keyword "class" ++ name ++ classTail nested) := by
  have hhead : Shaped s (IsClassHead s) (lead ++ keyword "class") :=
    (Shaped.of_sound hlead).append (shaped_keyword "class") fun lead _ hl ⟨keyword, hts, hk⟩ =>
      ⟨lead, keyword, by rw [hts], hl, hk⟩
  have hfront : Shaped s (fun ts => ∃ head name, ts = head ++ name ∧ IsClassHead s head ∧
      (IsOne IsClassName name ∨ name = [])) (lead ++ keyword "class" ++ name) :=
    hhead.append hname fun head name hh hn => ⟨head, name, rfl, hh, hn⟩
  refine hfront.append shaped_classTail ?_
  rintro _ tail ⟨head, name, rfl, hh, hn⟩ ht
  obtain ⟨name, rfl, hn⟩ | rfl := hn
  · exact .inl ⟨head, name, tail, by simp, hh, hn, ht⟩
  · obtain ⟨lead, keyword, rfl, hlead, hkeyword⟩ := hh
    obtain ⟨middle, body, rfl, hmiddle, hbody⟩ := ht
    refine .inr fun t hmem hname => ?_
    have hcases : t ∈ lead ∨ t = keyword ∨ t ∈ middle ∨ t = body := by
      simpa [or_assoc] using hmem
    rcases hcases with hl | rfl | hm | rfl
    · exact absurd ((hlead t hl).1.symm.trans hname) nofun
    · exact absurd (hkeyword.field.symm.trans hname) nofun
    · exact absurd ((hmiddle t hm).1.symm.trans hname) nofun
    · exact absurd (hbody.1.symm.trans hname) nofun

/-- The parts of a class as one tree. -/
theorem Shaped.classNode {kind : Kind} {p : Grammar}
    (hkind : kind = .classDecl ∨ kind = .abstractClassDecl ∨ kind = .classExpression)
    (h : Shaped s (IsClassShape s) p) : Sound s IsBare (Syntax.node kind p) := by
  have hnode : Shaped s (IsOne IsBare) (Syntax.node kind p) :=
    h.node (fun _ _ _ => .of_shape hkind) fun _ _ _ _ =>
      ⟨by rcases hkind with rfl | rfl | rfl <;> exact ⟨nofun, nofun⟩, rfl⟩
  exact hnode.sound_of_one

instance : Sound s IsBare (classExpression nested) := by
  have hname : Shaped s (fun ts => IsOne IsClassName ts ∨ ts = []) (opt className) :=
    .opt (shaped_className.mono fun _ => .inl) (.inr rfl)
  have hclass : Shaped s (IsClassShape s)
      (many (decorator nested) ++ keyword "class" ++ opt className ++ classTail nested) :=
    shaped_class inferInstance hname
  exact hclass.classNode (.inr (.inr rfl))

instance : Sound s IsBare (classDeclaration nested) := by
  have hclass : Shaped s (IsClassShape s)
      (many (decorator nested) ++ keyword "class" ++ className ++ classTail nested) :=
    shaped_class inferInstance (shaped_className.mono fun _ => .inl)
  have hend : Sound s (fun _ => False) optionalEnd := inferInstance
  refine (hclass.append (.of_sound hend) fun ts us h hus => ?_).classNode (.inl rfl)
  rwa [List.eq_nil_iff_forall_not_mem.mpr hus, List.append_nil]

instance : Sound s IsBare (abstractClassDeclaration nested) := by
  have hword : Sound s (IsClassLead s) (keyword "abstract") :=
    (shaped_keyword _).sound_of_one.mono fun _ h => ⟨h.field, .inr (.inl h)⟩
  have hclass : Shaped s (IsClassShape s)
      (many (decorator nested) ++ keyword "abstract" ++ keyword "class" ++ className ++
        classTail nested) :=
    shaped_class inferInstance (shaped_className.mono fun _ => .inl)
  exact hclass.classNode (.inr (.inl rfl))

end Nested
end ClassScript.Syntax
