/-
  File:      ClassScript/Proofs/Syntax/Items.lean
  Subject:   The order and the places of the declarations that are read off a tree.

  Diagnostics point at places that were recorded when a file was read. The
  reader goes over the parts of a tree from first to last and records for each
  declaration where its tree starts; what stands behind `export` or `declare`
  has the place of the statement. So declarations come in the order of the
  text, and every place leads back to the tree that it was taken from.

  * `IsOver`, `InLine`: a tree over a text, and parts that follow one another;
  * `IsPlaceOf`: a place is counted for a tree, and leads back to it;
  * `ReadInOrder`: declarations, each from another one of some parts, in order;
  * `Tree.Introduces`: the statement of a declaration;
  * `MemberFrom`, `ClassFrom`, `ItemFrom`: what is read off a tree;
  * `CompilationUnit.items_readInOrder`: the items of a program.
-/
import Mathlib.Data.List.Forall2
import ClassScript.Loading
import ClassScript.Proofs.Diagnostic
import ClassScript.Proofs.Syntax.Order
import ClassScript.Proofs.Syntax.Program
import ClassScript.Proofs.Text.Strip

namespace ClassScript

open Syntax (Source Tree Ordered rootOf ofSource_rootOf)

/-! ## 1. Trees over a text -/

section Over

variable {s : String} {t c n m : Tree} {parts : List Tree}

/-- A tree over the text `s`: its parts, and theirs, follow one another in it and are not empty. -/
structure IsOver (s : String) (t : Tree) : Prop where
  ordered : Ordered t
  nonempty : ∀ n ∈ t.inner, n.start < n.stop
  inside : t.stop ≤ s.utf8ByteSize

instance (s : String) (t : Tree) : Decidable (IsOver s t) :=
  decidable_of_iff (Ordered t ∧ (∀ n ∈ t.inner, n.start < n.stop) ∧ t.stop ≤ s.utf8ByteSize)
    ⟨fun ⟨h₁, h₂, h₃⟩ => ⟨h₁, h₂, h₃⟩, fun ⟨h₁, h₂, h₃⟩ => ⟨h₁, h₂, h₃⟩⟩

/-- Trees that are not empty and follow one another in the text `s`. -/
structure InLine (s : String) (parts : List Tree) : Prop where
  nonempty : ∀ n ∈ parts, n.start < n.stop
  inside : ∀ n ∈ parts, n.stop ≤ s.utf8ByteSize
  apart : parts.Pairwise fun m n => m.stop ≤ n.start

theorem IsOver.of_mem_nodes (h : IsOver s t) (hn : n ∈ t.nodes) : IsOver s n := by
  refine ⟨fun m hm => h.ordered m (Tree.mem_nodes_trans hm hn), fun m hm => ?_, ?_⟩
  · obtain ⟨c, hc, hmc⟩ := Tree.mem_inner_iff.mp hm
    obtain ⟨d, hd, hcd⟩ := Tree.mem_inner_iff.mp (Tree.mem_inner_of_node hc hn)
    exact h.nonempty m (Tree.mem_inner_iff.mpr ⟨d, hd, Tree.mem_nodes_trans hmc hcd⟩)
  · exact Nat.le_trans (h.ordered.within hn).2.2 h.inside

theorem IsOver.child (h : IsOver s t) (hc : c ∈ t.children) : IsOver s c :=
  h.of_mem_nodes (Tree.mem_nodes_of_child hc t.mem_nodes_self)

/-- The parts of a tree over a text follow one another. -/
theorem IsOver.inLine (h : IsOver s t) : InLine s t.children :=
  ⟨fun _ hc => h.nonempty _ (Tree.mem_inner_of_child hc), fun _ hc => (h.child hc).inside,
    h.ordered.self.apart⟩

namespace InLine

theorem nil : InLine s [] := ⟨nofun, nofun, .nil⟩

theorem sublist {kept : List Tree} (h : InLine s parts) (hsub : kept.Sublist parts) :
    InLine s kept :=
  ⟨fun n hn => h.nonempty n (hsub.subset hn), fun n hn => h.inside n (hsub.subset hn),
    h.apart.sublist hsub⟩

/-- Of trees that follow one another, those in them follow one another. -/
theorem flatMap {f : Tree → List Tree} (h : InLine s parts) (hf : ∀ n ∈ parts, InLine s (f n))
    (haround : ∀ n ∈ parts, ∀ c ∈ f n, n.start ≤ c.start ∧ c.stop ≤ n.stop) :
    InLine s (parts.flatMap f) := by
  refine ⟨fun c hc => ?_, fun c hc => ?_, ?_⟩
  · obtain ⟨n, hn, hcn⟩ := List.mem_flatMap.mp hc
    exact (hf n hn).nonempty c hcn
  · obtain ⟨n, hn, hcn⟩ := List.mem_flatMap.mp hc
    exact (hf n hn).inside c hcn
  · rw [List.pairwise_flatMap]
    refine ⟨fun n hn => (hf n hn).apart, h.apart.imp_of_mem fun hm hn hmn c hc d hd => ?_⟩
    have hcm := haround _ hm c hc
    have hdn := haround _ hn d hd
    omega

theorem start_lt (h : InLine s (n :: parts)) (hm : m ∈ parts) : n.start < m.start := by
  have hapart := (List.pairwise_cons.mp h.apart).1 m hm
  have hsolid := h.nonempty n List.mem_cons_self
  omega

end InLine

theorem IsOver.inLine_named (h : IsOver s t) : InLine s t.named :=
  h.inLine.sublist List.filter_sublist

end Over

/-! ## 2. Declarations in the order of the text -/

variable {u : CompilationUnit} {t c d n : Tree} {parts : List Tree} {p : Position} {α : Type}

/-- `p` is the place of the tree `n`: it is told by the line feeds before the tree and the bytes
    behind the last of them, and leads back to the first byte of the tree. -/
structure IsPlaceOf (u : CompilationUnit) (n : Tree) (p : Position) : Prop where
  counted : p = ⟨1 + (u.bytes.take n.start).count 10,
    1 + (lastLine (u.bytes.take n.start)).length⟩
  leadsBack : u.offsetOf p = n.start

/-- The declarations `ds` come from those of the trees `parts` that have the property `Declares`,
    one from each, in their order, and so do their places. -/
structure ReadInOrder (u : CompilationUnit) (parts : List Tree) (Declares : Tree → Prop)
    (place : α → Position) (From : Tree → α → Prop) (ds : List α) : Prop where
  sources : ∃ nodes, nodes.Sublist parts ∧ (∀ n ∈ parts, n ∈ nodes ↔ Declares n) ∧
    List.Forall₂ (fun n d => IsPlaceOf u n (place d) ∧ From n d) nodes ds
  increasing : ds.Pairwise fun d e => (place d).Before (place e)

theorem InLine.isPlaceOf (h : InLine u.text parts) (hn : n ∈ parts) :
    IsPlaceOf u n (n.position (.ofString u.text)) := by
  have hstart := h.nonempty n hn
  have hstop := h.inside n hn
  refine ⟨Position.ofOffset_eq u.bytes n.start, offsetOf_ofOffset ?_⟩
  rw [CompilationUnit.length_bytes]
  omega

/-- The place of a part is before those of the parts behind it. -/
theorem InLine.before {m : Tree} (h : InLine u.text (n :: parts)) (hm : m ∈ parts) :
    (n.position (.ofString u.text)).Before (m.position (.ofString u.text)) := by
  have hstart := h.nonempty m (List.mem_cons_of_mem n hm)
  have hstop := h.inside m (List.mem_cons_of_mem n hm)
  refine Position.before_ofOffset (h.start_lt hm) ?_
  show m.start ≤ u.bytes.length
  rw [CompilationUnit.length_bytes]
  omega

section Read

variable {Declares : Tree → Prop} {place : α → Position} {From : Tree → α → Prop}

theorem ReadInOrder.nil : ReadInOrder u [] Declares place From [] :=
  ⟨⟨[], .slnil, nofun, .nil⟩, .nil⟩

/-- **What is read off parts in order**, at most one declaration from each, is in order. -/
theorem ReadInOrder.filterMap {read : Tree → Option α} (h : InLine u.text parts)
    (hdeclares : ∀ n ∈ parts, (read n).isSome = true ↔ Declares n)
    (hread : ∀ n ∈ parts, ∀ d, read n = some d →
      place d = n.position (.ofString u.text) ∧ From n d) :
    ReadInOrder u parts Declares place From (parts.filterMap read) := by
  -- the parts behind the first one give their declarations, and it comes before all of these
  induction parts with
  | nil => exact .nil
  | cons n parts ih =>
    obtain ⟨⟨nodes, hsub, hmem, hall⟩, hincreasing⟩ :=
      ih (h.sublist (List.sublist_cons_self n parts))
        (fun m hm => hdeclares m (List.mem_cons_of_mem n hm))
        fun m hm => hread m (List.mem_cons_of_mem n hm)
    have hself := hdeclares n List.mem_cons_self
    rw [List.filterMap_cons]
    cases hd : read n with
    | none =>
      rw [hd] at hself
      refine ⟨⟨nodes, hsub.cons n, fun m hm => ?_, hall⟩, hincreasing⟩
      rcases List.mem_cons.mp hm with rfl | hm
      · exact ⟨fun hn => (hmem m (hsub.subset hn)).mp hn, fun hn => nomatch hself.mpr hn⟩
      · exact hmem m hm
    | some d =>
      rw [hd] at hself
      obtain ⟨hplace, hfrom⟩ := hread n List.mem_cons_self d hd
      have hplaced : IsPlaceOf u n (place d) := hplace ▸ h.isPlaceOf List.mem_cons_self
      refine ⟨⟨n :: nodes, hsub.cons_cons n, fun m hm => ?_, .cons ⟨hplaced, hfrom⟩ hall⟩,
        List.pairwise_cons.mpr ⟨fun e he => ?_, hincreasing⟩⟩
      · rcases List.mem_cons.mp hm with rfl | hm
        · exact iff_of_true List.mem_cons_self (hself.mp rfl)
        · have hne : m ≠ n := fun he => Nat.lt_irrefl _ (he ▸ h.start_lt hm)
          rw [← hmem m hm, List.mem_cons, or_iff_right hne]
      · obtain ⟨m, hm, hme⟩ := List.mem_filterMap.mp he
        rw [hplace, (hread m (List.mem_cons_of_mem n hm) e hme).1]
        exact h.before hm

/-- The same for parts of one kind that are all read. -/
theorem ReadInOrder.map_filter {read : Tree → α} {keeps : Tree → Bool} (h : InLine u.text parts)
    (hdeclares : ∀ n ∈ parts, keeps n = true ↔ Declares n)
    (hread : ∀ n ∈ parts, place (read n) = n.position (.ofString u.text) ∧ From n (read n)) :
    ReadInOrder u parts Declares place From ((parts.filter keeps).map read) := by
  have hfilter : (parts.filter keeps).map read =
      parts.filterMap fun n => if keeps n = true then some (read n) else none := by
    rw [← List.filterMap_eq_map, List.filterMap_filter]
    rfl
  rw [hfilter]
  refine .filterMap h (fun n hn => ?_) fun n hn d hd => ?_
  · rw [← hdeclares n hn]
    split <;> simp [*]
  · obtain rfl := Option.some.inj (Option.ite_none_right_eq_some.mp hd).2
    exact hread n hn

end Read

/-! ## 3. What is read off a tree -/

/-- Where the name of a member stands; a constructor has none, and that of an accessor is not
    recorded. -/
def Member.namePosition? : Member → Option Position
  | .method m => some m.namePosition
  | .property p => some p.namePosition
  | .initializer _ | .accessor _ => none

/-- The parameters of a method or a constructor; those of an accessor are not recorded. -/
def Member.parameters? : Member → Option (List Parameter)
  | .method m => some m.parameters
  | .initializer c => some c.parameters
  | .property _ | .accessor _ => none

def Item.position : Item → Position
  | .classItem c => c.position
  | .interfaceItem i => i.position
  | .enumItem e => e.position
  | .aliasItem t => t.position
  | .functionItem f => f.position
  | .variableItem v => v.position

def Item.exported : Item → Bool
  | .classItem c => c.exported
  | .interfaceItem i => i.exported
  | .enumItem e => e.exported
  | .aliasItem t => t.exported
  | .functionItem f => f.exported
  | .variableItem v => v.exported

namespace Syntax

/-- Trees of such kinds declare items. -/
def Kind.isDeclaration : Kind → Bool
  | .classDecl | .abstractClassDecl | .classExpression | .interfaceDecl | .enumDecl | .typeAlias
  | .functionDecl | .generatorDecl | .functionSignature | .functionExpression | .lexicalDecl
  | .variableDecl => true
  | _ => false

namespace Tree

/-- The parts of the parameter list. -/
def parameterParts (t : Tree) : List Tree := ((t.part? .parameters).map children).getD []

/-- The parts of the clauses that say what a class implements. -/
def implementedParts (t : Tree) : List Tree :=
  (t.heritageClauses.filter (·.kind == .implementsClause)).flatMap named

def IsParameter (t : Tree) : Prop := t.kind = .requiredParameter ∨ t.kind = .optionalParameter

def IsDeclarator (t : Tree) : Prop := t.kind = .variableDeclarator

/-- The tree of a member of a class, which has a name. -/
def IsMember (t : Tree) : Prop :=
  (t.part? .name).isSome = true ∧
    (t.kind = .methodDefinition ∨ t.kind = .methodSignature ∨ t.kind = .abstractMethodSignature ∨
      t.kind = .fieldDefinition)

/-- The tree of a member of an interface, which has a name. -/
def IsSignature (t : Tree) : Prop :=
  (t.part? .name).isSome = true ∧ (t.kind = .methodSignature ∨ t.kind = .propertySignature)

/-- `d` is the tree `t`, or what stands behind `declare` in it. -/
inductive IsBehind : Tree → Tree → Prop where
  | self (t : Tree) : IsBehind t t
  | ambient {t c d : Tree} (hkind : t.kind = .ambientDecl) (hc : t.named.head? = some c)
      (hd : IsBehind c d) : IsBehind t d

/-- What is exported: a declaration, or else a value that is a class or a function. -/
def Exports (t c : Tree) : Prop :=
  t.part? .declaration = some c ∨
    t.part? .declaration = none ∧ t.part? .value = some c ∧
      (c.kind = .classExpression ∨ c.kind = .functionExpression)

/-- The statement `t` declares what the tree `d` does: `t` itself, what it exports, or what stands
    behind `declare` there. -/
inductive Introduces : Tree → Tree → Prop where
  | plain {t d : Tree} (hkind : t.kind ≠ .exportStatement) (hd : IsBehind t d) : Introduces t d
  | exported {t c d : Tree} (hkind : t.kind = .exportStatement) (hc : t.Exports c)
      (hd : IsBehind c d) : Introduces t d

/-- The tree of a statement with an item. -/
def DeclaresItem (t : Tree) : Prop := ∃ d, t.Introduces d ∧ d.kind.isDeclaration = true

end Tree
end Syntax

/-- The part of `t` in the role of its name has the text `name` and the place `p`. -/
def IsNamedAt (u : CompilationUnit) (t : Tree) (name : String) (p : Position) : Prop :=
  ∃ part, t.part? .name = some part ∧ name = part.text (.ofString u.text) ∧ IsPlaceOf u part p

/-- The parameter `p` is read off the tree `n`, without the three points of a rest. -/
def ParameterFrom (u : CompilationUnit) (n : Tree) (p : Parameter) : Prop :=
  ∀ bound, n.part? .pattern = some bound →
    bound.text (.ofString u.text) = p.name ∨ bound.text (.ofString u.text) = "..." ++ p.name

/-- The signature `s` is read off the tree `n`. -/
def SignatureFrom (u : CompilationUnit) (n : Tree) (s : Signature) : Prop :=
  (s.kind = .method ↔ n.kind = .methodSignature) ∧
    ∃ part, n.part? .name = some part ∧ s.name = part.text (.ofString u.text)

/-- The declarator `d` is read off the tree `n`. -/
def DeclaratorFrom (u : CompilationUnit) (n : Tree) (d : Declarator) : Prop :=
  ∀ part, n.part? .name = some part → d.name = part.text (.ofString u.text)

/-- The reference `r` to a type is read off the tree `n`: its name is the text of the tree, or of
    a part of it. -/
def TypeRefFrom (u : CompilationUnit) (n : Tree) (r : TypeRef) : Prop :=
  ∃ part ∈ n.nodes, r.name = part.text (.ofString u.text)

/-- The member `m` is read off the tree `n`. -/
structure MemberFrom (u : CompilationUnit) (n : Tree) (m : Member) : Prop where
  named : ∃ part, n.part? .name = some part ∧
    (∀ name, m.name? = some name → name = part.text (.ofString u.text)) ∧
    ∀ p, m.namePosition? = some p → IsPlaceOf u part p
  parameters : ∀ ps, m.parameters? = some ps →
    ReadInOrder u n.parameterParts Tree.IsParameter Parameter.position (ParameterFrom u) ps

/-- The class `c` is read off the tree `d`. -/
structure ClassFrom (u : CompilationUnit) (d : Tree) (c : ClassDecl) : Prop where
  kind : d.kind = .classDecl ∨ d.kind = .abstractClassDecl ∨ d.kind = .classExpression
  named : (∃ name, c.name = some name ∧ IsNamedAt u d name c.namePosition) ∨
    d.part? .name = none ∧ c.name = none ∧ c.namePosition = c.position
  implemented : ReadInOrder u d.implementedParts (fun _ => True) TypeRef.position
    (TypeRefFrom u) c.implemented
  members : ReadInOrder u d.bodyParts Tree.IsMember Member.position (MemberFrom u) c.members

/-- The item is read off the tree `d`. -/
inductive ItemFrom (u : CompilationUnit) (d : Tree) : Item → Prop where
  | classItem (c : ClassDecl) (hc : ClassFrom u d c) : ItemFrom u d (.classItem c)
  | interfaceItem (i : InterfaceDecl) (hkind : d.kind = .interfaceDecl)
      (hmembers : ReadInOrder u d.bodyParts Tree.IsSignature Signature.position (SignatureFrom u)
        i.members) :
      ItemFrom u d (.interfaceItem i)
  | enumItem (e : NamedDecl) (hkind : d.kind = .enumDecl) : ItemFrom u d (.enumItem e)
  | aliasItem (a : NamedDecl) (hkind : d.kind = .typeAlias) : ItemFrom u d (.aliasItem a)
  | functionItem (f : FunctionDecl) (hkind : d.kind = .functionDecl ∨ d.kind = .generatorDecl ∨
      d.kind = .functionSignature ∨ d.kind = .functionExpression) : ItemFrom u d (.functionItem f)
  | variableItem (v : VariableDecl) (hkind : d.kind = .lexicalDecl ∨ d.kind = .variableDecl)
      (hdeclarators : ReadInOrder u d.children Tree.IsDeclarator Declarator.position
        (DeclaratorFrom u) v.declarators) :
      ItemFrom u d (.variableItem v)

/-- The item is what the statement `n` declares: it is exported if `n` is an export. -/
structure IsItemOf (u : CompilationUnit) (n : Tree) (item : Item) : Prop where
  exported : item.exported = true ↔ n.kind = .exportStatement
  declared : ∃ d, n.Introduces d ∧ ItemFrom u d item

/-! ## 4. Members -/

theorem IsOver.isPlaceOf_part (h : IsOver u.text t) {f : Syntax.Field} (hn : t.part? f = some n) :
    IsPlaceOf u n (n.position (.ofString u.text)) :=
  h.inLine.isPlaceOf (List.mem_of_find?_eq_some hn)

theorem IsOver.inLine_bodyParts (h : IsOver u.text t) : InLine u.text t.bodyParts := by
  unfold Tree.bodyParts
  split
  · rename_i body hbody
    exact (h.child (List.mem_of_find?_eq_some hbody)).inLine_named
  · exact .nil

/-- The parts of the body of a tree are in it. -/
theorem mem_nodes_of_bodyParts (hn : n ∈ t.bodyParts) : n ∈ t.nodes := by
  unfold Tree.bodyParts at hn
  split at hn
  · rename_i body hbody
    exact Tree.mem_nodes_of_child (List.mem_filter.mp hn).1
      (Tree.mem_nodes_of_child (List.mem_of_find?_eq_some hbody) t.mem_nodes_self)
  · exact absurd hn List.not_mem_nil

/-- A parameter is called what its pattern says, without the three points of a rest. -/
theorem parameterFrom_of_parameter? {q : Parameter}
    (hq : n.parameter? (.ofString u.text) = some q) :
    q.position = n.position (.ofString u.text) ∧ ParameterFrom u n q := by
  unfold Tree.parameter? at hq
  obtain rfl := Option.some.inj (Option.ite_none_right_eq_some.mp hq).2
  refine ⟨rfl, fun bound hbound => ?_⟩
  have htext : n.partText? (.ofString u.text) .pattern = some (bound.text (.ofString u.text)) := by
    rw [Tree.partText?, hbound, Option.map_some]
  dsimp only
  rw [htext, Option.getD_some]
  cases hdrop : Text.dropHead? "..." (bound.text (.ofString u.text)) with
  | none => exact .inl Option.getD_none.symm
  | some rest => exact .inr (Text.dropHead?_eq_some_iff.mp hdrop)

/-- The parameters of a method or a constructor are read off its parameter list. -/
theorem IsOver.readInOrder_parameterList (h : IsOver u.text t) :
    ReadInOrder u t.parameterParts Tree.IsParameter Parameter.position (ParameterFrom u)
      (t.parameterList (.ofString u.text)) := by
  unfold Tree.parameterList Tree.parameterParts
  cases hlist : t.part? .parameters with
  | none => exact .nil
  | some list =>
    refine .filterMap (h.child (List.mem_of_find?_eq_some hlist)).inLine (fun n _ => ?_)
      fun n _ q hq => parameterFrom_of_parameter? hq
    unfold Tree.parameter? Tree.IsParameter
    split <;> simp [*]

section Member

variable {part : Tree}

theorem IsOver.memberFrom_method (h : IsOver u.text t) (hpart : t.part? .name = some part)
    (modifiers : Modifiers) :
    MemberFrom u t (.method (t.method (.ofString u.text) part modifiers)) := by
  unfold Tree.method
  refine ⟨⟨part, hpart, fun name hname => ?_, fun p hp => ?_⟩, fun ps hps => ?_⟩
  · simp only [Member.name?, Option.some.injEq] at hname
    exact hname.symm
  · simp only [Member.namePosition?, Option.some.injEq] at hp
    exact hp ▸ h.isPlaceOf_part hpart
  · simp only [Member.parameters?, Option.some.injEq] at hps
    exact hps ▸ h.readInOrder_parameterList

/-- Of an accessor only its name and its place are recorded. -/
theorem memberFrom_accessorOr (hpart : t.part? .name = some part) {other : Member}
    (hother : other.position = t.position (.ofString u.text) ∧ MemberFrom u t other) :
    (t.accessorOr (.ofString u.text) part other).position = t.position (.ofString u.text) ∧
      MemberFrom u t (t.accessorOr (.ofString u.text) part other) := by
  unfold Tree.accessorOr
  split
  · refine ⟨rfl, ⟨part, hpart, fun name hname => ?_, nofun⟩, nofun⟩
    simp only [Member.name?, Option.some.injEq] at hname
    exact hname.symm
  · exact hother

/-- **A member** is read off its tree, and has its place. -/
theorem IsOver.memberFrom (h : IsOver u.text t) {m : Member}
    (hm : t.member? (.ofString u.text) = some m) :
    m.position = t.position (.ofString u.text) ∧ MemberFrom u t m := by
  unfold Tree.member? at hm
  obtain ⟨part, hpart, hm⟩ := Option.bind_eq_some_iff.mp hm
  split at hm
  · obtain rfl := Option.some.inj hm
    refine memberFrom_accessorOr hpart ?_
    split
    · exact ⟨rfl, ⟨part, hpart, nofun, nofun⟩,
        fun _ hps => Option.some.inj hps ▸ h.readInOrder_parameterList⟩
    · exact ⟨rfl, h.memberFrom_method hpart _⟩
  · obtain rfl := Option.some.inj hm
    exact memberFrom_accessorOr hpart ⟨rfl, h.memberFrom_method hpart _⟩
  · obtain rfl := Option.some.inj hm
    exact memberFrom_accessorOr hpart ⟨rfl, h.memberFrom_method hpart _⟩
  · obtain rfl := Option.some.inj hm
    refine ⟨rfl, ⟨part, hpart, fun name hname => ?_, fun p hp => ?_⟩, nofun⟩
    · simp only [Member.name?, Option.some.injEq] at hname
      exact hname.symm
    · simp only [Member.namePosition?, Option.some.injEq] at hp
      exact hp ▸ h.isPlaceOf_part hpart
  · cases hm

theorem isSome_member? (src : Source) (t : Tree) :
    (t.member? src).isSome = true ↔ t.IsMember := by
  unfold Tree.member? Tree.IsMember
  cases t.part? .name with
  | none => simp
  | some part => cases t.kind <;> simp

end Member

/-! ## 5. Declarations -/

theorem IsOver.inLine_heritageClauses (h : IsOver u.text t) :
    InLine u.text t.heritageClauses := by
  refine (h.inLine.sublist List.filter_sublist).flatMap (fun n hn => ?_) fun n hn c hc => ?_
  · exact (h.child (List.mem_filter.mp hn).1).inLine_named
  · exact (h.child (List.mem_filter.mp hn).1).ordered.self.around c (List.mem_filter.mp hc).1

/-- The clauses of a class are in it. -/
theorem mem_nodes_of_heritageClauses (hn : n ∈ t.heritageClauses) : n ∈ t.nodes := by
  obtain ⟨c, hc, hn⟩ := List.mem_flatMap.mp hn
  exact Tree.mem_nodes_of_child (List.mem_filter.mp hn).1
    (Tree.mem_nodes_of_child (List.mem_filter.mp hc).1 t.mem_nodes_self)

theorem IsOver.inLine_implementedParts (h : IsOver u.text t) :
    InLine u.text t.implementedParts := by
  have hclause {n : Tree} (hn : n ∈ t.heritageClauses.filter (·.kind == .implementsClause)) :
      IsOver u.text n :=
    h.of_mem_nodes (mem_nodes_of_heritageClauses (List.mem_filter.mp hn).1)
  refine (h.inLine_heritageClauses.sublist List.filter_sublist).flatMap
    (fun n hn => (hclause hn).inLine_named) fun n hn c hc => ?_
  exact (hclause hn).ordered.self.around c (List.mem_filter.mp hc).1

theorem typeRefFrom (u : CompilationUnit) (n : Tree) :
    TypeRefFrom u n (n.typeRef (.ofString u.text)) := by
  unfold TypeRefFrom Tree.typeRef
  dsimp only
  split
  · cases hpart : n.part? .name with
    | none =>
      rw [Option.getD_none]
      exact ⟨n, n.mem_nodes_self, rfl⟩
    | some part =>
      rw [Option.getD_some]
      exact ⟨part, Tree.mem_nodes_of_child (List.mem_of_find?_eq_some hpart) n.mem_nodes_self, rfl⟩
  · exact ⟨n, n.mem_nodes_self, rfl⟩

/-- The types that a class implements are read off its clauses. -/
theorem IsOver.readInOrder_implementedTypes (h : IsOver u.text d) :
    ReadInOrder u d.implementedParts (fun _ => True) TypeRef.position (TypeRefFrom u)
      (d.implementedTypes (.ofString u.text)) := by
  unfold Tree.implementedTypes
  rw [← List.map_flatMap, ← List.filterMap_eq_map]
  refine .filterMap h.inLine_implementedParts (fun _ _ => iff_of_true rfl trivial)
    fun n _ r hr => ?_
  obtain rfl := Option.some.inj hr
  exact ⟨rfl, typeRefFrom u n⟩

/-- **A class** is read off its tree, part by part. -/
theorem IsOver.classFrom (h : IsOver u.text d) (site : Tree.Site)
    (hkind : d.kind = .classDecl ∨ d.kind = .abstractClassDecl ∨ d.kind = .classExpression) :
    ClassFrom u d (d.classDecl (.ofString u.text) site) where
  kind := hkind
  named := by
    unfold Tree.classDecl
    cases hname : d.part? .name with
    | none => exact .inr ⟨rfl, rfl, rfl⟩
    | some part => exact .inl ⟨_, rfl, part, hname, rfl, h.isPlaceOf_part hname⟩
  implemented := h.readInOrder_implementedTypes
  members := .filterMap h.inLine_bodyParts (fun n _ => isSome_member? _ n) fun n hn m hm =>
    (h.of_mem_nodes (mem_nodes_of_bodyParts hn)).memberFrom hm

/-- The members of an interface are read off its body. -/
theorem IsOver.readInOrder_signatures (h : IsOver u.text d) :
    ReadInOrder u d.bodyParts Tree.IsSignature Signature.position (SignatureFrom u)
      (d.bodyParts.filterMap (Tree.signature? (.ofString u.text))) := by
  refine .filterMap h.inLine_bodyParts (fun n _ => ?_) fun n _ s hs => ?_
  · unfold Tree.signature? Tree.IsSignature
    cases n.part? .name with
    | none => simp
    | some part => cases n.kind <;> simp
  · unfold Tree.signature? at hs
    obtain ⟨part, hpart, hs⟩ := Option.bind_eq_some_iff.mp hs
    split at hs
    · rename_i hkind
      obtain rfl := Option.some.inj hs
      refine ⟨rfl, iff_of_true rfl hkind, part, hpart, ?_⟩
      dsimp only
    · rename_i hkind
      obtain rfl := Option.some.inj hs
      refine ⟨rfl, iff_of_false nofun (by rw [hkind]; nofun), part, hpart, ?_⟩
      dsimp only
    · cases hs

/-- The declarators of a variable statement are parts of it. -/
theorem IsOver.readInOrder_declarators (h : IsOver u.text d) (site : Tree.Site) :
    ReadInOrder u d.children Tree.IsDeclarator Declarator.position (DeclaratorFrom u)
      (d.variableDecl (.ofString u.text) site).declarators := by
  refine .map_filter h.inLine (fun _ _ => beq_iff_eq) fun n _ => ⟨rfl, fun part hpart => ?_⟩
  show (n.partText? _ .name).getD "" = _
  rw [Tree.partText?, hpart, Option.map_some, Option.getD_some]

/-- **A declaration** is read off its tree, and has the place and the mark of its statement. -/
theorem IsOver.itemFrom (h : IsOver u.text d) {site : Tree.Site} {item : Item}
    (hitem : d.plainItem? (.ofString u.text) site = some item) :
    ItemFrom u d item ∧ item.position = site.position ∧ item.exported = site.exported := by
  unfold Tree.plainItem? at hitem
  split at hitem
  case h_1 hkind =>
    cases hitem
    exact ⟨.classItem _ (h.classFrom site (.inl hkind)), rfl, rfl⟩
  case h_2 hkind =>
    cases hitem
    exact ⟨.classItem _ (h.classFrom site (.inr (.inl hkind))), rfl, rfl⟩
  case h_3 hkind =>
    cases hitem
    exact ⟨.classItem _ (h.classFrom site (.inr (.inr hkind))), rfl, rfl⟩
  case h_4 hkind =>
    cases hitem
    exact ⟨.interfaceItem _ hkind h.readInOrder_signatures, rfl, rfl⟩
  case h_5 hkind =>
    cases hitem
    exact ⟨.enumItem _ hkind, rfl, rfl⟩
  case h_6 hkind =>
    cases hitem
    exact ⟨.aliasItem _ hkind, rfl, rfl⟩
  case h_7 hkind =>
    cases hitem
    exact ⟨.functionItem _ (.inl hkind), rfl, rfl⟩
  case h_8 hkind =>
    cases hitem
    exact ⟨.functionItem _ (.inr (.inl hkind)), rfl, rfl⟩
  case h_9 hkind =>
    cases hitem
    exact ⟨.functionItem _ (.inr (.inr (.inl hkind))), rfl, rfl⟩
  case h_10 hkind =>
    cases hitem
    exact ⟨.functionItem _ (.inr (.inr (.inr hkind))), rfl, rfl⟩
  case h_11 hkind =>
    cases hitem
    exact ⟨.variableItem _ (.inl hkind) (h.readInOrder_declarators site), rfl, rfl⟩
  case h_12 hkind =>
    cases hitem
    exact ⟨.variableItem _ (.inr hkind) (h.readInOrder_declarators site), rfl, rfl⟩
  case h_13 => cases hitem

theorem isSome_plainItem? (src : Source) (site : Tree.Site) (d : Tree) :
    (d.plainItem? src site).isSome = d.kind.isDeclaration := by
  unfold Tree.plainItem?
  cases d.kind <;> rfl

/-! ## 6. Statements -/

section Statement

variable {src : Source} {site : Tree.Site} {item : Item}

theorem declaredByFirst?_eq (src : Source) (site : Tree.Site) (parts : List Tree) :
    Tree.declaredByFirst? src site parts =
      (parts.filter Tree.isNamed).head?.bind (Tree.declared? src site) := by
  induction parts with
  | nil => rfl
  | cons c parts ih =>
    rw [Tree.declaredByFirst?, ih, List.filter_cons]
    split <;> rfl

/-- What a tree declares, it declares itself, or by what stands behind `declare`. -/
theorem declared?_eq_some_iff :
    t.declared? src site = some item ↔ ∃ d, t.IsBehind d ∧ d.plainItem? src site = some item := by
  constructor
  · intro h
    -- behind `declare` may stand `declare` again, so the chain is followed down the tree
    induction t using Tree.induction with
    | step t ih =>
      unfold Tree.declared? at h
      split at h
      · rename_i field start stop parts
        rw [declaredByFirst?_eq] at h
        obtain ⟨c, hc, h⟩ := Option.bind_eq_some_iff.mp h
        have hmem : c ∈ parts := (List.mem_filter.mp (List.mem_of_mem_head? hc)).1
        obtain ⟨d, hd, hitem⟩ := ih c hmem h
        exact ⟨d, .ambient rfl hc hd, hitem⟩
      · exact ⟨t, .self t, h⟩
  · rintro ⟨d, hd, hitem⟩
    induction hd with
    | self t =>
      unfold Tree.declared?
      split
      · cases hitem
      · exact hitem
    | @ambient t c d hkind hc _ ih =>
      obtain ⟨kind, field, start, stop, parts⟩ := t
      obtain rfl : kind = .ambientDecl := hkind
      have hhead : (parts.filter Tree.isNamed).head? = some c := hc
      rw [Tree.declared?, declaredByFirst?_eq, hhead, Option.bind_some]
      exact ih hitem

theorem mem_nodes_of_isBehind (h : t.IsBehind d) : d ∈ t.nodes := by
  induction h with
  | self t => exact t.mem_nodes_self
  | @ambient t c d _ hc _ ih =>
    have hmem : c ∈ t.children := (List.mem_filter.mp (List.mem_of_mem_head? hc)).1
    exact Tree.mem_nodes_trans ih (Tree.mem_nodes_of_child hmem t.mem_nodes_self)

theorem mem_nodes_of_introduces (h : n.Introduces d) : d ∈ n.nodes := by
  cases h with
  | plain _ hd => exact mem_nodes_of_isBehind hd
  | exported _ hc hd =>
    refine Tree.mem_nodes_trans (mem_nodes_of_isBehind hd)
      (Tree.mem_nodes_of_child ?_ n.mem_nodes_self)
    rcases hc with hc | ⟨_, hc, _⟩ <;> exact List.mem_of_find?_eq_some hc

/-- What an export declares is declared by what it exports. -/
theorem exportedItem?_eq_some_iff :
    n.exportedItem? src = some item ↔
      ∃ c, n.Exports c ∧ c.declared? src ⟨n.position src, true⟩ = some item := by
  unfold Tree.exportedItem? Tree.Exports
  cases hdeclaration : n.part? .declaration with
  | some c => simp
  | none =>
    cases hvalue : n.part? .value with
    | none => simp
    | some c => simp [Option.ite_none_right_eq_some]

/-- **What a statement declares** has the place of the statement, and is exported if that is an
    export. -/
theorem item?_eq_some_iff :
    n.item? src = some item ↔ ∃ d, n.Introduces d ∧
      d.plainItem? src ⟨n.position src, n.kind == .exportStatement⟩ = some item := by
  unfold Tree.item?
  by_cases hkind : n.kind = .exportStatement
  · rw [if_pos hkind, exportedItem?_eq_some_iff, beq_iff_eq.mpr hkind]
    constructor
    · rintro ⟨c, hc, h⟩
      obtain ⟨d, hd, hitem⟩ := declared?_eq_some_iff.mp h
      exact ⟨d, .exported hkind hc hd, hitem⟩
    · rintro ⟨d, hd, hitem⟩
      cases hd with
      | plain hplain _ => exact absurd hkind hplain
      | exported _ hc hd => exact ⟨_, hc, declared?_eq_some_iff.mpr ⟨d, hd, hitem⟩⟩
  · rw [if_neg hkind, beq_eq_false_iff_ne.mpr hkind, declared?_eq_some_iff]
    refine exists_congr fun d => and_congr_left fun _ => ⟨.plain hkind, fun hd => ?_⟩
    cases hd with
    | plain _ hd => exact hd
    | exported hexport _ _ => exact absurd hexport hkind

theorem isSome_item? (src : Source) (n : Tree) :
    (n.item? src).isSome = true ↔ n.DeclaresItem := by
  rw [Option.isSome_iff_exists]
  constructor
  · rintro ⟨item, h⟩
    obtain ⟨d, hd, hitem⟩ := item?_eq_some_iff.mp h
    exact ⟨d, hd, by rw [← isSome_plainItem? src, hitem]; rfl⟩
  · rintro ⟨d, hd, hkind⟩
    rw [← isSome_plainItem? src ⟨n.position src, n.kind == .exportStatement⟩] at hkind
    obtain ⟨item, hitem⟩ := Option.isSome_iff_exists.mp hkind
    exact ⟨item, item?_eq_some_iff.mpr ⟨d, hd, hitem⟩⟩

end Statement

/-- **The items of a program** come from the statements that declare one, one from each, in their
    order. Each has the place of its statement, also if it stands behind `export` or `declare`, and
    is exported if the statement is an export. The members of a class and the parameters of a
    method or a constructor come in the same way from the parts of its body and of its parameter
    list, and every place that is recorded leads back to the tree that it was taken from. -/
theorem CompilationUnit.items_readInOrder (path : FilePath) (text : String) (root : Tree)
    (hover : IsOver text root) :
    let u := CompilationUnit.ofTree path text (.ofString text) root
    ReadInOrder u root.named Tree.DeclaresItem Item.position (IsItemOf u) u.items := by
  intro u
  refine .filterMap (u := u) hover.inLine_named (fun n _ => isSome_item? _ n) fun n hn item h => ?_
  -- the tree `d` gives what the item has, the statement `n` its place and its mark
  obtain ⟨d, hintroduces, hitem⟩ := item?_eq_some_iff.mp h
  have hn : n ∈ root.nodes :=
    Tree.mem_nodes_of_child (List.mem_filter.mp hn).1 root.mem_nodes_self
  have hd : IsOver u.text d :=
    hover.of_mem_nodes (Tree.mem_nodes_trans (mem_nodes_of_introduces hintroduces) hn)
  obtain ⟨hfrom, hplace, hmark⟩ := hd.itemFrom hitem
  exact ⟨hplace, by rw [hmark, beq_iff_eq], d, hintroduces, hfrom⟩

/-- On the second line, a variable stands behind two words. -/
def wrappedText : String := "class A\x7bf(x:X,y:Y)\x7b\x7d\x7d
export declare let k:K"

/-- The variable is exported and has the place of the first of these words. -/
theorem CompilationUnit.items_readInOrder_wrapped :
    let root := rootOf wrappedText
    let u := CompilationUnit.ofTree ⟨"A.javats"⟩ wrappedText (.ofString wrappedText) root
    Tree.ofSource (.ofString wrappedText) = .ok root ∧ IsOver wrappedText root ∧
      ReadInOrder u root.named Tree.DeclaresItem Item.position (IsItemOf u) u.items ∧
      u.items.map (fun item => (item.position, item.exported)) =
        [(⟨1, 1⟩, false), (⟨2, 1⟩, true)] := by
  intro root u
  have hvalues : (Tree.ofSource (.ofString wrappedText)).isOk = true ∧
      IsOver wrappedText (rootOf wrappedText) ∧
      u.items.map (fun item => (item.position, item.exported)) =
        [(⟨1, 1⟩, false), (⟨2, 1⟩, true)] := by
    decide +kernel
  obtain ⟨hok, hover, hitems⟩ := hvalues
  exact ⟨ofSource_rootOf hok, hover,
    CompilationUnit.items_readInOrder ⟨"A.javats"⟩ wrappedText root hover, hitems⟩

end ClassScript
