/-
  File:      ClassScript/Proofs/Syntax/Reading.lean
  Subject:   What the trees a grammar reads have in common.

  All trees lie on the characters of the text, in the order of their parents'
  parts, with blanks and comments between them. A grammar is sound if the
  trees it reads are like this, from where it starts to where it stops. Each
  way to put grammars together keeps soundness, so a rule is sound if the
  rules it is made of are.

  * `Follows`: trees stand one after another;
  * `Form`: what classes, methods, imports, exports and enums have to look like;
  * `Formed`, `Yields`: a tree, and the trees of a grammar, are as they should be;
  * `Sound`: a grammar yields such trees, from every place;
  * `Sound.append`, `Sound.node`, …: one law for each way to put grammars
    together.
-/
import ClassScript.Proofs.Syntax.Token
import ClassScript.Proofs.Syntax.Tree
import ClassScript.Syntax.Grammar
import Mathlib.Logic.Basic

namespace ClassScript.Syntax

open Reader

variable {s : String} {i j k : Nat}

/-! ## 1. Trees in a row -/

/-- The trees stand one after another from `i` up to `j`, with blanks and comments around them. -/
def Follows (src : Source) : Nat → List Tree → Nat → Prop
  | i, [], j => Gap src i j
  | i, t :: ts, j => Gap src i t.start ∧ Follows src t.stop ts j

theorem Follows.append {src : Source} {ts us : List Tree} (h₁ : Follows src i ts j)
    (h₂ : Follows src j us k) : Follows src i (ts ++ us) k := by
  induction ts generalizing i with
  | nil =>
    cases us with
    | nil => exact Gap.trans h₁ h₂
    | cons u us => exact ⟨Gap.trans h₁ h₂.1, h₂.2⟩
  | cons t ts ih => exact ⟨h₁.1, ih h₁.2⟩

theorem Follows.map_inRole {src : Source} {ts : List Tree} (f : Field) (h : Follows src i ts j) :
    Follows src i (ts.map (Tree.inRole f)) j := by
  induction ts generalizing i with
  | nil => exact h
  | cons t ts ih =>
    cases t
    exact ⟨h.1, ih h.2⟩

/-! ## 2. Forms of trees -/

/-- `t` is the word or mark `text`, as it stands in the source. -/
structure IsToken (s : String) (text : String) (t : Tree) : Prop where
  kind : t.kind = .token text
  field : t.field = none
  children : t.children = []
  text : t.text (.ofString s) = text

/-- `t` is a comment. -/
structure IsComment (t : Tree) : Prop where
  kind : t.kind = .comment
  field : t.field = none
  children : t.children = []

/-- `t` is a leaf: a word, a mark, a name or a comment. -/
def IsQuiet (t : Tree) : Prop :=
  t.children = [] ∧ (t.isNamed = false ∨ t.kind = .identifier ∨ t.kind = .comment)

theorem IsToken.isQuiet {text : String} {t : Tree} (h : IsToken s text t) : IsQuiet t :=
  ⟨h.children, .inl (by rw [Tree.isNamed, h.kind]; rfl)⟩

theorem IsComment.isQuiet {t : Tree} (h : IsComment t) : IsQuiet t :=
  ⟨h.children, .inr (.inr h.kind)⟩

/-- The first part of `n` is the word or mark `text`. -/
def StartsWith (s : String) (text : String) (n : Tree) : Prop :=
  ∃ first rest, n.children = first :: rest ∧ first.start = n.start ∧ IsToken s text first

/-- What may stand before the word `class`. -/
def IsClassLead (s : String) (t : Tree) : Prop :=
  t.field = none ∧ (t.kind = .decorator ∨ IsToken s "abstract" t ∨ IsComment t)

/-- A part of what a class extends and implements. -/
def IsHeritagePart (s : String) (t : Tree) : Prop :=
  IsComment t ∨ t.kind = .implementsClause ∨ t.kind = .extendsClause ∧ StartsWith s "extends" t

/-- What may stand between the name of a class and its body. -/
def IsClassMiddle (s : String) (t : Tree) : Prop :=
  t.field = none ∧ (IsComment t ∨ t.kind = .typeParameters ∨
    t.kind = .classHeritage ∧ ∀ c ∈ t.children, IsHeritagePart s c)

/-- A class with a name: the word `class`, its name, and its body in braces, with comments. -/
inductive ClassForm (s : String) (n : Tree) : Prop where
  | intro {lead gap middle rest : List Tree} {keyword name body : Tree}
      (parts : n.children = lead ++ keyword :: (gap ++ name :: (middle ++ body :: rest)))
      (start : n.children.head?.map Tree.start = some n.start)
      (lead : ∀ c ∈ lead, IsClassLead s c)
      (keyword : IsToken s "class" keyword)
      (gap : ∀ c ∈ gap, IsComment c)
      (field : name.field = some .name)
      (leaf : name.kind = .other "type_identifier" ∧ name.children = [])
      (middle : ∀ c ∈ middle, IsClassMiddle s c)
      (body : body.kind = .classBody ∧ StartsWith s "\x7b" body)
      (rest : ∀ c ∈ rest, IsComment c)

/-- The body of a method starts with its brace. -/
def MethodForm (s : String) (n : Tree) : Prop :=
  ∀ c ∈ n.children, c.field = some .body → StartsWith s "\x7b" c

/-- A part is what an export gives to others. -/
def IsExported (t : Tree) : Prop := t.field = some .declaration ∨ t.field = some .value

/-- A part does not mark an export as one of types or of a namespace. -/
def IsUnmarked (t : Tree) : Prop := t.kind ≠ .token "type" ∧ t.kind ≠ .token "namespace"

/-- What an export has behind the decorators `lead` and its word. It gives names, and has no
    decorators; or it gives one part, among words, marks and comments. -/
def IsExportContent (lead rest : List Tree) : Prop :=
  (∀ c ∈ lead ++ rest, c.kind ≠ .decorator ∧ ¬IsExported c) ∨
    ∃ before part after, rest = before ++ part :: after ∧ IsExported part ∧
      part.kind ≠ .decorator ∧ ∀ c ∈ before ++ after, IsQuiet c ∧ c.field = none

/-- An export starts with its word, behind decorators. One with a declaration or a value is not
    marked as one of types or of a namespace. -/
inductive ExportForm (s : String) (n : Tree) : Prop where
  | intro {lead rest : List Tree} {keyword : Tree} (parts : n.children = lead ++ keyword :: rest)
      (start : n.children.head?.map Tree.start = some n.start)
      (content : IsExportContent lead rest)
      (lead : ∀ c ∈ lead, c.kind = .decorator ∨ IsComment c)
      (keyword : IsToken s "export" keyword)
      (plain : (∃ c ∈ n.children, IsExported c) → ∀ c ∈ n.children, IsUnmarked c)

/-- Of the parts of an enum, only the body has parts of its own. -/
def EnumForm (n : Tree) : Prop := ∀ c ∈ n.children, c.field ≠ some .body → IsQuiet c

/-- `t` is a literal text. -/
structure IsLiteral (s : String) (t : Tree) : Prop where
  kind : t.kind = .stringLiteral
  children : t.children = []
  text : ∃ cs, IsQuoted cs ∧ t.text (.ofString s) = String.ofList cs

/-- One of the parts between the braces of an import: a word or a mark, or a name. -/
def IsImportName (t : Tree) : Prop :=
  t.isNamed = false ∨ t.kind = .importSpecifier ∧ ∃ c ∈ t.children, c.field = some .name

/-- A whole module under a name, which comes behind words and marks. -/
def IsWholeImport (t : Tree) : Prop :=
  t.kind = .namespaceImport ∧ ∃ words name, t.children = words ++ [name] ∧
    (∀ c ∈ words, c.isNamed = false) ∧ name.kind = .identifier

/-- One of the parts of what an import takes. -/
def IsImportPart (t : Tree) : Prop :=
  t.isNamed = false ∨ t.kind = .identifier ∨ IsWholeImport t ∨
    t.kind = .namedImports ∧ ∀ c ∈ t.children, IsImportName c

/-- What a part of an import looks like that has no comments in it. -/
structure IsImportChild (s : String) (t : Tree) : Prop where
  clause : t.kind = .importClause → ∀ c ∈ t.children, IsImportPart c
  require : t.kind = .importRequire → (∃ c ∈ t.children, c.kind = .identifier) ∧
    (∃ c ∈ t.children, c.field = some .source) ∧
    ∀ c ∈ t.children, c.field = some .source → IsLiteral s c
  source : t.field = some .source → IsLiteral s t

/-- An import requires a module, or takes something from one. -/
structure ImportForm (s : String) (n : Tree) : Prop where
  source : (∃ c ∈ n.children, c.kind = .importRequire) ∨ ∃ c ∈ n.children, c.field = some .source
  apart : (∃ c ∈ n.children, c.kind = .importClause) → ∀ c ∈ n.children, c.kind ≠ .importRequire
  parts : (∀ m ∈ n.inner, m.kind ≠ .comment) → ∀ c ∈ n.children, IsImportChild s c

/-- What a tree has to look like, by its kind. -/
def Form (s : String) (n : Tree) : Prop :=
  match n.kind with
  | .classDecl | .abstractClassDecl | .classExpression =>
    (n.part? .name).isSome = true → ClassForm s n
  | .methodDefinition => MethodForm s n
  | .exportStatement => ExportForm s n
  | .enumDecl => EnumForm n
  | .importStatement => ImportForm s n
  | _ => True

/-- Trees of other kinds may look like anything. -/
def Kind.isFree : Kind → Bool
  | .classDecl | .abstractClassDecl | .classExpression | .methodDefinition | .exportStatement
  | .enumDecl | .importStatement => false
  | _ => true

theorem Form.of_free {n : Tree} (h : n.kind.isFree = true) : Form s n := by
  unfold Form
  revert h
  cases n.kind
  case classDecl | abstractClassDecl | classExpression | methodDefinition | exportStatement |
      enumDecl | importStatement => exact fun h => nomatch h
  all_goals exact fun _ => trivial

/-! ## 3. Trees of a grammar -/

/-- A tree lies around its parts, which follow one another, on the characters of the text. -/
structure Formed (s : String) (n : Tree) : Prop where
  start : IsBoundary s n.start
  onward : Onward s n.start n.stop
  parts : n.children = [] ∨ Follows (.ofString s) n.start n.children n.stop
  form : Form s n

/-- A tree and all trees in it are formed. -/
def AllFormed (s : String) (t : Tree) : Prop := ∀ n ∈ t.nodes, Formed s n

theorem AllFormed.self {t : Tree} (h : AllFormed s t) : Formed s t := h t (Tree.mem_nodes_self t)

theorem AllFormed.child {c t : Tree} (h : AllFormed s t) (hc : c ∈ t.children) : AllFormed s c := by
  intro n hn
  refine h n ?_
  rw [Tree.nodes_eq]
  exact List.mem_cons_of_mem _ (Tree.mem_inner_iff.mpr ⟨c, hc, hn⟩)

theorem AllFormed.of_children {t : Tree} (h : Formed s t) (hc : ∀ c ∈ t.children, AllFormed s c) :
    AllFormed s t := by
  intro n hn
  rw [Tree.nodes_eq] at hn
  rcases List.mem_cons.mp hn with rfl | hn
  · exact h
  · obtain ⟨c, hmem, hnc⟩ := Tree.mem_inner_iff.mp hn
    exact hc c hmem n hnc

theorem Form.inRole {n : Tree} (f : Field) (h : Form s n) : Form s (n.inRole f) := by
  obtain ⟨kind, field, a, b, cs⟩ := n
  cases kind
  case classDecl | abstractClassDecl | classExpression =>
    intro hname
    obtain ⟨h₁, h₂, h₃, h₄, h₅, h₆, h₇, h₈, h₉, h₁₀⟩ := h hname
    exact ⟨h₁, h₂, h₃, h₄, h₅, h₆, h₇, h₈, h₉, h₁₀⟩
  case exportStatement =>
    obtain ⟨h₁, h₂, h₃, h₄, h₅, h₆⟩ := h
    exact ⟨h₁, h₂, h₃, h₄, h₅, h₆⟩
  case importStatement =>
    obtain ⟨h₁, h₂, h₃⟩ := h
    exact ⟨h₁, h₂, h₃⟩
  all_goals exact h

theorem AllFormed.inRole {t : Tree} (f : Field) (h : AllFormed s t) : AllFormed s (t.inRole f) := by
  obtain ⟨kind, field, a, b, cs⟩ := t
  obtain ⟨hstart, honward, hparts, hform⟩ := h.self
  exact .of_children ⟨hstart, honward, hparts, hform.inRole f⟩ fun c hc => h.child hc

/-- What stands in the place of a word or a mark. -/
theorem IsToken.stands {text : String} {t : Tree} (h : IsToken s text t) (ht : Formed s t) :
    Stands s t.start t.stop text.toList := by
  obtain ⟨cs, hcs⟩ := exists_stands ht.start (ht.onward.boundary ht.start) ht.onward.le
  have htext : text = String.ofList cs := h.text.symm.trans hcs.text_eq
  rw [htext, String.toList_ofList]
  exact hcs

/-- Nothing is said about a tree. -/
def Any (_ : Tree) : Prop := True

/-- A tree has no role in its parent. -/
def HasNoRole (t : Tree) : Prop := t.field = none

/-- A tree is not the body of its parent. -/
def IsNoBody (t : Tree) : Prop := t.field ≠ some .body

/-- A tree marks nothing and has no role. -/
def IsBare (t : Tree) : Prop := IsUnmarked t ∧ t.field = none

/-- Trees of such kinds are no keywords or marks, and may look like anything. -/
@[reducible] def Kind.isPlain : Kind → Bool
  | .token _ | .classDecl | .abstractClassDecl | .classExpression | .methodDefinition
  | .exportStatement | .enumDecl | .importStatement => false
  | _ => true

theorem Kind.isFree_of_isPlain {kind : Kind} (h : kind.isPlain = true) : kind.isFree = true := by
  revert h
  cases kind <;> intro h <;> first | rfl | cases h

theorem IsBare.of_isPlain {kind : Kind} (h : kind.isPlain = true) (a b : Nat) (cs : List Tree) :
    IsBare (.node kind none a b cs) := by
  refine ⟨?_, rfl⟩
  change kind ≠ _ ∧ kind ≠ _
  constructor <;> rintro rfl <;> cases h

/-- The trees of a grammar that starts at `i` and stops at `j`. -/
structure Yields (s : String) (P : Tree → Prop) (i : Nat) (ts : List Tree) (j : Nat) : Prop where
  start : IsBoundary s i
  follows : Follows (.ofString s) i ts j
  formed : ∀ t ∈ ts, AllFormed s t
  roots : ∀ t ∈ ts, P t

namespace Yields

variable {P Q : Tree → Prop} {ts us : List Tree}

theorem nil (h : IsBoundary s i) : Yields s P i [] i :=
  ⟨h, .nil i, fun _ ht => absurd ht List.not_mem_nil, fun _ ht => absurd ht List.not_mem_nil⟩

theorem mono (h : Yields s P i ts j) (hPQ : ∀ t, P t → Q t) : Yields s Q i ts j :=
  ⟨h.start, h.follows, h.formed, fun t ht => hPQ t (h.roots t ht)⟩

theorem strengthen (h : Yields s P i ts j) (hQ : ∀ t ∈ ts, Q t) : Yields s Q i ts j :=
  ⟨h.start, h.follows, h.formed, hQ⟩

/-- Reading goes on over trees. -/
theorem onward (h : Yields s P i ts j) : Onward s i j := by
  have hfollows := h.follows
  have hformed := h.formed
  clear h
  induction ts generalizing i with
  | nil => exact Gap.onward hfollows
  | cons t ts ih =>
    have ht := (hformed t List.mem_cons_self).self.onward
    exact (Gap.onward hfollows.1).trans
      (ht.trans (ih hfollows.2 fun u hu => hformed u (List.mem_cons_of_mem t hu)))

theorem stop (h : Yields s P i ts j) : IsBoundary s j := h.onward.boundary h.start

theorem any (h : Yields s P i ts j) : Yields s Any i ts j := h.mono fun _ _ => trivial

theorem append (h₁ : Yields s P i ts j) (h₂ : Yields s P j us k) : Yields s P i (ts ++ us) k := by
  refine ⟨h₁.start, h₁.follows.append h₂.follows, fun t ht => ?_, fun t ht => ?_⟩
  · exact (List.mem_append.mp ht).elim (h₁.formed t) (h₂.formed t)
  · exact (List.mem_append.mp ht).elim (h₁.roots t) (h₂.roots t)

/-- A gap behind trees belongs to them. -/
theorem gap (h : Yields s P i ts j) (hgap : Gap (.ofString s) j k) : Yields s P i ts k := by
  have hnil : Yields s P j [] k :=
    ⟨h.stop, hgap, fun _ ht => absurd ht List.not_mem_nil, fun _ ht => absurd ht List.not_mem_nil⟩
  have happend := h.append hnil
  rwa [List.append_nil] at happend

/-- Where no trees follow, the first ones are all. -/
theorem of_isEmpty (h : Yields s P i ts j) (h' : Yields s Q j us k) (he : us.isEmpty = true) :
    Yields s P i ts k := by
  obtain rfl := List.isEmpty_iff.mp he
  exact h.gap h'.follows

/-- Where no trees go before, the ones behind are all. -/
theorem behind_isEmpty (h : Yields s Q i ts j) (he : ts.isEmpty = true) (h' : Yields s P j us k) :
    Yields s P i us k := by
  obtain rfl := List.isEmpty_iff.mp he
  exact ⟨h.start, Follows.append h.follows h'.follows, h'.formed, h'.roots⟩

/-- A single tree. -/
theorem single {t : Tree} (hi : IsBoundary s i) (hgap : Gap (.ofString s) i t.start)
    (h : AllFormed s t) (hP : P t) : Yields s P i [t] t.stop :=
  ⟨hi, ⟨hgap, .nil _⟩, fun _ hu => List.mem_singleton.mp hu ▸ h,
    fun _ hu => List.mem_singleton.mp hu ▸ hP⟩

/-- A leaf. -/
theorem leaf {kind : Kind} (hi : IsBoundary s i) (hgap : Gap (.ofString s) i j)
    (honward : Onward s j k) (hfree : kind.isFree = true) (hP : P (.node kind none j k [])) :
    Yields s P i [.node kind none j k []] k :=
  single hi hgap (.of_children ⟨hgap.onward.boundary hi, honward, .inl rfl, .of_free hfree⟩
    fun _ hc => absurd hc List.not_mem_nil) hP

/-- Trees as the parts of one. -/
theorem node {kind : Kind} {first : Tree} (h : Yields s Q i (first :: ts) j)
    (hform : Form s (.node kind none first.start j (first :: ts)))
    (hP : P (.node kind none first.start j (first :: ts))) :
    Yields s P i [.node kind none first.start j (first :: ts)] j := by
  have hstart : IsBoundary s first.start := (h.formed first List.mem_cons_self).self.start
  have hparts : Yields s Q first.start (first :: ts) j :=
    ⟨hstart, ⟨.nil _, h.follows.2⟩, h.formed, h.roots⟩
  exact single h.start h.follows.1
    (.of_children ⟨hstart, hparts.onward, .inr hparts.follows, hform⟩ h.formed) hP

theorem inRole (f : Field) (h : Yields s Q i ts j) (hP : ∀ t, Q t → P (t.inRole f)) :
    Yields s P i (ts.map (Tree.inRole f)) j := by
  refine ⟨h.start, h.follows.map_inRole f, fun t ht => ?_, fun t ht => ?_⟩
  · obtain ⟨u, hu, rfl⟩ := List.mem_map.mp ht
    exact (h.formed u hu).inRole f
  · obtain ⟨u, hu, rfl⟩ := List.mem_map.mp ht
    exact hP u (h.roots u hu)

theorem inRole_any (f : Field) (h : Yields s Q i ts j) :
    Yields s Any i (ts.map (Tree.inRole f)) j :=
  h.inRole f fun _ _ => trivial

end Yields

/-! ## 4. Readers -/

section Gives

variable {α β : Type}

/-- What `r` gives from the place `i` on, and where it stands then, is as `post` says. -/
def Gives (s : String) (i : Nat) (r : Reader α) (post : α → Nat → Prop) : Prop :=
  ∀ context furthest a cursor, context.source = .ofString s →
    r context ⟨i, furthest⟩ = .found a cursor → post a cursor.place

variable {r : Reader α} {f : α → Reader β} {post : α → Nat → Prop} {post' : β → Nat → Prop}

theorem Gives.mono {post₂ : α → Nat → Prop} (h : Gives s i r post)
    (himp : ∀ a j, post a j → post₂ a j) : Gives s i r post₂ :=
  fun context furthest a cursor hc he => himp a _ (h context furthest a cursor hc he)

theorem Gives.pure {a : α} (h : post a i) : Gives s i (Pure.pure a : Reader α) post := by
  intro _ _ _ _ _ he
  cases he
  exact h

theorem Gives.bind (h : Gives s i r fun a j => Gives s j (f a) post') :
    Gives s i (r >>= f) post' := by
  intro context furthest b cursor hc he
  change Reader.bind r f context ⟨i, furthest⟩ = _ at he
  unfold Reader.bind at he
  split at he
  · rename_i a after ha
    exact h context furthest a after hc ha context after.furthest b cursor hc he
  · cases he

theorem Gives.orElse {r' : Reader α} (h : Gives s i r post) (h' : Gives s i r' post) :
    Gives s i (r <|> r') post := by
  intro context furthest a cursor hc he
  change Reader.orElse r (fun _ => r') context ⟨i, furthest⟩ = _ at he
  unfold Reader.orElse at he
  split at he
  · rename_i b after hb
    cases he
    exact h context furthest _ _ hc hb
  · exact h' context _ a cursor hc he

theorem Gives.refuse : Gives s i (Reader.refuse : Reader α) post := by
  intro _ _ _ _ _ he
  cases he

theorem Gives.within {change : Context → Context} (hc : ∀ c, (change c).source = c.source)
    (h : Gives s i r post) : Gives s i (Reader.within change r) post :=
  fun context furthest a cursor hs he =>
    h (change context) furthest a cursor ((hc context).trans hs) he

theorem Gives.moveTo {post : Unit → Nat → Prop} {j : Nat} (h : post () j) :
    Gives s i (Reader.moveTo j) post := by
  intro _ _ _ _ _ he
  cases he
  exact h

theorem Gives.peek {post : Token → Nat → Prop}
    (h : post (Token.scan (.ofString s) i) i) : Gives s i Reader.peek post := by
  intro context _ _ _ hc he
  cases he
  rwa [hc]

theorem Gives.context {post : Context → Nat → Prop}
    (h : ∀ c : Context, c.source = .ofString s → post c i) : Gives s i Reader.context post := by
  intro context _ _ _ hc he
  cases he
  exact h context hc

theorem Gives.place {post : Nat → Nat → Prop} (h : post i i) : Gives s i Reader.place post := by
  intro _ _ _ _ _ he
  cases he
  exact h

/-- A reader looks without reading. -/
class Stays (r : Reader α) : Prop where
  place_eq : ∀ context cursor a after, r context cursor = .found a after →
    after.place = cursor.place

theorem Gives.stays [h : Stays r] (hpost : ∀ a, post a i) : Gives s i r post := by
  intro context furthest a cursor _ he
  rw [h.place_eq context _ a cursor he]
  exact hpost a

instance (a : α) : Stays (Pure.pure a : Reader α) where
  place_eq _ _ _ _ he := by cases he; rfl

instance [Stays r] [∀ a, Stays (f a)] : Stays (r >>= f) where
  place_eq context cursor b after he := by
    change Reader.bind r f context cursor = _ at he
    unfold Reader.bind at he
    split at he
    · rename_i a middle ha
      rw [Stays.place_eq context middle b after he, Stays.place_eq context cursor a middle ha]
    · cases he

instance : Stays Reader.context where
  place_eq _ _ _ _ he := by cases he; rfl

instance : Stays Reader.place where
  place_eq _ _ _ _ he := by cases he; rfl

instance : Stays Reader.peek where
  place_eq _ _ _ _ he := by cases he; rfl

instance : Stays Reader.peekSecond where
  place_eq _ _ _ _ he := by cases he; rfl

instance : Stays (Reader.ahead r) where
  place_eq context cursor a after he := by
    unfold Reader.ahead at he
    split at he <;> cases he <;> rfl

instance (text : String) : Stays (atMark text) := by unfold atMark; infer_instance

instance (text : String) : Stays (atWord text) := by unfold atWord; infer_instance

instance (afterExpression : Bool) : Stays (sameStatement afterExpression) where
  place_eq _ _ _ _ he := by cases he; rfl

theorem Gives.and {post₂ : α → Nat → Prop} (h : Gives s i r post) (h₂ : Gives s i r post₂) :
    Gives s i r fun a j => post a j ∧ post₂ a j :=
  fun context furthest a cursor hc he =>
    ⟨h context furthest a cursor hc he, h₂ context furthest a cursor hc he⟩

/-- A grammar that reads anything reads a tree. -/
class Fills (p : Grammar) : Prop where
  ne_nil : ∀ context cursor ts after, p context cursor = .found ts after → ts ≠ []

theorem Gives.fills {p : Grammar} [h : Fills p] : Gives s i p fun ts _ => ts ≠ [] :=
  fun context _ ts cursor _ he => h.ne_nil context _ ts cursor he

instance : Fills Reader.refuse where
  ne_nil _ _ _ _ he := nomatch he

instance {f : α → Grammar} [h : ∀ a, Fills (f a)] : Fills (r >>= f) where
  ne_nil context cursor ts after he := by
    change Reader.bind r f context cursor = _ at he
    unfold Reader.bind at he
    split at he
    · exact (h _).ne_nil context _ ts after he
    · cases he

instance {p q : Grammar} [hp : Fills p] [hq : Fills q] : Fills (p <|> q) where
  ne_nil context cursor ts after he := by
    change Reader.orElse p (fun _ => q) context cursor = _ at he
    unfold Reader.orElse at he
    split at he
    · rename_i hfound
      cases he
      exact hp.ne_nil context cursor _ _ hfound
    · exact hq.ne_nil context _ ts after he

instance {c : Prop} [Decidable c] {p q : Grammar} [hp : Fills p] [hq : Fills q] :
    Fills (if c then p else q) := by
  split
  · exact hp
  · exact hq

instance {t : Tree} : Fills (Pure.pure [t]) where
  ne_nil _ _ _ _ he := by cases he; exact List.cons_ne_nil _ _

instance {kind : Kind} {p : Grammar} : Fills (node kind p) :=
  have h (ts : List Tree) : Fills (do
      let stop ← place
      match ts with
      | [] => Reader.refuse
      | first :: _ => return [.node kind none first.start stop ts]) := by
    cases ts <;> infer_instance
  inferInstanceAs (Fills (p >>= _))

end Gives

/-! ## 5. Sound grammars -/

/-- What `p` reads from `j` on comes behind what was read from `i` on. -/
def Reads (s : String) (P : Tree → Prop) (i j : Nat) (p : Grammar) : Prop :=
  Gives s j p fun ts k => Yields s P i ts k

/-- A grammar yields formed trees, with `P` true of each, from every place. That a rule is sound is
    inferred from how it is put together. -/
class Sound (s : String) (P : Tree → Prop) (p : Grammar) : Prop where
  reads : ∀ i, IsBoundary s i → Reads s P i i p

section Laws

variable {P Q : Tree → Prop} {p q : Grammar} {α : Type}

theorem Sound.mono (h : Sound s P p) (hPQ : ∀ t, P t → Q t) : Sound s Q p where
  reads i hi := Gives.mono (h.reads i hi) fun _ _ hy => hy.mono hPQ

namespace Reads

theorem pure {ts : List Tree} (h : Yields s P i ts j) : Reads s P i j (Pure.pure ts) := Gives.pure h

theorem refuse : Reads s P i j Reader.refuse := Gives.refuse

/-- Looking ahead does not matter. -/
theorem look {r : Reader α} [Stays r] {f : α → Grammar} (hf : ∀ a, Reads s P i j (f a)) :
    Reads s P i j (r >>= f) :=
  Gives.bind (Gives.stays hf)

theorem bind {m : Nat} {f : List Tree → Grammar} (hp : Reads s Q m j p)
    (hf : ∀ ts k, Yields s Q m ts k → Reads s P i k (f ts)) : Reads s P i j (p >>= f) :=
  Gives.bind (Gives.mono hp hf)

/-- Either of two grammars goes first. -/
theorem choose {c : Prop} [Decidable c] {m : Nat} {f : List Tree → Grammar}
    (hp : c → Reads s Q m j p) (hq : ¬c → Reads s Q m j q)
    (hf : ∀ ts k, Yields s Q m ts k → Reads s P i k (f ts)) :
    Reads s P i j (if c then p >>= f else q >>= f) := by
  split
  · exact (hp ‹_›).bind hf
  · exact (hq ‹_›).bind hf

/-- More trees are read. -/
theorem andThen {R : Tree → Prop} {m : Nat} {f : List Tree → Grammar} {ts : List Tree}
    [hp : Sound s Q p] (h : Yields s R m ts j)
    (hf : ∀ us k, Yields s Q j us k → Reads s P i k (f us)) : Reads s P i j (p >>= f) :=
  .bind (hp.reads j h.stop) hf

/-- More trees are read, which belong behind those that were. -/
theorem more {m : Nat} {f : List Tree → Grammar} {ts : List Tree} [Sound s Q p]
    (h : Yields s Q m ts j) (hf : ∀ us k, Yields s Q m (ts ++ us) k → Reads s P i k (f us)) :
    Reads s P i j (p >>= f) :=
  .andThen h fun us k hus => hf us k (h.append hus)

theorem append [Sound s P q] (hp : Reads s P i j p) : Reads s P i j (p ++ q) :=
  hp.bind fun _ _ hts => more hts fun _ _ hus => .pure hus

theorem orElse (hp : Reads s P i j p) (hq : Reads s P i j q) : Reads s P i j (p <|> q) :=
  Gives.orElse hp hq

theorem ite {c : Prop} [Decidable c] (hp : c → Reads s P i j p) (hq : ¬c → Reads s P i j q) :
    Reads s P i j (if c then p else q) := by
  split
  · exact hp ‹_›
  · exact hq ‹_›

theorem mono (h : Reads s P i j p) (hPQ : ∀ t, P t → Q t) : Reads s Q i j p :=
  Gives.mono h fun _ _ hy => hy.mono hPQ

theorem within {change : Context → Context} (hc : ∀ c, (change c).source = c.source)
    (hp : Reads s P i j p) : Reads s P i j (Reader.within change p) :=
  Gives.within hc hp

/-- Trees that are the parts of one, which has its form. -/
theorem node_of {kind : Kind} (hp : Reads s Q i j p)
    (hform : ∀ first rest k, Yields s Q i (first :: rest) k →
      Form s (.node kind none first.start k (first :: rest)))
    (hP : ∀ a b cs, P (.node kind none a b cs)) : Reads s P i j (node kind p) := by
  refine hp.bind fun ts k hts => Gives.bind (Gives.place ?_)
  cases ts with
  | nil => exact refuse
  | cons first rest => exact pure (hts.node (hform first rest k hts) (hP _ _ _))

theorem node {kind : Kind} (h : kind.isPlain = true) (hp : Reads s Q i j p) :
    Reads s IsBare i j (node kind p) :=
  hp.node_of (fun _ _ _ _ => .of_free (Kind.isFree_of_isPlain h)) (.of_isPlain h)

/-- Trees stay as they are where none follow, and else are parts of one with those. -/
theorem grown {kind : Kind} (hk : kind.isPlain = true) {ts us vs : List Tree}
    (h : Yields s IsBare i ts j) (hus : Yields s Any j us k) (hvs : Yields s Any i vs k) :
    Reads s IsBare i k (if us.isEmpty then Pure.pure ts else Syntax.node kind (Pure.pure vs)) :=
  ite (fun he => pure (h.of_isEmpty hus he)) fun _ => node hk (pure hvs)

theorem role (f : Field) (hP : ∀ t, Q t → P (t.inRole f)) (hp : Reads s Q i j p) :
    Reads s P i j (role f p) :=
  hp.bind fun _ _ hts => .pure (hts.inRole f hP)

end Reads

/-! ### The laws -/

instance (priority := low) [h : Sound s IsBare p] : Sound s HasNoRole p := h.mono fun _ ht => ht.2

instance (priority := low) [h : Sound s HasNoRole p] : Sound s IsNoBody p :=
  h.mono fun _ ht he => absurd (Eq.trans (Eq.symm ht) he) (by decide)

instance (priority := low) [h : Sound s IsNoBody p] : Sound s Any p := h.mono fun _ _ => trivial

instance : Sound s P Syntax.nothing where
  reads _ hi := .pure (.nil hi)

instance : Sound s P Reader.refuse where
  reads _ _ := .refuse

instance [hp : Sound s P p] [Sound s P q] : Sound s P (p ++ q) where
  reads i hi := (hp.reads i hi).append

instance [hp : Sound s P p] [hq : Sound s P q] : Sound s P (p <|> q) where
  reads i hi := (hp.reads i hi).orElse (hq.reads i hi)

theorem Sound.ite {c : Prop} [Decidable c] (hp : Sound s P p) (hq : Sound s P q) :
    Sound s P (if c then p else q) where
  reads i hi := .ite (fun _ => hp.reads i hi) fun _ => hq.reads i hi

instance {c : Prop} [Decidable c] [hp : Sound s P p] [hq : Sound s P q] :
    Sound s P (if c then p else q) :=
  .ite hp hq

instance [Sound s P p] : Sound s P (opt p) := by unfold opt; infer_instance

theorem Sound.look {r : Reader α} {f : α → Grammar} [Stays r] (hf : ∀ a, Sound s P (f a)) :
    Sound s P (r >>= f) where
  reads i hi := .look fun a => (hf a).reads i hi

instance {r : Reader α} {f : α → Grammar} [Stays r] [hf : ∀ a, Sound s P (f a)] :
    Sound s P (r >>= f) :=
  .look hf

instance [hp : Sound s P p] (fuel : Nat) : Sound s P (manyUpTo p fuel) := by
  induction fuel with
  | zero => exact inferInstanceAs (Sound s P nothing)
  | succ fuel ih =>
    refine ⟨fun i hi context furthest ts cursor hc he => ?_⟩
    rw [manyUpTo] at he
    dsimp only at he
    split at he
    · cases he
      exact .nil hi
    · rename_i trees after hfirst
      have hts := hp.reads i hi context furthest trees after hc hfirst
      split at he
      · cases he
        exact hts
      · split at he
        · cases he
        · rename_i more last hrest
          cases he
          exact hts.append
            (ih.reads after.place hts.stop context after.furthest more _ hc hrest)

instance [Sound s P p] : Sound s P (many p) where
  reads i hi context furthest ts cursor hc he :=
    Sound.reads (p := manyUpTo p (context.source.size + 1)) i hi context furthest ts cursor hc he

instance [Sound s P p] [Sound s P q] : Sound s P (separated p q) := by
  unfold separated; infer_instance

/-- Trees are read first. -/
theorem Sound.bind (Q : Tree → Prop) {f : List Tree → Grammar} [hp : Sound s Q p]
    (hf : ∀ i ts j, Yields s Q i ts j → Reads s P i j (f ts)) : Sound s P (p >>= f) where
  reads i hi := .bind (hp.reads i hi) (hf i)

theorem Sound.node {kind : Kind} (h : kind.isPlain = true) (hp : Sound s Any p) :
    Sound s IsBare (node kind p) where
  reads i hi := .node h (hp.reads i hi)

instance factRefl (a : α) : Fact (a = a) := ⟨rfl⟩

instance {change : Context → Context} [hc : ∀ c, Fact ((change c).source = c.source)]
    [hp : Sound s P p] : Sound s P (within change p) where
  reads i hi := .within (fun c => (hc c).out) (hp.reads i hi)

instance (c : Context) : Fact (c.bracketed.source = c.source) := ⟨rfl⟩

instance (c : Context) : Fact (c.statements.source = c.source) := ⟨rfl⟩

instance [hp : Sound s Any p] {kind : Kind} [h : Fact (kind.isPlain = true)] :
    Sound s IsBare (node kind p) :=
  .node h.out hp

instance [hp : Sound s Any p] (f : Field) : Sound s Any (role f p) where
  reads i hi := .role f (fun _ _ => trivial) (hp.reads i hi)

theorem Sound.role_isNoBody {f : Field} (hf : f ≠ .body) [hp : Sound s Any p] :
    Sound s IsNoBody (role f p) where
  reads i hi := .role f (fun | .node .., _, he => hf (Option.some.inj he)) (hp.reads i hi)

/-- The next token as a leaf. -/
theorem Yields.token {kind : Kind} (hi : IsBoundary s i) (hfree : kind.isFree = true)
    (hP : P ((Token.scan (.ofString s) i).tree kind)) :
    Yields s P i [(Token.scan (.ofString s) i).tree kind] (Token.scan (.ofString s) i).stop :=
  .leaf hi (Token.gap_scan _ i) (Token.onward_scan s i) hfree hP

theorem gives_leaf {kind : Token → Kind} {passes : Token → Bool} (hi : IsBoundary s i)
    (hfree : ∀ t, passes t = true → (kind t).isFree = true) :
    Gives s i (leaf kind passes) fun ts j =>
      ∃ t : Token, t = Token.scan (.ofString s) i ∧ passes t = true ∧ ts = [t.tree (kind t)] ∧
        Yields s Any i ts j := by
  refine Gives.bind (.peek ?_)
  split
  · rename_i hpass
    exact Gives.bind (.moveTo (.pure ⟨_, rfl, hpass, rfl, .token hi (hfree _ hpass) trivial⟩))
  · exact .refuse

theorem Sound.leaf {kind : Token → Kind} {passes : Token → Bool}
    (hfree : ∀ t, passes t = true → (kind t).isFree = true)
    (hP : ∀ t : Token, passes t = true → P (t.tree (kind t))) : Sound s P (leaf kind passes) where
  reads i hi := Gives.mono (gives_leaf hi hfree) fun _ _ ⟨t, _, hpass, hts, hy⟩ =>
    hy.strengthen fun _ hu => by
      rw [hts] at hu
      exact List.mem_singleton.mp hu ▸ hP t hpass

instance {kind : Token → Kind} {passes : Token → Bool}
    [h : ∀ t, Fact ((kind t).isPlain = true)] : Sound s IsBare (leaf kind passes) :=
  .leaf (fun t _ => Kind.isFree_of_isPlain (h t).out) fun t _ => .of_isPlain (h t).out _ _ _

instance {text : Token → String} {passes : Token → Bool} :
    Sound s HasNoRole (leaf (fun t => .token (text t)) passes) :=
  .leaf (fun _ _ => rfl) fun _ _ => rfl

instance (text : String) : Sound s HasNoRole (keyword text) := by
  unfold keyword; infer_instance

instance (texts : List String) : Sound s HasNoRole (keywordOf texts) := by
  unfold keywordOf; infer_instance

instance (text : String) : Sound s HasNoRole (mark text) := by
  unfold mark; infer_instance

instance (texts : List String) : Sound s HasNoRole (markOf texts) := by
  unfold markOf; infer_instance

instance {kind : Kind} [Fact (kind.isPlain = true)] : Sound s IsBare (word kind) := by
  unfold word; infer_instance

instance : Sound s HasNoRole closeAngle := by
  refine ⟨fun i hi => Gives.bind (.peek (Gives.bind (.context fun c hc => ?_)))⟩
  refine Reads.ite (fun hangle => ?_) fun _ => .refuse
  refine Gives.bind (.moveTo (.pure ?_))
  rw [hc] at hangle
  exact .leaf hi (Token.gap_scan _ i) (.byte hangle (by decide)) rfl rfl

instance (opening closing : String) [Sound s Any p] : Sound s Any (between opening p closing) := by
  unfold between; infer_instance

instance [Sound s Any p] : Sound s Any (commaList p) := by
  unfold commaList; infer_instance

instance (end_ : EndContext) : Sound s P (lineEnd end_) := by
  refine ⟨fun i hi => Gives.bind (.context fun c hc => Gives.bind (.place ?_))⟩
  split
  · rename_i j hj
    rw [hc] at hj
    exact Gives.bind (.moveTo (.pure ((Yields.nil hi).gap (gap_autoSemicolon hj))))
  · exact .refuse

instance (afterExpression : Bool) : Sound s HasNoRole (statementEnd afterExpression) := by
  unfold statementEnd; infer_instance

instance : Sound s P optionalEnd := by
  unfold optionalEnd; infer_instance

end Laws

end ClassScript.Syntax
