/-
  File:      ClassScript/Proofs/Syntax/Shape.lean
  Subject:   Which trees a grammar reads, and in which order.

  That a grammar is sound says something about each of its trees. A class or a
  method has a form because its parts come in an order, so this says something
  about all trees of a grammar at once.

  * `Shaped`: the trees of a grammar are in a shape;
  * `Shaped.append`, `Shaped.node`, …: one law for each way to put grammars
    together;
  * `shaped_keyword`, `shaped_mark`: a word or a mark is one tree, with its text.
-/
import ClassScript.Proofs.Syntax.Reading

namespace ClassScript.Syntax

open Reader

variable {s : String} {A B C : List Tree → Prop} {P Q : Tree → Prop} {p q : Grammar}

/-! ## 1. Shapes -/

/-- The trees `p` reads are in the shape `A`. -/
def Shaped (s : String) (A : List Tree → Prop) (p : Grammar) : Prop :=
  ∀ i, IsBoundary s i → Gives s i p fun ts j => Yields s Any i ts j ∧ A ts

/-- There is one tree, with `P` true of it. -/
def IsOne (P : Tree → Prop) (ts : List Tree) : Prop := ∃ t, ts = [t] ∧ P t

/-- The trees start with one of which `P` is true. -/
def Opens (P : Tree → Prop) (ts : List Tree) : Prop := ∃ first rest, ts = first :: rest ∧ P first

/-- Among the trees is one of which `P` is true. -/
def Among (P : Tree → Prop) (ts : List Tree) : Prop := ∃ t ∈ ts, P t

theorem IsOne.opens {ts : List Tree} (h : IsOne P ts) : Opens P ts := by
  obtain ⟨t, hts, hP⟩ := h
  exact ⟨t, [], hts, hP⟩

theorem IsOne.among {ts : List Tree} (h : IsOne P ts) : Among P ts := by
  obtain ⟨t, hts, hP⟩ := h
  exact ⟨t, by simp [hts], hP⟩

namespace Shaped

theorem mono (h : Shaped s A p) (hAB : ∀ ts, A ts → B ts) : Shaped s B p :=
  fun i hi => Gives.mono (h i hi) fun _ _ hts => ⟨hts.1, hAB _ hts.2⟩

/-- Each tree of a sound grammar is as it should be. -/
theorem of_sound (h : Sound s P p) : Shaped s (fun ts => ∀ t ∈ ts, P t) p :=
  fun i hi => Gives.mono (h.reads i hi) fun _ _ hy => ⟨hy.any, hy.roots⟩

theorem sound (h : Shaped s A p) (hA : ∀ ts, A ts → ∀ t ∈ ts, P t) : Sound s P p where
  reads i hi := Gives.mono (h i hi) fun _ _ hts => hts.1.strengthen (hA _ hts.2)

theorem sound_of_one (h : Shaped s (IsOne P) p) : Sound s P p :=
  h.sound fun _ ⟨_, hts, hP⟩ _ hu => List.mem_singleton.mp (hts ▸ hu) ▸ hP

theorem append (hp : Shaped s A p) (hq : Shaped s B q) (hC : ∀ ts us, A ts → B us → C (ts ++ us)) :
    Shaped s C (p ++ q) := by
  refine fun i hi => Gives.bind (Gives.mono (hp i hi) fun ts j hts => ?_)
  refine Gives.bind (Gives.mono (hq j hts.1.stop) fun us k hus => .pure ?_)
  exact ⟨hts.1.append hus.1, hC _ _ hts.2 hus.2⟩

theorem orElse (hp : Shaped s A p) (hq : Shaped s A q) : Shaped s A (p <|> q) :=
  fun i hi => Gives.orElse (hp i hi) (hq i hi)

theorem opt (hp : Shaped s A p) (hA : A []) : Shaped s A (Syntax.opt p) :=
  hp.orElse fun _ hi => .pure ⟨.nil hi, hA⟩

/-- What comes first stays first. -/
theorem opens_append (hp : Shaped s (Opens P) p) [hq : Sound s Any q] :
    Shaped s (Opens P) (p ++ q) :=
  hp.append (of_sound hq) fun _ us ⟨first, rest, hts, hP⟩ _ =>
    ⟨first, rest ++ us, by simp [hts], hP⟩

/-- What is among trees stays among them with others behind. -/
theorem among_append (hp : Shaped s (Among P) p) [hq : Sound s Any q] :
    Shaped s (Among P) (p ++ q) :=
  hp.append (of_sound hq) fun _ us ⟨t, ht, hP⟩ _ => ⟨t, List.mem_append_left us ht, hP⟩

/-- What is among trees stays among them with others in front. -/
theorem append_among [hp : Sound s Any p] (hq : Shaped s (Among P) q) :
    Shaped s (Among P) (p ++ q) :=
  (of_sound hp).append hq fun ts _ _ ⟨t, ht, hP⟩ => ⟨t, List.mem_append_right ts ht, hP⟩

/-- Trees are in two shapes at once. -/
theorem and (hA : Shaped s A p) (hB : Shaped s B p) : Shaped s (fun ts => A ts ∧ B ts) p :=
  fun i hi => Gives.mono (Gives.and (hA i hi) (hB i hi)) fun _ _ h => ⟨h.1.1, h.1.2, h.2.2⟩

/-- Trees in a shape as the parts of one, which gets its form by it. -/
theorem node {kind : Kind} (hp : Shaped s A p)
    (hform : ∀ first rest j, A (first :: rest) →
      Form s (.node kind none first.start j (first :: rest)))
    (hP : ∀ first rest j, A (first :: rest) → P (.node kind none first.start j (first :: rest))) :
    Shaped s (IsOne P) (Syntax.node kind p) := by
  refine fun i hi => Gives.bind (Gives.mono (hp i hi) fun ts j hts => Gives.bind (.place ?_))
  cases ts with
  | nil => exact .refuse
  | cons first rest =>
    have hnode := hts.1.node (P := Any) (hform first rest j hts.2) trivial
    exact .pure ⟨hnode, _, rfl, hP first rest j hts.2⟩

/-- The tree of a kind is one, of that kind. -/
theorem of_node {kind : Kind} (h : Sound s IsBare (Syntax.node kind p)) :
    Shaped s (IsOne fun t => t.kind = kind ∧ t.field = none) (Syntax.node kind p) := by
  have hone (i : Nat) : Gives s i (Syntax.node kind p) fun ts _ =>
      IsOne (fun t => t.kind = kind ∧ t.field = none) ts := by
    refine Gives.bind fun _ _ trees _ _ _ => Gives.bind (.place ?_)
    cases trees
    · exact .refuse
    · exact .pure ⟨_, rfl, rfl, rfl⟩
  exact fun i hi => .and (Gives.mono (h.reads i hi) fun _ _ => Yields.any) (hone i)

theorem role {f : Field} (hp : Shaped s (IsOne P) p) (hQ : ∀ t, P t → Q (t.inRole f)) :
    Shaped s (IsOne Q) (Syntax.role f p) := by
  refine fun i hi => Gives.bind (Gives.mono (hp i hi) fun ts j ⟨hy, t, hts, hP⟩ => .pure ?_)
  exact ⟨hy.inRole f fun _ _ => trivial, t.inRole f, by simp [hts], hQ t hP⟩

theorem leaf {kind : Token → Kind} {passes : Token → Bool}
    (hfree : ∀ t, passes t = true → (kind t).isFree = true)
    (hP : ∀ t : Token, P (t.tree (kind t))) : Shaped s (IsOne P) (Syntax.leaf kind passes) :=
  fun _ hi => Gives.mono (gives_leaf hi hfree) fun _ _ ⟨t, _, _, hts, hy⟩ => ⟨hy, _, hts, hP t⟩

/-- The next token, as a leaf with its text. -/
theorem token {text : String} {lexeme : Lexeme} (hl : lexeme = .word ∨ lexeme = .mark) :
    Shaped s (IsOne (IsToken s text))
      (Syntax.leaf (fun t => .token t.text) fun t => t.lexeme == lexeme && t.text == text) := by
  refine fun i hi => Gives.mono (gives_leaf hi fun _ _ => rfl) ?_
  rintro ts j ⟨t, rfl, hpass, hts, hy⟩
  obtain ⟨hlexeme, htext⟩ := Bool.and_eq_true_iff.mp hpass
  have htext : (Token.scan (.ofString s) i).text = text := by simpa using htext
  have hlexeme : (Token.scan (.ofString s) i).lexeme = lexeme := eq_of_beq hlexeme
  have hspec := Token.text_scan hi (hl.imp hlexeme.trans hlexeme.trans)
  exact ⟨hy, _, hts, congrArg Kind.token htext, rfl, rfl, hspec.symm.trans htext⟩

end Shaped

/-! ## 2. Words and marks -/

theorem shaped_keyword (text : String) : Shaped s (IsOne (IsToken s text)) (keyword text) :=
  .token (.inl rfl)

theorem shaped_mark (text : String) : Shaped s (IsOne (IsToken s text)) (mark text) :=
  .token (.inr rfl)

/-- A tree whose first part is a word or a mark. -/
theorem Shaped.startsWith {kind : Kind} {text : String} (hk : kind.isFree = true)
    (hp : Shaped s (Opens (IsToken s text)) p) :
    Shaped s (IsOne fun t => t.kind = kind ∧ StartsWith s text t) (Syntax.node kind p) :=
  hp.node (fun _ _ _ _ => .of_free hk) fun first rest _ ⟨_, _, hts, htoken⟩ =>
    ⟨rfl, first, rest, rfl, rfl, (List.cons.inj hts).1 ▸ htoken⟩

theorem StartsWith.inRole {text : String} {t : Tree} (f : Field) (h : StartsWith s text t) :
    StartsWith s text (t.inRole f) := by
  cases t
  exact h

/-! ## 3. Bodies in braces -/

/-- If a part is the body, it starts with its brace. -/
def IsBodyBraced (s : String) (t : Tree) : Prop := t.field = some .body → StartsWith s "\x7b" t

instance (priority := low) [h : Sound s IsNoBody p] : Sound s (IsBodyBraced s) p :=
  h.mono fun _ ht he => absurd he ht

/-- A method, from parts of which a body is in braces. -/
theorem Reads.method {i j : Nat} (h : Reads s (IsBodyBraced s) i j p) :
    Reads s IsBare i j (Syntax.node .methodDefinition p) :=
  h.node_of (fun _ _ _ hparts => hparts.roots) fun _ _ _ => ⟨⟨nofun, nofun⟩, rfl⟩

end ClassScript.Syntax
