/-
  File:      ClassScript/Proofs/Syntax/Single.lean
  Subject:   Rules of the grammar that read one tree.

  A grammar reads a row of trees. An expression or a declaration is always one
  tree, and none of them is a decorator, although decorators may stand before
  one or in it. This depends on how the rules are put together, and not on the
  text.

  * `Finds`: what is true of all rows of trees that a grammar reads;
  * `Single`, `Undecorated`: one tree, and no decorator among the trees;
  * `single_phrase`: nested expressions are single, whatever the depth.
-/
import ClassScript.Proofs.Syntax.Grammar.Classes
import ClassScript.Syntax.Program

namespace ClassScript.Syntax

open Reader

variable {A B C : List Tree → Prop} {p q : Grammar} {α : Type} {nested : Nested}

/-! ## 1. Rows of trees -/

/-- All rows of trees that `p` reads are in the shape `A`. -/
class Finds (A : List Tree → Prop) (p : Grammar) : Prop where
  found : ∀ context cursor ts after, p context cursor = .found ts after → A ts

namespace Finds

theorem mono (h : Finds A p) (hAB : ∀ ts, A ts → B ts) : Finds B p where
  found context cursor ts after he := hAB ts (h.found context cursor ts after he)

theorem pure {ts : List Tree} (h : A ts) : Finds A (Pure.pure ts : Grammar) where
  found _ _ _ _ he := by cases he; exact h

/-- What is read last counts, and it may depend on a value that was read before. -/
theorem bind_of {r : Reader α} {f : α → Grammar} {Q : α → Prop}
    (hr : ∀ context cursor a after, r context cursor = .found a after → Q a)
    (hf : ∀ a, Q a → Finds A (f a)) : Finds A (r >>= f) where
  found context cursor ts after he := by
    change Reader.bind r f context cursor = _ at he
    unfold Reader.bind at he
    split at he
    · rename_i a middle ha
      exact (hf a (hr context cursor a middle ha)).found context middle ts after he
    · cases he

theorem last {r : Reader α} {f : α → Grammar} (h : ∀ a, Finds A (f a)) : Finds A (r >>= f) :=
  .bind_of (Q := fun _ => True) (fun _ _ _ _ _ => trivial) fun a _ => h a

theorem bind {f : List Tree → Grammar} (hp : Finds B p) (hf : ∀ ts, B ts → Finds A (f ts)) :
    Finds A (p >>= f) :=
  .bind_of hp.found hf

theorem append (hp : Finds A p) (hq : Finds B q) (hC : ∀ ts us, A ts → B us → C (ts ++ us)) :
    Finds C (p ++ q) :=
  .bind hp fun _ hts => .bind hq fun _ hus => .pure (hC _ _ hts hus)

theorem orElse (hp : Finds A p) (hq : Finds A q) : Finds A (p <|> q) where
  found context cursor ts after he := by
    change Reader.orElse p (fun _ => q) context cursor = _ at he
    unfold Reader.orElse at he
    split at he
    · rename_i hfound
      cases he
      exact hp.found context cursor _ _ hfound
    · exact hq.found context _ ts after he

theorem ite {c : Prop} [Decidable c] (hp : Finds A p) (hq : Finds A q) :
    Finds A (if c then p else q) := by
  split
  · exact hp
  · exact hq

end Finds

instance : Finds A Reader.refuse where
  found _ _ _ _ he := nomatch he

instance {r : Reader α} {f : α → Grammar} [h : ∀ a, Finds A (f a)] : Finds A (r >>= f) := .last h

instance [hp : Finds A p] [hq : Finds A q] : Finds A (p <|> q) := .orElse hp hq

instance {c : Prop} [Decidable c] [hp : Finds A p] [hq : Finds A q] :
    Finds A (if c then p else q) :=
  .ite hp hq

/-- What a grammar finds, whatever the text, it finds in a text. -/
theorem Shaped.and_finds {s : String} (h : Shaped s A p) (hB : Finds B p) :
    Shaped s (fun ts => A ts ∧ B ts) p := by
  have hfound (i : Nat) : Gives s i p fun ts _ => B ts :=
    fun context _ ts cursor _ he => hB.found context _ ts cursor he
  exact fun i hi => Gives.mono ((h i hi).and (hfound i)) fun _ _ ⟨⟨hy, ha⟩, hb⟩ => ⟨hy, ha, hb⟩

/-! ## 2. One tree, and no decorator -/

/-- Trees of this kind are decorators. -/
@[reducible] def Kind.isDecorator : Kind → Bool
  | .decorator => true
  | _ => false

/-- There is one tree, and it is no decorator. -/
def IsSingle (ts : List Tree) : Prop := IsOne (fun t => t.kind ≠ .decorator) ts

/-- No decorator is among the trees. -/
def IsUndecorated (ts : List Tree) : Prop := ∀ t ∈ ts, t.kind ≠ .decorator

/-- `p` reads one tree, which is no decorator. -/
abbrev Single (p : Grammar) : Prop := Finds IsSingle p

/-- `p` reads no decorator. -/
abbrev Undecorated (p : Grammar) : Prop := Finds IsUndecorated p

theorem IsSingle.of_kind {kind : Kind} (h : kind.isDecorator = false) (a b : Nat)
    (cs : List Tree) : IsSingle [.node kind none a b cs] := by
  refine ⟨_, rfl, ?_⟩
  rintro (rfl : kind = .decorator)
  cases h

theorem IsSingle.undecorated {ts : List Tree} (h : IsSingle ts) : IsUndecorated ts := by
  obtain ⟨t, rfl, ht⟩ := h
  exact fun u hu => List.mem_singleton.mp hu ▸ ht

theorem Single.node {kind : Kind} (h : kind.isDecorator = false) : Single (node kind p) := by
  refine .last fun ts => .last fun _ => ?_
  cases ts with
  | nil => exact inferInstanceAs (Single refuse)
  | cons first rest => exact .pure (.of_kind h _ _ _)

theorem Single.leaf {kind : Token → Kind} {passes : Token → Bool}
    (h : ∀ t, (kind t).isDecorator = false) : Single (leaf kind passes) :=
  .last fun t => .ite (.last fun _ => .pure (.of_kind (h t) _ _ _)) inferInstance

instance {kind : Kind} [h : Fact (kind.isDecorator = false)] : Single (node kind p) := .node h.out

instance {kind : Token → Kind} {passes : Token → Bool}
    [h : ∀ t, Fact ((kind t).isDecorator = false)] : Single (leaf kind passes) :=
  .leaf fun t => (h t).out

instance {kind : Kind} [Fact (kind.isDecorator = false)] : Single (word kind) := by
  unfold word; infer_instance

/-! ## 3. Expressions -/

instance : Single identifier := by unfold identifier; infer_instance

instance : Single stringLiteral := by unfold stringLiteral; infer_instance

instance : Single numberLiteral := by unfold numberLiteral; infer_instance

instance : Single privateName := by unfold privateName; infer_instance

instance {kind : Kind} [Fact (kind.isDecorator = false)] {hole : Grammar} :
    Single (template kind hole) := by
  unfold template; infer_instance

instance : Single regexLiteral :=
  .last fun _ => .last fun _ => by
    split
    · exact .last fun _ => .pure (.of_kind rfl _ _ _)
    · infer_instance

instance : Single (functionExpression nested) :=
  .last fun _ => .last fun star => .last fun _ => Single.node (by cases star <;> rfl)

instance : Single (newExpression nested) := by unfold newExpression; infer_instance

instance : Single (classExpression nested) := by unfold classExpression; infer_instance

section

variable {parts : ClassParts} [Single (parts nested)]

instance (text : String) : Single (wordExpression parts nested text) := by
  unfold wordExpression; infer_instance

instance : Single (primary parts nested) := by
  refine .last fun t => ?_
  unfold parenthesized arrayLiteral objectLiteral
  cases t.lexeme <;> infer_instance

instance (left : List Tree) (t : Token) : Single (suffix nested left t) := by
  unfold suffix instantiated suffixed
  cases t.lexeme <;> infer_instance

/-- An operand stays one tree with its suffixes. -/
theorem single_suffixes (fuel : Nat) {left : List Tree} (h : IsSingle left) :
    Single (suffixes nested fuel left) := by
  induction fuel generalizing left with
  | zero => exact .pure h
  | succ fuel ih =>
    refine .last fun _ => .ite (.last fun t => ?_) (.pure h)
    have hlonger : Finds (fun ts => IsSingle ts ∨ ts = []) (opt (suffix nested left t)) :=
      .orElse (.mono inferInstance fun _ => .inl) (.pure (.inr rfl))
    refine .bind hlonger fun longer hl => ?_
    rcases hl with hl | rfl
    · exact .ite (.pure h) (ih hl)
    · exact .pure h

instance : Single (unaryRule parts nested) := by
  refine .last fun _ => .last fun _ => .ite inferInstance <| .ite inferInstance <|
    .ite inferInstance <| .ite inferInstance <| .ite inferInstance <| ?_
  refine .bind (B := IsSingle) inferInstance fun first hfirst => ?_
  refine .bind (single_suffixes _ hfirst) fun operand hoperand => ?_
  exact .last fun _ => .last fun _ => .ite inferInstance (.pure hoperand)

end

/-- An operand stays one tree with the operators behind it. -/
theorem single_binaryTail (fuel level : Nat) {left : List Tree} (h : IsSingle left) :
    Single (binaryTail nested fuel level left) := by
  induction fuel generalizing left level with
  | zero => exact .pure h
  | succ fuel ih =>
    refine .last fun c => .last fun t => ?_
    split
    · exact .pure h
    · refine .last fun _ => .ite (.pure h) <| .ite ?_ ?_
      · exact .bind (B := IsSingle) (Single.node (by split <;> rfl)) fun _ hl => ih _ hl
      · refine .last fun _ => .last fun _ => .last fun _ => ?_
        exact .bind (B := IsSingle) inferInstance fun _ hl => ih _ hl

theorem single_arrowOperand {arrow : List Tree} (h : IsSingle arrow) :
    Single (arrowOperand nested arrow) :=
  .last fun _ => .ite
    (.bind (single_suffixes _ h) fun _ hoperand => single_binaryTail _ _ hoperand) (.pure h)

instance [h : Single (nested .unary)] : Single (conditional nested) := by
  refine .last fun _ => .bind h fun operand hoperand => .last fun _ => .ite inferInstance ?_
  exact .bind (single_binaryTail _ _ hoperand) fun _ hleft =>
    .last fun _ => .ite inferInstance (.pure hleft)

instance [Single (nested .unary)] : Single (expressionRule nested) := by
  have hbare : Single (bareArrow nested >>= arrowOperand nested) :=
    .bind (B := IsSingle) (Single.node rfl) fun _ => single_arrowOperand
  have harrow : Single (arrowFunction nested >>= arrowOperand nested) :=
    .bind (B := IsSingle) (Single.node rfl) fun _ => single_arrowOperand
  have hyield : Single (yieldExpression nested) := Single.node rfl
  have husing : Single (usingAssignment nested) := Single.node rfl
  refine .last fun t => .last fun _ => ?_
  cases t.lexeme <;> infer_instance

/-- **Nested expressions are single**, whatever the depth. -/
instance single_phrase (depth : Nat) : Single (phrase depth .expression) := by
  have hunary (depth : Nat) : Single (phrase depth .unary) := by
    cases depth with
    | zero => exact inferInstanceAs (Single refuse)
    | succ depth => exact inferInstanceAs (Single (unaryRule classExpression (phrase depth)))
  cases depth with
  | zero => exact inferInstanceAs (Single refuse)
  | succ depth => exact inferInstanceAs (Single (expressionRule (phrase depth)))

/-! ## 4. Declarations -/

instance (text : String) : Single (variableDeclaration nested text) :=
  Single.node (by unfold variableKind; split <;> rfl)

instance : Single (functionDeclaration nested) :=
  .last fun _ => .last fun star => .last fun _ => .last fun _ => by
    dsimp only
    exact .ite (Single.node (by split <;> rfl)) (.ite inferInstance inferInstance)

instance {text : String} {kind : Kind} [Fact (kind.isDecorator = false)] :
    Single (namespaceDeclaration nested text kind) := by
  unfold namespaceDeclaration; infer_instance

instance (text : String) : Single (plainDeclaration nested text) := by
  unfold plainDeclaration classDeclaration abstractClassDeclaration enumDeclaration
    interfaceDeclaration aliasDeclaration importAlias
  split <;> infer_instance

/-- **A declaration is single.** -/
instance single_declaration : Single (declaration nested) := by
  unfold declaration ambientDeclaration; infer_instance

end ClassScript.Syntax
