/-
  File:      ClassScript/Proofs/Syntax/Grammar/Statements.lean
  Subject:   The rules of declarations and statements are sound.

  Statements nest in phrases of any depth, so that the rules of all phrases are
  sound at once.

  * `IsEnumPart`: of the parts of an enum, only the body has parts;
  * `sound_phrase`: all nested phrases are sound, whatever the depth.
-/
import ClassScript.Proofs.Syntax.Grammar.Modules

namespace ClassScript.Syntax

open Reader

variable {s : String} {P : Tree → Prop} {nested : Nested} {i j : Nat}

section Nested

variable [∀ p, Sound s IsBare (nested p)]

/-! ## 1. Declarations -/

instance : Sound s IsBare (variableDeclarator nested) := by
  unfold variableDeclarator; infer_instance

theorem isPlain_variableKind (text : String) : (variableKind text).isPlain = true := by
  unfold variableKind
  split <;> rfl

instance : Sound s Any (declarators nested) := by unfold declarators; infer_instance

instance (text : String) : Sound s IsBare (variableDeclaration nested text) :=
  .node (isPlain_variableKind text) inferInstance

instance : Sound s IsBare (functionDeclaration nested) :=
  .bind Any fun _ _ _ hlead => .andThen (Q := Any) hlead fun star _ hstar =>
    .andThen (Q := Any) hstar fun _ _ hhead => .look fun _ => by
      dsimp only
      refine .ite (fun _ => ?_) fun _ => .ite (fun he => ?_) fun _ => .refuse
      · exact .node (by split <;> rfl)
          (.append (.append (.pure ((hlead.append hstar).append hhead))))
      · exact .node rfl (.append (.pure ((hlead.of_isEmpty hstar he).append hhead)))

instance : Sound s Any (enumMember nested) :=
  .bind Any fun _ _ _ hname => .look fun _ =>
    .ite (fun _ => .mono (.node rfl (.append (.pure hname))) fun _ _ => trivial)
      fun _ => .pure hname

/-- A part of an enum is its body, or a leaf. -/
def IsEnumPart (t : Tree) : Prop := t.field ≠ some .body → IsQuiet t

instance : Sound s IsBare (enumDeclaration nested) := by
  have hword (text : String) : Sound s IsEnumPart (keyword text) :=
    (shaped_keyword text).sound_of_one.mono fun _ h _ => h.isQuiet
  have hleaf : Shaped s (IsOne fun t => t.kind = .identifier ∧ t.children = []) identifier :=
    .leaf (fun _ _ => rfl) fun _ => ⟨rfl, rfl⟩
  have hname : Sound s IsEnumPart (role .name identifier) :=
    (hleaf.role fun | .node .., h, _ => ⟨h.2, .inr (.inl h.1)⟩).sound_of_one
  have hbody : Sound s IsEnumPart
      (role .body (node .enumBody (between "\x7b" (commaList (enumMember nested)) "\x7d"))) :=
    ⟨fun i hi => .role .body (Q := Any) (fun | .node .., _, h => absurd rfl h) (Sound.reads i hi)⟩
  have hparts : Sound s IsEnumPart
      (opt (keyword "const") ++ keyword "enum" ++ role .name identifier ++
        role .body (node .enumBody (between "\x7b" (commaList (enumMember nested)) "\x7d"))) :=
    inferInstance
  exact ⟨fun i hi => (hparts.reads i hi).node_of (fun _ _ _ h => h.roots)
    fun _ _ _ => ⟨⟨nofun, nofun⟩, rfl⟩⟩

instance : Sound s IsBare (interfaceDeclaration nested) := by
  unfold interfaceDeclaration; infer_instance

instance : Sound s IsBare (aliasDeclaration nested) := by unfold aliasDeclaration; infer_instance

instance {text : String} {kind : Kind} [Fact (kind.isPlain = true)] :
    Sound s IsBare (namespaceDeclaration nested text kind) := by
  unfold namespaceDeclaration; infer_instance

instance : Stays (leadingWord nested) := by unfold leadingWord; infer_instance

instance (text : String) : Sound s IsBare (plainDeclaration nested text) := by
  unfold plainDeclaration; split <;> infer_instance

instance : Sound s Any (ambientBody nested) := by unfold ambientBody; infer_instance

instance : Sound s IsBare (ambientDeclaration nested) := by
  unfold ambientDeclaration; infer_instance

instance : Sound s IsBare (Syntax.declaration nested) := by
  unfold Syntax.declaration; infer_instance

/-! ## 2. Statements -/

instance : Sound s IsBare (condition nested) := by unfold condition; infer_instance

instance : Sound s IsBare (ifStatement nested) := by unfold ifStatement; infer_instance

instance : Sound s IsBare (switchCase nested) := by unfold switchCase; infer_instance

instance : Sound s IsBare (switchStatement nested) := by unfold switchStatement; infer_instance

instance : Sound s Any (loopTarget nested) := by unfold loopTarget; infer_instance

instance : Sound s Any (elementLoop nested) := by unfold elementLoop; infer_instance

instance : Sound s Any (loopStart nested) := by
  have hplain (text : String) : Fact ((variableKind text).isPlain = true) :=
    ⟨isPlain_variableKind text⟩
  unfold loopStart; infer_instance

instance : Sound s Any (countingLoop nested) := by unfold countingLoop; infer_instance

instance : Sound s IsBare (forStatement nested) :=
  .bind Any fun _ _ _ hlead => .more hlead fun _ _ h =>
    .orElse (.node rfl (.append (.append (.pure h)))) (.node rfl (.append (.append (.pure h))))

instance : Sound s IsBare (whileStatement nested) := by unfold whileStatement; infer_instance

instance : Sound s IsBare (doStatement nested) := by unfold doStatement; infer_instance

instance : Sound s IsBare (catchClause nested) := by unfold catchClause; infer_instance

instance : Sound s IsBare (tryStatement nested) := by unfold tryStatement; infer_instance

instance (text : String) : Sound s IsBare (jumpStatement text) :=
  .node rfl <| .bind Any fun _ _ _ hlead => .look fun _ =>
    .choose (fun _ => Sound.reads (P := Any) _ hlead.stop) (fun _ => Sound.reads _ hlead.stop)
      fun _ _ hlabel => .more (hlead.append hlabel) fun _ _ h => .pure h

instance (text : String) (needsValue : Bool) :
    Sound s IsBare (resultStatement nested text needsValue) :=
  .node rfl <| .bind Any fun _ _ _ hlead => .look fun _ => by
    have hend {value : List Tree} {k : Nat} (h : Yields s Any _ value k) :
        Reads s Any _ k (statementEnd (!value.isEmpty) >>= fun end_ => pure (_ ++ value ++ end_)) :=
      .more (hlead.append h) fun _ _ h => .pure h
    exact .ite (fun _ => .bind (Sound.reads _ hlead.stop) fun _ _ => hend) fun _ =>
      .ite (fun _ => .bind (Sound.reads _ hlead.stop) fun _ _ => hend)
        fun _ => .bind (Sound.reads _ hlead.stop) fun _ _ => hend

instance : Sound s IsBare (labeledStatement nested) := by unfold labeledStatement; infer_instance

instance : Sound s IsBare (expressionStatement nested) := by
  unfold expressionStatement; infer_instance

instance : Sound s IsBare (namespaceStatement nested) := by
  unfold namespaceStatement; infer_instance

theorem sound_reservedStatement {text : String} {p : Grammar}
    (h : reservedStatement? nested text = some p) : Sound s IsBare p := by
  unfold reservedStatement? at h
  split at h <;> cases h <;> infer_instance

section

variable [Single (nested .expression)]

instance (text : String) : Sound s IsBare (contextualStatement nested text) := by
  unfold contextualStatement; split <;> infer_instance

instance : Sound s IsBare (decoratedStatement nested) := by
  unfold decoratedStatement; infer_instance

instance : Sound s IsBare (statementRule nested) := by
  have hrule : Sound s IsBare (do
      let t ← peek
      let next ← peekSecond
      match t.lexeme with
      | .word =>
        match reservedStatement? nested t.text with
        | some statement => statement
        | none =>
          if next.lexeme == .mark && next.text == ":" then labeledStatement nested
          else contextualStatement nested t.text
      | .mark =>
        if t.text == "\x7b" then block nested
        else if t.text == ";" then node (.other "empty_statement") (mark ";")
        else if t.text == "@" then decoratedStatement nested
        else expressionStatement nested
      | _ => expressionStatement nested) := .look fun t => .look fun _ => by
    cases t.lexeme
    case word =>
      dsimp only
      split
      · exact sound_reservedStatement ‹_›
      · infer_instance
    all_goals infer_instance
  exact inferInstanceAs (Sound s IsBare (within Context.statements _))

end

end Nested

/-! ## 3. Nested phrases -/

/-- **All nested phrases are sound**, whatever the depth. -/
instance sound_phrase (depth : Nat) (p : Phrase) : Sound s IsBare (phrase depth p) := by
  induction depth generalizing p with
  | zero => cases p <;> exact inferInstanceAs (Sound s IsBare refuse)
  | succ depth ih =>
    cases p with
    | statement => exact inferInstanceAs (Sound s IsBare (statementRule (phrase depth)))
    | expression => exact inferInstanceAs (Sound s IsBare (expressionRule (phrase depth)))
    | unary => exact inferInstanceAs (Sound s IsBare (unaryRule classExpression (phrase depth)))
    | newTarget =>
      exact inferInstanceAs (Sound s IsBare (newTargetRule classExpression (phrase depth)))
    | type => exact inferInstanceAs (Sound s IsBare (typeRule (phrase depth)))
    | typeOperand => exact inferInstanceAs (Sound s IsBare (typeOperandRule (phrase depth)))
    | pattern => exact inferInstanceAs (Sound s IsBare (patternRule (phrase depth)))

end ClassScript.Syntax
