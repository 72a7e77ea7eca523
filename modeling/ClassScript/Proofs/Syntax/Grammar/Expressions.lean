/-
  File:      ClassScript/Proofs/Syntax/Grammar/Expressions.lean
  Subject:   The rules of patterns and expressions are sound.

  Operators and suffixes are read one after another, and each of them takes
  what was read before as its first part. So the proofs go by induction on how
  many there may be, and what is carried along is the operand so far.
-/
import ClassScript.Proofs.Syntax.Grammar.Types
import ClassScript.Proofs.Syntax.Shape
import ClassScript.Syntax.Grammar.Patterns
import ClassScript.Syntax.Grammar.Expressions

namespace ClassScript.Syntax

open Reader

variable {s : String} {P : Tree → Prop} {nested : Nested} {i j : Nat}

section Nested

variable [∀ p, Sound s IsBare (nested p)]

/-! ## 1. Patterns -/

instance : Sound s Any (partDefault nested) := by unfold partDefault; infer_instance

instance : Sound s IsBare (patternWithDefault nested) :=
  .bind IsBare fun _ _ _ htarget => .look fun _ => .ite
    (fun _ => .node rfl (.append (.pure (htarget.inRole_any _))))
    fun _ => .pure htarget

instance : Sound s IsBare (restPattern nested) := by unfold restPattern; infer_instance

instance : Sound s IsBare (objectPart nested) := by unfold objectPart; infer_instance

instance : Sound s IsBare (arrayPart nested) := by unfold arrayPart; infer_instance

instance {part : Grammar} [Sound s Any part] : Sound s Any (partList part) := by
  unfold partList; infer_instance

instance : Sound s IsBare (bindingTarget nested) := by unfold bindingTarget; infer_instance

instance : Sound s IsBare (patternRule nested) := by unfold patternRule; infer_instance

/-! ## 2. Expressions with parts in brackets -/

instance : Sound s IsBare (sequence nested) :=
  .bind IsBare fun _ _ _ hfirst => .andThen (Q := Any) hfirst fun _ _ hmore =>
    .grown rfl hfirst hmore (hfirst.any.append hmore)

instance : Sound s IsBare (block nested) := by unfold block; infer_instance

instance : Sound s IsBare (parenthesized nested) := by unfold parenthesized; infer_instance

/-! ## 3. Objects, arrays and functions -/

theorem shaped_block : Shaped s (IsOne fun t => t.kind = .other "statement_block" ∧
    StartsWith s "\x7b" t) (block nested) :=
  .startsWith rfl (((shaped_mark "\x7b").mono fun _ => IsOne.opens).opens_append.opens_append)

instance : Sound s (IsBodyBraced s) (role .body (block nested)) :=
  (shaped_block.role fun _ ht _ => ht.2.inRole .body).sound_of_one

instance : Sound s IsBare (objectMethod nested) := by
  have hname : Sound s IsNoBody (role .name (propertyName nested)) := .role_isNoBody nofun
  exact ⟨fun i hi => .method (Sound.reads i hi)⟩

instance : Sound s IsBare (objectEntry nested) := by unfold objectEntry; infer_instance

instance : Sound s IsBare (objectLiteral nested) := by unfold objectLiteral; infer_instance

instance : Sound s HasNoRole arrayElements.arrayGap := by
  unfold arrayElements.arrayGap; infer_instance

instance : Sound s HasNoRole (arrayElements nested) := by unfold arrayElements; infer_instance

instance : Sound s IsBare (arrayLiteral nested) := by unfold arrayLiteral; infer_instance

instance : Sound s IsBare (functionExpression nested) :=
  .bind Any fun _ _ _ hlead => .more hlead fun star _ h => .more h fun _ _ h =>
    .node (by cases star <;> rfl) (.pure h)

instance : Sound s Any (arrowBody nested) := by unfold arrowBody; infer_instance

instance : Sound s IsBare (arrowFunction nested) :=
  .node rfl <| .look fun _ => .bind Any fun _ _ _ hlead =>
    .bind (.within (fun _ => rfl) (Sound.reads (P := Any) _ hlead.stop)) fun _ _ hsignature =>
    .more (hlead.append hsignature) fun _ _ h => .ite
      (fun _ => .look fun _ => .ite (fun _ => .pure h) fun _ => .refuse) fun _ => .pure h

instance : Sound s IsBare (bareArrow nested) := by
  have hlead : Sound s Any (do
      let lead ← keyword "async"
      let t ← peek
      if t.lexeme == .word then return lead else refuse) :=
    .bind Any fun _ _ _ h => .look fun _ => .ite (fun _ => .pure h) fun _ => .refuse
  unfold bareArrow
  infer_instance

/-! ## 4. Primary expressions -/

instance : Sound s IsBare regexLiteral := by
  refine ⟨fun i hi => Gives.bind (.peek (Gives.bind (.context fun c hc => ?_)))⟩
  split
  · rename_i j hj
    rw [hc] at hj
    refine Gives.bind (.moveTo (.pure ?_))
    exact .leaf hi (Token.gap_scan _ i) (onward_regexEnd hj) rfl (.of_isPlain rfl _ _ _)
  · exact .refuse

instance : Sound s IsBare (newExpression nested) := by unfold newExpression; infer_instance

variable {classExpression : ClassParts} [Sound s IsBare (classExpression nested)]

instance (text : String) : Sound s IsBare (wordExpression classExpression nested text) := by
  unfold wordExpression; infer_instance

instance : Sound s IsBare (primary classExpression nested) :=
  .look fun t => by cases t.lexeme <;> infer_instance

/-! ## 5. Members and calls -/

instance : Sound s IsBare memberName := by unfold memberName; infer_instance

/-- What stands before a suffix is the first part of the longer operand. -/
theorem reads_suffixed {kind : Kind} (h : kind.isPlain = true) {left : List Tree} {p : Grammar}
    (hleft : Yields s P i left j) [Sound s Any p] : Reads s IsBare i j (suffixed kind left p) :=
  .node (Q := Any) h (.append (.pure (hleft.mono fun _ _ => trivial)))

theorem reads_instantiated {left : List Tree} (hleft : Yields s IsBare i left j) :
    Reads s IsBare i j (instantiated nested left) :=
  have hcallee := hleft.inRole_any .function
  .andThen (Q := IsBare) hleft fun args _ hargs => .look fun _ => .look fun _ => by
    dsimp only
    refine .ite (fun _ => reads_suffixed rfl (hcallee.append hargs.any)) fun _ =>
      .ite (fun _ => reads_suffixed rfl (hcallee.append hargs.any)) fun _ =>
      .ite (fun _ => .look fun _ => .ite (fun _ => ?_) fun _ => .refuse) fun _ => .refuse
    exact .node rfl (Gives.bind (.pure (Gives.bind (.pure (.pure (hleft.append hargs).any)))))

theorem reads_suffix {left : List Tree} (hleft : Yields s IsBare i left j) (t : Token) :
    Reads s IsBare i j (suffix nested left t) := by
  have hcallee := hleft.inRole_any .function
  unfold suffix
  dsimp only
  split
  · exact reads_suffixed rfl hcallee
  · refine .ite (fun _ => reads_suffixed rfl hleft) fun _ => .ite (fun _ => ?_) fun _ =>
      .ite (fun _ => reads_suffixed rfl hleft) fun _ =>
      .ite (fun _ => reads_suffixed rfl hcallee) fun _ =>
      .ite (fun _ => reads_suffixed rfl hleft) fun _ =>
      .ite (fun _ => reads_instantiated hleft) fun _ => .refuse
    exact .orElse (reads_suffixed rfl hleft)
      (.orElse (reads_suffixed rfl hcallee) (reads_suffixed rfl hleft))
  · exact .refuse

instance (left : List Tree) (t : Token) : Fills (suffix nested left t) := by
  unfold suffix instantiated suffixed
  cases t.lexeme <;> infer_instance

theorem reads_suffixes (fuel : Nat) {left : List Tree} (hleft : Yields s IsBare i left j) :
    Reads s IsBare i j (suffixes nested fuel left) := by
  induction fuel generalizing left j with
  | zero => exact .pure hleft
  | succ fuel ih =>
    refine .look fun _ => .ite (fun _ => .look fun t => ?_) fun _ => .pure hleft
    refine Gives.bind (.orElse (Gives.mono ((reads_suffix hleft t).and .fills) ?_)
      (.pure (Reads.pure hleft)))
    intro longer k h
    exact Reads.ite (fun he => absurd (List.isEmpty_iff.mp he) h.2) fun _ => ih h.1

theorem reads_memberSuffixes (fuel : Nat) {left : List Tree} (hleft : Yields s IsBare i left j) :
    Reads s IsBare i j (memberSuffixes nested fuel left) := by
  induction fuel generalizing left j with
  | zero => exact .pure hleft
  | succ fuel ih =>
    exact .look fun t => .look fun _ => .ite
      (fun _ => .bind (reads_suffix hleft t) fun _ _ h => ih h) fun _ => .pure hleft

variable {classExpression : ClassParts} [Sound s IsBare (classExpression nested)]

instance : Sound s IsBare (newTargetRule classExpression nested) :=
  .look fun _ => .look fun _ => .ite inferInstance <|
    .bind IsBare fun _ _ _ h => reads_memberSuffixes _ h

/-! ## 6. Operators -/

instance : Sound s IsBare (unaryRule classExpression nested) :=
  .look fun _ => .look fun _ => .ite inferInstance <| .ite inferInstance <| .ite inferInstance <|
    .ite inferInstance <| .ite inferInstance <| .bind IsBare fun _ _ _ hfirst =>
      .bind (reads_suffixes _ hfirst) fun _ _ hoperand => .look fun _ => .look fun _ =>
        .ite (fun _ => .node (Q := Any) rfl (.append (.pure hoperand.any))) fun _ => .pure hoperand

instance (word : String) : Sound s Any (castTail nested word) :=
  .bind Any fun _ _ _ hlead => .look fun _ => .look fun _ =>
    .ite (fun _ => .more hlead fun _ _ h => .pure h) fun _ => .more hlead fun _ _ h => .pure h

/-- Operators and operands go on behind the first operand. -/
theorem reads_binaryTail (fuel level : Nat) {left : List Tree} (hleft : Yields s IsBare i left j) :
    Reads s IsBare i j (binaryTail nested fuel level left) := by
  induction fuel generalizing left i j level with
  | zero => exact .pure hleft
  | succ fuel ih =>
    refine Gives.bind (.context fun c _ => Gives.bind (.peek ?_))
    split
    · exact .pure hleft
    · refine Reads.look fun _ => .ite (fun _ => .pure hleft) fun _ => .ite (fun _ => ?_) fun _ => ?_
      · exact .bind (reads_suffixed (by split <;> rfl) hleft) fun _ _ h => ih _ h
      · have hfree : (Kind.token (Token.scan (.ofString s) j).text).isFree = true := rfl
        have hoperator := Yields.token (P := Any) hleft.stop hfree trivial
        refine Gives.bind <| .moveTo <|
          Reads.andThen (Q := IsBare) hoperator fun operand _ hoperand => ?_
        refine .bind (ih _ hoperand) fun right _ hright => ?_
        exact .bind (.node rfl (.pure ((hleft.any.append hoperator).append hright.any)))
          fun _ _ h => ih _ h

/-! ## 7. Expressions -/

instance : Sound s IsBare (conditional nested) :=
  .look fun _ => .bind IsBare fun _ _ _ hoperand => .look fun _ => .ite
    (fun _ => .node rfl (.append (.append (.pure (hoperand.inRole_any _)))))
    fun _ => .bind (reads_binaryTail _ _ hoperand) fun _ _ hleft => .look fun _ => .ite
      (fun _ => .node rfl (.append (.append (.append (.append (.pure hleft.any))))))
      fun _ => .pure hleft

instance : Sound s IsBare (yieldExpression nested) :=
  .node rfl <| .bind Any fun _ _ _ hlead => .more hlead fun _ _ h => .look fun _ =>
    .ite (fun _ => .more h fun _ _ h => .pure h) fun _ => .pure h

instance : Sound s IsBare (usingAssignment nested) := by unfold usingAssignment; infer_instance

theorem reads_arrowOperand {arrow : List Tree} (h : Yields s IsBare i arrow j) :
    Reads s IsBare i j (arrowOperand nested arrow) :=
  .look fun _ => .ite
    (fun _ => .bind (reads_suffixes _ h) fun _ _ h => reads_binaryTail _ _ h) fun _ => .pure h

instance : Sound s IsBare (expressionRule nested) := by
  have hbare : Sound s IsBare (bareArrow nested >>= arrowOperand nested) :=
    .bind IsBare fun _ _ _ => reads_arrowOperand
  have harrow : Sound s IsBare (arrowFunction nested >>= arrowOperand nested) :=
    .bind IsBare fun _ _ _ => reads_arrowOperand
  refine .look fun t => .look fun _ => ?_
  cases t.lexeme <;> infer_instance

end Nested
end ClassScript.Syntax
