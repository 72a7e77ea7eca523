/-
  File:      ClassScript/Proofs/Syntax/Grammar/Types.lean
  Subject:   The rules of signatures and types are sound.

  A rule that puts others together by the notation of grammars is sound
  because they are. A rule that looks at what it has read, and goes on from
  there, carries along that all trees so far follow one another.

  Nested phrases are taken to be sound.
-/
import ClassScript.Proofs.Syntax.Reading
import ClassScript.Syntax.Grammar.Types

namespace ClassScript.Syntax

open Reader

variable {s : String} {P : Tree → Prop} {nested : Nested}

/-! ## 1. Names and modifiers -/

instance : Sound s IsBare identifier := by unfold identifier; infer_instance

instance : Sound s IsBare stringLiteral := by unfold stringLiteral; infer_instance

instance : Sound s IsBare numberLiteral := by unfold numberLiteral; infer_instance

instance : Sound s IsBare privateName := by unfold privateName; infer_instance

instance (marks : List String) : Stays (nameFollows marks) := by
  unfold nameFollows; infer_instance

instance {marks texts : List String} {kind : Token → Kind}
    [Sound s P (leaf kind fun t => t.lexeme == .word && texts.contains t.text)] :
    Sound s P (modifierBefore marks texts kind) :=
  .bind P fun _ _ _ h => .look fun _ => .ite (fun _ => .pure h) fun _ => .refuse

instance (texts : List String) : Sound s HasNoRole (modifier texts) := by
  unfold modifier; infer_instance

instance : Sound s IsBare accessModifier := by unfold accessModifier; infer_instance

instance : Sound s IsBare overrideModifier := by unfold overrideModifier; infer_instance

instance : Sound s IsBare predicateSubject := by
  have plain (t : Token) :
      Fact ((if t.text == "this" then Kind.thisRef else .identifier).isPlain = true) :=
    ⟨by split <;> rfl⟩
  unfold predicateSubject
  infer_instance

section Nested

variable [∀ p, Sound s IsBare (nested p)]

instance : Sound s IsBare (computedName nested) := by unfold computedName; infer_instance

instance : Sound s IsBare (propertyName nested) := by unfold propertyName; infer_instance

/-! ## 2. Signatures -/

instance : Sound s IsBare (typeClause nested) := by unfold typeClause; infer_instance

instance : Sound s IsBare (typePredicate nested) :=
  .node rfl <| .bind Any fun _ _ _ h => .look fun _ =>
    .ite (fun _ => .more h fun _ _ h => .pure h) fun _ => .refuse

instance : Sound s IsBare (assertion nested) :=
  .node rfl <| .bind Any fun _ _ _ h => .look fun _ =>
    .ite (fun _ => .more h fun _ _ h => .pure h) fun _ => .refuse

instance : Sound s IsBare (returnClause nested) := by unfold returnClause; infer_instance

instance : Sound s IsBare (typeArguments nested) := by unfold typeArguments; infer_instance

instance : Sound s IsBare (arguments nested) := by unfold arguments; infer_instance

instance : Sound s IsBare (decoratorTarget nested) :=
  .bind IsBare fun _ _ _ hfirst => .andThen (Q := Any) hfirst fun _ _ hmembers =>
    .choose (fun he => .pure (hfirst.of_isEmpty hmembers he))
      (fun _ => .node rfl (.pure (hfirst.any.append hmembers))) fun _ _ hcallee =>
    .andThen (Q := Any) hcallee fun _ _ hcall =>
      .grown rfl hcallee hcall ((hcallee.inRole_any _).append hcall)

instance : Sound s IsBare (decorator nested) :=
  .node rfl <| .bind Any fun _ _ _ h => .look fun _ =>
    .choose (fun _ => Sound.reads _ h.stop) (fun _ => Sound.reads _ h.stop) fun _ _ ht =>
      .pure (h.append ht)

/-! ## 3. Parameters -/

instance : Sound s Any (initializer nested) := by unfold initializer; infer_instance

instance {texts : List String} {kind : Token → Kind}
    [Sound s P (leaf kind fun t => t.lexeme == .word && texts.contains t.text)] :
    Sound s P (parameterModifier texts kind) := by
  unfold parameterModifier; infer_instance

instance : Sound s IsBare (parameterTarget nested) := by
  unfold parameterTarget; infer_instance

instance : Sound s IsBare (parameter nested) :=
  .bind Any fun _ _ _ hlead => .more hlead fun _ _ htarget => .more htarget fun asked _ hasked =>
    .more hasked fun _ _ h => .node (by cases asked <;> rfl) (.pure h)

instance : Sound s IsBare (parameters nested) := by unfold parameters; infer_instance

instance : Sound s IsBare (typeParameter nested) := by unfold typeParameter; infer_instance

instance : Sound s IsBare (typeParameters nested) := by unfold typeParameters; infer_instance

instance : Sound s IsNoBody (callSignature nested) := by
  have hparameters : Sound s IsNoBody (role .parameters (parameters nested)) := .role_isNoBody nofun
  have hreturn : Sound s IsNoBody (role .returnType (returnClause nested)) := .role_isNoBody nofun
  unfold callSignature
  infer_instance

/-! ## 4. Types -/

instance {kind : Kind} [hk : Fact (kind.isPlain = true)] (separator : String) {p : Grammar}
    [Sound s IsBare p] : Sound s IsBare (chain kind separator p) :=
  .bind Any fun _ _ _ hlead => .andThen (Q := IsBare) hlead fun _ _ hfirst =>
    .andThen (Q := Any) hfirst fun _ _ hmore => .ite
      (fun he =>
        have he := Bool.and_eq_true_iff.mp he
        .pure (hlead.behind_isEmpty he.1 (hfirst.of_isEmpty hmore he.2)))
      fun _ => .node hk.out (.pure ((hlead.append hfirst.any).append hmore))

instance : Sound s HasNoRole memberEnd := by unfold memberEnd; infer_instance

instance : Sound s IsBare (indexSignature nested) := by unfold indexSignature; infer_instance

instance : Sound s IsNoBody (methodHead nested) := by
  have hname : Sound s IsNoBody (role .name (propertyName nested)) := .role_isNoBody nofun
  unfold methodHead
  infer_instance

instance : Sound s IsBare (objectTypeMember nested) := by unfold objectTypeMember; infer_instance

instance {kind : Kind} [Fact (kind.isPlain = true)] : Sound s IsBare (objectType kind nested) := by
  unfold objectType; infer_instance

instance : Sound s IsBare (importType nested) := by unfold importType; infer_instance

instance : Sound s IsBare (typeQuery nested) := by unfold typeQuery; infer_instance

instance : Sound s IsBare (typeReference nested) :=
  .bind IsBare fun _ _ _ hfirst => .andThen (Q := Any) hfirst fun _ _ hmore =>
    .choose (fun he => .pure (hfirst.of_isEmpty hmore he))
      (fun _ => .node rfl (.pure (hfirst.any.append hmore))) fun _ _ hname =>
    .andThen (Q := Any) hname fun _ _ hargs =>
      .grown rfl hname hargs ((hname.inRole_any _).append hargs)

instance : Sound s IsBare (tupleElement nested) := by
  have element : Sound s IsBare (do
      let element ← nested .type
      let asked ← opt (mark "?")
      if asked.isEmpty then return element
      else node (.other "optional_type") (pure (element ++ asked))) :=
    .bind IsBare fun _ _ _ helement => .andThen (Q := Any) helement fun _ _ hasked =>
      .grown rfl helement hasked (helement.any.append hasked)
  unfold tupleElement
  infer_instance

/-- The piece of a template from `i` to `j`, if there is any. -/
theorem yields_piece {i j : Nat} (hi : IsBoundary s i) (h : Onward s i j) :
    Yields s Any i (if i < j then [.node (.other "string_fragment") none i j []] else []) j := by
  split
  · exact .leaf hi (.nil i) h rfl trivial
  · obtain rfl : i = j := by have := h.le; omega
    exact .nil hi

theorem reads_templatePieces {hole : Grammar} [Sound s IsBare hole] (fuel i : Nat)
    (hi : IsBoundary s i) : Reads s Any i i (templatePieces hole fuel i) := by
  induction fuel generalizing i with
  | zero => exact .refuse
  | succ fuel ih =>
    refine Gives.bind (.context fun c hc => ?_)
    dsimp only
    rw [hc]
    split
    · exact .refuse
    · rename_i j hj
      obtain ⟨hpiece, htick, hopening⟩ := templatePieceEnd?_spec hj
      have hpiece := yields_piece hi hpiece
      refine Gives.bind (.moveTo (Reads.ite (fun _ => Gives.bind (.moveTo (Reads.pure ?_))) ?_))
      · exact hpiece.append (.leaf hpiece.stop (.nil j) htick rfl trivial)
      · intro hbrace
        refine Gives.bind (.moveTo ?_)
        -- the substitution is a tree from its two opening marks to its closing brace
        have hmarks : Yields s Any j [.node (.token "$\x7b") none j (j + 2) []] (j + 2) :=
          .leaf hpiece.stop (.nil j) (hopening hbrace) rfl trivial
        refine Reads.more hmarks fun inner k hinner => Reads.more hinner fun closing l hclosing =>
          Gives.bind (.place ?_)
        have hsubstitution : Yields s Any _ [.node (.other "template_substitution") none _ _ _] _ :=
          hclosing.node (.of_free rfl) trivial
        refine Reads.bind (ih l hclosing.stop) fun more m hmore => .pure ?_
        exact (hpiece.append hsubstitution).append hmore

instance {kind : Kind} [hk : Fact (kind.isPlain = true)] {hole : Grammar}
    [Sound s IsBare hole] : Sound s IsBare (template kind hole) :=
  .node hk.out <| .bind Any fun _ _ _ htick => Gives.bind <| .context fun _ _ => Gives.bind <|
    .place <| Reads.bind (reads_templatePieces _ _ htick.stop) fun _ _ hpieces =>
      .pure (htick.append hpieces)

instance (text : String) : Sound s IsBare (wordType nested text) := by
  unfold wordType; infer_instance

instance : Sound s IsBare (primaryType nested) :=
  .look fun _ => by split <;> infer_instance

theorem reads_typeSuffixes {i j : Nat} (fuel : Nat) {type : List Tree}
    (h : Yields s IsBare i type j) : Reads s IsBare i j (typeSuffixes nested fuel type) := by
  induction fuel generalizing type j with
  | zero => exact .pure h
  | succ fuel ih =>
    refine .look fun _ => .look fun _ => .ite (fun _ => ?_) fun _ => .pure h
    exact .bind (.orElse (.node rfl (.append (.append (.pure h.any))))
      (.node rfl (.append (.pure h.any)))) fun _ _ hlonger => ih hlonger

instance : Sound s IsBare (typeOperandRule nested) :=
  .look fun _ => .look fun _ => .ite inferInstance <| .ite inferInstance <|
    .look fun _ => .bind IsBare fun _ _ _ h => reads_typeSuffixes _ h

instance : Sound s IsBare (functionType nested) := by unfold functionType; infer_instance

instance : Stays mayStartFunctionType := by unfold mayStartFunctionType; infer_instance

instance : Sound s IsBare (conditionalType nested) :=
  .bind IsBare fun _ _ _ hleft => .look fun _ => .look fun _ =>
    .ite (fun _ => .orElse (.node rfl (.append (.append (.append (.append (.append (.append
      (.pure hleft.any)))))))) (.pure hleft)) fun _ => .pure hleft

instance : Sound s IsBare (typeRule nested) := by unfold typeRule; infer_instance

end Nested
end ClassScript.Syntax
