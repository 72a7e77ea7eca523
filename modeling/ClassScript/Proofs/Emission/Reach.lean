/-
  File:      ClassScript/Proofs/Emission/Reach.lean
  Subject:   The trees emission goes through, and what it comes to there.

  Emission stops at types, at imports and at the body of an enum, skips the
  tail of a cast, and goes on through all the rest. The trees it meets are a
  walk through the program in the order of the text, and whether it fails, and
  what the script needs, can be read off the trees of this walk one by one.
  Whether a part is on the walk depends on what stands before it, since of a
  cast only the first part that is no keyword stays.

  * `opens`: the parts emission goes on through;
  * `walk`, `walk_sublist_nodes`: the trees it meets, in order;
  * `refusal?`, `verdict`: what single trees say about the whole;
  * `emit_verdict`: emission comes to the verdict of its walk;
  * `carries_of_mem_walk`: the edits of enums, imports and exports on the walk
    are among those of the whole;
  * `ofText_eq_error_iff`, `needs_of_ofText`: when a text has no script, and
    the first lines of the script it has.
-/
import ClassScript.Proofs.Emission.Requests
import ClassScript.Proofs.Emission.Types
import ClassScript.Proofs.Emission.ClassHead
import ClassScript.Proofs.Emission.Enum.Counting

namespace ClassScript.Emission

open Syntax (Source Tree Kind AllFormed IsComment IsQuiet IsExported IsToken)

/-! ## 1. The walk -/

/-- The part `c` behind the parts `before` is the first one that is no keyword and no mark. -/
def isFirstNamed (before : List Tree) (c : Tree) : Bool := c.isNamed && before.all (!·.isNamed)

/-- Emission goes on through the part `c` of `n`, behind the parts `before`. It goes through no
    part of a type, of a type-only member, of a parameter that gives the type of `this`, of a
    namespace or an import; not through the body of an enum, the tail of a cast, names that are
    exported, and what is behind the first part of an assignment to all exports. -/
def opens (n : Tree) (before : List Tree) (c : Tree) : Bool :=
  match n.kind with
  | .fieldDefinition => !isTypeOnlyField n
  | .requiredParameter | .optionalParameter => !isThisParameter n
  | .importStatement | .namespaceBlock | .moduleBlock => false
  | .enumDecl => c.field != some .body
  | .asExpression | .satisfiesExpression => isFirstNamed before c
  | .exportStatement =>
    !(n.hasToken "type" || n.hasToken "namespace") &&
      (hasExported n || n.hasToken "=" && isFirstNamed before c)
  | kind => !isTypeSyntax kind

mutual

/-- The trees on the walk of emission through a tree, each before its parts. -/
def walk : Tree → List Tree
  | .node kind role start stop parts =>
    .node kind role start stop parts :: walkParts (.node kind role start stop parts) [] parts

/-- The trees on the walk through the parts of `n` behind the parts `before`. -/
def walkParts (n : Tree) (before : List Tree) : List Tree → List Tree
  | [] => []
  | c :: cs => (if opens n before c then walk c else []) ++ walkParts n (before ++ [c]) cs

end

variable {s : String} {src : Source} {t n c : Tree} {following before parts : List Tree}

theorem walk_eq (t : Tree) : walk t = t :: walkParts t [] t.children := by
  cases t
  rfl

theorem walkParts_of_open (h : ∀ before c, opens n before c = true) (before parts : List Tree) :
    walkParts n before parts = parts.flatMap walk := by
  induction parts generalizing before with
  | nil => rfl
  | cons c cs ih => rw [walkParts, if_pos (h before c), ih, List.flatMap_cons]

theorem walkParts_of_shut (h : ∀ before c, opens n before c = false) (before parts : List Tree) :
    walkParts n before parts = [] := by
  induction parts generalizing before with
  | nil => rfl
  | cons c cs ih => rw [walkParts, h before c, if_neg Bool.false_ne_true, ih, List.nil_append]

/-- Where only the first named part is open, the walk goes through this part, if there is one. -/
theorem walkParts_of_first (h : ∀ before c, opens n before c = isFirstNamed before c)
    (parts : List Tree) :
    walkParts n [] parts = ((parts.find? Tree.isNamed).map walk).getD [] := by
  have hbehind (before : List Tree) (hb : before.all (!·.isNamed) = false) (cs : List Tree) :
      walkParts n before cs = [] := by
    induction cs generalizing before with
    | nil => rfl
    | cons c cs ih =>
      have hmore : (before ++ [c]).all (!·.isNamed) = false := by rw [List.all_append, hb]; rfl
      rw [walkParts, h, isFirstNamed, hb, Bool.and_false, if_neg Bool.false_ne_true, ih _ hmore]
      rfl
  have hfirst (before : List Tree) (hb : before.all (!·.isNamed) = true) (cs : List Tree) :
      walkParts n before cs = ((cs.find? Tree.isNamed).map walk).getD [] := by
    induction cs generalizing before with
    | nil => rfl
    | cons c cs ih =>
      rw [walkParts, h, isFirstNamed, hb, Bool.and_true, List.find?_cons]
      cases hc : c.isNamed with
      | true => rw [if_pos rfl, hbehind _ (by simp [hc])]; exact List.append_nil _
      | false => rw [if_neg Bool.false_ne_true, ih _ (by simp [hb, hc])]; rfl
  exact hfirst [] rfl parts

theorem walkParts_sublist (h : ∀ c ∈ parts, (walk c).Sublist c.nodes) (before : List Tree) :
    (walkParts n before parts).Sublist (Tree.nodesOfAll parts) := by
  induction parts generalizing before with
  | nil => exact .slnil
  | cons c cs ih =>
    rw [walkParts, Tree.nodesOfAll]
    refine .append ?_ (ih (fun d hd => h d (List.mem_cons_of_mem c hd)) _)
    split
    · exact h c List.mem_cons_self
    · exact List.nil_sublist _

/-- **The walk** meets trees of the tree, in the order in which they stand in it. -/
theorem walk_sublist_nodes (t : Tree) : (walk t).Sublist t.nodes := by
  induction t using Tree.induction with
  | step t ih =>
    rw [walk_eq, Tree.nodes_eq]
    exact .cons_cons t (walkParts_sublist ih [])

/-- A leaf is all of its walk. -/
theorem walk_of_leaf (h : t.children = []) : walk t = [t] := by rw [walk_eq, h, walkParts]

/-! ## 2. What single trees say -/

/-- The error of emission at a tree of its walk, if emission fails there. -/
def refusal? (src : Source) (t : Tree) : Option EmissionError :=
  match treatment t.kind with
  | .refused construct => some (.unsupported construct (t.position src))
  | .enumDecl =>
    (firstUncounted? (enumMembers src t)).map fun m => .missingValue m.key m.position
  | _ => none

/-- Something is imported or exported. -/
def isModular (t : Tree) : Bool := t.kind == .importStatement || t.kind == .exportStatement

/-- A default export of another module is imported. -/
def bindsDefault (src : Source) (t : Tree) : Bool :=
  t.kind == .importStatement && (lowerImport src t).importsDefault

/-- What is said about a script on the way to it: whether it is a module, and whether it imports
    a default export. -/
structure Needs where
  modules : Bool
  default : Bool
  deriving DecidableEq, Repr

/-- What an emission needs of the script. -/
def Needs.of (e : Emission) : Needs := ⟨e.usesModules, e.importsDefault⟩

/-- What either of two parts needs. -/
def Needs.or (a b : Needs) : Needs := ⟨a.modules || b.modules, a.default || b.default⟩

/-- What the trees of a walk come to: the first error, or what they need of the script. -/
def verdict (src : Source) (ts : List Tree) : Except EmissionError Needs :=
  match ts.findSome? (refusal? src) with
  | some e => .error e
  | none => .ok ⟨ts.any isModular, ts.any (bindsDefault src)⟩

/-- Nothing is needed. -/
def Needs.nothing : Needs := ⟨false, false⟩

theorem verdict_append (src : Source) (ts us : List Tree) :
    verdict src (ts ++ us) =
      match verdict src ts with
      | .error e => .error e
      | .ok a => (verdict src us).map a.or := by
  unfold verdict
  rw [List.findSome?_append, List.any_append, List.any_append]
  cases ts.findSome? (refusal? src) with
  | some e => rfl
  | none => cases us.findSome? (refusal? src) <;> rfl

/-- A tree says nothing: it does not fail, and needs nothing. -/
structure IsSilent (src : Source) (t : Tree) : Prop where
  refusal : refusal? src t = none
  modular : isModular t = false
  default : bindsDefault src t = false

/-- Trees with such a treatment fail, or need something. -/
def Treatment.speaks : Treatment → Bool
  | .refused _ | .enumDecl | .importStatement | .exportStatement => true
  | _ => false

theorem isSilent_of_treatment (h : (treatment t.kind).speaks = false) : IsSilent src t := by
  constructor <;> revert h
  · unfold refusal?
    cases t.kind <;> simp [treatment, Treatment.speaks]
  · unfold isModular
    cases t.kind <;> simp [treatment, Treatment.speaks]
  · unfold bindsDefault
    cases t.kind <;> simp [treatment, Treatment.speaks]

theorem verdict_cons_silent (h : IsSilent src t) (ts : List Tree) :
    verdict src (t :: ts) = verdict src ts := by
  unfold verdict
  rw [List.findSome?_cons, h.refusal, List.any_cons, h.modular, List.any_cons, h.default]
  rfl

theorem verdict_silent (h : IsSilent src t) : verdict src [t] = .ok .nothing :=
  verdict_cons_silent h []

theorem speaks_of_quiet (h : IsQuiet t) : (treatment t.kind).speaks = false := by
  have hkind := h.2
  rw [Tree.isNamed] at hkind
  revert hkind
  cases t.kind <;> simp [Kind.isNamed, treatment, Treatment.speaks]

theorem IsSilent.of_quiet (h : IsQuiet t) : IsSilent src t :=
  isSilent_of_treatment (speaks_of_quiet h)

theorem verdict_quiet (h : IsQuiet t) : verdict src (walk t) = .ok .nothing := by
  rw [walk_of_leaf h.1]
  exact verdict_silent (.of_quiet h)

theorem nothing_or (a : Needs) : Needs.nothing.or a = a := by
  cases a
  rfl

theorem or_nothing (a : Needs) : a.or .nothing = a := by
  simp [Needs.or, Needs.nothing]

theorem map_nothing_or (x : Except EmissionError Needs) : x.map Needs.nothing.or = x := by
  cases x with
  | error e => rfl
  | ok a => exact congrArg Except.ok (nothing_or a)

/-- What a walk through quiet parts comes to. -/
theorem verdict_walkParts_quiet (h : ∀ c ∈ parts, ∀ before, opens n before c = true → IsQuiet c)
    (before : List Tree) : verdict src (walkParts n before parts) = .ok .nothing := by
  induction parts generalizing before with
  | nil => rfl
  | cons c cs ih =>
    have hrest := ih (fun d hd => h d (List.mem_cons_of_mem c hd)) (before ++ [c])
    rw [walkParts]
    split
    · rename_i hopen
      rw [verdict_append, verdict_quiet (h c List.mem_cons_self before hopen), hrest]
      rfl
    · exact hrest

theorem verdict_flatMap_quiet {ts : List Tree} (h : ∀ c ∈ ts, IsQuiet c) :
    verdict src (ts.flatMap walk) = .ok .nothing := by
  induction ts with
  | nil => rfl
  | cons c cs ih =>
    rw [List.flatMap_cons, verdict_append, verdict_quiet (h c List.mem_cons_self),
      ih fun d hd => h d (List.mem_cons_of_mem c hd)]
    rfl

/-- Quiet parts before a walk change nothing. -/
theorem verdict_behind_quiet {ts : List Tree} (h : ∀ c ∈ ts, IsQuiet c) (us : List Tree) :
    verdict src (ts.flatMap walk ++ us) = verdict src us := by
  rw [verdict_append, verdict_flatMap_quiet h]
  exact map_nothing_or _

/-- Quiet parts around one part change nothing. -/
theorem verdict_among_quiet {before after : List Tree} (hb : ∀ c ∈ before, IsQuiet c)
    (ha : ∀ c ∈ after, IsQuiet c) (part : Tree) :
    verdict src ((before ++ part :: after).flatMap walk) = verdict src (walk part) := by
  rw [List.flatMap_append, List.flatMap_cons, verdict_behind_quiet hb, verdict_append,
    verdict_flatMap_quiet ha]
  cases verdict src (walk part) with
  | error e => rfl
  | ok a => exact congrArg Except.ok (or_nothing a)

theorem verdict_of_refusal {e : EmissionError} (h : refusal? src t = some e) (ts : List Tree) :
    verdict src (t :: ts) = .error e := by
  rw [verdict, List.findSome?_cons, h]

/-- An export needs the script to be a module. -/
theorem verdict_cons_export (h : t.kind = .exportStatement) (ts : List Tree) :
    verdict src (t :: ts) = (verdict src ts).map (Needs.or ⟨true, false⟩) := by
  have hone : verdict src [t] = .ok ⟨true, false⟩ := by
    simp [verdict, refusal?, isModular, bindsDefault, h, treatment]
  rw [← List.singleton_append, verdict_append, hone]

/-! ## 3. Emission of single trees -/

theorem emit_of_shut (src : Source) (following : List Tree) (h : isShut t = true) :
    ∃ edit, emit src following t = .ok (.ofEdit edit) := by
  obtain ⟨kind, role, start, stop, parts⟩ := t
  unfold isShut at h
  rw [emit]
  dsimp only [Tree.kind] at h ⊢
  cases htreat : treatment kind <;> rw [htreat] at h <;> dsimp only at h ⊢ <;>
    first | exact ⟨_, rfl⟩ | (rw [if_pos h]; exact ⟨_, rfl⟩) | cases h

/-- Kinds of trees that emission takes out are type syntax, and no others. -/
theorem opens_of_shut (h : isShut t = true) (before : List Tree) (c : Tree) :
    opens t before c = false := by
  unfold isShut at h
  unfold opens
  revert h
  cases t.kind <;> simp [treatment, isTypeSyntax]

theorem opens_of_descends (h : descends t = true) (before : List Tree) (c : Tree) :
    opens t before c = true := by
  unfold descends at h
  unfold opens
  revert h
  cases t.kind <;> simp [treatment, isTypeSyntax]

theorem speaks_of_shut (h : isShut t = true) : (treatment t.kind).speaks = false := by
  unfold isShut at h
  cases htreat : treatment t.kind <;> rw [htreat] at h <;> first | rfl | cases h

theorem isSilent_of_shut (h : isShut t = true) : IsSilent src t :=
  isSilent_of_treatment (speaks_of_shut h)

theorem isSilent_of_descends (h : descends t = true) : IsSilent src t := by
  refine isSilent_of_treatment ?_
  unfold descends at h
  cases htreat : treatment t.kind <;> rw [htreat] at h <;> first | rfl | cases h

/-! ## 4. Emission of a program -/

/-- Emission comes to the verdict `v`. -/
def ComesTo (x : Except EmissionError Emission) (v : Except EmissionError Needs) : Prop :=
  x.map Needs.of = v

/-- What goes with the emission of a part needs nothing, or a module. -/
theorem comesTo_map {x : Except EmissionError Emission} {v : Except EmissionError Needs}
    {f : Emission → Emission} {g : Needs → Needs} (h : ComesTo x v)
    (hf : ∀ e, Needs.of (f e) = g (Needs.of e)) : ComesTo (x.map f) (v.map g) := by
  unfold ComesTo at h ⊢
  rw [← h]
  cases x with
  | error e => rfl
  | ok e => exact congrArg Except.ok (hf e)

/-- Parts come to what their walks come to, one after the other. -/
theorem emitAll_comesTo
    (h : ∀ c ∈ parts, ∀ following, ComesTo (emit src following c) (verdict src (walk c))) :
    ComesTo (emitAll src parts) (verdict src (parts.flatMap walk)) := by
  induction parts with
  | nil => rfl
  | cons c cs ih =>
    have hc := h c List.mem_cons_self cs
    have hcs := ih fun d hd => h d (List.mem_cons_of_mem c hd)
    unfold ComesTo at hc hcs ⊢
    rw [emitAll, List.flatMap_cons, verdict_append, ← hc, ← hcs]
    cases emit src cs c with
    | error e => rfl
    | ok first => cases emitAll src cs <;> rfl

/-- The first part that passes comes to what its walk comes to. -/
theorem emitFirst_comesTo {p : Tree → Bool} {part : Tree} (hfind : parts.find? p = some part)
    (h : ∀ c ∈ parts, ∀ following, ComesTo (emit src following c) (verdict src (walk c))) :
    ComesTo (emitFirst src p parts) (verdict src (walk part)) := by
  obtain ⟨before, after, hparts, _, heq⟩ := emitFirst_eq src hfind
  rw [heq]
  exact h part (hparts ▸ by simp) after

section

variable (ih : ∀ c ∈ t.children, ∀ following,
  ComesTo (emit src following c) (verdict src (walk c)))

include ih

theorem comesTo_of_descends (h : descends t = true) :
    ComesTo (emit src following t) (verdict src (walk t)) := by
  rw [emit_of_descends h, walk_eq, walkParts_of_open (opens_of_descends h),
    verdict_cons_silent (isSilent_of_descends h), ← map_nothing_or (verdict src _)]
  exact comesTo_map (emitAll_comesTo ih) fun _ => rfl

theorem comesTo_of_cast (h : treatment t.kind = .cast) :
    ComesTo (emit src following t) (verdict src (walk t)) := by
  have hopens (before : List Tree) (c : Tree) : opens t before c = isFirstNamed before c := by
    unfold opens
    revert h
    cases t.kind <;> simp [treatment]
  have hsilent : IsSilent src t := isSilent_of_treatment (by rw [h]; rfl)
  rw [emit_cast h, walk_eq, walkParts_of_first hopens, verdict_cons_silent hsilent]
  cases hfind : t.children.find? Tree.isNamed with
  | none => rfl
  | some operand =>
    rw [← map_nothing_or (verdict src _)]
    exact comesTo_map (emitFirst_comesTo hfind ih) fun _ => rfl

end

theorem comesTo_of_shut (h : isShut t = true) :
    ComesTo (emit src following t) (verdict src (walk t)) := by
  obtain ⟨edit, hemit⟩ := emit_of_shut src following h
  rw [hemit, walk_eq, walkParts_of_shut (opens_of_shut h), verdict_silent (isSilent_of_shut h)]
  rfl

theorem comesTo_of_refused {construct : Construct} (h : treatment t.kind = .refused construct) :
    ComesTo (emit src following t) (verdict src (walk t)) := by
  have hrefusal : refusal? src t = some (.unsupported construct (t.position src)) := by
    rw [refusal?, h]
  rw [walk_eq, verdict_of_refusal hrefusal]
  obtain ⟨kind, role, start, stop, parts⟩ := t
  dsimp only [Tree.kind] at h
  rw [emit, h]
  rfl

theorem comesTo_of_import (h : t.kind = .importStatement) :
    ComesTo (emit src following t) (verdict src (walk t)) := by
  have hmodules : (lowerImport src t).usesModules = true := by
    unfold lowerImport
    split
    · rfl
    · split <;> rfl
  have hshut (before : List Tree) (c : Tree) : opens t before c = false := by rw [opens, h]
  rw [emit_import following h, walk_eq, walkParts_of_shut hshut]
  show Except.ok _ = _
  simp [verdict, refusal?, isModular, bindsDefault, h, treatment, Needs.of, hmodules]

theorem comesTo_of_enum (ht : AllFormed s t) (h : t.kind = .enumDecl) :
    ComesTo (emit src following t) (verdict src (walk t)) := by
  have hemit : emit src following t = lowerEnum src t := by
    obtain ⟨kind, role, start, stop, parts⟩ := t
    obtain rfl : kind = .enumDecl := h
    rw [emit]
    rfl
  have hform : Syntax.EnumForm t := by
    have hform := ht.self.form
    rwa [Syntax.Form, h] at hform
  have hrest : verdict src (walkParts t [] t.children) = .ok .nothing := by
    refine verdict_walkParts_quiet (fun c hc before hopen => hform c hc ?_) []
    rw [opens, h] at hopen
    simpa using hopen
  have hrefusal : refusal? src t =
      (firstUncounted? (enumMembers src t)).map fun m => .missingValue m.key m.position := by
    rw [refusal?, h]
    rfl
  rw [hemit, walk_eq]
  unfold ComesTo lowerEnum
  rw [assignments_eq]
  cases hfirst : firstUncounted? (enumMembers src t) with
  | some m =>
    rw [hfirst] at hrefusal
    rw [verdict_of_refusal hrefusal]
    rfl
  | none =>
    rw [hfirst] at hrefusal
    rw [verdict_cons_silent ⟨hrefusal, by simp [isModular, h], by simp [bindsDefault, h]⟩, hrest]
    rfl

/-! ### Exports -/

/-- An export is marked as one of types or of a namespace. -/
def isMarkedExport (t : Tree) : Bool := t.hasToken "type" || t.hasToken "namespace"

theorem opens_export (h : t.kind = .exportStatement) (before : List Tree) (c : Tree) :
    opens t before c =
      (!isMarkedExport t && (hasExported t || t.hasToken "=" && isFirstNamed before c)) := by
  rw [opens, h]
  rfl

/-- An export that goes through none of its parts needs a module. -/
theorem verdict_shut_export (h : t.kind = .exportStatement)
    (hshut : ∀ before c, opens t before c = false) :
    verdict src (walk t) = .ok ⟨true, false⟩ := by
  rw [walk_eq, walkParts_of_shut hshut, verdict_cons_export h]
  rfl

theorem part?_eq_none {f : Syntax.Field} (h : ∀ c ∈ t.children, c.field ≠ some f) :
    t.part? f = none :=
  List.find?_eq_none.mpr fun c hc he => h c hc (eq_of_beq he)

theorem exportDecorator?_eq_none (h : ∀ c ∈ t.children, c.kind ≠ .decorator) :
    exportDecorator? t = none :=
  List.find?_eq_none.mpr fun c hc he => h c (List.mem_filter.mp hc).1 (eq_of_beq he)

theorem hasExported_iff : hasExported t = true ↔ ∃ c ∈ t.children, IsExported c := by
  unfold hasExported Tree.part?
  rw [Bool.or_eq_true, List.find?_isSome, List.find?_isSome]
  simp only [beq_iff_eq, IsExported]
  constructor
  · rintro (⟨c, hc, hf⟩ | ⟨c, hc, hf⟩)
    exacts [⟨c, hc, .inl hf⟩, ⟨c, hc, .inr hf⟩]
  · rintro ⟨c, hc, hf | hf⟩
    exacts [.inl ⟨c, hc, hf⟩, .inr ⟨c, hc, hf⟩]

theorem plain_of_token {text : String} (h : IsToken s text c) :
    c.kind ≠ .decorator ∧ ¬IsExported c := by
  refine ⟨fun hkind => ?_, fun hexported => ?_⟩
  · cases h.kind.symm.trans hkind
  · rcases hexported with hf | hf <;> cases h.field.symm.trans hf

theorem kind_ne_decorator_of_quiet (h : IsQuiet c) : c.kind ≠ .decorator := by
  intro hkind
  have hcases := h.2
  rw [Tree.isNamed, hkind] at hcases
  simp [Kind.isNamed] at hcases

/-- The parts of an export that gives one part, with nothing but leaves around it. -/
structure GivesPart (t : Tree) (before : List Tree) (part : Tree) (after : List Tree) : Prop where
  parts : t.children = before ++ part :: after
  exported : IsExported part
  kind : part.kind ≠ .decorator
  before : ∀ c ∈ before, IsQuiet c ∧ c.field = none
  after : ∀ c ∈ after, IsQuiet c ∧ c.field = none

/-- The parts of an export with decorators. -/
structure HasDecorator (t : Tree) (comments : List Tree) (decorator : Tree) (rest : List Tree) :
    Prop where
  parts : t.children = comments ++ decorator :: rest
  exported : hasExported t = true
  kind : decorator.kind = .decorator
  comments : ∀ c ∈ comments, IsComment c

/-- An export without a mark gives no part, or one without decorators, or one with them. -/
theorem export_cases (h : Syntax.ExportForm s t) :
    (∀ c ∈ t.children, c.kind ≠ .decorator ∧ ¬IsExported c) ∨
      (∃ before part after, GivesPart t before part after) ∨
      ∃ comments decorator rest, HasDecorator t comments decorator rest := by
  obtain @⟨lead, _, keyword, hparts, _, hcontent, hlead, hkeyword, _⟩ := h
  rcases hcontent with hnames | ⟨before, part, after, rfl, hexported, hkind, haround⟩
  · refine .inl fun c hc => ?_
    rw [hparts] at hc
    rcases List.mem_append.mp hc with hc | hc
    · exact hnames c (List.mem_append_left _ hc)
    · rcases List.mem_cons.mp hc with rfl | hc
      · exact plain_of_token hkeyword
      · exact hnames c (List.mem_append_right _ hc)
  · cases hfind : lead.find? (·.kind == .decorator) with
    | none =>
      have hcomment (c : Tree) (hc : c ∈ lead) : IsComment c :=
        (hlead c hc).resolve_left (by simpa using List.find?_eq_none.mp hfind c hc)
      refine .inr (.inl ⟨lead ++ keyword :: before, part, after,
        ⟨by rw [hparts, List.append_assoc, List.cons_append], hexported, hkind, fun c hc => ?_,
          fun c hc => haround c (List.mem_append_right _ hc)⟩⟩)
      rcases List.mem_append.mp hc with hc | hc
      · exact ⟨(hcomment c hc).isQuiet, (hcomment c hc).field⟩
      · rcases List.mem_cons.mp hc with rfl | hc
        · exact ⟨hkeyword.isQuiet, hkeyword.field⟩
        · exact haround c (List.mem_append_left _ hc)
    | some decorator =>
      obtain ⟨hdecorator, comments, more, rfl, hnone⟩ := List.find?_eq_some_iff_append.mp hfind
      refine .inr (.inr ⟨comments, decorator, more ++ keyword :: (before ++ part :: after),
        ⟨by rw [hparts, List.append_assoc, List.cons_append], ?_, eq_of_beq hdecorator,
          fun c hc => ?_⟩⟩)
      · exact hasExported_iff.mpr ⟨part, by rw [hparts]; simp, hexported⟩
      · exact (hlead c (by simp [hc])).resolve_left (by simpa using hnone c hc)

theorem exportForm_of_unmarked (h : isMarkedExport t = false) :
    exportForm t =
      match exportDecorator? t, t.part? .declaration, t.part? .value with
      | some decorator, _, _ => .decorated decorator
      | none, some declaration, _ => .declaration declaration
      | none, none, some value => .value value
      | none, none, none => if t.hasToken "=" then .assignment else .names := by
  unfold exportForm
  exact if_neg fun hmarked => Bool.false_ne_true (h.symm.trans hmarked)

/-- An export that gives no part assigns to all exports, or gives names. -/
theorem exportForm_of_names (hunmarked : isMarkedExport t = false)
    (hplain : ∀ c ∈ t.children, c.kind ≠ .decorator ∧ ¬IsExported c) :
    exportForm t = if t.hasToken "=" then .assignment else .names := by
  rw [exportForm_of_unmarked hunmarked, exportDecorator?_eq_none fun c hc => (hplain c hc).1,
    part?_eq_none fun c hc he => (hplain c hc).2 (.inl he),
    part?_eq_none fun c hc he => (hplain c hc).2 (.inr he)]

theorem opens_of_names (h : t.kind = .exportStatement) (hunmarked : isMarkedExport t = false)
    (hplain : ∀ c ∈ t.children, c.kind ≠ .decorator ∧ ¬IsExported c) (before : List Tree)
    (c : Tree) : opens t before c = (t.hasToken "=" && isFirstNamed before c) := by
  have hnone : hasExported t = false := by
    rw [← Bool.not_eq_true, hasExported_iff]
    rintro ⟨c, hc, hexported⟩
    exact (hplain c hc).2 hexported
  rw [opens_export h, hunmarked, hnone]
  rfl

/-- The part is what is found in its role. -/
theorem GivesPart.find? {after : List Tree} {part : Tree} {f : Syntax.Field}
    (h : GivesPart t before part after) (hf : part.field = some f) :
    t.children.find? (fun c => c.field == some f) = some part := by
  have hbefore : before.find? (fun c => c.field == some f) = none :=
    List.find?_eq_none.mpr fun c hc => by simp [(h.before c hc).2]
  rw [h.parts, List.find?_append, hbefore, List.find?_cons_of_pos (by simp [hf])]
  rfl

/-- An export of one part gives a declaration or a value, which is found in its role. -/
theorem GivesPart.exportForm {after : List Tree} {part : Tree}
    (h : GivesPart t before part after) (hunmarked : isMarkedExport t = false) :
    (exportForm t = .declaration part ∧
      t.children.find? (fun c => c.field == some .declaration) = some part) ∨
    exportForm t = .value part ∧
      t.children.find? (fun c => c.field == some .value) = some part := by
  have hundecorated : exportDecorator? t = none := by
    refine exportDecorator?_eq_none fun c hc => ?_
    rw [h.parts] at hc
    rcases List.mem_append.mp hc with hc | hc
    · exact kind_ne_decorator_of_quiet (h.before c hc).1
    · rcases List.mem_cons.mp hc with rfl | hc
      · exact h.kind
      · exact kind_ne_decorator_of_quiet (h.after c hc).1
  rw [exportForm_of_unmarked hunmarked, hundecorated]
  by_cases hf : part.field = some .declaration
  · have hdecl : t.part? .declaration = some part := h.find? hf
    rw [hdecl]
    exact .inl ⟨rfl, h.find? hf⟩
  · have hv : part.field = some .value := h.exported.resolve_left hf
    have hdecl : t.part? .declaration = none := by
      refine part?_eq_none fun c hc he => ?_
      rw [h.parts] at hc
      rcases List.mem_append.mp hc with hc | hc
      · cases (h.before c hc).2.symm.trans he
      · rcases List.mem_cons.mp hc with rfl | hc
        · exact hf he
        · cases (h.after c hc).2.symm.trans he
    have hvalue : t.part? .value = some part := h.find? hv
    rw [hdecl, hvalue]
    exact .inr ⟨rfl, h.find? hv⟩

theorem GivesPart.opens {after : List Tree} {part : Tree} (h : GivesPart t before part after)
    (hkind : t.kind = .exportStatement) (hunmarked : isMarkedExport t = false)
    (before : List Tree) (c : Tree) : opens t before c = true := by
  have hexported : hasExported t = true := hasExported_iff.mpr ⟨part, by simp [h.parts], h.exported⟩
  rw [opens_export hkind, hunmarked, hexported]
  rfl

theorem HasDecorator.exportForm {comments rest : List Tree} {decorator : Tree}
    (h : HasDecorator t comments decorator rest) (hunmarked : isMarkedExport t = false) :
    exportForm t = .decorated decorator := by
  have hnamed : decorator.isNamed = true := by rw [Tree.isNamed, h.kind]; rfl
  have hnone : (comments.filter Tree.isNamed).find? (·.kind == .decorator) = none :=
    List.find?_eq_none.mpr fun c hc => by simp [(h.comments c (List.mem_filter.mp hc).1).kind]
  have hfirst : exportDecorator? t = some decorator := by
    rw [exportDecorator?, Tree.named, h.parts, List.filter_append, List.filter_cons_of_pos hnamed,
      List.find?_append, hnone, List.find?_cons_of_pos (by simp [h.kind])]
    rfl
  rw [exportForm_of_unmarked hunmarked, hfirst]

theorem comesTo_of_marked (h : t.kind = .exportStatement) (hmarked : isMarkedExport t = true) :
    ComesTo (emit src following t) (verdict src (walk t)) := by
  have hform : exportForm t = .typeOnly := if_pos hmarked
  rw [verdict_shut_export h fun before c => by rw [opens_export h, hmarked]; rfl,
    emit_export h, hform]
  rfl

/-- An export with decorators cannot be emitted. -/
theorem comesTo_of_decorated {comments rest : List Tree} {decorator : Tree}
    (h : t.kind = .exportStatement) (hunmarked : isMarkedExport t = false)
    (hdecorator : HasDecorator t comments decorator rest) :
    ComesTo (emit src following t) (verdict src (walk t)) := by
  have hopens (before : List Tree) (c : Tree) : opens t before c = true := by
    rw [opens_export h, hunmarked, hdecorator.exported]
    rfl
  have hrefusal : refusal? src decorator =
      some (.unsupported .decorator (decorator.position src)) := by
    rw [refusal?, hdecorator.kind]
    rfl
  rw [emit_export h, hdecorator.exportForm hunmarked, walk_eq, walkParts_of_open hopens,
    hdecorator.parts, verdict_cons_export h, List.flatMap_append,
    verdict_behind_quiet fun c hc => (hdecorator.comments c hc).isQuiet, List.flatMap_cons,
    walk_eq decorator, List.cons_append, verdict_of_refusal hrefusal]
  rfl

section

variable (h : t.kind = .exportStatement) (hunmarked : isMarkedExport t = false)
  (ih : ∀ c ∈ t.children, ∀ following, ComesTo (emit src following c) (verdict src (walk c)))

include h hunmarked ih

/-- An export that gives no part: it assigns to all exports, or gives names. -/
theorem comesTo_of_names (hplain : ∀ c ∈ t.children, c.kind ≠ .decorator ∧ ¬IsExported c) :
    ComesTo (emit src following t) (verdict src (walk t)) := by
  have hopens := opens_of_names h hunmarked hplain
  rw [emit_export h, exportForm_of_names hunmarked hplain]
  cases heq : t.hasToken "=" with
  | false =>
    rw [verdict_shut_export h fun before c => by rw [hopens, heq]; rfl]
    rfl
  | true =>
    have hfirst (before : List Tree) (c : Tree) : opens t before c = isFirstNamed before c := by
      rw [hopens, heq, Bool.true_and]
    rw [walk_eq, walkParts_of_first hfirst, verdict_cons_export h, if_pos rfl]
    dsimp only
    cases hfind : t.children.find? Tree.isNamed with
    | none => rfl
    | some value => exact comesTo_map (emitFirst_comesTo hfind ih) fun _ => rfl

/-- An export that gives a declaration or a value, and has no decorators. -/
theorem comesTo_of_given {after : List Tree} {part : Tree}
    (hgives : GivesPart t before part after) :
    ComesTo (emit src following t) (verdict src (walk t)) := by
  rw [walk_eq, walkParts_of_open (hgives.opens h hunmarked), verdict_cons_export h, hgives.parts,
    verdict_among_quiet (fun c hc => (hgives.before c hc).1) (fun c hc => (hgives.after c hc).1),
    emit_export h]
  rcases hgives.exportForm hunmarked with ⟨hform, hfind⟩ | ⟨hform, hfind⟩
  · rw [hform]
    dsimp only
    split
    · rename_i hdropped
      have hshut : isShut part = true := by rw [isShut, hdropped]
      rw [walk_eq, walkParts_of_shut (opens_of_shut hshut), verdict_silent (isSilent_of_shut hshut)]
      rfl
    · exact comesTo_map (emitFirst_comesTo hfind ih) fun inner =>
        or_nothing (Needs.of (modules ++ ofEdit (.removal t.start part.start) ++ inner))
  · rw [hform]
    exact comesTo_map (emitFirst_comesTo hfind ih) fun _ => rfl

end

/-- An export comes to what its walk comes to, whatever its form. -/
theorem comesTo_of_export (hform : Syntax.ExportForm s t) (h : t.kind = .exportStatement)
    (ih : ∀ c ∈ t.children, ∀ following,
      ComesTo (emit src following c) (verdict src (walk c))) :
    ComesTo (emit src following t) (verdict src (walk t)) := by
  cases hmarked : isMarkedExport t with
  | true => exact comesTo_of_marked h hmarked
  | false =>
    rcases export_cases hform with hplain | ⟨_, _, _, hgives⟩ | ⟨_, _, _, hdecorator⟩
    · exact comesTo_of_names h hmarked ih hplain
    · exact comesTo_of_given h hmarked ih hgives
    · exact comesTo_of_decorated h hmarked hdecorator

/-- **Emission of a tree** comes to the verdict of its walk. -/
theorem emit_verdict (ht : AllFormed s t) (following : List Tree) :
    ComesTo (emit (.ofString s) following t) (verdict (.ofString s) (walk t)) := by
  induction t using Tree.induction generalizing following with
  | step t hall =>
    have ih (c : Tree) (hc : c ∈ t.children) (following : List Tree) :
        ComesTo (emit (.ofString s) following c) (verdict (.ofString s) (walk c)) :=
      hall c hc (ht.child hc) following
    by_cases hd : descends t = true
    · exact comesTo_of_descends ih hd
    by_cases hs : isShut t = true
    · exact comesTo_of_shut hs
    cases htreat : treatment t.kind with
    | refused construct => exact comesTo_of_refused htreat
    | cast => exact comesTo_of_cast ih htreat
    | enumDecl => exact comesTo_of_enum ht (kind_of_enum htreat)
    | importStatement => exact comesTo_of_import (kind_of_import htreat)
    | exportStatement =>
      have hkind := kind_of_export htreat
      have hform := ht.self.form
      rw [Syntax.Form, hkind] at hform
      exact comesTo_of_export hform hkind ih
    | _ => simp [descends, isShut, htreat] at hd hs <;> simp [hd] at hs

/-! ## 5. The edits of a walk -/

/-- What is on a walk through parts is on the walk through one of them, which is open. -/
theorem exists_of_mem_walkParts (h : c ∈ walkParts n before parts) :
    ∃ pre part post, parts = pre ++ part :: post ∧ opens n (before ++ pre) part = true ∧
      c ∈ walk part := by
  induction parts generalizing before with
  | nil => exact absurd h List.not_mem_nil
  | cons d ds ih =>
    rw [walkParts] at h
    rcases List.mem_append.mp h with h | h
    · split at h
      · rename_i hopen
        exact ⟨[], d, ds, rfl, by rwa [List.append_nil], h⟩
      · exact absurd h List.not_mem_nil
    · obtain ⟨pre, part, post, rfl, hopen, hmem⟩ := ih h
      exact ⟨d :: pre, part, post, rfl, by rwa [List.append_assoc] at hopen, hmem⟩

/-- The first part that is no keyword is found as such. -/
theorem find?_of_isFirstNamed {post : List Tree} (h : isFirstNamed before c = true) :
    (before ++ c :: post).find? Tree.isNamed = some c := by
  rw [isFirstNamed, Bool.and_eq_true, List.all_eq_true] at h
  have hnone : before.find? Tree.isNamed = none :=
    List.find?_eq_none.mpr fun d hd => by simpa using h.2 d hd
  rw [List.find?_append, hnone, List.find?_cons_of_pos h.1]
  rfl

/-- The edits of the part `c` are among those of `e`. -/
def Carries (src : Source) (c : Tree) (e : Emission) : Prop :=
  ∃ following inner, emit src following c = .ok inner ∧ ∀ x ∈ inner.edits, x ∈ e.edits

/-- What is done with the emission of a part keeps its edits. -/
theorem Carries.of_emitFirst {p : Tree → Bool} {e : Emission} {f : Emission → Emission}
    (hfind : t.children.find? p = some c) (he : (emitFirst src p t.children).map f = .ok e)
    (hf : ∀ inner x, x ∈ inner.edits → x ∈ (f inner).edits) : Carries src c e := by
  obtain ⟨inner, hinner, rfl⟩ := exists_of_map_ok he
  obtain ⟨_, after, _, _, hemit⟩ := exists_of_emitFirst hfind hinner
  exact ⟨after, inner, hemit, fun x hx => hf inner x hx⟩

/-- An open part is a leaf without edits, or goes as a whole with the tree around it, or its edits
    are among those of this tree. -/
def Passes (src : Source) (c : Tree) (e : Emission) : Prop :=
  IsQuiet c ∨ isShut c = true ∨ Carries src c e

section

variable {e : Emission} {post : List Tree} (he : emit src following t = .ok e)
  (hparts : t.children = before ++ c :: post) (hopen : opens t before c = true)

include he hparts

theorem passes_of_descends (h : descends t = true) : Passes src c e := by
  rw [emit_of_descends h] at he
  obtain ⟨all, hall, rfl⟩ := exists_of_map_ok he
  rw [hparts] at hall
  obtain ⟨inner, hinner, hmem⟩ := exists_of_emitAll hall
  exact .inr (.inr ⟨post, inner, hinner, fun x hx => List.mem_append_right _ (hmem x hx)⟩)

include hopen

theorem passes_of_cast (h : treatment t.kind = .cast) : Passes src c e := by
  have hfirst : isFirstNamed before c = true := by
    unfold opens at hopen
    revert h hopen
    cases t.kind <;> simp [treatment]
  have hfind : t.children.find? Tree.isNamed = some c := hparts ▸ find?_of_isFirstNamed hfirst
  rw [emit_cast h, hfind] at he
  exact .inr (.inr (.of_emitFirst hfind he fun inner x hx => List.mem_append_right _ hx))

theorem passes_of_export (hform : Syntax.ExportForm s t) (h : t.kind = .exportStatement) :
    Passes src c e := by
  have hunmarked : isMarkedExport t = false := by
    rw [opens_export h, Bool.and_eq_true, Bool.not_eq_true'] at hopen
    exact hopen.1
  rw [emit_export h] at he
  rcases export_cases hform with hplain | ⟨_, part, _, hgives⟩ | ⟨_, _, _, hdecorator⟩
  · rw [opens_of_names h hunmarked hplain, Bool.and_eq_true] at hopen
    have hfind : t.children.find? Tree.isNamed = some c := hparts ▸ find?_of_isFirstNamed hopen.2
    rw [exportForm_of_names hunmarked hplain, if_pos hopen.1, hfind] at he
    exact .inr (.inr (.of_emitFirst hfind he fun inner x hx => List.mem_append_right _ hx))
  · have hc : c ∈ t.children := by simp [hparts]
    rw [hgives.parts] at hc
    rcases List.mem_append.mp hc with hc | hc
    · exact .inl (hgives.before c hc).1
    rcases List.mem_cons.mp hc with rfl | hc
    · rcases hgives.exportForm hunmarked with ⟨hvalue, hfind⟩ | ⟨hvalue, hfind⟩
      · rw [hvalue] at he
        dsimp only at he
        split at he
        · rename_i hdropped
          exact .inr (.inl (by rw [isShut, hdropped]))
        · refine .inr (.inr (.of_emitFirst hfind he fun inner x hx => ?_))
          exact List.mem_append_left _ (List.mem_append_right _ hx)
      · rw [hvalue] at he
        exact .inr (.inr (.of_emitFirst hfind he fun inner x hx => List.mem_append_right _ hx))
    · exact .inl (hgives.after c hc).1
  · rw [hdecorator.exportForm hunmarked] at he
    cases he

/-- **Open parts** pass their edits on. -/
theorem passes_of_open (ht : AllFormed s t) : Passes src c e := by
  by_cases hd : descends t = true
  · exact passes_of_descends he hparts hd
  by_cases hs : isShut t = true
  · rw [opens_of_shut hs] at hopen
    cases hopen
  have hform := ht.self.form
  cases htreat : treatment t.kind with
  | refused construct =>
    obtain ⟨kind, role, start, stop, parts⟩ := t
    dsimp only [Tree.kind] at htreat
    rw [emit, htreat] at he
    cases he
  | cast => exact passes_of_cast he hparts hopen htreat
  | enumDecl =>
    have hkind := kind_of_enum htreat
    rw [Syntax.Form, hkind] at hform
    rw [opens, hkind] at hopen
    exact .inl (hform c (by simp [hparts]) (by simpa using hopen))
  | importStatement =>
    rw [opens, kind_of_import htreat] at hopen
    cases hopen
  | exportStatement =>
    have hkind := kind_of_export htreat
    rw [Syntax.Form, hkind] at hform
    exact passes_of_export he hparts hopen hform hkind
  | _ => simp [descends, isShut, htreat] at hd hs <;> simp [hd] at hs

end

/-- **Edits on the walk**: those of an enum, an import or an export on the walk through a tree are
    among the edits of the tree. -/
theorem carries_of_mem_walk {e : Emission} (ht : AllFormed s t) (hn : n ∈ walk t)
    (hspeaks : (treatment n.kind).speaks = true) (he : emit src following t = .ok e) :
    Carries src n e := by
  induction t using Tree.induction generalizing following e with
  | step t ih =>
    rw [walk_eq] at hn
    rcases List.mem_cons.mp hn with rfl | hn
    · exact ⟨following, e, he, fun x hx => hx⟩
    obtain ⟨pre, part, post, hparts, hopen, hn⟩ := exists_of_mem_walkParts hn
    have hmem : part ∈ t.children := by simp [hparts]
    rcases passes_of_open he hparts hopen ht with hquiet | hshut | ⟨_, inner, hinner, hedits⟩
    · rw [walk_of_leaf hquiet.1] at hn
      obtain rfl := List.mem_singleton.mp hn
      rw [speaks_of_quiet hquiet] at hspeaks
      cases hspeaks
    · rw [walk_eq, walkParts_of_shut (opens_of_shut hshut)] at hn
      obtain rfl := List.mem_singleton.mp hn
      rw [speaks_of_shut hshut] at hspeaks
      cases hspeaks
    · obtain ⟨after, own, hown, hsub⟩ := ih part hmem (ht.child hmem) hn hinner
      exact ⟨after, own, hown, fun x hx => hedits x (hsub x hx)⟩

/-! ## 6. Emission of a program -/

theorem kind_of_ofSource {root : Tree} (h : Tree.ofSource src = .ok root) :
    root.kind = .program := by
  unfold Tree.ofSource at h
  dsimp only at h
  split at h
  · cases h
    exact Syntax.kind_withComments _ _
  · cases h

theorem emit_program {root : Tree} (h : Tree.ofSource src = .ok root) :
    emit src following root = emitAll src root.children :=
  emit_kept (by rw [kind_of_ofSource h]; rfl)

/-- **Emission of a program** comes to the verdict of its walk. -/
theorem emitAll_verdict {root : Tree} (h : Tree.ofSource (.ofString s) = .ok root) :
    ComesTo (emitAll (.ofString s) root.children) (verdict (.ofString s) (walk root)) := by
  have hverdict := emit_verdict (Syntax.allFormed_ofSource h) []
  rwa [emit_program h] at hverdict

/-- The script of a text with a tree is that of the tree. -/
theorem ofText_eq {root : Tree} (h : Tree.ofSource (.ofString s) = .ok root) :
    Script.ofText s = Script.ofTree (.ofString s) root := by
  unfold Script.ofText
  dsimp only
  rw [h]

theorem verdict_eq_error_iff {ts : List Tree} {e : EmissionError} :
    verdict src ts = .error e ↔ ts.findSome? (refusal? src) = some e := by
  unfold verdict
  cases ts.findSome? (refusal? src) <;> simp

theorem eq_error_iff_of_comesTo {x : Except EmissionError Emission}
    {v : Except EmissionError Needs} {e : EmissionError} (h : ComesTo x v) :
    x = .error e ↔ v = .error e := by
  rw [← h]
  cases x <;> simp [Except.map]

/-- **A text has no script** exactly if a tree of the walk refuses it; the error is that of the
    first one. -/
theorem ofText_eq_error_iff {root : Tree} (h : Tree.ofSource (.ofString s) = .ok root)
    (e : EmissionError) :
    Script.ofText s = .error e ↔ (walk root).findSome? (refusal? (.ofString s)) = some e := by
  rw [ofText_eq h, ← verdict_eq_error_iff, ← eq_error_iff_of_comesTo (emitAll_verdict h),
    Script.ofTree]
  cases emitAll (.ofString s) root.children <;> simp [Except.map]

/-- **What is needed of a script** is what the trees of the walk need. -/
theorem needs_of_ofText {root : Tree} {script : String}
    (h : Tree.ofSource (.ofString s) = .ok root) (hscript : Script.ofText s = .ok script) :
    ∃ e, emitAll (.ofString s) root.children = .ok e ∧
      script = Script.header e ++ Edit.applyTo (.ofString s) e.edits ∧
      e.usesModules = (walk root).any isModular ∧
      e.importsDefault = (walk root).any (bindsDefault (.ofString s)) := by
  have hverdict := emitAll_verdict h
  rw [ofText_eq h] at hscript
  obtain ⟨e, hemit, rfl⟩ := exists_of_map_ok hscript
  rw [hemit] at hverdict
  unfold ComesTo verdict at hverdict
  refine ⟨e, hemit, rfl, ?_⟩
  split at hverdict
  · cases hverdict
  · have hneeds := Except.ok.inj hverdict
    exact ⟨congrArg Needs.modules hneeds, congrArg Needs.default hneeds⟩

end ClassScript.Emission
