/-
  File:      ClassScript/Proofs/Emission/Enum/Members.lean
  Subject:   Which members an enum assigns, and under which names.

  The lowered enum has one assignment for each part of its body with a name,
  in their order. The declared members are those of them that are no comments.
  So it assigns exactly the declared members as long as no comment stands
  among them; a comment among them is assigned too, under its text.

  An assignment names its member by a literal in double quotes, which has the
  text of the name without quotes at its ends. This denotes the name, unless
  the name was a literal that may not lose its quotes so.

  Nothing else in the body counts but the names and the values: what stands
  around them in a member may differ, and they may stand in other places.

  * `memberName?`, `nameUnits?`, `declaredMembers`: what the source declares;
  * `Assigns`, `assigns_bodyFrom`: an assignment is the one of a part;
  * `Tree.moved`, `pieces_of_copy`: a value in another place;
  * `SaysTheSame`, `assignments_of_same`: a member in another place;
  * `lowerEnum_assigns`: the lowered enum.
-/
import Mathlib.Data.List.Forall2
import ClassScript.Proofs.Emission.Enum.Counting
import ClassScript.Proofs.Script.TextLiteral
import ClassScript.Proofs.Syntax.Tree

namespace ClassScript.Syntax.Tree

mutual

/-- A tree `d` bytes further on. -/
def moved (d : Nat) : Tree → Tree
  | .node kind field start stop parts =>
    .node kind field (start + d) (stop + d) (movedParts d parts)

/-- Some trees `d` bytes further on. -/
def movedParts (d : Nat) : List Tree → List Tree
  | [] => []
  | c :: cs => moved d c :: movedParts d cs

end

variable (d : Nat) (t : Tree)

@[simp] theorem kind_moved : (t.moved d).kind = t.kind := by
  cases t
  rfl

@[simp] theorem isNamed_moved : (t.moved d).isNamed = t.isNamed := by
  cases t
  rfl

@[simp] theorem start_moved : (t.moved d).start = t.start + d := by
  cases t
  rfl

@[simp] theorem stop_moved : (t.moved d).stop = t.stop + d := by
  cases t
  rfl

end ClassScript.Syntax.Tree

namespace ClassScript.Emission

open Syntax (Source Tree Kind Field)
open Script (textLiteral? unitsFrom? textLiteral?_quoted MayRequote textLiteral?_requoted_iff)

variable {src src' : Source} {t : Tree}

/-! ## 1. Declared members and their names -/

/-- The name of a part of an enum's body: of a member with a value its first half, of another one
    all of it. -/
def memberName? (t : Tree) : Option Tree :=
  if t.kind = .enumAssignment then t.part? .name else some t

/-- The parts of an enum's body that have a name; comments are among them. -/
def namedParts (t : Tree) : List Tree := t.bodyParts.filter fun m => (memberName? m).isSome

/-- The members that an enum declares. -/
def declaredMembers (t : Tree) : List Tree := (namedParts t).filter (·.kind ≠ .comment)

/-- The code units of a member's name, which is a word or a literal. -/
def nameUnits? (src : Source) (name : Tree) : Option (List Nat) :=
  if name.kind = .stringLiteral then textLiteral? (name.text src).toList
  else if name.kind = .other "property_identifier" ∧ (name.text src).toList.any isQuote = false then
    unitsFrom? '"' 0 (name.text src).toList
  else none

/-- The name keeps its meaning if double quotes take the place of its own. -/
def KeepsMeaning (src : Source) (name : Tree) : Prop :=
  name.kind = .stringLiteral → MayRequote (name.text src).toList

instance (src : Source) (name : Tree) : Decidable (KeepsMeaning src name) :=
  inferInstanceAs (Decidable (_ → _))

/-- All parts with a name are declared exactly if no comment is among them. -/
theorem declaredMembers_eq_iff (t : Tree) :
    (declaredMembers t).length = (namedParts t).length ↔
      ∀ m ∈ t.bodyParts, m.kind ≠ .comment := by
  rw [declaredMembers, List.length_filter_eq_length_iff]
  constructor
  · intro h m hm hcomment
    have hnamed : m ∈ namedParts t :=
      List.mem_filter.mpr ⟨hm, by rw [memberName?, hcomment]; rfl⟩
    exact absurd hcomment (of_decide_eq_true (h m hnamed))
  · intro h m hm
    exact decide_eq_true (h m (List.mem_of_mem_filter hm))

/-! ## 2. The assignment of a part -/

/-- A key between double quotes. -/
def keyLiteral (key : String) : List Char := '"' :: (key.toList ++ ['"'])

/-- The assignment `a` is the one of the part `m` of an enum's body. -/
structure Assigns (src : Source) (m : Tree) (a : Assignment) : Prop where
  /-- It is under the text of the name without quotes at its ends. -/
  key : ∀ name, memberName? m = some name → a.key = Text.strip isQuote (name.text src)
  /-- Its line assigns to the property that the literal names. -/
  line : ∀ enum, ∃ before after,
    a.line enum = before ++ enum ++ "[" ++ String.ofList (keyLiteral a.key) ++ "] = " ++ after
  /-- The literal denotes the name exactly if the name keeps its meaning. -/
  denotes : ∀ name units, memberName? m = some name → nameUnits? src name = some units →
    (textLiteral? (keyLiteral a.key) = some units ↔ KeepsMeaning src name)

/-- **The name in double quotes** denotes what it did exactly if it keeps its meaning. -/
theorem textLiteral?_of_nameUnits? {name : Tree} {units : List Nat}
    (h : nameUnits? src name = some units) :
    textLiteral? (keyLiteral (Text.strip isQuote (name.text src))) = some units ↔
      KeepsMeaning src name := by
  unfold KeepsMeaning Text.strip
  rw [keyLiteral, String.toList_ofList]
  unfold nameUnits? at h
  by_cases hliteral : name.kind = .stringLiteral
  · rw [if_pos hliteral] at h
    rw [textLiteral?_requoted_iff h]
    exact ⟨fun hmay _ => hmay, fun hmay => hmay hliteral⟩
  · rw [if_neg hliteral] at h
    split at h
    · rename_i hword
      have hplain : ∀ c ∈ (name.text src).toList, isQuote c = false := fun c hc =>
        Bool.eq_false_iff.mpr (List.any_eq_false.mp hword.2 c hc)
      rw [Text.stripBoth_of_ends (fun c hc => hplain c (List.mem_of_mem_head? hc))
        fun c hc => hplain c (List.mem_of_getLast? hc), textLiteral?_quoted rfl]
      exact iff_of_true h fun hkind => absurd hkind hliteral
    · cases h

/-- A line assigns to the property that the literal of its assignment names. -/
theorem exists_of_line (a : Assignment) (enum : String) :
    ∃ before after,
      a.line enum =
        before ++ enum ++ "[" ++ String.ofList (keyLiteral a.key) ++ "] = " ++ after := by
  have hliteral : String.ofList (keyLiteral a.key) = "\"" ++ a.key ++ "\"" := by
    apply String.toList_injective
    simp [keyLiteral]
  rw [hliteral]
  by_cases hback : a.mapsBack = true
  · refine ⟨enum ++ "[", a.value.text enum ++ "] = \"" ++ a.key ++ "\";", ?_⟩
    simp only [Assignment.line, hback, if_true]
    apply String.toList_injective
    simp
  · refine ⟨"", a.value.text enum ++ ";", ?_⟩
    simp only [Assignment.line, hback]
    apply String.toList_injective
    simp

/-- What a member is made of: it has the key of its part. -/
theorem key_of_ofTree? {members : List String} {m : Tree} {e : EnumMember}
    (h : EnumMember.ofTree? src members m = some e) :
    ∃ name, memberName? m = some name ∧ e.key = Text.strip isQuote (name.text src) := by
  obtain ⟨key, hkey, rfl⟩ := Option.map_eq_some_iff.mp h
  obtain ⟨name, hname, rfl⟩ := Option.map_eq_some_iff.mp hkey
  exact ⟨name, hname, rfl⟩

/-- **The assignments of parts**, from any counter on. -/
theorem assigns_bodyFrom {members : List String} {parts : List Tree} {ms : List EnumMember}
    (h : List.Forall₂ (fun m e => EnumMember.ofTree? src members m = some e) parts ms)
    (counter : Counter) : List.Forall₂ (Assigns src) parts (bodyFrom counter ms) := by
  induction h generalizing counter with
  | nil => exact .nil
  | @cons m e parts ms hm _ ih =>
    obtain ⟨name, hname, hkey⟩ := key_of_ofTree? hm
    refine .cons ⟨fun name' hname' => ?_, exists_of_line _, fun name' units hname' hunits => ?_⟩
      (ih (counter.next e))
    · rw [hname] at hname'
      obtain rfl := Option.some.inj hname'
      exact hkey
    · rw [hname] at hname'
      obtain rfl := Option.some.inj hname'
      show textLiteral? (keyLiteral e.key) = some units ↔ _
      rw [hkey]
      exact textLiteral?_of_nameUnits? hunits

/-- The members of an enum are those of its parts with a name. -/
theorem forall₂_enumMembers (src : Source) (t : Tree) :
    List.Forall₂
      (fun m e => EnumMember.ofTree? src (t.bodyParts.filterMap (memberKey? src)) m = some e)
      (namedParts t) (enumMembers src t) := by
  unfold namedParts
  show List.Forall₂ _ _ (t.bodyParts.filterMap (EnumMember.ofTree? src _))
  generalize t.bodyParts.filterMap (memberKey? src) = members
  induction t.bodyParts with
  | nil => exact .nil
  | cons m parts ih =>
    rw [List.filter_cons, List.filterMap_cons]
    cases hname : memberName? m with
    | none =>
      have hmember : EnumMember.ofTree? src members m = none := by
        show ((memberName? m).map _).map _ = none
        rw [hname]
        rfl
      rw [hmember]
      exact ih
    | some name =>
      have hmember : EnumMember.ofTree? src members m =
          some ⟨Text.strip isQuote (name.text src), m.position src, givenValue src members m⟩ := by
        show ((memberName? m).map _).map _ = _
        rw [hname]
        rfl
      rw [hmember]
      exact .cons hmember ih

/-! ## 3. A value in another place -/

mutual

/-- The references in a tree that is moved. -/
theorem referencesIn_moved (d : Nat) : ∀ t : Tree,
    referencesIn (t.moved d) = (referencesIn t).map (Tree.moved d)
  | .node kind field start stop parts => by
    rw [Tree.moved, referencesIn, referencesIn]
    by_cases hname : kind = .identifier
    · rw [if_pos hname, if_pos hname]
      rfl
    · rw [if_neg hname, if_neg hname]
      by_cases hfunction :
          kind = .arrowFunction ∨ kind = .functionExpression ∨ kind = .classExpression
      · rw [if_pos hfunction, if_pos hfunction]
        rfl
      · rw [if_neg hfunction, if_neg hfunction]
        exact referencesInParts_moved d parts

/-- The references in parts that are moved. -/
theorem referencesInParts_moved (d : Nat) : ∀ ts : List Tree,
    referencesInParts (Tree.movedParts d ts) = (referencesInParts ts).map (Tree.moved d)
  | [] => rfl
  | c :: cs => by
    rw [Tree.movedParts, referencesInParts, referencesInParts, List.map_append,
      ← referencesInParts_moved d cs, Tree.isNamed_moved]
    by_cases hnamed : c.isNamed = true
    · rw [if_pos hnamed, if_pos hnamed, referencesIn_moved d c]
    · rw [if_neg hnamed, if_neg hnamed]
      rfl

end

mutual

/-- The references in a tree are trees in it. -/
theorem mem_nodes_of_mem_referencesIn {r : Tree} : ∀ t : Tree, r ∈ referencesIn t → r ∈ t.nodes
  | .node kind field start stop parts => fun h => by
    rw [referencesIn] at h
    split at h
    · rw [List.mem_singleton.mp h]
      exact Tree.mem_nodes_self _
    · split at h
      · cases h
      · exact List.mem_cons_of_mem _ (mem_nodesOfAll_of_mem_referencesInParts parts h)

/-- The references in parts are trees in them. -/
theorem mem_nodesOfAll_of_mem_referencesInParts {r : Tree} : ∀ ts : List Tree,
    r ∈ referencesInParts ts → r ∈ Tree.nodesOfAll ts
  | [] => nofun
  | c :: cs => fun h => by
    rw [referencesInParts] at h
    rcases List.mem_append.mp h with h | h
    · split at h
      · exact List.mem_append_left _ (mem_nodes_of_mem_referencesIn c h)
      · cases h
    · exact List.mem_append_right _ (mem_nodesOfAll_of_mem_referencesInParts cs h)

end

/-- The tree `v'` is `v` further on, in another text that is the same in its place. -/
structure IsCopy (src src' : Source) (v v' : Tree) (d : Nat) : Prop where
  moved : v' = v.moved d
  around : ∀ n ∈ v.nodes, v.start ≤ n.start ∧ n.start ≤ n.stop ∧ n.stop ≤ v.stop
  text : ∀ a b, v.start ≤ a → b ≤ v.stop → src'.text (a + d) (b + d) = src.text a b

variable {v v' : Tree} {d : Nat}

theorem IsCopy.text_eq (h : IsCopy src src' v v' d) : v'.text src' = v.text src := by
  rw [h.moved]
  show src'.text _ _ = src.text v.start v.stop
  rw [Tree.start_moved, Tree.stop_moved]
  exact h.text _ _ (Nat.le_refl _) (Nat.le_refl _)

/-- **A value in another place** has the same pieces. -/
theorem pieces_of_copy (h : IsCopy src src' v v' d) (members : List String) :
    pieces src' members v' = pieces src members v := by
  have hfrom : ∀ (refs : List Tree) (start : Nat), v.start ≤ start → (∀ r ∈ refs, r ∈ v.nodes) →
      piecesFrom src' members (v.stop + d) (start + d) (refs.map (Tree.moved d)) =
        piecesFrom src members v.stop start refs := by
    -- on the references that are left; a copy starts where the last one that counts ends
    intro refs
    induction refs with
    | nil =>
      intro start hstart _
      rw [List.map_nil, piecesFrom, piecesFrom, h.text start v.stop hstart (Nat.le_refl _)]
    | cons r refs ih =>
      intro start hstart hrefs
      have hrest : ∀ r ∈ refs, r ∈ v.nodes := fun x hx => hrefs x (List.mem_cons_of_mem r hx)
      obtain ⟨hlow, hle, hhigh⟩ := h.around r (hrefs r List.mem_cons_self)
      have hname : (r.moved d).text src' = r.text src := by
        show src'.text _ _ = src.text r.start r.stop
        rw [Tree.start_moved, Tree.stop_moved, h.text _ _ hlow hhigh]
      rw [List.map_cons, piecesFrom, piecesFrom, hname, Tree.start_moved, Tree.stop_moved,
        h.text start r.start hstart (by omega), ih start hstart hrest,
        ih r.stop (by omega) hrest]
  unfold pieces
  rw [h.moved, Tree.start_moved, Tree.stop_moved, referencesIn_moved]
  exact hfrom _ _ (Nat.le_refl _) fun r hr => mem_nodes_of_mem_referencesIn v hr

/-! ## 4. A member in another place -/

/-- Two members differ in nothing but their positions. -/
structure EnumMember.SameAs (e e' : EnumMember) : Prop where
  key : e'.key = e.key
  given : e'.given = e.given

/-- The part `m'` of another text has the same name and the same value as the part `m`. -/
structure SaysTheSame (src src' : Source) (m m' : Tree) : Prop where
  kind : m'.kind = m.kind
  name : (memberName? m').map (Tree.text src') = (memberName? m).map (Tree.text src)
  value : Option.Rel (fun v v' => ∃ d, IsCopy src src' v v' d) (m.part? .value) (m'.part? .value)

variable {m m' : Tree}

theorem SaysTheSame.memberKey?_eq (h : SaysTheSame src src' m m') :
    memberKey? src' m' = memberKey? src m := by
  have hkey (src : Source) (m : Tree) :
      memberKey? src m = ((memberName? m).map (Tree.text src)).map (Text.strip isQuote) := by
    rw [Option.map_map]
    rfl
  rw [hkey, hkey, h.name]

theorem SaysTheSame.givenValue_eq (h : SaysTheSame src src' m m') (members : List String) :
    givenValue src' members m' = givenValue src members m := by
  unfold givenValue
  rw [h.kind]
  by_cases hkind : m.kind = .enumAssignment
  · rw [if_pos hkind, if_pos hkind]
    have hvalue := h.value
    generalize m.part? .value = given at hvalue
    generalize m'.part? .value = given' at hvalue
    cases hvalue with
    | none => rfl
    | @some v v' hcopy =>
      obtain ⟨d, hcopy⟩ := hcopy
      have hkinds : v'.kind = v.kind := by rw [hcopy.moved, Tree.kind_moved]
      simp only [hkinds, hcopy.text_eq, pieces_of_copy hcopy]
  · rw [if_neg hkind, if_neg hkind]

theorem filterMap_memberKey?_of_same {parts parts' : List Tree}
    (h : List.Forall₂ (SaysTheSame src src') parts parts') :
    parts'.filterMap (memberKey? src') = parts.filterMap (memberKey? src) := by
  induction h with
  | nil => rw [List.filterMap_nil, List.filterMap_nil]
  | cons hm _ ih => rw [List.filterMap_cons, List.filterMap_cons, hm.memberKey?_eq, ih]

theorem forall₂_sameAs_of_same {members : List String} {parts parts' : List Tree}
    (h : List.Forall₂ (SaysTheSame src src') parts parts') :
    List.Forall₂ EnumMember.SameAs (parts.filterMap (EnumMember.ofTree? src members))
      (parts'.filterMap (EnumMember.ofTree? src' members)) := by
  induction h with
  | nil =>
    rw [List.filterMap_nil, List.filterMap_nil]
    exact .nil
  | @cons m m' _ _ hm _ ih =>
    rw [List.filterMap_cons, List.filterMap_cons, EnumMember.ofTree?, EnumMember.ofTree?,
      hm.memberKey?_eq]
    cases memberKey? src m with
    | none => exact ih
    | some key => exact .cons ⟨rfl, hm.givenValue_eq members⟩ ih

variable {e e' : EnumMember} {ms ms' : List EnumMember}

theorem EnumMember.SameAs.hasText_eq (h : e.SameAs e') : e'.hasText = e.hasText := by
  rw [hasText, hasText, h.given]

theorem EnumMember.SameAs.isBare_eq (h : e.SameAs e') : e'.isBare = e.isBare := by
  rw [isBare, isBare, h.given]

theorem EnumMember.SameAs.next_eq (h : e.SameAs e') (counter : Counter) :
    counter.next e' = counter.next e := by
  unfold Counter.next
  rw [h.key, h.given]

theorem EnumMember.SameAs.valueOf_eq (h : e.SameAs e') (counter : Counter) :
    counter.valueOf e' = counter.valueOf e := by
  unfold Counter.valueOf
  rw [h.given]

theorem bodyFrom_of_sameAs (h : List.Forall₂ EnumMember.SameAs ms ms') (counter : Counter) :
    bodyFrom counter ms' = bodyFrom counter ms := by
  induction h generalizing counter with
  | nil => rfl
  | cons he _ ih =>
    rw [bodyFrom, bodyFrom, he.key, he.valueOf_eq, he.hasText_eq, he.next_eq, ih]

theorem firstUncounted?_of_sameAs (h : List.Forall₂ EnumMember.SameAs ms ms')
    (hnone : firstUncounted? ms = none) : firstUncounted? ms' = none := by
  induction h with
  | nil => rfl
  | @cons e e' ms ms' he hrest ih =>
    cases hrest with
    | nil => rfl
    | @cons f f' ms ms' hf hrest =>
      rw [firstUncounted?] at hnone ⊢
      rw [he.hasText_eq, hf.isBare_eq]
      split at hnone
      · cases hnone
      · rename_i hcounted
        rw [if_neg hcounted]
        exact ih hnone

/-- **Names and values are all that counts**: members with the same ones elsewhere have the same
    assignments. -/
theorem assignments_of_same {t' : Tree} {body : List Assignment}
    (h : List.Forall₂ (SaysTheSame src src') t.bodyParts t'.bodyParts)
    (hbody : assignments (enumMembers src t) = .ok body) :
    assignments (enumMembers src' t') = .ok body := by
  have hsame : List.Forall₂ EnumMember.SameAs (enumMembers src t) (enumMembers src' t') := by
    have hkeys := filterMap_memberKey?_of_same h
    show List.Forall₂ _ (t.bodyParts.filterMap (EnumMember.ofTree? src _))
      (t'.bodyParts.filterMap (EnumMember.ofTree? src' _))
    rw [hkeys]
    exact forall₂_sameAs_of_same h
  have hnone : firstUncounted? (enumMembers src t) = none := by
    rw [assignments_eq] at hbody
    cases hfirst : firstUncounted? (enumMembers src t) with
    | none => rfl
    | some m => rw [hfirst] at hbody; cases hbody
  rw [assignments_eq, firstUncounted?_of_sameAs hsame hnone, bodyFrom_of_sameAs hsame,
    eq_bodyFrom_of_assignments hbody]
  rfl

/-! ## 5. The lowered enum -/

/-- **What an enum assigns.** If it can be lowered, each part of its body with a name has one
    assignment, in their order, by a literal that denotes the name exactly if it keeps its meaning
    in double quotes. These are the assignments of the declared members exactly if no comment
    stands among the parts. An enum of another text, whose parts have the same names and values,
    has the same assignments. -/
theorem lowerEnum_assigns {emission : Emission} (h : lowerEnum src t = .ok emission) :
    ∃ body text,
      emission = .ofEdit ⟨t.start, t.stop, text⟩ ∧
      IsEnumText (t.nameText src) (indentation src t) body text ∧
      List.Forall₂ (Assigns src) (namedParts t) body ∧
      (List.Forall₂ (Assigns src) (declaredMembers t) body ↔
        ∀ m ∈ t.bodyParts, m.kind ≠ .comment) ∧
      ∀ src' t', List.Forall₂ (SaysTheSame src src') t.bodyParts t'.bodyParts →
        assignments (enumMembers src' t') = .ok body := by
  unfold lowerEnum at h
  cases hbody : assignments (enumMembers src t) with
  | error e => rw [hbody] at h; cases h
  | ok body =>
    rw [hbody] at h
    have hassigns : List.Forall₂ (Assigns src) (namedParts t) body := by
      rw [eq_bodyFrom_of_assignments hbody]
      exact assigns_bodyFrom (forall₂_enumMembers src t) (.integer 0)
    refine ⟨body, _, (Except.ok.inj h).symm, isEnumText_iff.mpr rfl, hassigns,
      ⟨fun hdeclared => ?_, fun hcomments => ?_⟩,
      fun src' t' hsame => assignments_of_same hsame hbody⟩
    · rw [← declaredMembers_eq_iff, hdeclared.length_eq, hassigns.length_eq]
    · have hall : declaredMembers t = namedParts t :=
        List.filter_sublist.eq_of_length ((declaredMembers_eq_iff t).mpr hcomments)
      rwa [hall]

/-- An enum with a member in single quotes, one with a quote in its name, and a plain one. -/
def quotedText : String := "enum E \x7b 'a', \"it's\", C /* third */ = 4 \x7d"

/-- All names of the enum keep their meaning, and the comment stands in a member. -/
theorem lowerEnum_assigns_quoted :
    let src := Source.ofString quotedText
    let t := enumOf quotedText
    ∃ body text,
      lowerEnum src t = .ok (.ofEdit ⟨t.start, t.stop, text⟩) ∧
      IsEnumText (t.nameText src) (indentation src t) body text ∧
      List.Forall₂ (Assigns src) (declaredMembers t) body ∧
      (∀ m ∈ declaredMembers t, ∀ name ∈ memberName? m, KeepsMeaning src name) ∧
      body.length = 3 := by
  intro src t
  have htree : (lowerEnum src t).isOk = true ∧ (∀ m ∈ t.bodyParts, m.kind ≠ .comment) ∧
      (declaredMembers t).length = 3 ∧
      ∀ m ∈ declaredMembers t, ∀ name ∈ memberName? m, KeepsMeaning src name := by
    decide +kernel
  obtain ⟨hok, hcomments, hcount, hkeeps⟩ := htree
  cases he : lowerEnum src t with
  | error _ => rw [he] at hok; cases hok
  | ok emission =>
    obtain ⟨body, text, rfl, htext, _, hdeclared, _⟩ := lowerEnum_assigns he
    have hassigns := hdeclared.mpr hcomments
    exact ⟨body, text, rfl, htext, hassigns, hkeeps, hassigns.length_eq.symm.trans hcount⟩

/-- A comment between two members is assigned too, and the second one counts on from it. -/
theorem commented_enum_assigns_comment :
    assignmentsIn? "enum E\x7bA,B\x7d" =
        some [⟨"A", .integer 0, true⟩, ⟨"B", .integer 1, true⟩] ∧
      assignmentsIn? "enum E\x7bA,/*c*/B\x7d" =
        some [⟨"A", .integer 0, true⟩, ⟨"/*c*/", .integer 1, true⟩, ⟨"B", .integer 2, true⟩] ∧
      (declaredMembers (enumOf "enum E\x7bA,/*c*/B\x7d")).length = 2 := by
  decide +kernel

end ClassScript.Emission
