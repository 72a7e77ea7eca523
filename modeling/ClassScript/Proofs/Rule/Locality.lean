/-
  File:      ClassScript/Proofs/Rule/Locality.lean
  Subject:   Rules that look at one declaration at a time, and one that counts.

  Six of the unit rules put together what they find in single declarations. A
  file joined from two lists of declarations has the diagnostics of both: one
  after another where the rule goes through the file once, and in some order
  where it goes through it several times. The rule on exported classes counts
  them instead.

  * `Collects`, `Joins`: the two laws, with what makes them up;
  * `singlePublicClass_of_several`, `singlePublicClass_of_one`: the count;
  * `rule_locality_laws`: all seven rules.
-/
import ClassScript.Proofs.Rule.Silence

namespace ClassScript.Rules

/-! ## 1. Searches through lists of declarations -/

/-- In joined lists, `find` finds what it finds in one and then what it finds in the other. -/
def Joins (find : List Item → List Diagnostic) : Prop :=
  ∀ xs ys, find (xs ++ ys) = find xs ++ find ys

/-- In joined lists, `find` finds what it finds in both, in some order. -/
def Collects (find : List Item → List Diagnostic) : Prop :=
  ∀ xs ys, (find (xs ++ ys)).Perm (find xs ++ find ys)

variable {f g : List Item → List Diagnostic} {α : Type}

theorem Joins.collects (h : Joins f) : Collects f := fun xs ys => List.Perm.of_eq (h xs ys)

/-- One search after another: the second finds of the first list move behind its own. -/
theorem Collects.append (hf : Collects f) (hg : Collects g) :
    Collects fun items => f items ++ g items := by
  intro xs ys
  refine ((hf xs ys).append (hg xs ys)).trans ?_
  rw [List.append_assoc, List.append_assoc]
  exact (List.perm_append_comm_assoc (f ys) (g xs) (g ys)).append_left (f xs)

theorem joins_flatMap (pick : Item → Option α) (check : α → List Diagnostic) :
    Joins fun items => (items.filterMap pick).flatMap check := by
  intro xs ys
  show ((xs ++ ys).filterMap pick).flatMap check = _
  rw [List.filterMap_append, List.flatMap_append]

theorem joins_map (pick : Item → Option α) (report : α → Diagnostic) :
    Joins fun items => (items.filterMap pick).map report := by
  intro xs ys
  show ((xs ++ ys).filterMap pick).map report = _
  rw [List.filterMap_append, List.map_append]

/-! ## 2. The rules -/

/-- The diagnostics of a rule depend on the path and the declarations, by the search `find`. -/
def Searches (r : UnitRule) (loaded : List CompilationUnit) (path : FilePath)
    (find : List Item → List Diagnostic) : Prop :=
  ∀ text items, r.check loaded ⟨path, text, items⟩ = find items

/-- A file without declarations: diagnostics take from it the path only. -/
def emptyFile (path : FilePath) : CompilationUnit := ⟨path, "", []⟩

section

variable (loaded : List CompilationUnit) (path : FilePath)

/-- Functions before variables. -/
theorem noProceduralCode_collects :
    ∃ find, Collects find ∧ Searches noProceduralCode loaded path find := by
  have hvariables : Joins fun items =>
      ((items.filterMap Item.variableDecl?).flatMap (·.declarators)).map
        (straysVariable (emptyFile path)) := by
    intro xs ys
    show (((xs ++ ys).filterMap Item.variableDecl?).flatMap _).map _ = _
    rw [List.filterMap_append, List.flatMap_append, List.map_append]
  exact ⟨_, (joins_map Item.function? (straysFunction (emptyFile path))).collects.append
    hvariables.collects, fun _ _ => rfl⟩

/-- Names of classes, of interfaces and of enums before those of members. -/
theorem namingConvention_collects :
    ∃ find, Collects find ∧ Searches namingConvention loaded path find := by
  have hclasses := joins_flatMap Item.class? (checkClassName (emptyFile path))
  have hinterfaces := joins_flatMap Item.interface? fun i =>
    checkTypeName (emptyFile path) i.name i.position
  have henums := joins_flatMap Item.enum? fun e =>
    checkTypeName (emptyFile path) e.name e.position
  have hmembers := joins_flatMap Item.class? (checkMemberNames (emptyFile path))
  exact ⟨_, ((hclasses.collects.append hinterfaces.collects).append henums.collects).append
    hmembers.collects, fun _ _ => rfl⟩

theorem requireModifiers_joins :
    ∃ find, Joins find ∧ Searches requireModifiers loaded path find :=
  ⟨_, joins_flatMap Item.class? fun c => c.members.flatMap (checkModifier (emptyFile path)),
    fun _ _ => rfl⟩

theorem explicitTyping_joins :
    ∃ find, Joins find ∧ Searches explicitTyping loaded path find :=
  ⟨_, joins_flatMap Item.class? fun c => c.members.flatMap (checkTyping (emptyFile path)),
    fun _ _ => rfl⟩

theorem mainModifier_joins :
    ∃ find, Joins find ∧ Searches mainModifier loaded path find := by
  have hmains : Joins fun items =>
      ((items.filterMap Item.class?).filterMap ClassDecl.mainMethod?).flatMap
        (checkMain (emptyFile path)) := by
    intro xs ys
    show (((xs ++ ys).filterMap Item.class?).filterMap _).flatMap _ = _
    rw [List.filterMap_append, List.filterMap_append, List.flatMap_append]
  exact ⟨_, hmains, fun _ _ => rfl⟩

theorem interfaceImplementation_joins :
    ∃ find, Joins find ∧ Searches interfaceImplementation loaded path find :=
  ⟨_, joins_flatMap Item.class? fun c =>
      c.implemented.flatMap (checkReference loaded (emptyFile path) c),
    fun _ _ => rfl⟩

end

/-! ## 3. The rule that counts -/

variable {loaded : List CompilationUnit} {u : CompilationUnit}

/-- Of two or more exported classes, all but the first are reported, whatever the file's name. -/
theorem singlePublicClass_of_several (h : 2 ≤ (u.classes.filter (·.exported)).length) :
    singlePublicClass.check loaded u =
      (u.classes.filter (·.exported)).tail.map (surplusClass u) := by
  unfold singlePublicClass
  dsimp only
  generalize u.classes.filter (·.exported) = exported at h ⊢
  match exported, h with
  | _ :: _ :: _, _ => rfl

/-- One exported class has a diagnostic exactly when it has a name that is not the file's. -/
theorem singlePublicClass_of_one {c : ClassDecl} (h : u.classes.filter (·.exported) = [c]) :
    (singlePublicClass.check loaded u).length ≤ 1 ∧
      (singlePublicClass.check loaded u ≠ [] ↔
        ∃ name, c.name = some name ∧ u.baseName ≠ name ++ ".javats") := by
  constructor
  · unfold singlePublicClass
    dsimp only
    rw [h]
    dsimp only
    cases c.name with
    | none => exact Nat.zero_le 1
    | some name =>
      dsimp only
      unfold misnamedFile
      dsimp only
      split
      · exact Nat.zero_le 1
      · exact Nat.le_refl 1
  · rw [ne_eq, singlePublicClass_eq_nil_iff, h]
    constructor
    · intro hreported
      cases hname : c.name with
      | none =>
        refine absurd ⟨Nat.le_refl 1, fun d name hd hn => ?_⟩ hreported
        rw [← (List.cons.inj hd).1, hname] at hn
        cases hn
      | some name =>
        refine ⟨name, rfl, fun hbase => hreported ⟨Nat.le_refl 1, fun d other hd hn => ?_⟩⟩
        rw [← (List.cons.inj hd).1, hname] at hn
        cases hn
        exact hbase
    · rintro ⟨name, hname, hbase⟩ ⟨_, hnamed⟩
      exact hbase (hnamed c name rfl hname)

/-- The rules that go through the file once. -/
theorem joins_of_mem {r : UnitRule} (loaded : List CompilationUnit) (path : FilePath)
    (hr : r ∈ [requireModifiers, explicitTyping, mainModifier, interfaceImplementation]) :
    ∃ find, Joins find ∧ Searches r loaded path find := by
  simp only [List.mem_cons, List.not_mem_nil, or_false] at hr
  rcases hr with rfl | rfl | rfl | rfl
  · exact requireModifiers_joins loaded path
  · exact explicitTyping_joins loaded path
  · exact mainModifier_joins loaded path
  · exact interfaceImplementation_joins loaded path

/-- The rules that go through the file several times. -/
theorem collects_of_mem {r : UnitRule} (loaded : List CompilationUnit) (path : FilePath)
    (hr : r ∈ [noProceduralCode, namingConvention]) :
    ∃ find, Collects find ∧ Searches r loaded path find := by
  simp only [List.mem_cons, List.not_mem_nil, or_false] at hr
  rcases hr with rfl | rfl
  · exact noProceduralCode_collects loaded path
  · exact namingConvention_collects loaded path

/-- **Rules are local to declarations.** For any path, loaded files and two lists of declarations,
    with any texts, six rules report for the joined list what they report for the two: in some
    order, and those that go through the file once in this order. The rule on exported classes
    reports all of several but the first, one whose name is not the file's, and nothing where no
    class is exported. -/
theorem rule_locality_laws :
    (∀ loaded path text text₁ text₂ xs ys,
      (∀ r ∈ [noProceduralCode, namingConvention, requireModifiers, explicitTyping, mainModifier,
          interfaceImplementation],
        (r.check loaded ⟨path, text, xs ++ ys⟩).Perm
          (r.check loaded ⟨path, text₁, xs⟩ ++ r.check loaded ⟨path, text₂, ys⟩)) ∧
      ∀ r ∈ [requireModifiers, explicitTyping, mainModifier, interfaceImplementation],
        r.check loaded ⟨path, text, xs ++ ys⟩ =
          r.check loaded ⟨path, text₁, xs⟩ ++ r.check loaded ⟨path, text₂, ys⟩) ∧
    ∀ loaded u,
      (2 ≤ (u.classes.filter (·.exported)).length →
        singlePublicClass.check loaded u =
          (u.classes.filter (·.exported)).tail.map (surplusClass u)) ∧
      (∀ c, u.classes.filter (·.exported) = [c] →
        (singlePublicClass.check loaded u).length ≤ 1 ∧
          (singlePublicClass.check loaded u ≠ [] ↔
            ∃ name, c.name = some name ∧ u.baseName ≠ name ++ ".javats")) ∧
      (u.classes.filter (·.exported) = [] → singlePublicClass.check loaded u = []) := by
  refine ⟨fun loaded path text text₁ text₂ xs ys => ?_, fun loaded u =>
    ⟨singlePublicClass_of_several, fun c => singlePublicClass_of_one, fun h => ?_⟩⟩
  · have hjoins : ∀ r ∈ [requireModifiers, explicitTyping, mainModifier, interfaceImplementation],
        r.check loaded ⟨path, text, xs ++ ys⟩ =
          r.check loaded ⟨path, text₁, xs⟩ ++ r.check loaded ⟨path, text₂, ys⟩ := by
      intro r hr
      obtain ⟨find, hfind, hsearches⟩ := joins_of_mem loaded path hr
      rw [hsearches, hsearches, hsearches, hfind]
    have hcollects : ∀ r ∈ [noProceduralCode, namingConvention],
        (r.check loaded ⟨path, text, xs ++ ys⟩).Perm
          (r.check loaded ⟨path, text₁, xs⟩ ++ r.check loaded ⟨path, text₂, ys⟩) := by
      intro r hr
      obtain ⟨find, hfind, hsearches⟩ := collects_of_mem loaded path hr
      rw [hsearches, hsearches, hsearches]
      exact hfind xs ys
    refine ⟨fun r hr => ?_, hjoins⟩
    have hsplit := List.mem_append.mp
      (show r ∈ [noProceduralCode, namingConvention] ++ [_, _, _, _] from hr)
    rcases hsplit with hr | hr
    · exact hcollects r hr
    · exact List.Perm.of_eq (hjoins r hr)
  · unfold singlePublicClass
    dsimp only
    rw [h]

/-- A class of a name, at the start of a line. -/
def lineClass (name : String) (line : Nat) (exported : Bool) : Item :=
  .classItem ⟨some name, ⟨line, 1⟩, ⟨line, 7⟩, exported, false, none, [], []⟩

/-- The file `Deck.javats` with the classes `Deck`, `Card` and `Suit`, each exported or not. -/
def deckFile (deck card suit : Bool) : CompilationUnit where
  path := ⟨"Deck.javats"⟩
  text := ""
  items := [lineClass "Deck" 1 deck, lineClass "Card" 2 card, lineClass "Suit" 3 suit]

/-- Three exported classes give two diagnostics; the class `Card` alone does not fit the name of
    the file, and `Deck` does. -/
theorem rule_locality_laws_deck :
    (2 ≤ ((deckFile true true true).classes.filter (·.exported)).length ∧
      (singlePublicClass.check [] (deckFile true true true)).map (·.suggestion.getD "") =
        ["Move 'Card' into its own file", "Move 'Suit' into its own file"]) ∧
    singlePublicClass.check [] (deckFile false true false) ≠ [] ∧
    ¬ singlePublicClass.check [] (deckFile true false false) ≠ [] ∧
    singlePublicClass.check [] (deckFile false false false) = [] := by
  obtain ⟨_, hcount⟩ := rule_locality_laws
  have hthree : 2 ≤ ((deckFile true true true).classes.filter (·.exported)).length := by decide
  obtain ⟨_, hcard⟩ := (hcount [] (deckFile false true false)).2.1 _ rfl
  obtain ⟨_, hdeck⟩ := (hcount [] (deckFile true false false)).2.1 _ rfl
  refine ⟨⟨hthree, ?_⟩, hcard.mpr ⟨"Card", rfl, by decide +kernel⟩, fun h => ?_,
    (hcount [] (deckFile false false false)).2.2 rfl⟩
  · rw [(hcount [] (deckFile true true true)).1 hthree]
    decide +kernel
  · obtain ⟨name, hname, hbase⟩ := hdeck.mp h
    cases hname
    exact hbase (by decide +kernel)

end ClassScript.Rules
