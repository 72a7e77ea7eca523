/-
  File:      ClassScript/Proofs/Build/Violation.lean
  Subject:   Which violation the check before writing reports.

  The check makes up to three demands on a unit, and each of them is also the
  demand of a rule. It takes them in a fixed order and stops at the first one
  that the unit does not meet. Where the rule would list every member without
  access modifier, the check names one, and it is the one that the rule's list
  starts with.

  * `Demand`, `Demand.rule`: what the check may ask, and the rules for it;
  * `FirstLack`: the member that the rule on access modifiers starts with;
  * `recheck_eq_findSome?`: the check is a search for the first violation;
  * `recheck_first_violation`: its answer for every unit under all options.
-/
import ClassScript.Proofs.Build.Recheck

namespace ClassScript

open Rules

variable {loaded : List CompilationUnit} {u : CompilationUnit} {options : RecheckOptions}
  {e : RecheckError}

/-! ## 1. What the check may ask -/

/-- A demand on a unit. -/
inductive Demand where
  | noProceduralCode
  | modifiers
  | entryPoint
  deriving DecidableEq

namespace Demand

/-- The demands in the order in which they are checked. -/
def all : List Demand := [.noProceduralCode, .modifiers, .entryPoint]

theorem mem_all (i : Demand) : i ∈ all := by cases i <;> decide

/-- The rule that makes the same demand. -/
def rule : Demand → UnitRule
  | .noProceduralCode => Rules.noProceduralCode
  | .modifiers => requireModifiers
  | .entryPoint => mainMethod

/-- The options ask for it. -/
def isMade (options : RecheckOptions) : Demand → Bool
  | .noProceduralCode => options.forbidsProceduralCode
  | .modifiers => options.requiresModifiers
  | .entryPoint => options.enforcesMain

/-- How a unit fails to meet the demand, as the check finds out. -/
def failure? (u : CompilationUnit) : Demand → Option RecheckError
  | .noProceduralCode =>
    if !u.functions.isEmpty || !u.variableDecls.isEmpty then some .proceduralCode else none
  | .modifiers =>
    (firstUnmodified? u.classes).map fun found => .missingModifier found.1 found.2
  | .entryPoint => if u.declaresEntryPoint then none else some .missingEntryPoint

/-- The failure of a unit to meet the demand, if the options ask for it. -/
def violation? (options : RecheckOptions) (u : CompilationUnit) (i : Demand) :
    Option RecheckError :=
  if i.isMade options then i.failure? u else none

end Demand

/-- **The check is a search** for the first demand of its options that the unit does not meet. -/
theorem recheck_eq_findSome? (options : RecheckOptions) (u : CompilationUnit) :
    recheck options u =
      (Demand.all.findSome? (Demand.violation? options u)).elim (.ok u.text) .error := by
  obtain ⟨enforcesMain, requiresModifiers, forbidsProceduralCode⟩ := options
  unfold recheck Demand.all
  -- each demand is made or not, and then met or not
  cases hstray : !u.functions.isEmpty || !u.variableDecls.isEmpty <;>
    cases hfound : firstUnmodified? u.classes <;> cases hentry : u.declaresEntryPoint <;>
    cases enforcesMain <;> cases requiresModifiers <;> cases forbidsProceduralCode <;>
    simp [Demand.violation?, Demand.isMade, Demand.failure?, hstray, hfound, hentry]

/-! ## 2. The first member without access modifier -/

/-- The list of the rule on access modifiers starts with `d`. This is about the member `m`, which
    is called `name`, of the class `c`: there is nothing to say of a member before it. -/
structure FirstLack (loaded : List CompilationUnit) (u : CompilationUnit) (c : ClassDecl)
    (m : Member) (name : String) (d : Diagnostic) : Prop where
  isFirst : (requireModifiers.check loaded u).head? = some d
  isAbout : checkModifier u m = [d]
  hasName : m.name? = some name
  inClass : ∃ before after, c.members = before ++ m :: after ∧
    ∀ other ∈ before, checkModifier u other = []
  inUnit : ∃ before after, u.classes = before ++ c :: after ∧
    ∀ other ∈ before, ∀ m' ∈ other.members, checkModifier u m' = []

theorem unmodified?_eq_none_iff {m : Member} :
    m.unmodified? = none ↔ checkModifier u m = [] := by
  cases m with
  | method m => cases h : m.modifiers.visibility <;> simp [Member.unmodified?, checkModifier, h]
  | property p => cases h : p.modifiers.visibility <;> simp [Member.unmodified?, checkModifier, h]
  | initializer _ => simp [Member.unmodified?, checkModifier]
  | accessor _ => simp [Member.unmodified?, checkModifier]

theorem unmodified?_eq_some_iff {m : Member} {name : String} :
    m.unmodified? = some name ↔ (∃ d, checkModifier u m = [d]) ∧ m.name? = some name := by
  cases m with
  | method m =>
    cases h : m.modifiers.visibility <;> simp [Member.unmodified?, checkModifier, Member.name?, h]
  | property p =>
    cases h : p.modifiers.visibility <;> simp [Member.unmodified?, checkModifier, Member.name?, h]
  | initializer _ => simp [Member.unmodified?, checkModifier]
  | accessor _ => simp [Member.unmodified?, checkModifier]

/-- Nothing is said of some parts, and something of the next one: the list starts with that. -/
theorem head?_flatMap_of_first {α β : Type} {f : α → List β} {before after : List α} {a : α} {b : β}
    (hbefore : ∀ x ∈ before, f x = []) (h : (f a).head? = some b) :
    ((before ++ a :: after).flatMap f).head? = some b := by
  rw [List.flatMap_append, List.flatMap_eq_nil_iff.mpr hbefore, List.nil_append, List.flatMap_cons,
    List.head?_append, h, Option.some_or]

/-- **The member that the check names** is the one that the rule's list starts with. -/
theorem firstUnmodified?_eq_some_iff (loaded : List CompilationUnit) {className name : String} :
    firstUnmodified? u.classes = some (className, name) ↔
      ∃ c m d, FirstLack loaded u c m name d ∧ className = c.displayName := by
  unfold firstUnmodified?
  rw [List.findSome?_eq_some_iff]
  constructor
  · rintro ⟨before, c, after, hunit, hfound, hbefore⟩
    obtain ⟨found, hmember, hpair⟩ := Option.map_eq_some_iff.mp hfound
    obtain ⟨rfl, rfl⟩ := Prod.mk.inj hpair
    obtain ⟨mbefore, m, mafter, hclass, hname, hmbefore⟩ := List.findSome?_eq_some_iff.mp hmember
    obtain ⟨⟨d, habout⟩, hname⟩ := (unmodified?_eq_some_iff (u := u)).mp hname
    have hclassBefore : ∀ other ∈ mbefore, checkModifier u other = [] :=
      fun other h => unmodified?_eq_none_iff.mp (hmbefore other h)
    have hunitBefore : ∀ other ∈ before, ∀ m' ∈ other.members, checkModifier u m' = [] := by
      intro other h m' hm'
      have hnone := Option.map_eq_none_iff.mp (hbefore other h)
      exact unmodified?_eq_none_iff.mp (List.findSome?_eq_none_iff.mp hnone m' hm')
    refine ⟨c, m, d, ⟨?_, habout, hname, ⟨mbefore, mafter, hclass, hclassBefore⟩,
      ⟨before, after, hunit, hunitBefore⟩⟩, rfl⟩
    show (u.classes.flatMap fun c => c.members.flatMap (checkModifier u)).head? = some d
    rw [hunit]
    refine head?_flatMap_of_first (fun other h => ?_) ?_
    · exact List.flatMap_eq_nil_iff.mpr (hunitBefore other h)
    · rw [hclass]
      exact head?_flatMap_of_first hclassBefore (by rw [habout]; rfl)
  · rintro ⟨c, m, d, hlack, rfl⟩
    obtain ⟨before, after, hunit, hunitBefore⟩ := hlack.inUnit
    obtain ⟨mbefore, mafter, hclass, hclassBefore⟩ := hlack.inClass
    refine ⟨before, c, after, hunit, Option.map_eq_some_iff.mpr ⟨name, ?_, rfl⟩, fun other h => ?_⟩
    · refine List.findSome?_eq_some_iff.mpr ⟨mbefore, m, mafter, hclass, ?_, fun other h => ?_⟩
      · exact (unmodified?_eq_some_iff (u := u)).mpr ⟨⟨d, hlack.isAbout⟩, hlack.hasName⟩
      · exact unmodified?_eq_none_iff.mpr (hclassBefore other h)
    · refine Option.map_eq_none_iff.mpr (List.findSome?_eq_none_iff.mpr fun m' hm' => ?_)
      exact unmodified?_eq_none_iff.mpr (hunitBefore other h m' hm')

/-! ## 3. The error of a demand -/

namespace Demand

variable {i : Demand}

/-- The error for a demand that is not met. The one for access modifiers names the member that
    the rule's list starts with, and its class. -/
def HasError (loaded : List CompilationUnit) (u : CompilationUnit) (e : RecheckError) :
    Demand → Prop
  | .noProceduralCode => e = .proceduralCode
  | .modifiers => ∃ c m name d, FirstLack loaded u c m name d ∧
      e = .missingModifier c.displayName name
  | .entryPoint => e = .missingEntryPoint

/-- The check finds a demand met when the rule for it is silent. -/
theorem failure?_eq_none_iff (loaded : List CompilationUnit)
    (hdeclares : ∀ v ∈ u.variableDecls, v.declarators ≠ []) :
    i.failure? u = none ↔ i.rule.check loaded u = [] := by
  cases i with
  | noProceduralCode =>
    have hempty : (∀ v ∈ u.variableDecls, v.declarators = []) ↔ u.variableDecls = [] := by
      rw [List.eq_nil_iff_forall_not_mem]
      exact forall_congr' fun v => ⟨fun h hv => hdeclares v hv (h hv), fun h hv => absurd hv h⟩
    show _ ↔ Rules.noProceduralCode.check loaded u = []
    rw [noProceduralCode_eq_nil_iff, hempty, failure?]
    cases u.functions <;> cases u.variableDecls <;> simp
  | modifiers => exact Option.map_eq_none_iff.trans firstUnmodified?_eq_none_iff
  | entryPoint =>
    show _ ↔ mainMethod.check loaded u = []
    rw [mainMethod_eq_nil_iff]
    cases h : u.declaresEntryPoint <;> simp [failure?, h]

/-- Where there can be one error only, there is that one or none. -/
theorem eq_some_iff_of_only {α : Type} {o : Option α} {a b : α} (h : ∀ x, o = some x → x = b) :
    o = some a ↔ o ≠ none ∧ a = b := by
  cases o with
  | none => exact iff_of_false (Option.some_ne_none a).symm fun hne => hne.1 rfl
  | some x =>
    obtain rfl := h x rfl
    rw [Option.some_inj, and_iff_right (Option.some_ne_none x)]
    exact eq_comm

/-- The check finds a demand not met, with the error for it, when the rule for it is not silent. -/
theorem failure?_eq_some_iff (loaded : List CompilationUnit)
    (hdeclares : ∀ v ∈ u.variableDecls, v.declarators ≠ []) :
    i.failure? u = some e ↔ i.rule.check loaded u ≠ [] ∧ i.HasError loaded u e := by
  rw [Ne, ← failure?_eq_none_iff loaded hdeclares]
  cases i with
  | noProceduralCode =>
    refine eq_some_iff_of_only fun x hx => ?_
    rw [failure?] at hx
    split at hx
    · exact (Option.some.inj hx).symm
    · cases hx
  | modifiers =>
    constructor
    · intro h
      refine ⟨h ▸ Option.some_ne_none e, ?_⟩
      obtain ⟨⟨className, name⟩, hfound, rfl⟩ := Option.map_eq_some_iff.mp h
      obtain ⟨c, m, d, hlack, rfl⟩ := (firstUnmodified?_eq_some_iff loaded).mp hfound
      exact ⟨c, m, name, d, hlack, rfl⟩
    · rintro ⟨-, c, m, name, d, hlack, rfl⟩
      exact Option.map_eq_some_iff.mpr ⟨(c.displayName, name),
        (firstUnmodified?_eq_some_iff loaded).mpr ⟨c, m, d, hlack, rfl⟩, rfl⟩
  | entryPoint =>
    refine eq_some_iff_of_only fun x hx => ?_
    rw [failure?] at hx
    split at hx
    · cases hx
    · exact (Option.some.inj hx).symm

end Demand

/-! ## 4. The answer of the check -/

/-- A unit passes exactly when it meets each demand that is made. -/
theorem recheck_eq_ok_iff_failure? {text : String} :
    recheck options u = .ok text ↔
      text = u.text ∧ ∀ i : Demand, i.isMade options = true → i.failure? u = none := by
  rw [recheck_eq_findSome?]
  cases hsearch : Demand.all.findSome? (Demand.violation? options u) with
  | none =>
    have hall : ∀ i : Demand, i.isMade options = true → i.failure? u = none := fun i =>
      ite_eq_right_iff.mp (List.findSome?_eq_none_iff.mp hsearch i i.mem_all)
    rw [and_iff_left hall]
    exact ⟨fun h => (Except.ok.inj h).symm, fun h => congrArg Except.ok h.symm⟩
  | some e =>
    obtain ⟨i, _, he⟩ := List.exists_of_findSome?_eq_some hsearch
    obtain ⟨hmade, he⟩ := Option.ite_none_right_eq_some.mp he
    refine iff_of_false nofun fun h => ?_
    rw [h.2 i hmade] at he
    cases he

/-- A unit is refused for the first demand that is made and that it does not meet. -/
theorem recheck_eq_error_iff_failure? :
    recheck options u = .error e ↔
      ∃ before i after, Demand.all = before ++ i :: after ∧
        (i.isMade options = true ∧ i.failure? u = some e) ∧
        ∀ j ∈ before, j.isMade options = true → j.failure? u = none := by
  have hsearch : recheck options u = .error e ↔
      Demand.all.findSome? (Demand.violation? options u) = some e := by
    rw [recheck_eq_findSome?]
    cases Demand.all.findSome? (Demand.violation? options u) with
    | none => exact iff_of_false nofun nofun
    | some x => exact ⟨fun h => congrArg some (Except.error.inj h), fun h =>
        congrArg Except.error (Option.some.inj h)⟩
  rw [hsearch, List.findSome?_eq_some_iff]
  simp only [Demand.violation?, Option.ite_none_right_eq_some, ite_eq_right_iff]

/-- **The check reports the first violation.** For a unit whose variable statements all have
    variables, under all options: it gives the text of the unit if the rule for each demand that
    is made is silent, and else the error for the first demand whose rule is not. An error about
    a member names the one that the rule on access modifiers has its first diagnostic for, and
    its class. Who asks for less lets pass no less. -/
theorem recheck_first_violation (hdeclares : ∀ v ∈ u.variableDecls, v.declarators ≠ [])
    (options : RecheckOptions) (loaded : List CompilationUnit) :
    (∀ text, recheck options u = .ok text ↔
      text = u.text ∧ ∀ i : Demand, i.isMade options = true → i.rule.check loaded u = []) ∧
    (∀ e, recheck options u = .error e ↔
      ∃ before i after, Demand.all = before ++ i :: after ∧
        (i.isMade options = true ∧ i.rule.check loaded u ≠ [] ∧ i.HasError loaded u e) ∧
        ∀ j ∈ before, j.isMade options = true → j.rule.check loaded u = []) ∧
    ∀ fewer, (∀ i : Demand, i.isMade fewer = true → i.isMade options = true) →
      ∀ text, recheck options u = .ok text → recheck fewer u = .ok text := by
  refine ⟨fun text => ?_, fun e => ?_, fun fewer hfewer text h => ?_⟩
  · simp only [recheck_eq_ok_iff_failure?, Demand.failure?_eq_none_iff loaded hdeclares]
  · simp only [recheck_eq_error_iff_failure?, Demand.failure?_eq_none_iff loaded hdeclares,
      Demand.failure?_eq_some_iff loaded hdeclares]
  · obtain ⟨htext, hall⟩ := recheck_eq_ok_iff_failure?.mp h
    exact recheck_eq_ok_iff_failure?.mpr ⟨htext, fun i hi => hall i (hfewer i hi)⟩

/-- The second class has an accessor, which may do without access modifier, and then a property,
    which may not. No class is an entry class. -/
def lateFault : CompilationUnit where
  path := ⟨"Main.javats"⟩
  text := "class Quiet{public run():void{}}
class Loud{get size(){return 1;}count=1;}"
  items :=
    [.classItem ⟨some "Quiet", ⟨1, 1⟩, ⟨1, 7⟩, false, false, none, [],
      [.method ⟨"run", ⟨1, 13⟩, ⟨1, 20⟩, ⟨some .pub, false, false, false⟩, some "void", []⟩]⟩,
     .classItem ⟨some "Loud", ⟨2, 1⟩, ⟨2, 7⟩, false, false, none, [],
      [.accessor ⟨"size", ⟨2, 12⟩, .getter, ⟨none, false, false, false⟩⟩,
       .property ⟨"count", ⟨2, 33⟩, ⟨2, 33⟩, ⟨none, false, false, false⟩, none⟩]⟩]

/-- The check names the property of the second class, with which the rule's list starts. -/
theorem recheck_first_violation_member :
    (∀ v ∈ lateFault.variableDecls, v.declarators ≠ []) ∧
      recheck {} lateFault = .error (.missingModifier "Loud" "count") ∧
      ∃ c m d, FirstLack [] lateFault c m "count" d ∧ c.displayName = "Loud" := by
  have hdeclares : ∀ v ∈ lateFault.variableDecls, v.declarators ≠ [] := by decide
  have herror : recheck {} lateFault = .error (.missingModifier "Loud" "count") := by decide
  obtain ⟨_, i, _, -, ⟨-, -, hname⟩, -⟩ :=
    ((recheck_first_violation hdeclares {} []).2.1 _).mp herror
  cases i with
  | noProceduralCode => cases hname
  | modifiers =>
    obtain ⟨c, m, name, d, hlack, he⟩ := hname
    obtain ⟨hclass, rfl⟩ := RecheckError.missingModifier.inj he
    exact ⟨hdeclares, herror, c, m, d, hlack, hclass.symm⟩
  | entryPoint => cases hname

end ClassScript
