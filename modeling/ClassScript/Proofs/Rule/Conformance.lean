/-
  File:      ClassScript/Proofs/Rule/Conformance.lean
  Subject:   What a class lacks of the interfaces it implements.

  A reference after `implements` stands for the last interface of its name among
  the loaded files, and a class lacks those names of its members that none of its
  own members has. The rule reports exactly these names, and one member more in a
  class takes exactly its own name out of what is reported for that class.

  * `Lacks`, `Owes`: what is lacking, said without the rule;
  * `owed_spec`: the search by name and the list of distinct names meet it;
  * `owed_insert`: one member more, one name less;
  * `interface_conformance_laws`: the diagnostics of the rule, before and after.
-/
import ClassScript.Proofs.Rule.Silence

namespace ClassScript

/-! ## 1. Names in order of first occurrence -/

/-- Each name is kept where it occurs first: one after another, hence each once. -/
theorem distinctFrom_pairwise_idxOf (seen names : List String) :
    (distinctFrom seen names).Pairwise fun a b => names.idxOf a < names.idxOf b := by
  induction names generalizing seen with
  | nil => exact List.Pairwise.nil
  | cons n names ih =>
    -- Behind the head, only other names are left, and they all move by one place.
    have hmoved : ∀ {seen' : List String}, n ∈ seen' →
        (distinctFrom seen' names).Pairwise fun a b =>
          (n :: names).idxOf a < (n :: names).idxOf b := by
      intro seen' hn
      have hother : ∀ a ∈ distinctFrom seen' names, n ≠ a := by
        rintro a ha rfl
        exact (mem_distinctFrom_iff.mp ha).2 hn
      refine (ih seen').imp_of_mem fun ha hb hlt => ?_
      rw [List.idxOf_cons_ne _ (hother _ ha), List.idxOf_cons_ne _ (hother _ hb)]
      exact Nat.succ_lt_succ hlt
    unfold distinctFrom
    by_cases hseen : n ∈ seen
    · rw [if_pos (List.contains_iff_mem.mpr hseen)]
      exact hmoved hseen
    · rw [if_neg (fun h => hseen (List.contains_iff_mem.mp h))]
      refine List.pairwise_cons.mpr ⟨fun b hb => ?_, hmoved List.mem_cons_self⟩
      have hne : n ≠ b := by
        rintro rfl
        exact (mem_distinctFrom_iff.mp hb).2 List.mem_cons_self
      rw [List.idxOf_cons_self, List.idxOf_cons_ne _ hne]
      exact Nat.succ_pos _

namespace Rules

/-! ## 2. What a class owes to a reference -/

/-- The names `names` are those of members of `i` that no method, property or accessor of `c`
    has: each once, in the order in which they occur first. -/
structure Lacks (c : ClassDecl) (i : InterfaceDecl) (names : List String) : Prop where
  mem_iff : ∀ n, n ∈ names ↔ (∃ s ∈ i.members, s.name = n) ∧ ∀ m ∈ c.members, m.name? ≠ some n
  ordered : names.Pairwise fun a b =>
    (i.members.map (·.name)).idxOf a < (i.members.map (·.name)).idxOf b

/-- The names `c` lacks at the reference `r`: none where no loaded file declares an interface of
    that name, else those that it lacks of the last one, by files and then by declarations. -/
inductive Owes (loaded : List CompilationUnit) (c : ClassDecl) (r : TypeRef) :
    List String → Prop
  | external (h : ∀ u ∈ loaded, ∀ i ∈ u.interfaces, i.name ≠ r.name) : Owes loaded c r []
  | declared {before after : List InterfaceDecl} {i : InterfaceDecl} {names : List String}
      (hsplit : loaded.flatMap CompilationUnit.interfaces = before ++ i :: after)
      (hname : i.name = r.name) (hlast : ∀ j ∈ after, j.name ≠ r.name)
      (hnames : Lacks c i names) : Owes loaded c r names

/-- The names of members of `i` that `c` does not have. -/
def lacking (c : ClassDecl) (i : InterfaceDecl) : List String :=
  i.memberNames.filter fun n => !c.hasMember n

/-- The names `c` lacks at the reference `r`. -/
def owed (loaded : List CompilationUnit) (c : ClassDecl) (r : TypeRef) : List String :=
  ((findInterface? loaded r.name).map (lacking c)).getD []

variable {loaded : List CompilationUnit} {u : CompilationUnit} {c : ClassDecl} {r : TypeRef}

theorem lacking_spec (c : ClassDecl) (i : InterfaceDecl) : Lacks c i (lacking c i) where
  mem_iff n := by
    have hnone : (!c.hasMember n) = true ↔ ∀ m ∈ c.members, m.name? ≠ some n := by
      rw [Bool.not_eq_true', ← Bool.not_eq_true, ClassDecl.hasMember_iff]
      simp only [not_exists, not_and, ne_eq]
    unfold lacking
    rw [List.mem_filter, InterfaceDecl.mem_memberNames_iff, hnone]
  ordered := (distinctFrom_pairwise_idxOf [] _).sublist List.filter_sublist

/-- A name that no loaded file declares stands for nothing. -/
theorem findInterface?_eq_none_iff {name : String} :
    findInterface? loaded name = none ↔
      ∀ u ∈ loaded, ∀ i ∈ u.interfaces, i.name ≠ name := by
  unfold findInterface?
  rw [List.getLast?_eq_none_iff, List.filter_eq_nil_iff]
  simp only [List.mem_flatMap, beq_iff_eq, forall_exists_index, and_imp, ne_eq]
  exact ⟨fun h u hu i hi => h i u hu hi, fun h i u hu hi => h u hu i hi⟩

/-- **The names found** are those that are lacking. -/
theorem owed_spec (loaded : List CompilationUnit) (c : ClassDecl) (r : TypeRef) :
    Owes loaded c r (owed loaded c r) := by
  unfold owed
  cases hfound : findInterface? loaded r.name with
  | none => exact .external (findInterface?_eq_none_iff.mp hfound)
  | some i =>
    obtain ⟨before, after, hsplit, hname, hlast⟩ := findInterface?_eq_some_iff.mp hfound
    exact .declared hsplit hname hlast (lacking_spec c i)

/-! ## 3. The diagnostics -/

/-- The diagnostic for a name that a class lacks at a reference. -/
def reportOwed (u : CompilationUnit) (c : ClassDecl) (r : TypeRef) (n : String) : Diagnostic where
  code := "JT011"
  rule := "interface-implementation"
  location := .place u.path c.position
  message := s!"Class '{c.displayName}' is missing '{n}' required by interface '{r.name}'."
  suggestion := some s!"Declare '{n}' in '{c.displayName}'"

/-- The diagnostics for a class, reference by reference. -/
def reportClass (loaded : List CompilationUnit) (u : CompilationUnit) (c : ClassDecl) :
    List Diagnostic :=
  c.implemented.flatMap fun r => (owed loaded c r).map (reportOwed u c r)

/-- The diagnostics for a class but for those on the name `m`. -/
def reportWithout (m : String) (loaded : List CompilationUnit) (u : CompilationUnit)
    (c : ClassDecl) : List Diagnostic :=
  c.implemented.flatMap fun r => ((owed loaded c r).filter (· != m)).map (reportOwed u c r)

theorem checkReference_eq : checkReference loaded u c r =
    (owed loaded c r).map (reportOwed u c r) := by
  unfold checkReference owed
  cases hfound : findInterface? loaded r.name with
  | none => rfl
  | some i =>
    obtain ⟨_, _, _, hname, _⟩ := findInterface?_eq_some_iff.mp hfound
    show (lacking c i).map (missingMember u c i) = (lacking c i).map (reportOwed u c r)
    refine List.map_congr_left fun n _ => ?_
    unfold missingMember reportOwed
    rw [hname]
    rfl

theorem interfaceImplementation_eq :
    interfaceImplementation.check loaded u = u.classes.flatMap (reportClass loaded u) := by
  refine List.flatMap_congr fun c _ => List.flatMap_congr fun r _ => ?_
  exact checkReference_eq

/-! ## 4. One member more -/

/-- A class with one more member somewhere between its members. -/
def insertMember (c : ClassDecl) (front back : List Member) (new : Member) : ClassDecl :=
  { c with members := front ++ new :: back }

theorem hasMember_insertMember {front back : List Member} {new : Member} {m : String}
    (hmembers : c.members = front ++ back) (hnew : new.name? = some m) (n : String) :
    (insertMember c front back new).hasMember n = (c.hasMember n || n == m) := by
  unfold ClassDecl.hasMember insertMember
  rw [hmembers, List.any_append, List.any_append, List.any_cons, hnew, Bool.or_assoc,
    Bool.or_comm (some m == some n), Bool.beq_comm]
  rfl

/-- **One member more, one name less.** -/
theorem owed_insert {front back : List Member} {new : Member} {m : String}
    (hmembers : c.members = front ++ back) (hnew : new.name? = some m) :
    owed loaded (insertMember c front back new) r = (owed loaded c r).filter (· != m) := by
  unfold owed
  cases findInterface? loaded r.name with
  | none => rfl
  | some i =>
    show lacking _ i = (lacking c i).filter _
    unfold lacking
    rw [List.filter_filter]
    refine List.filter_congr fun n _ => ?_
    rw [hasMember_insertMember hmembers hnew, Bool.not_or, Bool.and_comm]
    rfl

/-- A file with another class in the place of one of its classes. -/
def replaceClass (u : CompilationUnit) (before after : List Item) (c : ClassDecl) :
    CompilationUnit :=
  { u with items := before ++ .classItem c :: after }

/-- `loaded'` has `u'` in places where `loaded` has `u`, and is the same elsewhere. -/
def Replaces (u u' : CompilationUnit) (loaded loaded' : List CompilationUnit) : Prop :=
  List.Forall₂ (fun a b => a = b ∨ a = u ∧ b = u') loaded loaded'

/-- Files that declare the same interfaces give the same names to look up. -/
theorem interfaces_of_replaces {u u' : CompilationUnit} {loaded loaded' : List CompilationUnit}
    (hsame : u.interfaces = u'.interfaces) (h : Replaces u u' loaded loaded') :
    loaded.flatMap CompilationUnit.interfaces = loaded'.flatMap CompilationUnit.interfaces := by
  induction h with
  | nil => rfl
  | cons hab _ ih =>
    rw [List.flatMap_cons, List.flatMap_cons, ih]
    rcases hab with rfl | ⟨rfl, rfl⟩
    · rfl
    · rw [hsame]

theorem owed_congr {loaded loaded' : List CompilationUnit}
    (h : loaded.flatMap CompilationUnit.interfaces = loaded'.flatMap CompilationUnit.interfaces)
    (c : ClassDecl) (r : TypeRef) : owed loaded c r = owed loaded' c r := by
  unfold owed findInterface?
  rw [h]

section

variable {loaded' : List CompilationUnit} {before after : List Item} {front back : List Member}
  {new : Member} {m : String}

/-- A class lacks the same among both lists of files, for diagnostics put on the same file. -/
theorem reportClass_congr {u u' : CompilationUnit} (hpath : u.path = u'.path)
    (h : loaded.flatMap CompilationUnit.interfaces = loaded'.flatMap CompilationUnit.interfaces)
    (c : ClassDecl) : reportClass loaded u c = reportClass loaded' u' c := by
  unfold reportClass reportOwed
  rw [hpath]
  refine List.flatMap_congr fun r _ => ?_
  rw [owed_congr h]

theorem reportClass_insert (hmembers : c.members = front ++ back) (hnew : new.name? = some m) :
    reportClass loaded u (insertMember c front back new) =
      reportWithout m loaded u c := by
  refine List.flatMap_congr fun r _ => ?_
  rw [owed_insert hmembers hnew]
  rfl

theorem classes_replaceClass (u : CompilationUnit) (before after : List Item) (c : ClassDecl) :
    (replaceClass u before after c).classes =
      before.filterMap Item.class? ++ c :: after.filterMap Item.class? := by
  unfold CompilationUnit.classes replaceClass
  rw [List.filterMap_append]
  rfl

theorem interfaces_replaceClass (u : CompilationUnit) (before after : List Item)
    (c d : ClassDecl) :
    (replaceClass u before after c).interfaces = (replaceClass u before after d).interfaces := by
  unfold CompilationUnit.interfaces replaceClass
  rw [List.filterMap_append, List.filterMap_append]
  rfl

end

/-- **Conformance to interfaces.** Among any loaded files, with the file or without it, the
    diagnostics of the rule are, class by class and reference by reference, one for each name that
    the class lacks of the last loaded interface of the reference's name, in order of first
    occurrence. So with a member named `m` added to a class, in the file and wherever it is loaded,
    the diagnostics are the old ones without those for that class and `m`. -/
theorem interface_conformance_laws (loaded : List CompilationUnit) (u : CompilationUnit) :
    (∀ c r, Owes loaded c r (owed loaded c r)) ∧
    interfaceImplementation.check loaded u =
      (u.classes.flatMap fun c =>
        c.implemented.flatMap fun r => (owed loaded c r).map (reportOwed u c r)) ∧
    ∀ before c after, u.items = before ++ .classItem c :: after →
      ∀ front back, c.members = front ++ back →
      ∀ new m, new.name? = some m →
      ∀ loaded',
        let u' := replaceClass u before after (insertMember c front back new)
        Replaces u u' loaded loaded' →
        let first := (before.filterMap Item.class?).flatMap (reportClass loaded u)
        let last := (after.filterMap Item.class?).flatMap (reportClass loaded u)
        interfaceImplementation.check loaded u =
            first ++ reportClass loaded u c ++ last ∧
          interfaceImplementation.check loaded' u' =
            first ++ reportWithout m loaded u c ++ last := by
  refine ⟨owed_spec loaded, interfaceImplementation_eq, ?_⟩
  intro before c after hitems front back hmembers new m hnew loaded' u' hloaded first last
  have hself : u = replaceClass u before after c := by
    unfold replaceClass
    rw [← hitems]
  have hsame : loaded.flatMap CompilationUnit.interfaces =
      loaded'.flatMap CompilationUnit.interfaces := by
    refine interfaces_of_replaces ?_ hloaded
    conv => lhs; rw [hself]
    exact interfaces_replaceClass u before after c _
  constructor
  · have hclasses : u.classes =
        before.filterMap Item.class? ++ c :: after.filterMap Item.class? := by
      conv => lhs; rw [hself]
      exact classes_replaceClass u before after c
    rw [interfaceImplementation_eq, hclasses, List.flatMap_append, List.flatMap_cons,
      List.append_assoc]
  · have hreport : reportClass loaded' u' = reportClass loaded u := by
      funext d
      exact (reportClass_congr rfl hsame d).symm
    rw [interfaceImplementation_eq, classes_replaceClass, hreport, List.flatMap_append,
      List.flatMap_cons, reportClass_insert hmembers hnew, List.append_assoc]

/-- An interface, and behind it another one of its name with a member more, one of them twice. -/
def shapeFile : CompilationUnit where
  path := ⟨"Shape.javats"⟩
  text := ""
  items :=
    [.interfaceItem ⟨"Shape", ⟨1, 1⟩, false, [⟨"area", .method, ⟨1, 19⟩⟩]⟩,
     .interfaceItem ⟨"Shape", ⟨2, 1⟩, false,
       [⟨"area", .method, ⟨2, 19⟩⟩, ⟨"name", .property, ⟨2, 27⟩⟩, ⟨"area", .method, ⟨2, 33⟩⟩]⟩]

/-- A class with a constructor that implements an interface twice, and one that is not loaded. -/
def squareClass : ClassDecl :=
  ⟨some "Square", ⟨1, 1⟩, ⟨1, 7⟩, false, false, none,
    [⟨"Shape", ⟨1, 25⟩⟩, ⟨"Outside", ⟨1, 32⟩⟩, ⟨"Shape", ⟨1, 41⟩⟩],
    [.initializer ⟨⟨1, 50⟩, {}, []⟩]⟩

/-- An empty class that implements the interface, too. -/
def circleClass : ClassDecl :=
  ⟨some "Circle", ⟨2, 1⟩, ⟨2, 7⟩, false, false, none, [⟨"Shape", ⟨2, 25⟩⟩], []⟩

def squareFile : CompilationUnit where
  path := ⟨"Square.javats"⟩
  text := ""
  items := [.classItem squareClass, .classItem circleClass]

/-- A private accessor `area` in the class `Square` takes its two diagnostics on `area` away, and
    leaves the one of the class `Circle`. -/
theorem interface_conformance_laws_square :
    let area : Member := .accessor ⟨"area", ⟨1, 70⟩, .getter, ⟨some .priv, false, false, false⟩⟩
    let u' := replaceClass squareFile [] [.classItem circleClass]
      (insertMember squareClass squareClass.members [] area)
    let before := interfaceImplementation.check [shapeFile, squareFile] squareFile
    let after := interfaceImplementation.check [shapeFile, u'] u'
    (before = reportClass [shapeFile, squareFile] squareFile squareClass ++
        reportClass [shapeFile, squareFile] squareFile circleClass ∧
      before.map (·.suggestion.getD "") =
        ["Declare 'area' in 'Square'", "Declare 'name' in 'Square'",
         "Declare 'area' in 'Square'", "Declare 'name' in 'Square'",
         "Declare 'area' in 'Circle'", "Declare 'name' in 'Circle'"]) ∧
      after = reportWithout "area" [shapeFile, squareFile] squareFile squareClass ++
        reportClass [shapeFile, squareFile] squareFile circleClass ∧
      after.map (·.suggestion.getD "") =
        ["Declare 'name' in 'Square'", "Declare 'name' in 'Square'", "Declare 'area' in 'Circle'",
         "Declare 'name' in 'Circle'"] := by
  intro area u' before after
  have hloaded : Replaces squareFile u' [shapeFile, squareFile] [shapeFile, u'] :=
    .cons (.inl rfl) (.cons (.inr ⟨rfl, rfl⟩) .nil)
  obtain ⟨_, _, hinsert⟩ := interface_conformance_laws [shapeFile, squareFile] squareFile
  obtain ⟨hbefore, hafter⟩ := hinsert [] squareClass [.classItem circleClass] rfl
    squareClass.members [] rfl area "area" rfl [shapeFile, u'] hloaded
  rw [List.filterMap_nil, List.flatMap_nil, List.nil_append] at hbefore hafter
  have hcircle : ([Item.classItem circleClass].filterMap Item.class?).flatMap
      (reportClass [shapeFile, squareFile] squareFile) =
        reportClass [shapeFile, squareFile] squareFile circleClass :=
    List.append_nil _
  rw [hcircle] at hbefore hafter
  exact ⟨⟨hbefore, by decide +kernel⟩, hafter, by decide +kernel⟩

end Rules
end ClassScript
