/-
  File:      ClassScript/Proofs/Declaration.lean
  Subject:   What is found in a declaration and in a file.

  A class is asked for its members by kind and by name, a file for its types
  and its entry point, and all files together for an interface. Each answer is
  read here as a statement about what is declared, and in which order.

  * `ClassDecl.mainMethod?_eq_some_iff`: the FIRST method `main` counts;
  * `findInterface?_eq_some_iff`: the LAST interface of a name counts;
  * `CompilationUnit.declaresEntryPoint_iff`: a `public static` method `main`.
-/
import ClassScript.CompilationUnit

namespace ClassScript

/-- What is picked from a list by undoing `g` is what stands under `g` in it. -/
theorem mem_filterMap_iff {α β : Type} {f : α → Option β} {g : β → α}
    (h : ∀ a b, f a = some b ↔ a = g b) {l : List α} {b : β} : b ∈ l.filterMap f ↔ g b ∈ l := by
  rw [List.mem_filterMap]
  constructor
  · intro hb
    obtain ⟨a, ha, he⟩ := hb
    rw [(h a b).mp he] at ha
    exact ha
  · exact fun hb => ⟨g b, hb, (h (g b) b).mpr rfl⟩

/-! ## 1. Members of a class -/

theorem Member.method?_eq_some_iff {member : Member} {m : Method} :
    member.method? = some m ↔ member = .method m := by
  cases member <;> simp [Member.method?]

theorem Member.property?_eq_some_iff {member : Member} {p : Property} :
    member.property? = some p ↔ member = .property p := by
  cases member <;> simp [Member.property?]

/-- Explicitly public is what the modifier `public` makes a member. -/
theorem Modifiers.isPublic_iff {m : Modifiers} : m.isPublic = true ↔ m.visibility = some .pub :=
  beq_iff_eq

theorem Method.isEntryPoint_iff {m : Method} :
    m.isEntryPoint = true ↔
      m.name = "main" ∧ m.modifiers.visibility = some .pub ∧ m.modifiers.isStatic = true := by
  unfold Method.isEntryPoint
  rw [Bool.and_eq_true, Bool.and_eq_true, beq_iff_eq, Modifiers.isPublic_iff, and_assoc]

theorem Property.isConstant_iff {p : Property} :
    p.isConstant = true ↔ p.modifiers.isStatic = true ∧ p.modifiers.isReadonly = true :=
  Bool.and_eq_true_iff

namespace ClassDecl

variable {c : ClassDecl}

theorem mem_methods_iff {m : Method} : m ∈ c.methods ↔ Member.method m ∈ c.members :=
  mem_filterMap_iff fun _ _ => Member.method?_eq_some_iff

theorem mem_properties_iff {p : Property} : p ∈ c.properties ↔ Member.property p ∈ c.members :=
  mem_filterMap_iff fun _ _ => Member.property?_eq_some_iff

/-- What holds of constructors and accessors anyway is asked of methods and properties only. -/
theorem forall_members_iff {P : Member → Prop} (hinitializer : ∀ k, P (.initializer k))
    (haccessor : ∀ a, P (.accessor a)) :
    (∀ member ∈ c.members, P member) ↔
      (∀ m ∈ c.methods, P (.method m)) ∧ ∀ p ∈ c.properties, P (.property p) := by
  constructor
  · intro h
    exact ⟨fun m hm => h _ (mem_methods_iff.mp hm), fun p hp => h _ (mem_properties_iff.mp hp)⟩
  · intro h member hmember
    obtain ⟨hmethods, hproperties⟩ := h
    cases member with
    | method m => exact hmethods m (mem_methods_iff.mpr hmember)
    | property p => exact hproperties p (mem_properties_iff.mpr hmember)
    | initializer k => exact hinitializer k
    | accessor a => exact haccessor a

theorem hasMember_iff {name : String} :
    c.hasMember name = true ↔ ∃ m ∈ c.members, m.name? = some name := by
  unfold hasMember
  simp only [List.any_eq_true, beq_iff_eq]

/-- **The first method `main`**: no method before it has that name. -/
theorem mainMethod?_eq_some_iff {m : Method} :
    c.mainMethod? = some m ↔
      ∃ before after, c.methods = before ++ m :: after ∧ m.name = "main" ∧
        ∀ n ∈ before, n.name ≠ "main" := by
  unfold mainMethod?
  rw [List.find?_eq_some_iff_append]
  simp only [beq_iff_eq, Bool.not_eq_true', beq_eq_false_iff_ne]
  constructor
  · intro h
    obtain ⟨hm, before, after, hsplit, hbefore⟩ := h
    exact ⟨before, after, hsplit, hm, hbefore⟩
  · intro h
    obtain ⟨before, after, hsplit, hm, hbefore⟩ := h
    exact ⟨hm, before, after, hsplit, hbefore⟩

/-- An entry class has a `public static` method `main`, be it the first one or not. -/
theorem isEntry_iff :
    c.isEntry = true ↔
      ∃ m ∈ c.methods, m.name = "main" ∧ m.modifiers.visibility = some .pub ∧
        m.modifiers.isStatic = true := by
  unfold isEntry staticMethods
  rw [List.any_eq_true]
  constructor
  · intro h
    obtain ⟨m, hm, he⟩ := h
    exact ⟨m, (List.mem_filter.mp hm).1, Method.isEntryPoint_iff.mp he⟩
  · intro h
    obtain ⟨m, hm, he⟩ := h
    exact ⟨m, List.mem_filter.mpr ⟨hm, he.2.2⟩, Method.isEntryPoint_iff.mpr he⟩

end ClassDecl

/-! ## 2. Members of an interface -/

theorem mem_distinctFrom_iff {name : String} {seen names : List String} :
    name ∈ distinctFrom seen names ↔ name ∈ names ∧ name ∉ seen := by
  induction names generalizing seen with
  | nil => simp [distinctFrom]
  | cons n names ih =>
    unfold distinctFrom
    by_cases hseen : n ∈ seen
    · rw [if_pos (List.contains_iff_mem.mpr hseen), ih, List.mem_cons]
      constructor
      · exact fun h => ⟨Or.inr h.1, h.2⟩
      · intro h
        obtain ⟨rfl | hname, hnew⟩ := h
        · exact absurd hseen hnew
        · exact ⟨hname, hnew⟩
    · rw [if_neg (fun h => hseen (List.contains_iff_mem.mp h)), List.mem_cons, ih, List.mem_cons,
        List.mem_cons, not_or]
      constructor
      · intro h
        rcases h with rfl | ⟨hname, _, hnew⟩
        · exact ⟨Or.inl rfl, hseen⟩
        · exact ⟨Or.inr hname, hnew⟩
      · intro h
        obtain ⟨hname, hnew⟩ := h
        by_cases hn : name = n
        · exact Or.inl hn
        · exact Or.inr ⟨hname.resolve_left hn, hn, hnew⟩

/-- Listing each name once drops none. -/
theorem InterfaceDecl.mem_memberNames_iff {i : InterfaceDecl} {name : String} :
    name ∈ i.memberNames ↔ ∃ s ∈ i.members, s.name = name := by
  unfold memberNames
  rw [mem_distinctFrom_iff, List.mem_map]
  exact and_iff_left List.not_mem_nil

/-! ## 3. Files -/

namespace CompilationUnit

variable {u : CompilationUnit}

/-- Some type is declared when one of the four kinds of types is. -/
theorem declaresType_iff :
    u.declaresType = true ↔
      u.classes ≠ [] ∨ u.interfaces ≠ [] ∨ u.enums ≠ [] ∨ u.aliases ≠ [] := by
  unfold declaresType classes interfaces enums aliases
  induction u.items with
  | nil => simp
  | cons item items ih =>
    rw [List.any_cons, Bool.or_eq_true, ih]
    cases item <;>
      simp [Item.isType, Item.class?, Item.interface?, Item.enum?, Item.alias?]

/-- The program's entry point is a `public static` method `main` of a class. -/
theorem declaresEntryPoint_iff :
    u.declaresEntryPoint = true ↔
      ∃ c ∈ u.classes, ∃ m ∈ c.methods, m.name = "main" ∧
        m.modifiers.visibility = some .pub ∧ m.modifiers.isStatic = true := by
  unfold declaresEntryPoint
  simp only [List.any_eq_true, ClassDecl.isEntry_iff]

end CompilationUnit

/-- **The last interface of a name**: none that is declared after it has that name. -/
theorem findInterface?_eq_some_iff {loaded : List CompilationUnit} {name : String}
    {i : InterfaceDecl} :
    findInterface? loaded name = some i ↔
      ∃ before after, loaded.flatMap CompilationUnit.interfaces = before ++ i :: after ∧
        i.name = name ∧ ∀ j ∈ after, j.name ≠ name := by
  unfold findInterface?
  rw [List.getLast?_eq_some_iff]
  constructor
  · intro h
    obtain ⟨found, hfound⟩ := h
    obtain ⟨before, tail, hsplit, _, htail⟩ := List.filter_eq_append_iff.mp hfound
    obtain ⟨skipped, after, rfl, _, hi, hafter⟩ := List.filter_eq_cons_iff.mp htail
    refine ⟨before ++ skipped, after, ?_, beq_iff_eq.mp hi, fun j hj hname => ?_⟩
    · rw [hsplit, List.append_assoc]
    · exact List.filter_eq_nil_iff.mp hafter j hj (beq_iff_eq.mpr hname)
  · intro h
    obtain ⟨before, after, hsplit, hi, hafter⟩ := h
    refine ⟨before.filter (·.name == name), ?_⟩
    have hnone : after.filter (·.name == name) = [] :=
      List.filter_eq_nil_iff.mpr fun j hj hname => hafter j hj (beq_iff_eq.mp hname)
    rw [hsplit, List.filter_append, List.filter_cons, if_pos (beq_iff_eq.mpr hi), hnone]

end ClassScript
