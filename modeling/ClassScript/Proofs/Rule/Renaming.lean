/-
  File:      ClassScript/Proofs/Rule/Renaming.lean
  Subject:   When the name that is suggested for a declaration is in order.

  The rule on letter case looks at the names of types, methods and properties.
  For a name in the wrong case it suggests another spelling, and a declaration
  that is renamed so gets no diagnostic any more, if the name has what the case
  needs: a letter or digit, and unless it is a constant's, a letter before all
  digits.

  * `Declared`, `declaredIn`: the declarations whose names the rule looks at;
  * `namingConvention_check_eq`: the rule, declaration by declaration;
  * `Declared.renamed`: a declaration with the suggested name;
  * `Declared.check_renamed_eq_nil_iff`: when this one is in order;
  * `spelling_laws`: the laws of words and spellings, and of suggestions.
-/
import ClassScript.Proofs.Naming.Conversion
import ClassScript.Proofs.Rule.Silence

namespace ClassScript.Rules

open ClassScript.Naming

variable {loaded : List CompilationUnit} {u : CompilationUnit}

/-! ## 1. Declarations with names -/

/-- A declaration whose name the rule on letter case looks at. -/
inductive Declared where
  | type (name : String) (position : Position)
  | method (m : Method)
  | property (p : Property)
  deriving DecidableEq, Repr

namespace Declared

/-- What the rule says of a declaration. -/
def check (u : CompilationUnit) : Declared → List Diagnostic
  | .type name position => checkTypeName u name position
  | .method m => checkMethodName u m
  | .property p => checkPropertyName u p

/-- The name that has to be in a letter case. -/
def name : Declared → String
  | .type name _ => name
  | .method m => publicName m.name
  | .property p => publicName p.name

/-- A static and readonly property. -/
def isConstant : Declared → Bool
  | .property p => p.isConstant
  | _ => false

/-- The spelling that is suggested. -/
def better : Declared → String
  | .type name _ => toPascalCase name
  | .method m => toCamelCase (publicName m.name)
  | .property p =>
    if p.isConstant then toUpperSnakeCase (publicName p.name)
    else toCamelCase (publicName p.name)

/-- The private name `name` with the spelling `spelling`; what is not private stays so. -/
def respell (name spelling : String) : String :=
  String.ofList (name.toList.takeWhile (· = '#')) ++ spelling

/-- The declaration with the name that is suggested for it. -/
def renamed (d : Declared) : Declared :=
  match d with
  | .type _ position => .type d.better position
  | .method m => .method { m with name := respell m.name d.better }
  | .property p => .property { p with name := respell p.name d.better }

/-- The name has what its case needs: a letter or digit, and but for constants a letter before all
    digits. -/
def IsSpellable (d : Declared) : Prop :=
  if d.isConstant then ∃ c ∈ d.name.toList, c.isAlphanum = true
  else StartsWithLetter d.name.toList

instance (d : Declared) : Decidable d.IsSpellable :=
  inferInstanceAs (Decidable (if d.isConstant then _ else _))

end Declared

/-- The declarations of a file in the order in which the rule looks at them. -/
def declaredIn (u : CompilationUnit) : List Declared :=
  u.classes.filterMap (fun c => c.name.map fun name => .type name c.namePosition) ++
    u.interfaces.map (fun i => .type i.name i.position) ++
    u.enums.map (fun e => .type e.name e.position) ++
    u.classes.flatMap fun c => c.methods.map .method ++ c.properties.map .property

theorem checkClassName_eq (c : ClassDecl) :
    checkClassName u c =
      ((c.name.map fun name => Declared.type name c.namePosition).toList).flatMap
        (Declared.check u) := by
  unfold checkClassName
  cases c.name with
  | none => rfl
  | some name => exact (List.append_nil _).symm

theorem checkMemberNames_eq (c : ClassDecl) :
    checkMemberNames u c =
      (c.methods.map Declared.method ++ c.properties.map Declared.property).flatMap
        (Declared.check u) := by
  rw [List.flatMap_append, List.flatMap_map, List.flatMap_map]
  rfl

/-- **The rule on letter case** looks at one declaration after the other. -/
theorem namingConvention_check_eq :
    namingConvention.check loaded u = (declaredIn u).flatMap (Declared.check u) := by
  have hclasses : (u.classes.filterMap fun c => c.name.map fun name =>
      Declared.type name c.namePosition).flatMap (Declared.check u) =
        u.classes.flatMap (checkClassName u) := by
    rw [List.filterMap_eq_flatMap_toList, List.flatMap_assoc]
    exact congrArg (List.flatMap · u.classes) (funext fun c => (checkClassName_eq c).symm)
  have hmembers : (u.classes.flatMap fun c => c.methods.map Declared.method ++
      c.properties.map Declared.property).flatMap (Declared.check u) =
        u.classes.flatMap (checkMemberNames u) := by
    rw [List.flatMap_assoc]
    exact congrArg (List.flatMap · u.classes) (funext fun c => (checkMemberNames_eq c).symm)
  rw [declaredIn, List.flatMap_append, List.flatMap_append, List.flatMap_append, hclasses,
    hmembers, List.flatMap_map, List.flatMap_map]
  rfl

/-! ## 2. Suggested names -/

/-- The rule suggests the better spelling, and nothing else. -/
theorem suggestion_of_mem_check {d : Declared} {x : Diagnostic} (h : x ∈ d.check u) :
    x.suggestion = some s!"Rename to '{d.better}'" := by
  have hdemand {p : Prop} [Decidable p] {y : Diagnostic} (h : x ∈ if p then [] else [y]) :
      x = y := by
    split at h
    · cases h
    · exact List.mem_singleton.mp h
  cases d with
  | type name position => exact hdemand h ▸ rfl
  | method m => exact hdemand h ▸ rfl
  | property p =>
    unfold Declared.check checkPropertyName at h
    unfold Declared.better
    dsimp only at h ⊢
    by_cases hconst : p.isConstant = true
    · rw [if_pos hconst] at h ⊢
      exact hdemand h ▸ rfl
    · rw [if_neg hconst] at h ⊢
      exact hdemand h ▸ rfl

/-- A suggested spelling has no mark of private names, -/
theorem hash_not_mem_toCamelCase (name : String) : '#' ∉ (toCamelCase name).toList := by
  intro h
  have hall := List.all_eq_true.mp (all_isAlphanum (map_toLower_toCamelCase name)) '#' h
  exact absurd hall (by decide)

theorem hash_not_mem_toUpperSnakeCase (name : String) : '#' ∉ (toUpperSnakeCase name).toList := by
  intro h
  have hkept : '#' ∈ (toUpperSnakeCase name).toList.filter (· ≠ '_') :=
    List.mem_filter.mpr ⟨h, by decide⟩
  have hletter := map_toLower_toUpperSnakeCase name ▸ List.mem_map_of_mem (f := Char.toLower) hkept
  exact absurd (mem_letters hletter).1 (by decide)

/-- so the name of a private member is the spelling behind the mark. -/
theorem publicName_respell {spelling : String} (name : String) (h : '#' ∉ spelling.toList) :
    publicName (Declared.respell name spelling) = spelling := by
  have hmarks (c : Char) (hc : c ∈ name.toList.takeWhile (· = '#')) : decide (c = '#') = true :=
    List.all_eq_true.mp List.all_takeWhile c hc
  have hdrop : spelling.toList.dropWhile (· = '#') = spelling.toList := by
    cases hchars : spelling.toList with
    | nil => rfl
    | cons c cs =>
      have hc : ¬c = '#' := fun he => h (hchars ▸ he ▸ List.mem_cons_self)
      exact List.dropWhile_cons_of_neg (by simpa using hc)
  rw [publicName, Declared.respell, String.toList_append, String.toList_ofList,
    List.dropWhile_append_of_pos hmarks, hdrop, String.ofList_toList]

theorem letters_ne_nil_iff {cs : List Char} :
    letters cs ≠ [] ↔ ∃ c ∈ cs, c.isAlphanum = true := by
  rw [letters, Ne, List.map_eq_nil_iff, List.filter_eq_nil_iff]
  simp

/-- **When a suggestion helps.** A declaration that is renamed as the rule suggests has no
    diagnostic any more exactly if its name has what the case needs. -/
theorem check_renamed_eq_nil_iff (d : Declared) : d.renamed.check u = [] ↔ d.IsSpellable := by
  cases d with
  | type name position =>
    show checkTypeName u (toPascalCase name) position = [] ↔ StartsWithLetter name.toList
    rw [checkTypeName_eq_nil_iff, ← isPascalCase_iff, isPascalCase_toPascalCase_iff]
  | method m =>
    have hname := publicName_respell m.name (hash_not_mem_toCamelCase (publicName m.name))
    show checkMethodName u
      { m with name := Declared.respell m.name (toCamelCase (publicName m.name)) } = [] ↔
        StartsWithLetter (publicName m.name).toList
    rw [checkMethodName_eq_nil_iff, ← isCamelCase_iff, hname, isCamelCase_toCamelCase_iff]
  | property p =>
    unfold Declared.IsSpellable Declared.renamed Declared.check checkPropertyName Declared.better
      Declared.isConstant Declared.name
    by_cases hconst : p.isConstant = true
    · have hrenamed : Property.isConstant { p with
          name := Declared.respell p.name (toUpperSnakeCase (publicName p.name)) } = true := hconst
      dsimp only
      rw [if_pos hconst, if_pos hconst, if_pos hrenamed, demand_eq_nil_iff,
        publicName_respell p.name (hash_not_mem_toUpperSnakeCase _),
        isUpperSnakeCase_toUpperSnakeCase_iff, letters_ne_nil_iff]
    · have hrenamed : ¬Property.isConstant { p with
          name := Declared.respell p.name (toCamelCase (publicName p.name)) } = true := hconst
      dsimp only
      rw [if_neg hconst, if_neg hconst, if_neg hrenamed, demand_eq_nil_iff,
        publicName_respell p.name (hash_not_mem_toCamelCase _), isCamelCase_toCamelCase_iff]

/-! ## 3. The laws -/

/-- **The laws of words and spellings.** No word of a name is empty, and one behind the other they
    are its ASCII letters and digits, in lower case; so are the three spellings, up to case and
    `_`. Two of them are in their case exactly if there is a letter before all digits, and the
    third one if there is a letter or digit at all. The rule on letter case suggests these
    spellings, and so a suggestion is of use for just these names. For a name without digits, the
    `UPPER_SNAKE_CASE` spelling has itself and the `PascalCase` of the name for its spellings. -/
theorem spelling_laws (name : String) (loaded : List CompilationUnit) (u : CompilationUnit) :
    ((∀ word ∈ words name, word ≠ []) ∧
      (words name).flatten = (name.toList.filter Char.isAlphanum).map Char.toLower) ∧
    ((toPascalCase name).toList.map Char.toLower = (words name).flatten ∧
      (toCamelCase name).toList.map Char.toLower = (words name).flatten ∧
      ((toUpperSnakeCase name).toList.filter (· ≠ '_')).map Char.toLower =
        (words name).flatten) ∧
    ((isPascalCase (toPascalCase name) = true ↔ StartsWithLetter name.toList) ∧
      (isCamelCase (toCamelCase name) = true ↔ StartsWithLetter name.toList) ∧
      (isUpperSnakeCase (toUpperSnakeCase name) = true ↔
        ∃ c ∈ name.toList, c.isAlphanum = true)) ∧
    (namingConvention.check loaded u = (declaredIn u).flatMap (Declared.check u) ∧
      ∀ d : Declared, (∀ x ∈ d.check u, x.suggestion = some s!"Rename to '{d.better}'") ∧
        (d.renamed.check u = [] ↔ d.IsSpellable)) ∧
    ((∀ c ∈ name.toList, c.isDigit = false) →
      toUpperSnakeCase (toUpperSnakeCase name) = toUpperSnakeCase name ∧
        toPascalCase (toUpperSnakeCase name) = toPascalCase name) := by
  have hwords := flatten_words name
  refine ⟨⟨fun word hword => ne_nil_of_mem_wordsFrom hword, hwords⟩, ?_, ?_, ?_, fun hdigits => ?_⟩
  · rw [hwords]
    exact ⟨map_toLower_toPascalCase name, map_toLower_toCamelCase name,
      map_toLower_toUpperSnakeCase name⟩
  · exact ⟨isPascalCase_toPascalCase_iff, isCamelCase_toCamelCase_iff,
      isUpperSnakeCase_toUpperSnakeCase_iff.trans letters_ne_nil_iff⟩
  · exact ⟨namingConvention_check_eq, fun d =>
      ⟨fun _ hx => suggestion_of_mem_check hx, check_renamed_eq_nil_iff d⟩⟩
  · exact ⟨toUpperSnakeCase_toUpperSnakeCase hdigits, toPascalCase_toUpperSnakeCase hdigits⟩

/-- An enum whose name has a digit for its first character. -/
def firstEnum : CompilationUnit :=
  ⟨⟨"First.javats"⟩, "enum 1st{}", [.enumItem ⟨"1st", ⟨1, 6⟩, false⟩]⟩

/-- Runs of capitals are one word, and what stands around words counts for nothing. A name that
    starts with a digit is no better for being spelled in another case. -/
theorem spelling_laws_capitals :
    "httpsize".toList ∈ words "_maxHTTPSize$" ∧ "httpsize".toList ≠ [] ∧
      (∀ c ∈ "_maxHTTPSize$".toList, c.isDigit = false) ∧
      toUpperSnakeCase "MAX_HTTPSIZE" = "MAX_HTTPSIZE" ∧
      toPascalCase "MAX_HTTPSIZE" = "MaxHttpsize" ∧
      misspelled firstEnum ⟨1, 6⟩ "Type name '1st' must be in PascalCase." "1st" ∈
        (Declared.type "1st" ⟨1, 6⟩).check firstEnum ∧
      (Declared.type "1st" ⟨1, 6⟩).renamed.check firstEnum ≠ [] := by
  obtain ⟨⟨hne, -⟩, -, -, ⟨-, hrule⟩, hagain⟩ := spelling_laws "_maxHTTPSize$" [] firstEnum
  have hword : "httpsize".toList ∈ words "_maxHTTPSize$" := by decide +kernel
  have hdigits : ∀ c ∈ "_maxHTTPSize$".toList, c.isDigit = false := by simp
  have hsnake : toUpperSnakeCase "_maxHTTPSize$" = "MAX_HTTPSIZE" := by decide +kernel
  have hpascal : toPascalCase "_maxHTTPSize$" = "MaxHttpsize" := by decide +kernel
  have hreported : misspelled firstEnum ⟨1, 6⟩ "Type name '1st' must be in PascalCase." "1st" ∈
      (Declared.type "1st" ⟨1, 6⟩).check firstEnum := by decide +kernel
  obtain ⟨hupper, hback⟩ := hagain hdigits
  rw [hsnake] at hupper hback
  obtain ⟨-, hhelps⟩ := hrule (.type "1st" ⟨1, 6⟩)
  have hno : ¬(Declared.type "1st" ⟨1, 6⟩).IsSpellable := by decide +kernel
  exact ⟨hword, hne _ hword, hdigits, hupper, hback.trans hpascal, hreported,
    fun h => hno (hhelps.mp h)⟩

end ClassScript.Rules
