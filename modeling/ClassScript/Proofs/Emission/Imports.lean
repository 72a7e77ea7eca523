/-
  File:      ClassScript/Proofs/Emission/Imports.lean
  Subject:   The constants of a script are what its imports take.

  An import takes a default export, a whole module, and exports by their
  names, perhaps under other names. What is marked as a type is there for
  types alone. In the script there is a constant for each thing that is taken
  as a value, in the order of the source, and if there is none, the module is
  loaded all the same.

  The lines in front of a script say whether it is a module, and define how to
  find a default export, exactly if an import or an export on the walk of
  emission asks for it.

  * `Taken`, `takenValues`: what an import takes;
  * `IsLine`: a line of a script, and the constants it has; `DefinesFinder`:
    the lines that define how to find a default export;
  * `bindings_spec`: the lines of an import have the constants it takes;
  * `IsScriptName`: the name of a module, in scripts;
  * `import_binding_laws`: the imports of a program, and its first lines.
-/
import Mathlib.Data.List.Forall2
import ClassScript.Proofs.Emission.Reach

namespace ClassScript.Emission

open Syntax (Source Tree Kind IsImportName IsImportPart IsImportChild IsLiteral ImportForm rootOf
  ofSource_rootOf)

variable {s : String} {src : Source} {t : Tree} {call : String}

/-! ## 1. What an import takes -/

/-- What a constant of an import is bound to. -/
inductive Imported where
  /-- The default export of the module. -/
  | default
  /-- The module itself. -/
  | whole
  /-- The export `name` of the module. -/
  | named (name : String)
  deriving DecidableEq, Repr

/-- One thing that an import takes, under the name `constant`; it may be marked as a type. -/
structure Taken where
  imported : Imported
  constant : String
  isType : Bool
  deriving DecidableEq, Repr

/-- An import, or a name in it, is marked as one of types. -/
def isTypeImport (t : Tree) : Bool := t.hasToken "type" || t.hasToken "typeof"

/-- What is taken by one of the names in braces. -/
def takenByName (src : Source) (t : Tree) : Taken :=
  let name := (t.partText? src .name).getD ""
  ⟨.named name, (t.partText? src .renamed).getD name, isTypeImport t⟩

/-- The first part of the kind `kind`. -/
def partOfKind? (kind : Kind) (t : Tree) : Option Tree := t.children.find? (·.kind == kind)

/-- The whole module, under the name that is a part of `t`. -/
def takenWhole (src : Source) (t : Tree) : List Taken :=
  (partOfKind? .identifier t).toList.map fun name => ⟨.whole, name.text src, false⟩

/-- What is taken by a part of a clause. -/
def takenByPart (src : Source) (t : Tree) : List Taken :=
  match t.kind with
  | .identifier => [⟨.default, t.text src, false⟩]
  | .namespaceImport => takenWhole src t
  | .namedImports => (t.children.filter (·.kind == .importSpecifier)).map (takenByName src)
  | _ => []

/-- What is taken by a clause. -/
def takenByClause (src : Source) (clause : Tree) : List Taken :=
  clause.children.flatMap (takenByPart src)

/-- What an import takes as values. -/
def takenValues (src : Source) (t : Tree) : List Taken :=
  ((partOfKind? .importClause t).toList.flatMap (takenByClause src) ++
    (partOfKind? .importRequire t).toList.flatMap (takenWhole src)).filter (!·.isType)

/-! ## 2. Lines of a script -/

/-- A piece of a pattern makes a constant of an export. -/
inductive IsPiece : String → Taken → Prop where
  | plain (name : String) (isType : Bool) : IsPiece name ⟨.named name, name, isType⟩
  | renamed (name constant : String) (isType : Bool) :
    IsPiece (name ++ ": " ++ constant) ⟨.named name, constant, isType⟩

/-- A line makes these constants of the module that `call` loads. -/
inductive IsLine (call : String) : String → List Taken → Prop where
  | default (name : String) (isType : Bool) :
    IsLine call ("const " ++ name ++ " = __importDefault(" ++ call ++ ").default;")
      [⟨.default, name, isType⟩]
  | whole (name : String) (isType : Bool) :
    IsLine call ("const " ++ name ++ " = " ++ call ++ ";") [⟨.whole, name, isType⟩]
  | names {pieces : List String} {values : List Taken} (ne_nil : values ≠ [])
      (made : List.Forall₂ IsPiece pieces values) :
    IsLine call ("const \x7b " ++ ", ".intercalate pieces ++ " \x7d = " ++ call ++ ";") values

/-- The lines `text` define the function `name`, unless the script is given it: to a module that is
    marked as one it answers the module, and to anything else an object that has it for its default
    export. -/
def DefinesFinder (name text : String) : Prop :=
  ∃ given answer,
    text = "var " ++ name ++ " = (" ++ given ++ ") || function (mod) \x7b\n    return " ++ answer ++
      ";\n\x7d;\n" ∧
    given = "this && this." ++ name ∧
    answer = "(mod && mod.__esModule) ? mod : \x7b \"default\": mod \x7d"

theorem definesFinder_defaultHelper : DefinesFinder "__importDefault" Script.defaultHelper :=
  ⟨_, _, by decide, rfl, rfl⟩

/-- Lines make these constants, one line after the other. -/
def MakeConstants (call : String) (lines : List String) (values : List Taken) : Prop :=
  ∃ groups, List.Forall₂ (IsLine call) lines groups ∧ groups.flatten = values

theorem MakeConstants.nil : MakeConstants call [] [] := ⟨[], .nil, rfl⟩

theorem MakeConstants.cons {line : String} {lines : List String} {first rest : List Taken}
    (h : IsLine call line first) (hrest : MakeConstants call lines rest) :
    MakeConstants call (line :: lines) (first ++ rest) := by
  obtain ⟨groups, hlines, rfl⟩ := hrest
  exact ⟨first :: groups, .cons h hlines, rfl⟩

theorem MakeConstants.one {line : String} {values : List Taken} (h : IsLine call line values) :
    MakeConstants call [line] values := by
  have hone := MakeConstants.cons h .nil
  rwa [List.append_nil] at hone

theorem MakeConstants.nil_iff {values : List Taken} :
    MakeConstants call [] values ↔ values = [] := by
  constructor
  · rintro ⟨groups, hlines, rfl⟩
    cases hlines
    rfl
  · rintro rfl
    exact .nil

theorem IsLine.ne_nil {line : String} {values : List Taken} (h : IsLine call line values) :
    values ≠ [] := by
  cases h with
  | default name isType => exact List.cons_ne_nil _ _
  | whole name isType => exact List.cons_ne_nil _ _
  | names ne_nil made => exact ne_nil

theorem MakeConstants.ne_nil {lines : List String} {values : List Taken}
    (h : MakeConstants call lines values) (hlines : lines ≠ []) : values ≠ [] := by
  obtain ⟨groups, hgroups, rfl⟩ := h
  cases hgroups with
  | nil => exact absurd rfl hlines
  | cons hline hrest =>
    rw [List.flatten_cons]
    exact fun h => hline.ne_nil (List.append_eq_nil_iff.mp h).1

/-! ## 3. The names in braces -/

theorem kind_of_unnamed (h : t.isNamed = false) : ∃ text, t.kind = .token text := by
  rw [Tree.isNamed] at h
  revert h
  cases t.kind <;> simp [Kind.isNamed]

theorem exists_part? {f : Syntax.Field} (h : ∃ c ∈ t.children, c.field = some f) :
    ∃ part ∈ t.children, part.field = some f ∧ t.part? f = some part := by
  obtain ⟨c, hc, hf⟩ := h
  obtain ⟨part, hpart⟩ := Option.isSome_iff_exists.mp
    (List.find?_isSome (p := fun c => c.field == some f).mpr ⟨c, hc, by simp [hf]⟩)
  have hfield := List.find?_some hpart
  exact ⟨part, List.mem_of_find?_eq_some hpart, eq_of_beq hfield, hpart⟩

theorem partText?_of_field (src : Source) {f : Syntax.Field}
    (h : ∃ c ∈ t.children, c.field = some f) : ∃ text, t.partText? src f = some text := by
  obtain ⟨part, _, _, hpart⟩ := exists_part? h
  exact ⟨part.text src, congrArg (Option.map _) hpart⟩

/-- A name in braces makes its constant, unless it is marked as a type. -/
theorem importedName?_spec (src : Source) (hkind : t.kind = .importSpecifier)
    (hname : ∃ c ∈ t.children, c.field = some .name) :
    if isTypeImport t then importedName? src t = none
    else ∃ n, importedName? src t = some n ∧ IsPiece n.text (takenByName src t) := by
  obtain ⟨name, hname⟩ := partText?_of_field src hname
  have hmarked : (t.kind == .importSpecifier && !t.hasToken "type" && !t.hasToken "typeof") =
      !isTypeImport t := by
    rw [hkind, isTypeImport, Bool.not_or]
    rfl
  rw [importedName?, hmarked, hname]
  split
  · rename_i htype
    rw [htype]
    rfl
  · rename_i htype
    rw [Bool.not_eq_true] at htype
    rw [htype]
    refine ⟨_, rfl, ?_⟩
    rw [takenByName, hname]
    cases hrenamed : t.partText? src .renamed with
    | none => exact .plain name _
    | some other => exact .renamed name other _

/-- The names in braces make their constants. -/
theorem importedNames_spec (src : Source) {parts : List Tree} (h : ∀ c ∈ parts, IsImportName c) :
    List.Forall₂ IsPiece
      (((parts.filter Tree.isNamed).filterMap (importedName? src)).map ImportedName.text)
      (((parts.filter (·.kind == .importSpecifier)).map (takenByName src)).filter (!·.isType)) := by
  induction parts with
  | nil => exact .nil
  | cons c cs ih =>
    have hrest := ih fun d hd => h d (List.mem_cons_of_mem c hd)
    rcases h c List.mem_cons_self with hsign | ⟨hkind, hname⟩
    · obtain ⟨text, hkind⟩ := kind_of_unnamed hsign
      rwa [List.filter_cons_of_neg (by simp [hsign]),
        List.filter_cons_of_neg (a := c) (p := fun t => t.kind == .importSpecifier)
          (by simp [hkind])]
    · have hnamed : c.isNamed = true := by rw [Tree.isNamed, hkind]; rfl
      have hspec := importedName?_spec src hkind hname
      rw [List.filter_cons_of_pos hnamed, List.filter_cons_of_pos (a := c) (by simp [hkind]),
        List.filterMap_cons, List.map_cons]
      split at hspec
      · rename_i htype
        rw [hspec, List.filter_cons_of_neg (by simpa [takenByName] using htype)]
        exact hrest
      · rename_i htype
        obtain ⟨n, hn, hpiece⟩ := hspec
        rw [hn, List.filter_cons_of_pos (by simpa [takenByName] using htype)]
        exact .cons hpiece hrest

/-! ## 4. The clause of an import -/

/-- What a part of a clause takes as values. -/
def partValues (src : Source) (t : Tree) : List Taken := (takenByPart src t).filter (!·.isType)

theorem partValues_of_unnamed (h : t.isNamed = false) : partValues src t = [] := by
  obtain ⟨text, hkind⟩ := kind_of_unnamed h
  rw [partValues, takenByPart, hkind]
  rfl

/-- **A part of a clause** has a line that makes its constants, or takes no values. -/
theorem binding?_spec (src : Source) (call : String) (h : IsImportPart t)
    (hnamed : t.isNamed = true) :
    match binding? src t with
    | some b => IsLine call (b.line call) (partValues src t)
    | none => partValues src t = [] := by
  rcases h with hsign | hkind | ⟨hkind, words, name, hparts, hwords, hname⟩ | ⟨hkind, hnames⟩
  · rw [hsign] at hnamed
    cases hnamed
  · rw [binding?, partValues, takenByPart, hkind]
    exact .default _ _
  · have hfirst : t.named.head? = some name := by
      have hnone : words.filter Tree.isNamed = [] := List.filter_eq_nil_iff.mpr fun c hc => by
        simp [hwords c hc]
      rw [Tree.named, hparts, List.filter_append, hnone,
        List.filter_cons_of_pos (by rw [Tree.isNamed, hname]; rfl)]
      rfl
    have hfound : partOfKind? .identifier t = some name := by
      have hnone : words.find? (·.kind == .identifier) = none :=
        List.find?_eq_none.mpr fun c hc => by
          obtain ⟨text, hkind⟩ := kind_of_unnamed (hwords c hc)
          simp [hkind]
      rw [partOfKind?, hparts, List.find?_append, hnone, List.find?_cons_of_pos (by simp [hname])]
      rfl
    rw [binding?, partValues, takenByPart, hkind]
    dsimp only
    rw [hfirst, takenWhole, hfound]
    exact .whole _ _
  · have hspec := importedNames_spec src hnames
    have hvalues : partValues src t =
        ((t.children.filter (·.kind == .importSpecifier)).map (takenByName src)).filter
          (!·.isType) := by
      rw [partValues, takenByPart, hkind]
    rw [binding?, hkind, hvalues]
    dsimp only [Tree.named]
    cases hfound : (t.children.filter Tree.isNamed).filterMap (importedName? src) with
    | nil =>
      rw [hfound] at hspec
      exact List.forall₂_nil_left_iff.mp hspec
    | cons n ns =>
      rw [hfound] at hspec
      exact .names (fun hnone => by rw [hnone] at hspec; cases hspec) hspec

/-- The lines of some parts make their constants. -/
theorem partLines_spec (src : Source) (call : String) {parts : List Tree}
    (h : ∀ c ∈ parts, IsImportPart c) :
    MakeConstants call
      (((parts.filter Tree.isNamed).filterMap (binding? src)).map (Binding.line call))
      ((parts.flatMap (takenByPart src)).filter (!·.isType)) := by
  induction parts with
  | nil => exact .nil
  | cons c cs ih =>
    have hrest := ih fun d hd => h d (List.mem_cons_of_mem c hd)
    rw [List.flatMap_cons, List.filter_append]
    change MakeConstants call _ (partValues src c ++ _)
    cases hnamed : c.isNamed with
    | false =>
      rw [List.filter_cons_of_neg (by simp [hnamed]), partValues_of_unnamed hnamed]
      exact hrest
    | true =>
      have hspec := binding?_spec src call (h c List.mem_cons_self) hnamed
      rw [List.filter_cons_of_pos hnamed, List.filterMap_cons]
      split at hspec
      · rename_i b hb
        rw [hb]
        exact .cons hspec hrest
      · rename_i hnone
        rw [hnone, hspec]
        exact hrest

/-- The lines of a clause make the constants that it takes as values; without any there is one line
    that loads the module. -/
theorem bindings_spec (src : Source) (call : String) {clause? : Option Tree}
    (h : ∀ clause ∈ clause?, ∀ c ∈ clause.children, IsImportPart c) :
    let lines := (bindings src clause?).map (Binding.line call)
    let values := (clause?.toList.flatMap (takenByClause src)).filter (!·.isType)
    (values = [] → lines = [call ++ ";"]) ∧ (values ≠ [] → MakeConstants call lines values) := by
  cases clause? with
  | none => exact ⟨fun _ => rfl, fun h => absurd rfl h⟩
  | some clause =>
    have hmake := partLines_spec src call (h clause rfl)
    have hvalues : ((some clause).toList.flatMap (takenByClause src)).filter (!·.isType) =
        (clause.children.flatMap (takenByPart src)).filter (!·.isType) := by
      rw [Option.toList_some, List.flatMap_singleton]
      rfl
    dsimp only
    rw [hvalues, bindings]
    change MakeConstants call ((clauseBindings src clause).map _) _ at hmake
    cases hfound : clauseBindings src clause with
    | nil =>
      rw [hfound] at hmake
      exact ⟨fun _ => rfl, fun hne => absurd (MakeConstants.nil_iff.mp hmake) hne⟩
    | cons b bs =>
      rw [hfound] at hmake
      exact ⟨fun hnone => absurd hnone (hmake.ne_nil (List.cons_ne_nil _ _)), fun _ => hmake⟩

/-! ## 5. Default exports -/

/-- An import takes a default export. -/
def takesDefault (src : Source) (t : Tree) : Bool :=
  (takenValues src t).any (·.imported == .default)

theorem any_default_partValues (src : Source) (t : Tree) :
    (partValues src t).any (·.imported == .default) = (t.kind == .identifier) := by
  unfold partValues takenByPart
  cases t.kind
  case identifier => rfl
  case namespaceImport | namedImports =>
    refine List.any_eq_false.mpr fun value hvalue => ?_
    obtain ⟨part, _, rfl⟩ := List.mem_map.mp (List.mem_filter.mp hvalue).1
    exact Bool.false_ne_true
  all_goals rfl

theorem any_default_clause (src : Source) (clause : Tree) :
    ((takenByClause src clause).filter (!·.isType)).any (·.imported == .default) =
      clause.children.any (·.kind == .identifier) := by
  have hparts : (takenByClause src clause).filter (!·.isType) =
      clause.children.flatMap (partValues src) := List.filter_flatMap
  rw [hparts, List.any_flatMap]
  exact congrArg _ (funext fun c => any_default_partValues src c)

theorem isDefault_binding? (src : Source) (t : Tree) :
    (binding? src t).any Binding.isDefault = (t.kind == .identifier) := by
  unfold binding?
  cases t.kind
  case namespaceImport => cases t.named.head? <;> rfl
  case namedImports =>
    dsimp only
    split <;> rfl
  all_goals rfl

theorem any_isDefault_clauseBindings (src : Source) (clause : Tree) :
    (clauseBindings src clause).any Binding.isDefault =
      clause.children.any (·.kind == .identifier) := by
  rw [clauseBindings, Tree.named, List.any_filterMap, List.any_filter]
  refine congrArg _ (funext fun c => ?_)
  rw [← isDefault_binding? src c]
  cases hnamed : c.isNamed with
  | true => cases binding? src c <;> rfl
  | false =>
    obtain ⟨text, hkind⟩ := kind_of_unnamed hnamed
    rw [binding?, hkind]
    rfl

/-- A default export is bound where one is taken. -/
theorem any_isDefault_bindings (src : Source) (clause? : Option Tree) :
    (bindings src clause?).any Binding.isDefault =
      ((clause?.toList.flatMap (takenByClause src)).filter (!·.isType)).any
        (·.imported == .default) := by
  cases clause? with
  | none => rfl
  | some clause =>
    rw [Option.toList_some, List.flatMap_singleton, any_default_clause,
      ← any_isDefault_clauseBindings, bindings]
    cases clauseBindings src clause <;> rfl

/-! ## 6. The module that an import is from -/

variable {literal : String} {clause root : Tree} {following : List Tree} {e : Emission}

theorem namedPart?_eq {kind : Kind} (h : kind.isNamed = true) (t : Tree) :
    namedPart? kind t = partOfKind? kind t := by
  rw [namedPart?, Tree.named, List.find?_filter, partOfKind?]
  refine congrArg (List.find? · t.children) (funext fun c => ?_)
  cases hkind : c.kind == kind with
  | false => exact decide_eq_false (by simp)
  | true => rw [Tree.isNamed, eq_of_beq hkind, h]; rfl

theorem partOfKind?_eq_none {kind : Kind} (h : ∀ c ∈ t.children, c.kind ≠ kind) :
    partOfKind? kind t = none :=
  List.find?_eq_none.mpr fun c hc he => h c hc (eq_of_beq he)

theorem partOfKind?_spec {kind : Kind} {part : Tree} (h : partOfKind? kind t = some part) :
    part ∈ t.children ∧ part.kind = kind := by
  have hkind := List.find?_some h
  exact ⟨List.mem_of_find?_eq_some h, eq_of_beq hkind⟩

/-- The literal of the module that an import is from. -/
def sourceLiteral? (src : Source) (t : Tree) : Option String :=
  match partOfKind? .importRequire t with
  | some clause => clause.partText? src .source
  | none => t.partText? src .source

/-- The import `t` is from the module `specifier`, with the quotation mark `q`. -/
structure NamesModule (src : Source) (t : Tree) (q : Char) (specifier : String) : Prop where
  quote : isQuote q = true
  literal : sourceLiteral? src t = some (quoted q specifier)

theorem sourceName?_of_literal (h : sourceLiteral? src t = some literal)
    (hnone : partOfKind? .importRequire t = none) :
    sourceName? src t = some (moduleName literal) := by
  rw [sourceLiteral?, hnone] at h
  exact sourceName?_eq h

/-- A literal text has quotation marks around it. -/
theorem exists_quoted (h : IsLiteral s t) :
    ∃ q specifier, isQuote q = true ∧ t.text (.ofString s) = quoted q specifier := by
  obtain ⟨cs, ⟨q, inner, hq, rfl⟩, htext⟩ := h.text
  refine ⟨q, String.ofList inner, by rcases hq with rfl | rfl <;> rfl, ?_⟩
  rw [htext]
  refine String.toList_inj.mp ?_
  rw [toList_quoted, String.toList_ofList, String.toList_ofList]

theorem exists_partText?_quoted {f : Syntax.Field} (h : ∃ c ∈ t.children, c.field = some f)
    (hliteral : ∀ c ∈ t.children, c.field = some f → IsLiteral s c) :
    ∃ q specifier, isQuote q = true ∧
      t.partText? (.ofString s) f = some (quoted q specifier) := by
  obtain ⟨part, hmem, hfield, hpart⟩ := exists_part? h
  obtain ⟨q, specifier, hq, htext⟩ := exists_quoted (hliteral part hmem hfield)
  exact ⟨q, specifier, hq, (congrArg (Option.map _) hpart).trans (congrArg some htext)⟩

/-- An import is from a module that a literal text names. -/
theorem exists_sourceLiteral? (hform : ImportForm s t)
    (hparts : ∀ c ∈ t.children, IsImportChild s c) :
    ∃ q specifier, isQuote q = true ∧
      sourceLiteral? (.ofString s) t = some (quoted q specifier) := by
  unfold sourceLiteral?
  cases hrequire : partOfKind? .importRequire t with
  | some clause =>
    obtain ⟨hmem, hkind⟩ := partOfKind?_spec hrequire
    obtain ⟨_, hexists, hliteral⟩ := (hparts clause hmem).require hkind
    exact exists_partText?_quoted hexists hliteral
  | none =>
    refine exists_partText?_quoted (hform.source.resolve_left ?_) fun c hc => (hparts c hc).source
    rintro ⟨c, hc, hkind⟩
    have hno := List.find?_eq_none.mp hrequire c hc
    simp [hkind] at hno

/-- A text does not start or end with a quotation mark. -/
structure HasPlainEnds (text : String) : Prop where
  head : ∀ c ∈ text.toList.head?, isQuote c = false
  last : ∀ c ∈ text.toList.getLast?, isQuote c = false

/-- The name of a module reads `name` in scripts: another extension comes for that of sources. -/
def IsScriptName (specifier name : String) : Prop :=
  (∃ stem, specifier = stem ++ ("." ++ sourceExtension) ∧
    name = stem ++ ("." ++ scriptExtension)) ∨
  (∀ stem, specifier ≠ stem ++ ("." ++ sourceExtension)) ∧ name = specifier

theorem isScriptName_moduleStem (specifier : String) :
    IsScriptName specifier (moduleStem specifier) := by
  cases hstem : Text.dropTail? ("." ++ sourceExtension) specifier with
  | some stem =>
    obtain rfl := Text.dropTail?_eq_some_iff.mp hstem
    exact .inl ⟨stem, rfl, moduleStem_append stem⟩
  | none =>
    refine .inr ⟨fun stem he => ?_, by rw [moduleStem, hstem]⟩
    rw [Text.dropTail?_eq_some_iff.mpr he] at hstem
    cases hstem

/-! ## 7. The emission of an import -/

/-- The emission `e` has the import `t` make constants of what it takes as values from the module
    `name`, in one edit in the place of the import. -/
structure Imports (src : Source) (t : Tree) (name : String) (e : Emission) : Prop where
  edit : ∃ lines, e.edits = [⟨t.start, t.stop, "\n".intercalate lines⟩] ∧
    (takenValues src t = [] → lines = [requireCall name ++ ";"]) ∧
    (takenValues src t ≠ [] → MakeConstants (requireCall name) lines (takenValues src t))
  modules : e.usesModules = true
  default : e.importsDefault = takesDefault src t

/-- What requires a module takes this module. -/
theorem takenValues_of_require (hform : ImportForm s t)
    (hclause : partOfKind? .importRequire t = some clause) :
    takenValues src t = takenWhole src clause := by
  have hnone : partOfKind? .importClause t = none := by
    obtain ⟨hmem, hkind⟩ := partOfKind?_spec hclause
    exact partOfKind?_eq_none fun c hc he => hform.apart ⟨c, hc, he⟩ clause hmem hkind
  have hvalues : (takenWhole src clause).filter (!·.isType) = takenWhole src clause := by
    rw [takenWhole]
    cases partOfKind? .identifier clause <;> rfl
  rw [takenValues, hnone, hclause, Option.toList_some, List.flatMap_singleton]
  exact hvalues

theorem takenValues_of_clause (hnone : partOfKind? .importRequire t = none) :
    takenValues src t =
      ((partOfKind? .importClause t).toList.flatMap (takenByClause src)).filter (!·.isType) := by
  rw [takenValues, hnone]
  exact congrArg _ (List.append_nil _)

/-- **An import** that is not one of types makes constants of what it takes. -/
theorem imports_lowerImport (hform : ImportForm s t) (hparts : ∀ c ∈ t.children, IsImportChild s c)
    (hmarked : isTypeImport t = false) (hliteral : sourceLiteral? src t = some literal) :
    Imports src t (moduleName literal) (lowerImport src t) := by
  have hunmarked : ¬(t.hasToken "type" || t.hasToken "typeof") = true := by
    rw [← isTypeImport, hmarked]
    exact Bool.false_ne_true
  rw [lowerImport, if_neg hunmarked, namedPart?_eq rfl]
  cases hrequire : partOfKind? .importRequire t with
  | some clause =>
    obtain ⟨hmem, hkind⟩ := partOfKind?_spec hrequire
    obtain ⟨⟨c, hc, hname⟩, _, _⟩ := (hparts clause hmem).require hkind
    obtain ⟨name, hfound⟩ := Option.isSome_iff_exists.mp
      (List.find?_isSome (p := fun c => c.kind == .identifier).mpr ⟨c, hc, by simp [hname]⟩)
    have hvalues : takenValues src t = [⟨.whole, name.text src, false⟩] := by
      rw [takenValues_of_require hform hrequire, takenWhole, partOfKind?, hfound]
      rfl
    have hsource : sourceName? src clause = some (moduleName literal) := by
      rw [sourceLiteral?, hrequire] at hliteral
      exact sourceName?_eq hliteral
    have hline : requireLine src clause =
        "const " ++ name.text src ++ " = " ++ requireCall (moduleName literal) ++ ";" := by
      rw [requireLine, namedPart?_eq rfl, partOfKind?, hfound, hsource]
      rfl
    refine ⟨⟨[requireLine src clause], ?_, ?_, fun _ => ?_⟩, rfl, ?_⟩
    · rw [String.intercalate_singleton]
      rfl
    · rw [hvalues]
      exact fun hnone => absurd hnone (List.cons_ne_nil _ _)
    · rw [hvalues, hline]
      exact .one (.whole _ _)
    · rw [takesDefault, hvalues]
      rfl
  | none =>
    have hclauses : ∀ clause ∈ partOfKind? .importClause t, ∀ c ∈ clause.children,
        IsImportPart c := fun clause hclause =>
      (hparts clause (partOfKind?_spec hclause).1).clause (partOfKind?_spec hclause).2
    have hspec := bindings_spec src (requireCall (moduleName literal)) hclauses
    rw [← takenValues_of_clause hrequire] at hspec
    rw [sourceName?_of_literal hliteral hrequire]
    refine ⟨⟨_, rfl, ?_⟩, rfl, ?_⟩
    · rw [namedPart?_eq rfl]
      exact hspec
    · rw [takesDefault, takenValues_of_clause hrequire, ← any_isDefault_bindings]
      show (bindings src (namedPart? .importClause t)).any _ = _
      rw [namedPart?_eq rfl]

/-- An import needs the function that finds default exports exactly if it takes one as a value. -/
theorem importsDefault_lowerImport (hform : ImportForm s t) :
    (lowerImport src t).importsDefault = (!isTypeImport t && takesDefault src t) := by
  rw [lowerImport, ← isTypeImport, namedPart?_eq rfl]
  cases isTypeImport t with
  | true => rfl
  | false =>
    rw [if_neg Bool.false_ne_true, Bool.not_false, Bool.true_and, takesDefault]
    cases hrequire : partOfKind? .importRequire t with
    | some clause =>
      rw [takenValues_of_require hform hrequire, takenWhole]
      cases partOfKind? .identifier clause <;> rfl
    | none =>
      have hsource : (sourceName? src t).isSome = true := by
        rcases hform.source with ⟨c, hc, hkind⟩ | hexists
        · have hno := List.find?_eq_none.mp hrequire c hc
          simp [hkind] at hno
        · obtain ⟨text, htext⟩ := partText?_of_field src hexists
          rw [sourceName?_eq htext]
          rfl
      obtain ⟨source, hsource⟩ := Option.isSome_iff_exists.mp hsource
      rw [hsource, takenValues_of_clause hrequire, ← any_isDefault_bindings]
      show (bindings src (namedPart? .importClause t)).any _ = _
      rw [namedPart?_eq rfl]

/-- The emission `e` takes the statement `t` out, and brings nothing in. -/
structure Removes (src : Source) (t : Tree) (e : Emission) : Prop where
  edits : e.edits = [dropStatement src t]
  text : (dropStatement src t).text = ""
  around : (dropStatement src t).start ≤ t.start ∧ t.stop ≤ (dropStatement src t).stop

theorem removes_lowerImport (h : isTypeImport t = true) : Removes src t (lowerImport src t) := by
  refine ⟨?_, text_dropLines _ _ _, dropLines_around _ _ _⟩
  rw [lowerImport, ← isTypeImport, if_pos h]
  rfl

/-! ## 8. Imports of a program -/

/-- Imports in a text are formed as such. -/
theorem importForm_of_mem (h : Tree.ofSource (.ofString s) = .ok root) (ht : t ∈ root.nodes)
    (hkind : t.kind = .importStatement) : ImportForm s t := by
  have hform := (Syntax.allFormed_ofSource h t ht).form
  rwa [Syntax.Form, hkind] at hform

theorem bindsDefault_iff (h : Tree.ofSource (.ofString s) = .ok root) (ht : t ∈ root.nodes) :
    bindsDefault (.ofString s) t = true ↔ t.kind = .importStatement ∧ isTypeImport t = false ∧
      takesDefault (.ofString s) t = true := by
  rw [bindsDefault, Bool.and_eq_true, beq_iff_eq]
  refine and_congr_right fun hkind => ?_
  rw [importsDefault_lowerImport (importForm_of_mem h ht hkind), Bool.and_eq_true,
    Bool.not_eq_true']

/-- The edits of an import on the walk are among those of the program. -/
theorem edits_of_import {own : Emission} (h : Tree.ofSource (.ofString s) = .ok root)
    (he : emitAll (.ofString s) root.children = .ok e) (ht : t ∈ walk root)
    (hkind : t.kind = .importStatement) (hown : emit (.ofString s) following t = .ok own) :
    ∀ x ∈ own.edits, x ∈ e.edits := by
  have hspeaks : (treatment t.kind).speaks = true := by rw [hkind]; rfl
  have hroot : emit (.ofString s) [] root = .ok e := (emit_program h).trans he
  obtain ⟨_, inner, hinner, hsub⟩ :=
    carries_of_mem_walk (Syntax.allFormed_ofSource h) ht hspeaks hroot
  -- what follows an import makes no difference to it
  rw [emit_import _ hkind] at hinner hown
  obtain rfl := Except.ok.inj hinner
  obtain rfl := Except.ok.inj hown
  exact hsub

/-- **The imports of a program.** An import that is marked as one of types is taken out. One from
    the module `specifier` makes constants of what it takes as values, in the order of the source,
    and only loads the module if there is nothing; it has the extension of scripts for that of
    sources. Of a program that has a script, the edits of all imports on the walk are among those
    that make its text; there is a line that marks a module exactly if an import or an export is on
    the walk, and lines that define how to find a default export exactly if an import takes one. -/
theorem import_binding_laws (h : Tree.ofSource (.ofString s) = .ok root) :
    let src := Source.ofString s
    (∀ t ∈ root.nodes, t.kind = .importStatement → (∀ m ∈ t.nodes, m.kind ≠ .comment) →
      ∀ following, ∃ e, emit src following t = .ok e ∧
        (isTypeImport t = true → Removes src t e) ∧
        (isTypeImport t = false → (∃ q specifier, NamesModule src t q specifier) ∧
          ∀ q specifier, NamesModule src t q specifier → HasPlainEnds specifier →
            ∃ name, IsScriptName specifier name ∧ Imports src t (quoted q name) e)) ∧
    ∀ script, Script.ofText s = .ok script → ∃ edits modules helper finder,
      script = "\"use strict\";\n" ++
        (if modules = true then
          "Object.defineProperty(exports, \"__esModule\", \x7b value: true \x7d);\n" else "") ++
        (if helper = true then finder else "") ++ Edit.applyTo src edits ∧
      DefinesFinder "__importDefault" finder ∧
      (modules = true ↔ ∃ t ∈ walk root, t.kind = .importStatement ∨ t.kind = .exportStatement) ∧
      (helper = true ↔ ∃ t ∈ walk root, t.kind = .importStatement ∧ isTypeImport t = false ∧
        takesDefault src t = true) ∧
      ∀ t ∈ walk root, t.kind = .importStatement → ∀ following e, emit src following t = .ok e →
        ∀ x ∈ e.edits, x ∈ edits := by
  intro src
  refine ⟨fun t ht hkind hplain following => ?_, fun script hscript => ?_⟩
  · have hform := importForm_of_mem h ht hkind
    have hparts := hform.parts fun m hm =>
      hplain m (by rw [Tree.nodes_eq]; exact List.mem_cons_of_mem t hm)
    refine ⟨_, emit_import following hkind, removes_lowerImport, fun hmarked => ⟨?_, ?_⟩⟩
    · obtain ⟨q, specifier, hq, hliteral⟩ := exists_sourceLiteral? hform hparts
      exact ⟨q, specifier, hq, hliteral⟩
    · rintro q specifier ⟨hq, hliteral⟩ hends
      refine ⟨moduleStem specifier, isScriptName_moduleStem specifier, ?_⟩
      rw [← moduleName_of_ends hq hends.head hends.last]
      exact imports_lowerImport hform hparts hmarked hliteral
  · obtain ⟨e, hemit, hheader, hmodules, hdefault⟩ := needs_of_ofText h hscript
    refine ⟨e.edits, e.usesModules, e.importsDefault, Script.defaultHelper, hheader,
      definesFinder_defaultHelper, ?_, ?_, ?_⟩
    · simp [hmodules, isModular]
    · rw [hdefault, List.any_eq_true]
      exact exists_congr fun t => and_congr_right fun ht =>
        bindsDefault_iff h ((walk_sublist_nodes root).subset ht)
    · exact fun t ht hkind following own hown => edits_of_import h hemit ht hkind hown

/-- An import of a default export, of an export under another name, and of a type. -/
def mixedImportText : String := "import a,\x7bb as c,type D\x7dfrom'./m.javats'"

/-- The first import of a text. -/
def importIn? (text : String) : Option Tree :=
  (rootOf text).nodes.find? (·.kind == .importStatement)

/-- There are constants for the first two. -/
theorem import_binding_laws_mixed :
    let src := Source.ofString mixedImportText
    let t := (importIn? mixedImportText).getD default
    Tree.ofSource src = .ok (rootOf mixedImportText) ∧
      takenValues src t = [⟨.default, "a", false⟩, ⟨.named "b", "c", false⟩] ∧
      (∃ e name, emit src [] t = .ok e ∧ IsScriptName "./m.javats" name ∧
        Imports src t (quoted '\'' name) e) ∧
      (Script.ofText mixedImportText).toOption = some
        (Script.strictLine ++ Script.moduleLine ++ Script.defaultHelper ++
          "const a = __importDefault(require('./m.js')).default;\n" ++
          "const \x7b b: c \x7d = require('./m.js');") := by
  intro src t
  have hroot : Tree.ofSource src = .ok (rootOf mixedImportText) :=
    ofSource_rootOf (by decide +kernel)
  have hfacts : (importIn? mixedImportText).isSome = true ∧ (∀ m ∈ t.nodes, m.kind ≠ .comment) ∧
      isTypeImport t = false ∧ sourceLiteral? src t = some (quoted '\'' "./m.javats") := by
    decide +kernel
  obtain ⟨hfound, hplain, hmarked, hliteral⟩ := hfacts
  have ht : importIn? mixedImportText = some t := Syntax.eq_some_getD hfound
  have hkind : t.kind = .importStatement := by
    obtain ⟨hkind, _⟩ := List.find?_eq_some_iff_append.mp ht
    exact eq_of_beq hkind
  obtain ⟨e, hemit, _, himports⟩ :=
    (import_binding_laws hroot).1 t (List.mem_of_find?_eq_some ht) hkind hplain []
  obtain ⟨name, hname, hconstants⟩ := (himports hmarked).2 '\'' "./m.javats" ⟨rfl, hliteral⟩
    ⟨by simp [isQuote], by simp [isQuote]⟩
  exact ⟨hroot, by decide +kernel, ⟨e, name, hemit, hname, hconstants⟩, by decide +kernel⟩

end ClassScript.Emission
