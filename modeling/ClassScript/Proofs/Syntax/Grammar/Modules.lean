/-
  File:      ClassScript/Proofs/Syntax/Grammar/Modules.lean
  Subject:   The rules of imports and exports are sound.

  An import requires a module, or takes names from one. An export gives names,
  a declaration or a value to others. Only names may be marked as types or as
  a namespace, and names have no role in the export and no decorators before
  it.

  * `IsImportShape`: the parts of an import;
  * `IsExportShape`: the parts of an export.
-/
import ClassScript.Proofs.Syntax.Single

namespace ClassScript.Syntax

open Reader

variable {s : String} {P : Tree → Prop} {nested : Nested} {i j : Nat}

/-! ## 1. Imports -/

theorem shaped_literal : Shaped s (IsOne (IsLiteral s)) stringLiteral := by
  unfold stringLiteral
  refine fun i hi => Gives.mono (gives_leaf hi fun _ _ => rfl) ?_
  rintro ts j ⟨t, rfl, hpass, hts, hy⟩
  obtain ⟨cs, hstands, hquoted⟩ := Token.exists_of_quoted (s := s) (eq_of_beq hpass)
  refine ⟨hy, _, hts, rfl, rfl, cs, hquoted, ?_⟩
  show (Source.ofString s).text (Token.scan (.ofString s) i).start _ = _
  rw [Token.start_scan]
  exact hstands.text_eq

/-- A part of an import that is neither what it takes nor where from. -/
def IsAside (t : Tree) : Prop :=
  t.kind ≠ .importClause ∧ t.kind ≠ .importRequire ∧ t.field ≠ some .source

theorem IsAside.child {t : Tree} (h : IsAside t) : IsImportChild s t :=
  ⟨fun hkind => absurd hkind h.1, fun hkind => absurd hkind h.2.1,
    fun hfield => absurd hfield h.2.2⟩

/-- A word or a mark, without a role. -/
def IsSign (t : Tree) : Prop := t.isNamed = false ∧ t.field = none

theorem IsSign.aside {t : Tree} (h : IsSign t) : IsAside t := by
  have hnamed := h.1
  rw [Tree.isNamed] at hnamed
  refine ⟨fun hkind => ?_, fun hkind => ?_, fun hfield => ?_⟩
  · rw [hkind] at hnamed
    cases hnamed
  · rw [hkind] at hnamed
    cases hnamed
  · cases h.2.symm.trans hfield

theorem IsToken.isSign {text : String} {t : Tree} (h : IsToken s text t) : IsSign t :=
  ⟨by rw [Tree.isNamed, h.kind]; rfl, h.field⟩

instance (text : String) : Sound s IsSign (keyword text) :=
  (shaped_keyword text).sound_of_one.mono fun _ h => h.isSign

instance (text : String) : Sound s IsSign (mark text) :=
  (shaped_mark text).sound_of_one.mono fun _ h => h.isSign

instance (texts : List String) : Sound s IsSign (keywordOf texts) :=
  .leaf (fun _ _ => rfl) fun _ _ => ⟨rfl, rfl⟩

instance (afterExpression : Bool) : Sound s IsSign (statementEnd afterExpression) := by
  unfold statementEnd; infer_instance

instance : Sound s Any fromClause := by unfold fromClause; infer_instance

instance {p : Grammar} [Sound s Any p] : Sound s Any (typeMarker p) := by
  unfold typeMarker; infer_instance

instance : Sound s IsBare externalName := by unfold externalName; infer_instance

/-! ### What an import takes -/

theorem shaped_name {p : Grammar} [hs : Sound s IsBare p] [hp : Single p] :
    Shaped s (Among fun t => t.field = some .name) (role .name p) := by
  have hone : Shaped s (IsOne Any) p :=
    ((Shaped.of_sound hs).and_finds hp).mono fun _ ⟨_, t, hts, _⟩ => ⟨t, hts, trivial⟩
  have hrole : Shaped s (IsOne fun t => t.field = some .name) (role .name p) :=
    hone.role fun | .node .., _ => rfl
  exact hrole.mono fun _ => IsOne.among

theorem shaped_importSpecifier_plain :
    Shaped s (Among fun t => t.field = some .name) importSpecifier.plain := by
  have hexternal : Single externalName := by unfold externalName; infer_instance
  have hnames : Shaped s (Among fun t => t.field = some .name)
      (role .name externalName ++ keyword "as" ++ role .renamed identifier <|>
        role .name identifier) :=
    .orElse shaped_name.among_append.among_append shaped_name
  intro i hi
  refine Gives.bind (Gives.mono (hnames i hi) fun ts j hts => Gives.bind (.peek ?_))
  split
  · exact .refuse
  · exact .pure hts

/-- A part of the names in braces. -/
instance : Sound s IsImportName importSpecifier := by
  have hmarked : Shaped s (Among fun t => t.field = some .name)
      (typeMarker importSpecifier.plain) := .append_among shaped_importSpecifier_plain
  exact ((hmarked.orElse shaped_importSpecifier_plain).node (fun _ _ _ _ => .of_free rfl)
    fun _ _ _ h => .inr ⟨rfl, h⟩).sound_of_one

instance (priority := low) {p : Grammar} [h : Sound s IsSign p] : Sound s IsImportName p :=
  h.mono fun _ ht => .inl ht.1

instance (priority := low) {p : Grammar} [h : Sound s IsSign p] : Sound s IsImportPart p :=
  h.mono fun _ ht => .inl ht.1

instance : Sound s IsImportPart identifier :=
  .leaf (fun _ _ => rfl) fun _ _ => .inr (.inl rfl)

instance : Sound s IsImportPart namedImports := by
  have hparts : Sound s IsImportName (between "\x7b" (commaList importSpecifier) "\x7d") := by
    unfold between commaList; infer_instance
  exact ((Shaped.of_sound hparts).node (fun _ _ _ _ => .of_free rfl)
    fun _ _ _ h => .inr (.inr (.inr ⟨rfl, h⟩))).sound_of_one

instance : Sound s IsImportPart namespaceImport := by
  have hname : Shaped s (IsOne fun t => t.kind = .identifier) identifier :=
    .leaf (fun _ _ => rfl) fun _ => rfl
  have hparts : Shaped s (fun ts => ∃ words name, ts = words ++ [name] ∧
      (∀ c ∈ words, c.isNamed = false) ∧ name.kind = .identifier)
      (mark "*" ++ keyword "as" ++ identifier) :=
    (Shaped.of_sound (P := IsSign) inferInstance).append hname
      fun words _ hwords ⟨name, hname, hkind⟩ =>
        ⟨words, name, by rw [hname], fun c hc => (hwords c hc).1, hkind⟩
  exact (hparts.node (fun _ _ _ _ => .of_free rfl)
    fun _ _ _ h => .inr (.inr (.inl ⟨rfl, h⟩))).sound_of_one

/-- What an import takes has no role, and its parts are as they should be. -/
def IsTaken (t : Tree) : Prop :=
  t.kind = .importClause ∧ t.field = none ∧ ∀ c ∈ t.children, IsImportPart c

theorem shaped_importClause : Shaped s (IsOne IsTaken) importClause :=
  (Shaped.of_sound (P := IsImportPart) inferInstance).node (fun _ _ _ _ => .of_free rfl)
    fun _ _ _ h => ⟨rfl, rfl, h⟩

/-- A literal text for the module that an import is from. -/
def IsSource (s : String) (t : Tree) : Prop := t.field = some .source ∧ IsLiteral s t

theorem shaped_source : Shaped s (IsOne (IsSource s)) (role .source stringLiteral) :=
  shaped_literal.role fun | .node .., h => ⟨rfl, h.kind, h.children, h.text⟩

theorem shaped_fromClause :
    Shaped s (fun ts => ∃ word source, ts = [word, source] ∧ IsSign word ∧ IsSource s source)
      fromClause :=
  (shaped_keyword "from").append shaped_source fun _ _ ⟨word, hword, hsign⟩ ⟨source, hsource, h⟩ =>
    ⟨word, source, by rw [hword, hsource]; rfl, hsign.isSign, h⟩

/-! ### Imports -/

/-- The parts of an import, or some of them: it requires a module or names its source, and does not
    do both. -/
structure IsImportShape (s : String) (ts : List Tree) : Prop where
  source : (∃ c ∈ ts, c.kind = .importRequire) ∨ ∃ c ∈ ts, c.field = some .source
  apart : (∃ c ∈ ts, c.kind = .importClause) → ∀ c ∈ ts, c.kind ≠ .importRequire
  parts : ∀ c ∈ ts, IsImportChild s c

/-- A part that is in the role of a source is a literal text. -/
def IsLiteralSource (s : String) (t : Tree) : Prop := t.field = some .source → IsLiteral s t

instance (priority := low) {p : Grammar} [h : Sound s HasNoRole p] :
    Sound s (IsLiteralSource s) p :=
  h.mono fun _ ht hfield => absurd (ht.symm.trans hfield) nofun

instance : Sound s (IsLiteralSource s) (role .source stringLiteral) :=
  shaped_source.sound_of_one.mono fun _ h _ => h.2

theorem shaped_importRequire :
    Shaped s (IsOne fun t => t.kind = .importRequire ∧ t.field = none ∧ IsImportChild s t)
      importRequire := by
  have hname : Shaped s (IsOne fun t => t.kind = .identifier) identifier :=
    .leaf (fun _ _ => rfl) fun _ => rfl
  have hsource : Shaped s (IsOne fun t => t.field = some .source) (role .source stringLiteral) :=
    shaped_source.mono fun _ ⟨t, hts, ht⟩ => ⟨t, hts, ht.1⟩
  have hfirst : Shaped s (Among fun t => t.kind = .identifier)
      (identifier ++ mark "=" ++ keyword "require" ++ mark "(" ++ role .source stringLiteral ++
        mark ")") :=
    have hamong := hname.mono fun _ => IsOne.among
    hamong.among_append.among_append.among_append.among_append.among_append
  have hfrom : Shaped s (Among fun t => t.field = some .source)
      (identifier ++ mark "=" ++ keyword "require" ++ mark "(" ++ role .source stringLiteral ++
        mark ")") :=
    (Shaped.append_among (hsource.mono fun _ => IsOne.among)).among_append
  exact ((hfirst.and hfrom).and (.of_sound (P := IsLiteralSource s) inferInstance)).node
    (fun _ _ _ _ => .of_free rfl) fun _ _ _ h =>
      ⟨rfl, rfl, nofun, fun _ => ⟨h.1.1, h.1.2, h.2⟩, nofun⟩

theorem IsTaken.child {t : Tree} (h : IsTaken t) : IsImportChild s t :=
  ⟨fun _ => h.2.2, fun hkind => (by rw [h.1] at hkind; cases hkind), fun hfield =>
    absurd (h.2.1.symm.trans hfield) nofun⟩

theorem IsSource.child {t : Tree} (h : IsSource s t) : IsImportChild s t := by
  refine ⟨fun hkind => ?_, fun hkind => ?_, fun _ => h.2⟩ <;> rw [h.2.kind] at hkind <;> cases hkind

theorem shaped_importBody : Shaped s (IsImportShape s) importBody := by
  have hclause : Shaped s (IsImportShape s) (importClause ++ fromClause) := by
    refine shaped_importClause.append shaped_fromClause ?_
    rintro _ _ ⟨clause, rfl, hclause⟩ ⟨word, source, rfl, hword, hsource⟩
    refine ⟨.inr ⟨source, by simp, hsource.1⟩, fun _ => ?_, ?_⟩
    · simp [hclause.1, hword.aside.2.1, hsource.2.kind]
    · simp [hclause.child, hword.aside.child, hsource.child]
  have hrequire : Shaped s (IsImportShape s) importRequire := shaped_importRequire.mono
    fun _ ⟨clause, hts, hkind, _, hchild⟩ => by
      subst hts
      exact ⟨.inl ⟨clause, by simp, hkind⟩, by simp [hkind], by simp [hchild]⟩
  have hbare : Shaped s (IsImportShape s) (role .source stringLiteral) := shaped_source.mono
    fun _ ⟨source, hts, hsource⟩ => by
      subst hts
      exact ⟨.inr ⟨source, by simp, hsource.1⟩, by simp [hsource.2.kind], by simp [hsource.child]⟩
  exact hclause.orElse (hrequire.orElse hbare)

/-- What stands aside changes nothing. -/
theorem IsImportShape.among {before ts after : List Tree} (h : IsImportShape s ts)
    (hbefore : ∀ c ∈ before, IsAside c) (hafter : ∀ c ∈ after, IsAside c) :
    IsImportShape s (before ++ ts ++ after) := by
  have hcases (c : Tree) (hc : c ∈ before ++ ts ++ after) : IsAside c ∨ c ∈ ts := by
    rcases List.mem_append.mp hc with hc | hc
    · exact (List.mem_append.mp hc).imp (hbefore c) id
    · exact .inl (hafter c hc)
  have hmem {c : Tree} (hc : c ∈ ts) : c ∈ before ++ ts ++ after := by simp [hc]
  refine ⟨h.source.imp (fun ⟨c, hc, hkind⟩ => ⟨c, hmem hc, hkind⟩)
    fun ⟨c, hc, hfield⟩ => ⟨c, hmem hc, hfield⟩, ?_, fun c hc => ?_⟩
  · rintro ⟨clause, hclause, hkind⟩ c hc
    have hclause := (hcases clause hclause).resolve_left fun haside => haside.1 hkind
    exact (hcases c hc).elim (fun haside => haside.2.1) (h.apart ⟨clause, hclause, hkind⟩ c)
  · exact (hcases c hc).elim IsAside.child (h.parts c)

instance (priority := low) {p : Grammar} [h : Sound s IsSign p] : Sound s IsAside p :=
  h.mono fun _ => IsSign.aside

theorem Shaped.behind_aside {p q : Grammar} [hp : Sound s IsAside p]
    (hq : Shaped s (IsImportShape s) q) : Shaped s (IsImportShape s) (p ++ q) :=
  (Shaped.of_sound hp).append hq fun before ts hbefore hts => by
    have hall := hts.among hbefore fun c hc => absurd hc List.not_mem_nil
    rwa [List.append_nil] at hall

theorem Shaped.before_aside {p q : Grammar} (hp : Shaped s (IsImportShape s) p)
    [hq : Sound s IsAside q] : Shaped s (IsImportShape s) (p ++ q) :=
  hp.append (.of_sound hq) fun ts after hts hafter => by
    have hall := hts.among (fun c hc => absurd hc List.not_mem_nil) hafter
    rwa [List.nil_append] at hall

theorem ImportForm.of_shape {first : Tree} {rest : List Tree}
    (h : IsImportShape s (first :: rest)) :
    ImportForm s (.node .importStatement none first.start j (first :: rest)) :=
  ⟨h.source, h.apart, fun _ => h.parts⟩

instance : Sound s IsBare dottedName :=
  .bind IsBare fun _ _ _ hfirst => .andThen (Q := Any) hfirst fun _ _ hmore =>
    .grown rfl hfirst hmore (hfirst.any.append hmore)

instance : Sound s IsBare importAlias := by unfold importAlias; infer_instance

/-! ## 2. Exports -/

instance : Sound s Any exportSpecifier.plain :=
  .bind Any fun _ _ _ h => .look fun _ => .ite (fun _ => .refuse) fun _ => .pure h

instance : Sound s IsBare exportSpecifier := by unfold exportSpecifier; infer_instance

instance : Sound s IsBare exportClause := by unfold exportClause; infer_instance

instance : Sound s IsBare namespaceExport := by unfold namespaceExport; infer_instance

theorem IsToken.isUnmarked {text : String} {t : Tree} (h : IsToken s text t)
    (htext : text ≠ "type" ∧ text ≠ "namespace") : IsUnmarked t := by
  unfold IsUnmarked
  rw [h.kind]
  exact htext.imp (mt Kind.token.inj) (mt Kind.token.inj)

/-- A part is not what an export gives to others. -/
def IsUnexported (t : Tree) : Prop := ¬IsExported t

theorem IsUnexported.of_field {t : Tree} (h : t.field ≠ some .declaration ∧ t.field ≠ some .value) :
    IsUnexported t :=
  fun hexported => hexported.elim h.1 h.2

theorem IsUnexported.of_none {t : Tree} (h : t.field = none) : IsUnexported t :=
  .of_field ⟨h ▸ nofun, h ▸ nofun⟩

/-- A word or a mark beside what an export gives, which marks nothing. -/
def IsBeside (t : Tree) : Prop := IsQuiet t ∧ t.field = none ∧ IsUnmarked t

theorem IsToken.isBeside {text : String} {t : Tree} (h : IsToken s text t)
    (htext : text ≠ "type" ∧ text ≠ "namespace") : IsBeside t :=
  ⟨h.isQuiet, h.field, h.isUnmarked htext⟩

/-- The part that an export gives to others. -/
def IsGiven (t : Tree) : Prop := IsExported t ∧ IsUnmarked t ∧ t.kind ≠ .decorator

/-- One part that an export gives, with words and marks beside it. -/
def IsGivenAmong (ts : List Tree) : Prop :=
  ∃ before part after, ts = before ++ part :: after ∧ IsGiven part ∧
    ∀ c ∈ before ++ after, IsBeside c

/-- What stands behind the word `export`: names, where `names` says so, or one part. -/
def IsExportRest (names : Prop) (ts : List Tree) : Prop :=
  (names ∧ IsUndecorated ts ∧ ∀ t ∈ ts, IsUnexported t) ∨ IsGivenAmong ts

/-- The parts of an export. -/
def IsExportShape (s : String) (ts : List Tree) : Prop :=
  ∃ lead keyword rest, ts = lead ++ keyword :: rest ∧
    (∀ c ∈ lead, IsDecorator c) ∧ IsToken s "export" keyword ∧
    IsExportRest (lead = []) rest

theorem IsExportRest.content {lead rest : List Tree} (h : IsExportRest (lead = []) rest) :
    IsExportContent lead rest := by
  rcases h with ⟨rfl, hplain, hnone⟩ | ⟨before, part, after, hrest, hpart, hbeside⟩
  · exact .inl fun c hc => ⟨hplain c hc, hnone c hc⟩
  · exact .inr ⟨before, part, after, hrest, hpart.1, hpart.2.2,
      fun c hc => ⟨(hbeside c hc).1, (hbeside c hc).2.1⟩⟩

theorem ExportForm.of_shape {first : Tree} {rest : List Tree}
    (h : IsExportShape s (first :: rest)) :
    ExportForm s (.node .exportStatement none first.start j (first :: rest)) := by
  obtain ⟨lead, keyword, more, hparts, hlead, hkeyword, hrest⟩ := h
  refine .intro hparts rfl hrest.content (fun c hc => .inl (hlead c hc).1) hkeyword ?_
  rintro ⟨c, hc, hexported⟩ t ht
  have hmem (u : Tree) (hu : u ∈ first :: rest) : u ∈ lead ∨ u = keyword ∨ u ∈ more := by
    simpa [hparts] using hu
  rcases hmem t ht with hl | rfl | hm
  · exact ⟨(hlead t hl).1 ▸ nofun, (hlead t hl).1 ▸ nofun⟩
  · exact hkeyword.isUnmarked (by decide)
  · rcases hrest with ⟨_, _, hnone⟩ | ⟨before, part, after, rfl, hpart, hbeside⟩
    · rcases hmem c hc with hl | rfl | hm
      · exact absurd hexported (IsUnexported.of_none (hlead c hl).2)
      · exact absurd hexported (IsUnexported.of_none hkeyword.field)
      · exact absurd hexported (hnone c hm)
    · rcases List.mem_append.mp hm with hb | hb
      · exact (hbeside t (List.mem_append_left _ hb)).2.2
      · rcases List.mem_cons.mp hb with rfl | ha
        · exact hpart.2.1
        · exact (hbeside t (List.mem_append_right _ ha)).2.2

section Nested

variable [∀ p, Sound s IsBare (nested p)]

instance : Sound s IsBare (importAttribute nested) := by unfold importAttribute; infer_instance

instance : Sound s IsBare (importStatement nested) := by
  have hnode : Shaped s (IsOne fun t => t.kind = .other "import_attribute" ∧ t.field = none)
      (importAttribute nested) :=
    .of_node (inferInstanceAs (Sound s IsBare (importAttribute nested)))
  have hattribute : Sound s IsAside (importAttribute nested) :=
    hnode.sound_of_one.mono fun t ⟨hkind, hfield⟩ =>
      ⟨hkind ▸ nofun, hkind ▸ nofun, hfield ▸ nofun⟩
  have hmarked : Shaped s (IsImportShape s) (typeMarker importBody) :=
    .behind_aside shaped_importBody
  have hparts : Shaped s (IsImportShape s)
      (keyword "import" ++ (importBody <|> typeMarker importBody) ++
        opt (importAttribute nested) ++ statementEnd false) :=
    (Shaped.behind_aside (shaped_importBody.orElse hmarked)).before_aside.before_aside
  exact (hparts.node (fun _ _ _ => ImportForm.of_shape)
    fun _ _ _ _ => ⟨⟨nofun, nofun⟩, rfl⟩).sound_of_one

instance (priority := low) {p : Grammar} [h : Sound s HasNoRole p] : Sound s IsUnexported p :=
  h.mono fun _ ht => .of_field ⟨ht ▸ nofun, ht ▸ nofun⟩

instance : Sound s IsUnexported (exportOfNames nested) := by
  have hsource : Sound s IsUnexported (role .source stringLiteral) :=
    ⟨fun i hi => .role .source (Q := Any) (fun | .node .., _ => .of_field ⟨nofun, nofun⟩)
      (Sound.reads i hi)⟩
  unfold exportOfNames fromClause
  infer_instance

/-- Names, and what else stands behind `export` without a declaration, are no decorators. -/
theorem undecorated_exportOfNames [h : Single (nested .expression)] :
    Undecorated (exportOfNames nested) := by
  have hleaf {p : Grammar} (h : Single p) : Undecorated p := h.mono fun _ => IsSingle.undecorated
  have happend {p q : Grammar} (hp : Undecorated p) (hq : Undecorated q) : Undecorated (p ++ q) :=
    hp.append hq fun _ _ hts hus t ht => (List.mem_append.mp ht).elim (hts t) (hus t)
  have hword (text : String) : Undecorated (keyword text) :=
    hleaf (by unfold keyword; infer_instance)
  have hmark (text : String) : Undecorated (mark text) := hleaf (by unfold mark; infer_instance)
  have hnone (t : Tree) (ht : t ∈ ([] : List Tree)) : t.kind ≠ .decorator :=
    absurd ht List.not_mem_nil
  have hend (afterExpression : Bool) : Undecorated (statementEnd afterExpression) :=
    .orElse (hmark ";") <| .last fun _ => .last fun _ => by
      split
      · exact .last fun _ => .pure hnone
      · infer_instance
  have hsource : Undecorated fromClause := by
    refine happend (hword "from") (.bind (B := IsSingle) inferInstance fun ts hsingle => ?_)
    obtain ⟨t, hts, ht⟩ := hsingle
    refine .pure fun u hu => ?_
    obtain rfl : u = t.inRole .source := by simpa [hts] using hu
    cases t
    exact ht
  have hclause : Undecorated exportClause := hleaf (by unfold exportClause; infer_instance)
  have hwhole : Undecorated namespaceExport := hleaf (by unfold namespaceExport; infer_instance)
  have hfrom : Undecorated (opt fromClause) := .orElse hsource (.pure hnone)
  refine .orElse (happend (.orElse ?_ <| .orElse ?_ <| .orElse ?_ <| .orElse ?_ ?_) (hend false)) ?_
  · exact happend (happend (hword "type") hclause) hfrom
  · exact happend (happend (hword "as") (hword "namespace")) (hleaf inferInstance)
  · exact happend hwhole hsource
  · exact happend (hmark "*") hsource
  · exact happend hclause hfrom
  · exact happend (happend (hmark "=") (hleaf h)) (hend true)

/-- One tree with a role in an export is what the export gives. -/
theorem shaped_given {p : Grammar} {f : Field} (hf : f = .declaration ∨ f = .value)
    [h : Sound s IsBare p] [hp : Single p] : Shaped s (IsOne IsGiven) (role f p) := by
  have hone : Shaped s (IsOne fun t => IsBare t ∧ t.kind ≠ .decorator) p :=
    ((Shaped.of_sound h).and_finds hp).mono fun _ ⟨hbare, t, hts, ht⟩ =>
      ⟨t, hts, hbare t (by simp [hts]), ht⟩
  refine hone.role fun | .node .., ⟨hbare, ht⟩ => ⟨?_, hbare.1, ht⟩
  exact hf.imp (fun hf => congrArg some hf) fun hf => congrArg some hf

instance : Sound s IsBeside (statementEnd true) := by
  have hmark : Sound s IsBeside (mark ";") :=
    (shaped_mark ";").sound_of_one.mono fun _ h => h.isBeside (by decide)
  unfold statementEnd
  infer_instance

section

variable [Single (nested .expression)]

theorem shaped_exportOfValue : Shaped s IsGivenAmong (exportOfValue nested) := by
  refine (shaped_given (.inr rfl)).append (.of_sound (P := IsBeside) inferInstance) ?_
  rintro _ us ⟨part, rfl, hpart⟩ hus
  exact ⟨[], part, us, rfl, hpart, hus⟩

variable {declaration : Grammar} [Sound s IsBare declaration] [Single declaration]

theorem shaped_exportRest (names : Prop) [Decidable names] :
    Shaped s (IsExportRest names)
      (keyword "default" ++ (role .declaration declaration <|> exportOfValue nested) <|>
        (if names then exportOfNames nested else refuse) <|> role .declaration declaration) := by
  have hdeclaration : Shaped s IsGivenAmong (role .declaration declaration) :=
    (shaped_given (.inl rfl)).mono fun _ ⟨part, hts, hpart⟩ => ⟨[], part, [], hts, hpart, nofun⟩
  refine .orElse ?_ <| .orElse ?_ (hdeclaration.mono fun _ => .inr)
  · refine (shaped_keyword "default").append (hdeclaration.orElse shaped_exportOfValue) ?_
    rintro _ _ ⟨word, rfl, hword⟩ ⟨before, part, after, rfl, hpart, hbeside⟩
    refine .inr ⟨word :: before, part, after, rfl, hpart, fun c hc => ?_⟩
    rcases List.mem_cons.mp hc with rfl | hc
    · exact hword.isBeside (by decide)
    · exact hbeside c hc
  · split
    · rename_i hnames
      have hunexported : Shaped s (fun ts => ∀ t ∈ ts, IsUnexported t) (exportOfNames nested) :=
        .of_sound inferInstance
      exact (hunexported.and_finds undecorated_exportOfNames).mono fun _ ⟨hnone, hplain⟩ =>
        .inl ⟨hnames, hplain, hnone⟩
    · exact fun _ _ => .refuse

instance : Sound s IsBare (exportStatement declaration nested) := by
  have hparts : Shaped s (IsExportShape s) (do
      let decorators ← many (decorator nested)
      let lead ← keyword "export"
      let rest ←
        keyword "default" ++ (role .declaration declaration <|> exportOfValue nested) <|>
          (if decorators.isEmpty then exportOfNames nested else refuse) <|>
          role .declaration declaration
      return decorators ++ lead ++ rest) := by
    have hdecorators : Shaped s (fun ts => ∀ c ∈ ts, IsDecorator c) (many (decorator nested)) :=
      .of_sound inferInstance
    refine fun i hi => Gives.bind <| Gives.mono (hdecorators i hi) ?_
    rintro lead j ⟨hy₁, hlead⟩
    refine Gives.bind <| Gives.mono (shaped_keyword "export" j hy₁.stop) ?_
    rintro _ k ⟨hy₂, keyword, rfl, hkeyword⟩
    refine Gives.bind <| Gives.mono (shaped_exportRest _ k hy₂.stop) ?_
    rintro rest l ⟨hy₃, hrest⟩
    rw [List.isEmpty_iff] at hrest
    exact .pure ⟨(hy₁.append hy₂).append hy₃, lead, keyword, rest, by simp, hlead, hkeyword, hrest⟩
  have hnode : Shaped s (IsOne IsBare) (exportStatement declaration nested) :=
    hparts.node (fun _ _ _ => ExportForm.of_shape) fun _ _ _ _ => ⟨⟨nofun, nofun⟩, rfl⟩
  exact hnode.sound_of_one

end

end Nested

end ClassScript.Syntax
