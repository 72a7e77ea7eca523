/-
  File:      ClassScript/Proofs/Emission/Requests.lean
  Subject:   What comes into the place of an import loads its module.

  A statement is from a module if it imports it, requires it, or exports names
  of it. One edit comes into its place. It has no text if the statement brings
  nothing into a script, and else a call that loads the module under the name
  it has in scripts.

  * `Requests`, `IsFrom`: a text loads a module, and a statement is from one;
  * `loads_of_emit`: what comes into the place of a statement loads the module
    it is from;
  * `moduleName_of_ends`: the name of a module in scripts.
-/
import ClassScript.Proofs.Emission.Visit
import ClassScript.Proofs.Text.FilePath
import ClassScript.Proofs.Text.Strip

namespace ClassScript.Emission

open Syntax (Source Tree)

/-! ## 1. Texts that load a module -/

variable {src : Source} {t : Tree} {name literal : String}

/-- The text has a call that loads the module `name`. -/
def Requests (text name : String) : Prop :=
  ∃ before after, text = before ++ requireCall name ++ after

theorem requests_requireCall (name : String) : Requests (requireCall name) name :=
  ⟨"", "", by simp⟩

theorem Requests.append_right {text : String} (h : Requests text name) (tail : String) :
    Requests (text ++ tail) name := by
  obtain ⟨before, after, rfl⟩ := h
  exact ⟨before, after ++ tail, by simp only [String.append_assoc]⟩

theorem Requests.append_left {text : String} (h : Requests text name) (head : String) :
    Requests (head ++ text) name := by
  obtain ⟨before, after, rfl⟩ := h
  exact ⟨head ++ before, after, by simp only [String.append_assoc]⟩

/-- Lines load what the first of them loads. -/
theorem requests_intercalate {line : String} {lines : List String} (h : Requests line name) :
    Requests ("\n".intercalate (line :: lines)) name := by
  cases lines with
  | nil => rwa [String.intercalate_singleton]
  | cons second rest =>
    rw [String.intercalate_cons_cons]
    exact (h.append_right _).append_right _

/-- Every constant of an import is bound to what a call loads. -/
theorem Binding.requests_line (b : Binding) (name : String) :
    Requests (b.line (requireCall name)) name := by
  have hcall := requests_requireCall name
  cases b with
  | default constant => exact (hcall.append_left _).append_right _
  | whole constant => exact (hcall.append_left _).append_right _
  | names imported => exact (hcall.append_left _).append_right _
  | bare => exact hcall.append_right _

/-- An import without constants loads its module all the same. -/
theorem bindings_ne_nil (src : Source) (clause : Option Tree) : bindings src clause ≠ [] := by
  cases clause with
  | none => exact List.cons_ne_nil _ _
  | some clause =>
    rw [bindings]
    split
    · exact List.cons_ne_nil _ _
    · assumption

/-! ## 2. Imports and exports that are from a module -/

/-- The statement `t` is from the module that `literal` names: it imports it, requires it, or
    exports names of it. -/
inductive IsFrom (src : Source) (t : Tree) (literal : String) : Prop where
  | imported (hkind : t.kind = .importStatement) (hrequire : namedPart? .importRequire t = none)
      (hsource : t.partText? src .source = some literal)
  | required (hkind : t.kind = .importStatement) (clause : Tree)
      (hrequire : namedPart? .importRequire t = some clause)
      (hsource : clause.partText? src .source = some literal)
  | reexported (hkind : t.kind = .exportStatement)
      (hform : exportForm t = .typeOnly ∨ exportForm t = .names)
      (hsource : t.partText? src .source = some literal)

theorem sourceName?_eq (h : t.partText? src .source = some literal) :
    sourceName? src t = some (moduleName literal) := by
  rw [sourceName?, h]
  rfl

/-- A statement brings nothing into a script: it is marked as one of types, or exports no name. -/
def bringsNothing (src : Source) (t : Tree) : Bool :=
  match t.kind with
  | .importStatement => t.hasToken "type" || t.hasToken "typeof"
  | _ => t.hasToken "type" || t.hasToken "namespace" || (exportLines src t).isEmpty

/-- The edit `x` puts in a text that loads the module `name`, or none if the statement brings
    nothing. -/
def Loads (src : Source) (t : Tree) (name : String) (x : Edit) : Prop :=
  if bringsNothing src t then x.text = "" else Requests x.text name

/-- What comes into the place of an import loads its module. -/
theorem loads_lowerImport (hkind : t.kind = .importStatement) (h : IsFrom src t literal) :
    ∃ x, (lowerImport src t).edits = [x] ∧ Loads src t (moduleName literal) x := by
  rw [lowerImport]
  split
  · rename_i htype
    refine ⟨dropStatement src t, rfl, ?_⟩
    rw [Loads, bringsNothing, hkind, if_pos htype]
    exact text_dropLines src _ _
  · rename_i htype
    have hloads (x : Edit) (hx : Requests x.text (moduleName literal)) :
        Loads src t (moduleName literal) x := by
      rw [Loads, bringsNothing, hkind, if_neg htype]
      exact hx
    cases h with
    | imported _ hrequire hsource =>
      rw [hrequire, sourceName?_eq hsource]
      refine ⟨_, rfl, hloads _ ?_⟩
      cases hfound : bindings src (namedPart? .importClause t) with
      | nil => exact absurd hfound (bindings_ne_nil src _)
      | cons b bs => exact requests_intercalate (b.requests_line _)
    | required _ clause hrequire hsource =>
      rw [hrequire]
      refine ⟨_, rfl, hloads _ ?_⟩
      dsimp only
      rw [requireLine, sourceName?_eq hsource]
      exact ((requests_requireCall _).append_left _).append_right _
    | reexported hexport _ _ => exact absurd (hkind.symm.trans hexport) (by decide)

/-- Every line of an export of names of a module loads the module. -/
theorem requests_exportLines (h : t.partText? src .source = some literal) :
    ∀ line ∈ exportLines src t, Requests line (moduleName literal) := by
  intro line hline
  have hcall := requests_requireCall (moduleName literal)
  unfold exportLines at hline
  rw [sourceName?_eq h] at hline
  dsimp only at hline
  split at hline
  · obtain ⟨specifier, _, hspecifier⟩ := List.mem_filterMap.mp hline
    unfold specifierLine? at hspecifier
    split at hspecifier
    · obtain ⟨name, _, rfl⟩ := Option.map_eq_some_iff.mp hspecifier
      exact (((hcall.append_right _).append_right _).append_left _).append_right _
    · cases hspecifier
  · obtain rfl := List.mem_singleton.mp hline
    cases ‹some _ = some _›
    exact (hcall.append_left _).append_right _
  · obtain rfl := List.mem_singleton.mp hline
    cases ‹some _ = some _›
    exact (hcall.append_left _).append_right _
  · cases ‹some _ = none›

theorem emit_typeOnly (following : List Tree) (hkind : t.kind = .exportStatement)
    (hform : exportForm t = .typeOnly) :
    emit src following t = .ok (.modules ++ .ofEdit (dropStatement src t)) := by
  rw [emit_export hkind, hform]

theorem emit_names (following : List Tree) (hkind : t.kind = .exportStatement)
    (hform : exportForm t = .names) :
    emit src following t = .ok (.modules ++ .ofEdit (exportNamesEdit src t)) := by
  rw [emit_export hkind, hform]

/-- An export of names is not marked as one of types. -/
theorem notTyped_of_names (hform : exportForm t = .names) :
    (t.hasToken "type" || t.hasToken "namespace") = false := by
  rw [← Bool.not_eq_true]
  intro htype
  rw [exportForm, if_pos htype] at hform
  cases hform

/-- What comes into the place of an export of names loads the module they are from. -/
theorem loads_exportNames (hkind : t.kind = .exportStatement) (hform : exportForm t = .names)
    (hsource : t.partText? src .source = some literal) :
    Loads src t (moduleName literal) (exportNamesEdit src t) := by
  rw [Loads, bringsNothing, hkind]
  dsimp only
  rw [notTyped_of_names hform, Bool.false_or, exportNamesEdit]
  cases hlines : exportLines src t with
  | nil => exact text_dropLines src _ _
  | cons line lines =>
    have hline := requests_exportLines hsource line (hlines ▸ List.mem_cons_self)
    exact requests_intercalate hline

/-- **What comes into the place of a statement loads the module it is from**, unless the statement
    brings nothing into a script; then nothing comes. -/
theorem loads_of_emit {following : List Tree} {e : Emission} (h : IsFrom src t literal)
    (he : emit src following t = .ok e) :
    ∃ x, e.edits = [x] ∧ Loads src t (moduleName literal) x := by
  have himport (hkind : t.kind = .importStatement) :
      ∃ x, e.edits = [x] ∧ Loads src t (moduleName literal) x := by
    rw [emit_import following hkind] at he
    cases he
    exact loads_lowerImport hkind h
  cases h with
  | imported hkind _ _ => exact himport hkind
  | required hkind _ _ _ => exact himport hkind
  | reexported hkind hform hsource =>
    rcases hform with hform | hform
    · rw [emit_typeOnly following hkind hform] at he
      cases he
      refine ⟨_, rfl, ?_⟩
      have hspec := exportForm_spec t
      rw [hform] at hspec
      rw [Loads, bringsNothing, hkind]
      dsimp only
      rw [hspec, Bool.true_or]
      exact text_dropLines src _ _
    · rw [emit_names following hkind hform] at he
      cases he
      exact ⟨_, rfl, loads_exportNames hkind hform hsource⟩

/-! ## 3. Paths in literals -/

/-- A path as a literal, with the quotation mark `q`. -/
def quoted (q : Char) (path : String) : String := String.singleton q ++ path ++ String.singleton q

theorem toList_quoted (q : Char) (path : String) :
    (quoted q path).toList = q :: (path.toList ++ [q]) := by
  simp [quoted]

/-- Quotation marks are taken off a text that does not start or end with another one. -/
theorem strip_quoted {q : Char} {path : String} (hq : isQuote q = true)
    (hopen : ∀ c ∈ path.toList.head?, isQuote c = false)
    (hclose : ∀ c ∈ path.toList.getLast?, isQuote c = false) :
    Text.strip isQuote (quoted q path) = path := by
  rw [Text.strip, toList_quoted, Text.stripBoth_cons_of_pos hq, Text.stripBoth_concat_of_pos hq,
    Text.stripBoth_of_ends hopen hclose, String.ofList_toList]

/-- A literal that does not start or end with another quotation mark, in a script. -/
theorem moduleName_of_ends {q : Char} {path : String} (hq : isQuote q = true)
    (hopen : ∀ c ∈ path.toList.head?, isQuote c = false)
    (hclose : ∀ c ∈ path.toList.getLast?, isQuote c = false) :
    moduleName (quoted q path) = quoted q (moduleStem path) := by
  rw [moduleName, strip_quoted hq hopen hclose, toList_quoted]
  rfl

theorem moduleStem_append (stem : String) :
    moduleStem (stem ++ ("." ++ sourceExtension)) = stem ++ ("." ++ scriptExtension) := by
  rw [moduleStem, Text.dropTail?_eq_some_iff.mpr rfl]
  exact String.append_assoc

/-- The literal of a relative path to a source file, in a script. -/
theorem moduleName_quoted {q : Char} {path stem : String} (hq : isQuote q = true)
    (hrelative : FilePath.IsRelative path) (hstem : path = stem ++ ("." ++ sourceExtension)) :
    moduleName (quoted q path) = quoted q (moduleStem path) := by
  have hhead : path.toList.head? = some '.' := by
    rcases hrelative with ⟨rest, h⟩ | ⟨rest, h⟩ <;> rw [← h] <;> rfl
  have hend : path.toList.getLast? = some 's' := by
    have htail : ("." ++ sourceExtension).toList.getLast? = some 's' := by decide +kernel
    rw [hstem, String.toList_append, List.getLast?_append, htail, Option.some_or]
  refine moduleName_of_ends hq ?_ ?_
  · rw [hhead]
    rintro c ⟨⟩
    rfl
  · rw [hend]
    rintro c ⟨⟩
    rfl

end ClassScript.Emission
