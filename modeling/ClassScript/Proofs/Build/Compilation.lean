/-
  File:      ClassScript/Proofs/Build/Compilation.lean
  Subject:   What the compiler answers for a unit, stage by stage.

  A compilation can fail at three stages: the check before writing, the
  toolchain, and the search for a script among the files of the toolchain. The
  first failure is the answer, whatever a later stage would say. Past them the
  script is the first one found. It gets the lines that run a class if some
  class with a name declares the entry point; then the first such class is run.

  * `IsFirst`: the first of a list with a property;
  * `Compiles`: the answers for a unit, a rule for each stage;
  * `Compiler.script_eq_iff`: the compiler answers by these rules;
  * `Compiler.noScript_iff`: when the default toolchain gives no script;
  * `Compiler.script_laws`: both for every unit and every compiler.
-/
import ClassScript.Proofs.Build.EntryPoint
import ClassScript.Proofs.Build.Imports
import ClassScript.Proofs.Text.Strip

namespace ClassScript

open Emission (scriptExtension)
open Text (IsTrimmed)

/-! ## 1. First matches -/

section First

variable {α : Type} {P Q : α → Prop} {as : List α} {a : α}

/-- `a` has the property `P`, and nothing before it in the list `as` has it. -/
def IsFirst (P : α → Prop) (as : List α) (a : α) : Prop :=
  ∃ before after, as = before ++ a :: after ∧ P a ∧ ∀ b ∈ before, ¬P b

/-- A search finds the first of a list with the property that it tests. -/
theorem find?_eq_some_iff_isFirst {p : α → Bool} (hp : ∀ b, p b = true ↔ P b) :
    as.find? p = some a ↔ IsFirst P as a := by
  rw [List.find?_eq_some_iff_append]
  constructor
  · rintro ⟨ha, before, after, hsplit, hbefore⟩
    refine ⟨before, after, hsplit, (hp a).mp ha, fun b hb hb' => ?_⟩
    have hnot := hbefore b hb
    rw [(hp b).mpr hb'] at hnot
    cases hnot
  · rintro ⟨before, after, hsplit, ha, hbefore⟩
    refine ⟨(hp a).mpr ha, before, after, hsplit, fun b hb => ?_⟩
    cases hb' : p b with
    | false => rfl
    | true => exact absurd ((hp b).mp hb') (hbefore b hb)

theorem find?_eq_none_iff_forall {p : α → Bool} (hp : ∀ b, p b = true ↔ P b) :
    as.find? p = none ↔ ∀ b ∈ as, ¬P b := by
  rw [List.find?_eq_none]
  exact forall₂_congr fun b _ => not_congr (hp b)

end First

/-- The file is a script. -/
def EmittedFile.IsScript (f : EmittedFile) : Prop := f.path.extension? = some scriptExtension

theorem EmittedFile.hasExtension_iff (f : EmittedFile) :
    f.hasExtension scriptExtension = true ↔ f.IsScript := beq_iff_eq

/-- The class is called `name` and has a `public static` method `main`, among whatever others. -/
def ClassDecl.Starts (c : ClassDecl) (name : String) : Prop :=
  c.name = some name ∧ ∃ m ∈ c.methods, m.name = "main" ∧ m.modifiers.visibility = some .pub ∧
    m.modifiers.isStatic = true

theorem ClassDecl.starts_iff (c : ClassDecl) :
    (c.name.isSome && c.isEntry) = true ↔ ∃ name, c.Starts name := by
  rw [Bool.and_eq_true, isEntry_iff, Option.isSome_iff_exists]
  exact exists_and_right.symm

namespace CompilationUnit

variable {u : CompilationUnit} {cls : ClassDecl}

theorem entryClass?_eq_find? :
    u.entryClass? = u.classes.find? fun c => c.name.isSome && c.isEntry := by
  rw [entryClass?, List.find?_filter]
  congr 1
  funext c
  cases c.name.isSome <;> cases c.isEntry <;> rfl

/-- The class that is run is the first one with a name and the entry point. -/
theorem entryClass?_eq_some_iff :
    u.entryClass? = some cls ↔ IsFirst (fun c => ∃ name, c.Starts name) u.classes cls := by
  rw [entryClass?_eq_find?]
  exact find?_eq_some_iff_isFirst ClassDecl.starts_iff

theorem entryClass?_eq_none_iff_forall :
    u.entryClass? = none ↔ ∀ c ∈ u.classes, ¬∃ name, c.Starts name := by
  rw [entryClass?_eq_find?]
  exact find?_eq_none_iff_forall ClassDecl.starts_iff

end CompilationUnit

/-! ## 2. The stages -/

/-- **The answers of a compiler for a unit**, a rule for each stage. -/
inductive Compiles (c : Compiler) (u : CompilationUnit) : Except BuildError String → Prop where
  | violated (cause : RecheckError) (hcheck : recheck c.options u = .error cause) :
      Compiles c u (.error (.violated cause))
  | toolchain (cause : ToolchainError) (hcheck : recheck c.options u = .ok u.text)
      (htool : c.toolchain (Compiler.hostName u) u.text = .error cause) :
      Compiles c u (.error (.toolchain cause))
  | noScript (emitted : List EmittedFile) (hcheck : recheck c.options u = .ok u.text)
      (htool : c.toolchain (Compiler.hostName u) u.text = .ok emitted)
      (hnone : ∀ f ∈ emitted, ¬f.IsScript) :
      Compiles c u (.error (.noScript u.path))
  | plain (emitted : List EmittedFile) (f : EmittedFile) (hcheck : recheck c.options u = .ok u.text)
      (htool : c.toolchain (Compiler.hostName u) u.text = .ok emitted)
      (hfirst : IsFirst EmittedFile.IsScript emitted f)
      (hidle : ∀ cls ∈ u.classes, ¬∃ name, cls.Starts name) :
      Compiles c u (.ok f.text)
  | running (emitted : List EmittedFile) (f : EmittedFile) (cls : ClassDecl)
      (name body runner : String)
      (hcheck : recheck c.options u = .ok u.text)
      (htool : c.toolchain (Compiler.hostName u) u.text = .ok emitted)
      (hfirst : IsFirst EmittedFile.IsScript emitted f)
      (hentry : IsFirst (fun cls => ∃ name, cls.Starts name) u.classes cls)
      (hname : cls.name = some name) (hbody : IsTrimmed f.text body)
      (hrunner : CallsMain name runner) :
      Compiles c u (.ok (body ++ "\n" ++ runner))

namespace Compiler

variable {c : Compiler} {u : CompilationUnit} {emitted : List EmittedFile} {f : EmittedFile}
  {r : Except BuildError String}

theorem scriptAmong?_eq_none_iff : scriptAmong? emitted = none ↔ ∀ f ∈ emitted, ¬f.IsScript := by
  rw [scriptAmong?, Option.map_eq_none_iff]
  exact find?_eq_none_iff_forall EmittedFile.hasExtension_iff

theorem scriptAmong?_eq_some_iff {found : String} :
    scriptAmong? emitted = some found ↔
      ∃ f, IsFirst EmittedFile.IsScript emitted f ∧ f.text = found := by
  rw [scriptAmong?, Option.map_eq_some_iff]
  exact exists_congr fun f =>
    and_congr_left' (find?_eq_some_iff_isFirst EmittedFile.hasExtension_iff)

/-- A unit that does not pass the check has no script, whatever the toolchain. -/
theorem script_of_violated {cause : RecheckError} (hcheck : recheck c.options u = .error cause) :
    c.script u = .error (.violated cause) := by
  unfold script typedText
  rw [hcheck]
  rfl

/-- A unit that passes the check has the script that comes of the toolchain's answer. -/
theorem script_of_passed (hcheck : recheck c.options u = .ok u.text) :
    c.script u = ((c.toolchain (hostName u) u.text).mapError .toolchain).bind fun emitted =>
      (scriptAmong? emitted).elim (.error (.noScript u.path)) fun found =>
        .ok (withRunner u found) := by
  refine script_of_typedText ?_
  unfold typedText
  rw [hcheck]
  rfl

/-- A rule gives the answer of the compiler. -/
theorem script_of_compiles (h : Compiles c u r) : c.script u = r := by
  cases h with
  | violated cause hcheck => exact script_of_violated hcheck
  | toolchain cause hcheck htool =>
    rw [script_of_passed hcheck, htool]
    rfl
  | noScript emitted hcheck htool hnone =>
    rw [script_of_passed hcheck, htool]
    show (scriptAmong? emitted).elim _ _ = _
    rw [scriptAmong?_eq_none_iff.mpr hnone]
    rfl
  | plain emitted f hcheck htool hfirst hidle =>
    rw [script_of_passed hcheck, htool]
    show (scriptAmong? emitted).elim _ _ = _
    rw [scriptAmong?_eq_some_iff.mpr ⟨f, hfirst, rfl⟩, Option.elim_some, withRunner,
      CompilationUnit.entryClass?_eq_none_iff_forall.mpr hidle]
  | running emitted f cls name body runner hcheck htool hfirst hentry hname hbody hrunner =>
    rw [script_of_passed hcheck, htool]
    show (scriptAmong? emitted).elim _ _ = _
    rw [scriptAmong?_eq_some_iff.mpr ⟨f, hfirst, rfl⟩, Option.elim_some,
      withRunner_of_entryClass (CompilationUnit.entryClass?_eq_some_iff.mpr hentry) hname,
      Text.trimEnd_eq_iff.mpr hbody, hrunner.eq]

/-- Some rule gives an answer for every unit. -/
theorem exists_compiles (c : Compiler) (u : CompilationUnit) : ∃ r, Compiles c u r := by
  -- stage by stage: what a stage finds decides for a rule, or leads to the next stage
  cases hcheck : recheck c.options u with
  | error cause => exact ⟨_, .violated cause hcheck⟩
  | ok text =>
    obtain rfl := recheck_text hcheck
    cases htool : c.toolchain (hostName u) u.text with
    | error cause => exact ⟨_, .toolchain cause hcheck htool⟩
    | ok emitted =>
      cases hfound : scriptAmong? emitted with
      | none => exact ⟨_, .noScript emitted hcheck htool (scriptAmong?_eq_none_iff.mp hfound)⟩
      | some found =>
        obtain ⟨f, hfirst, -⟩ := scriptAmong?_eq_some_iff.mp hfound
        cases hentry : u.entryClass? with
        | none =>
          exact ⟨_, .plain emitted f hcheck htool hfirst
            (CompilationUnit.entryClass?_eq_none_iff_forall.mp hentry)⟩
        | some cls =>
          obtain ⟨-, -, hnamed⟩ := CompilationUnit.entryClass?_spec hentry
          obtain ⟨name, hname⟩ := Option.isSome_iff_exists.mp hnamed
          exact ⟨_, .running emitted f cls name _ _ hcheck htool hfirst
            (CompilationUnit.entryClass?_eq_some_iff.mp hentry) hname (Text.trimEnd_eq_iff.mp rfl)
            (callsMain_mainRunner _)⟩

/-- **The compiler answers by the rules**, and they leave no other answer. -/
theorem script_eq_iff : c.script u = r ↔ Compiles c u r := by
  constructor
  · rintro rfl
    obtain ⟨r, h⟩ := exists_compiles c u
    rwa [script_of_compiles h]
  · exact script_of_compiles

/-! ## 3. The default toolchain -/

/-- The one file of the default toolchain is a script, unless the unit is called `.`. -/
theorem isScript_hostName (u : CompilationUnit) (text : String) :
    EmittedFile.IsScript ⟨⟨FilePath.withExtension (hostName u) scriptExtension⟩, text⟩ ↔
      u.stem ≠ "." := by
  unfold EmittedFile.IsScript hostName
  rw [FilePath.extension?_withExtension u.notMem_stem (by decide) (by decide) (by decide)
    (by decide) (by decide) (by decide)]
  split <;> simp [*]

/-- **When the default toolchain gives no script**: the unit passes, its text has a script, and
    the unit is called `.`. -/
theorem noScript_iff (htool : c.toolchain = scriptToolchain) {path : FilePath} :
    c.script u = .error (.noScript path) ↔
      path = u.path ∧ u.stem = "." ∧ recheck c.options u = .ok u.text ∧
        ∃ script, Script.ofText u.text = .ok script := by
  rw [script_eq_iff]
  constructor
  · intro h
    cases h with
    | noScript emitted hcheck hemitted hnone =>
      rw [htool, scriptToolchain] at hemitted
      cases hscript : Script.ofText u.text with
      | error cause =>
        rw [hscript] at hemitted
        cases hemitted
      | ok script =>
        rw [hscript] at hemitted
        cases hemitted
        -- the one file of the toolchain is no script
        have hdot := hnone _ List.mem_cons_self
        rw [isScript_hostName, not_not] at hdot
        exact ⟨rfl, hdot, hcheck, script, rfl⟩
  · rintro ⟨rfl, hdot, hcheck, script, hscript⟩
    refine .noScript _ hcheck (by rw [htool, scriptToolchain, hscript]) fun f hf => ?_
    rw [List.mem_singleton.mp hf, isScript_hostName, not_not]
    exact hdot

/-- **A compilation from end to end**, for every compiler and every unit. The answer is that of
    the first stage that fails, and else the first script, with the lines that run the first class
    that has a name and the entry point, if there is one. With the default toolchain a script is
    always found, unless the unit is called `.`. -/
theorem script_laws (c : Compiler) (u : CompilationUnit) :
    (∀ r, c.script u = r ↔ Compiles c u r) ∧
      (c.toolchain = scriptToolchain → u.stem ≠ "." →
        ∀ path, c.script u ≠ .error (.noScript path)) :=
  ⟨fun _ => script_eq_iff, fun htool hstem _ h => hstem ((noScript_iff htool).mp h).2.1⟩

/-- A file that has nothing but an extension for a name. The `main` of its first class is not
    static, and the first `main` of its second class is private. -/
def dotFile : CompilationUnit where
  path := ⟨"lib/.javats"⟩
  text := "class A\x7bpublic main()\x7b\x7d\x7d
class B\x7bprivate static main()\x7b\x7dpublic static main()\x7b\x7d\x7d
"
  items :=
    [.classItem ⟨some "A", ⟨1, 1⟩, ⟨1, 7⟩, false, false, none, [],
      [.method ⟨"main", ⟨1, 9⟩, ⟨1, 16⟩, ⟨some .pub, false, false, false⟩, none, []⟩]⟩,
     .classItem ⟨some "B", ⟨2, 1⟩, ⟨2, 7⟩, false, false, none, [],
      [.method ⟨"main", ⟨2, 9⟩, ⟨2, 24⟩, ⟨some .priv, true, false, false⟩, none, []⟩,
       .method ⟨"main", ⟨2, 32⟩, ⟨2, 46⟩, ⟨some .pub, true, false, false⟩, none, []⟩]⟩]

/-- Its script is found, and runs the second class. -/
theorem script_laws_dotFile :
    let lines := "\"use strict\";
class A\x7bmain()\x7b\x7d\x7d
class B\x7bstatic main()\x7b\x7dstatic main()\x7b\x7d\x7d
"
    let runner := "
if (typeof require !== 'undefined' && require.main === module) \x7b
    B.main(process.argv.slice(2));
\x7d"
    dotFile.stem = "" ∧ Compiles {} dotFile (.ok (lines ++ runner)) ∧
      ∀ path, script {} dotFile ≠ .error (.noScript path) := by
  intro lines runner
  have hscript : script {} dotFile = .ok (lines ++ runner) := by decide +kernel
  have hstem : dotFile.stem = "" := by decide +kernel
  have hlaws := script_laws {} dotFile
  exact ⟨hstem, (hlaws.1 _).mp hscript, hlaws.2 rfl (by rw [hstem]; decide)⟩

end Compiler
end ClassScript
