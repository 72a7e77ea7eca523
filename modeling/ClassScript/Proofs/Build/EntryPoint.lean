/-
  File:      ClassScript/Proofs/Build/EntryPoint.lean
  Subject:   Which scripts of a build run the program.

  Two questions are asked about the start of a program. A project rule asks
  whether any class declares it; the compiler asks for the first such class
  that has a name, for the lines that run it call it by its name. The answers
  differ on a class without a name: then a build succeeds, and no script of it
  runs anything.

  * `entryClass?_eq_none_iff`: where the two questions differ;
  * `CallsMain`: the lines that run a class;
  * `EndsRunning`, `RunsProgram`: a script, and a run over units, run a class;
  * `Compiler.endsRunning_of_script`: the script of a unit with a named entry
    class runs one;
  * `Pipeline.build_runs_entry`: what a build that succeeds has to run.
-/
import ClassScript.Loading
import ClassScript.Proofs.Build.Recheck
import ClassScript.Proofs.Rule.Mature

namespace ClassScript

/-! ## 1. Entry classes with a name -/

namespace CompilationUnit

variable {u : CompilationUnit} {c : ClassDecl}

/-- Some class of the unit declares the entry point, and has a name. -/
def HasNamedEntry (u : CompilationUnit) : Prop :=
  ∃ c ∈ u.classes, c.isEntry = true ∧ c.name.isSome = true

/-- The class that is run is an entry class with a name. -/
theorem entryClass?_spec (h : u.entryClass? = some c) :
    c ∈ u.classes ∧ c.isEntry = true ∧ c.name.isSome = true := by
  obtain ⟨hmem, hname⟩ := List.mem_filter.mp (List.mem_of_find?_eq_some h)
  exact ⟨hmem, List.find?_some h, hname⟩

/-- **No class is run** exactly when no entry class has a name. -/
theorem entryClass?_eq_none_iff : u.entryClass? = none ↔ ¬u.HasNamedEntry := by
  unfold entryClass? HasNamedEntry
  simp only [List.find?_eq_none, List.mem_filter, and_imp, not_exists, not_and]
  exact forall₂_congr fun c _ => forall_comm

end CompilationUnit

/-! ## 2. Scripts that run a class -/

/-- The lines call `main` of the class `name` with the words of the command line, if the script
    they stand in is the one that was started. -/
def CallsMain (name lines : String) : Prop :=
  ∃ started call, lines = "\nif (" ++ started ++ ") \x7b\n    " ++ call ++ "\n\x7d" ∧
    started = "typeof require !== 'undefined' && require.main === module" ∧
    call = name ++ ".main(process.argv.slice(2));"

theorem mainRunner_eq (name : String) : mainRunner name =
    "\nif (" ++ "typeof require !== 'undefined' && require.main === module" ++ ") \x7b\n    " ++
      (name ++ ".main(process.argv.slice(2));") ++ "\n\x7d" := by
  have hhead : "\nif (" ++ "typeof require !== 'undefined' && require.main === module" ++
      ") \x7b\n    " =
        "\nif (typeof require !== 'undefined' && require.main === module) \x7b\n    " := by
    decide +kernel
  have htail : ".main(process.argv.slice(2));" ++ "\n\x7d" =
      ".main(process.argv.slice(2));\n\x7d" := by decide +kernel
  rw [hhead, String.append_assoc, String.append_assoc, htail, ← String.append_assoc]
  exact Eq.refl _

theorem callsMain_mainRunner (name : String) : CallsMain name (mainRunner name) :=
  ⟨_, _, mainRunner_eq name, rfl, rfl⟩

/-- They are the lines of the compiler, and no others. -/
theorem CallsMain.eq {name lines : String} (h : CallsMain name lines) :
    lines = mainRunner name := by
  obtain ⟨started, call, h, hstarted, hcall⟩ := h
  rw [h, hstarted, hcall, mainRunner_eq]

/-- The text ends with the lines that run an entry class of the unit by its name. -/
def EndsRunning (u : CompilationUnit) (text : String) : Prop :=
  ∃ c ∈ u.classes, c.isEntry = true ∧ ∃ name, c.name = some name ∧
    ∃ body runner, text = body ++ runner ∧ CallsMain name runner

/-- Some script that was written ends with the lines that run an entry class. -/
def RunsProgram (ts : List UnitTrace) : Prop :=
  ∃ t ∈ ts, ∃ text, (Artifact.script, text) ∈ t.done ∧ EndsRunning t.unit text

/-- A unit that passes the check passes it with its text as it is. -/
theorem recheck_text {options : RecheckOptions} {u : CompilationUnit} {text : String}
    (h : recheck options u = .ok text) : text = u.text := by
  unfold recheck at h
  split at h
  · cases h
  · split at h
    · cases h
    · split at h
      · cases h
      · exact (Except.ok.inj h).symm

namespace Compiler

variable {c : Compiler} {u : CompilationUnit} {text : String}

/-- A unit with a script has its text as its typed text. -/
theorem typedText_of_script (h : c.script u = .ok text) : c.typedText u = .ok u.text := by
  unfold script at h
  unfold typedText at h ⊢
  cases hcheck : recheck c.options u with
  | error e =>
    rw [hcheck] at h
    cases h
  | ok passed =>
    rw [recheck_text hcheck]
    rfl

/-- The script of a unit is what the toolchain makes of its text, with the lines that run its
    entry class. -/
theorem exists_of_script (h : c.script u = .ok text) :
    ∃ emitted found, c.toolchain (hostName u) u.text = .ok emitted ∧
      scriptAmong? emitted = some found ∧ text = withRunner u found := by
  rw [script_of_typedText (typedText_of_script h)] at h
  cases htool : c.toolchain (hostName u) u.text with
  | error cause =>
    rw [htool] at h
    cases h
  | ok emitted =>
    rw [htool] at h
    change (scriptAmong? emitted).elim _ _ = _ at h
    cases hfound : scriptAmong? emitted with
    | none =>
      rw [hfound] at h
      cases h
    | some found =>
      rw [hfound] at h
      exact ⟨emitted, found, rfl, hfound, (Except.ok.inj h).symm⟩

/-- The lines behind a script run the entry class by its name. -/
theorem withRunner_of_entryClass {cls : ClassDecl} {name : String}
    (hentry : u.entryClass? = some cls) (hname : cls.name = some name) (found : String) :
    withRunner u found = Text.trimEnd found ++ "\n" ++ mainRunner name := by
  have hshown : cls.displayName = name := congrArg (Option.getD · "anonymous") hname
  rw [withRunner, hentry]
  exact congrArg (withMainRunner found) hshown

/-- **The script of a unit with a named entry class** ends with the lines that run one. -/
theorem endsRunning_of_script (hnamed : u.HasNamedEntry) (h : c.script u = .ok text) :
    EndsRunning u text := by
  obtain ⟨_, found, _, _, rfl⟩ := exists_of_script h
  cases hentry : u.entryClass? with
  | none => exact absurd hnamed (CompilationUnit.entryClass?_eq_none_iff.mp hentry)
  | some cls =>
    obtain ⟨hmem, hclass, hname⟩ := CompilationUnit.entryClass?_spec hentry
    obtain ⟨name, hname⟩ := Option.isSome_iff_exists.mp hname
    exact ⟨cls, hmem, hclass, name, hname, _, _, withRunner_of_entryClass hentry hname found,
      callsMain_mainRunner _⟩

/-- Without a named entry class, the script is what the toolchain makes of the text. -/
theorem scriptAmong?_of_script (hnamed : ¬u.HasNamedEntry) (h : c.script u = .ok text) :
    ∃ emitted, c.toolchain (hostName u) u.text = .ok emitted ∧
      scriptAmong? emitted = some text := by
  obtain ⟨emitted, found, htool, hfound, rfl⟩ := exists_of_script h
  refine ⟨emitted, htool, ?_⟩
  rw [withRunner, CompilationUnit.entryClass?_eq_none_iff.mpr hnamed, hfound]

end Compiler

/-! ## 3. Builds -/

variable {σ : Type}

theorem Targets.script_mem_artifacts {targets : Targets} (h : targets.script = true) :
    Artifact.script ∈ targets.artifacts := by
  rw [artifacts, if_pos h]
  exact List.mem_append_right _ List.mem_cons_self

/-- In a run without faults, everything that is asked for has a text that was written. -/
theorem BatchRuns.exists_text {save : Save (StateM σ)} {c : Compiler} {outDir : FilePath}
    {targets : Targets} {us : List CompilationUnit} {s s' : σ} {ts : List UnitTrace}
    (h : BatchRuns save c outDir targets us s ts s') {validation : Report}
    (hfaults : (Pipeline.reportOf validation
      (ts.map fun t => (t.unit.path, t.outcome outDir))).faults = [])
    {t : UnitTrace} (ht : t ∈ ts) {a : Artifact} (ha : a ∈ targets.artifacts) :
    ∃ text, (a, text) ∈ t.done ∧ c.text t.unit a = .ok text := by
  obtain ⟨s₁, s₂, hu⟩ := h.unitRuns ht
  have hfault : t.fault = none := by
    cases hcause : t.fault with
    | none => rfl
    | some cause =>
      have hmem : ⟨t.unit.path, cause⟩ ∈ (Pipeline.reportOf validation
          (ts.map fun t => (t.unit.path, t.outcome outDir))).faults :=
        mem_faults_reportOf_iff.mpr ⟨t, ht, rfl, hcause⟩
      rw [hfaults] at hmem
      exact absurd hmem List.not_mem_nil
  have hdone := hu.fault_eq_none_iff.mp hfault
  rw [← hdone] at ha
  obtain ⟨⟨_, text⟩, hd, rfl⟩ := List.mem_map.mp ha
  exact ⟨text, hd, hu.text_eq _ hd⟩

namespace Pipeline

/-- **What a build that succeeds has to run.** Whatever the units, the folder and the disk, if a
    build of scripts by the mature preset under the empty configuration succeeds, some class of
    the units declares a `public static` method `main`. If such a class has a name, a script that
    was written ends with the lines that run one. So does the script of every unit with such a
    class; that of any other unit is what the toolchain makes of its text. -/
theorem build_runs_entry (units : List CompilationUnit) (save : Save (StateM σ))
    (outDir : FilePath) (targets : Targets) (hscript : targets.script = true) (s : σ) :
    let p := ofPreset .mature {}
    let r := (p.build save units outDir targets).run s
    r.1.isSuccess = true →
      (∃ u ∈ units, ∃ c ∈ u.classes, ∃ m ∈ c.methods, m.name = "main" ∧
        m.modifiers.visibility = some .pub ∧ m.modifiers.isStatic = true) ∧
      ∃ ts, BatchRuns save p.compiler outDir targets units s ts r.2 ∧
        ((∃ u ∈ units, u.HasNamedEntry) → RunsProgram ts) ∧
        ∀ t ∈ ts, ∃ text, (Artifact.script, text) ∈ t.done ∧
          (t.unit.HasNamedEntry → EndsRunning t.unit text) ∧
          (¬t.unit.HasNamedEntry →
            ∃ emitted, p.compiler.toolchain (Compiler.hostName t.unit) t.unit.text = .ok emitted ∧
              Compiler.scriptAmong? emitted = some text) := by
  intro p r hsuccess
  obtain ⟨hall, hsilent⟩ := accepted_of_isSuccess hsuccess
  obtain ⟨ts, s', hrun, he⟩ := runs_build hsilent save outDir targets s
  have hr : r = _ := he
  have hfaults : r.1.faults = [] := List.isEmpty_iff.mp (Bool.and_eq_true_iff.mp hsuccess).2
  rw [hr] at hfaults
  have hwritten {t : UnitTrace} (ht : t ∈ ts) :=
    hrun.exists_text hfaults ht (Targets.script_mem_artifacts hscript)
  rw [hall] at hsilent hrun
  refine ⟨?_, ts, by rw [hr]; exact hrun, ?_, fun t ht => ?_⟩
  · exact Rules.projectMainMethod_eq_nil_iff.mp
      (Validator.checkProject_mature_eq_nil_iff.mp hsilent)
  · rintro ⟨u, hu, hnamed⟩
    rw [← hrun.map_unit] at hu
    obtain ⟨t, ht, rfl⟩ := List.mem_map.mp hu
    obtain ⟨text, hdone, htext⟩ := hwritten ht
    exact ⟨t, ht, text, hdone, Compiler.endsRunning_of_script hnamed htext⟩
  · obtain ⟨text, hdone, htext⟩ := hwritten ht
    exact ⟨text, hdone, fun hnamed => Compiler.endsRunning_of_script hnamed htext,
      fun hnamed => Compiler.scriptAmong?_of_script hnamed htext⟩

/-- A disk on which every write succeeds. -/
def patientDisk : Save (StateM Unit) := fun _ _ => pure (.ok ())

def namedStart : CompilationUnit where
  path := ⟨"Main.javats"⟩
  text := "class Main\x7bpublic static main():void\x7b\x7d\x7d"
  items :=
    [.classItem ⟨some "Main", ⟨1, 1⟩, ⟨1, 7⟩, false, false, none, [],
      [.method ⟨"main", ⟨1, 12⟩, ⟨1, 26⟩, ⟨some .pub, true, false, false⟩, some "void", []⟩]⟩]

/-- A class with a name is run. -/
theorem build_runs_entry_named :
    let p := ofPreset .mature {}
    let r := (p.build patientDisk [namedStart] ⟨"dist"⟩ ⟨false, true⟩).run ()
    r.1.isSuccess = true ∧ namedStart.HasNamedEntry ∧
      ∃ ts, BatchRuns patientDisk p.compiler ⟨"dist"⟩ ⟨false, true⟩ [namedStart] () ts r.2 ∧
        RunsProgram ts := by
  intro p r
  have hsuccess : r.1.isSuccess = true := by decide +kernel
  have hnamed : namedStart.HasNamedEntry := ⟨_, List.mem_cons_self, by decide, by decide⟩
  obtain ⟨_, ts, hrun, hruns, _⟩ :=
    build_runs_entry [namedStart] patientDisk ⟨"dist"⟩ ⟨false, true⟩ rfl () hsuccess
  exact ⟨hsuccess, hnamed, ts, hrun, hruns ⟨_, List.mem_cons_self, hnamed⟩⟩

def namelessStart : CompilationUnit where
  path := ⟨"Main.javats"⟩
  text := "export default class\x7bpublic static main():void\x7b\x7d\x7d"
  items :=
    [.classItem ⟨none, ⟨1, 1⟩, ⟨1, 1⟩, true, false, none, [],
      [.method ⟨"main", ⟨1, 22⟩, ⟨1, 36⟩, ⟨some .pub, true, false, false⟩, some "void", []⟩]⟩]

theorem getLast?_append_of_eq_some {a b : String} {c : Char} (h : b.toList.getLast? = some c) :
    (a ++ b).toList.getLast? = some c := by
  rw [String.toList_append, List.getLast?_append, h, Option.some_or]

theorem getLast?_mainRunner (body name : String) :
    (body ++ mainRunner name).toList.getLast? = some '\x7d' :=
  getLast?_append_of_eq_some (getLast?_append_of_eq_some (by decide +kernel))

/-- A class without a name is accepted as the start of a program, but no script runs it: the
    build succeeds, and its one script does not end with the lines that run a class. -/
theorem namelessStart_runs_nothing :
    let p := ofPreset .mature {}
    let r := (p.build patientDisk [namelessStart] ⟨"dist"⟩ ⟨false, true⟩).run ()
    (CompilationUnit.ofText namelessStart.path namelessStart.text).toOption.map (·.items) =
        some namelessStart.items ∧
      r.1.isSuccess = true ∧ r.1.written.map (·.text) = ["dist/Main.js"] ∧
      ∀ ts, BatchRuns patientDisk p.compiler ⟨"dist"⟩ ⟨false, true⟩ [namelessStart] () ts r.2 →
        ∀ t ∈ ts, ∀ text, (Artifact.script, text) ∈ t.done →
          ∀ body name runner, CallsMain name runner → text ≠ body ++ runner := by
  intro p r
  have hbuild : r.1.isSuccess = true ∧ r.1.written.map (·.text) = ["dist/Main.js"] := by
    decide +kernel
  refine ⟨by decide +kernel, hbuild.1, hbuild.2,
    fun ts hrun t ht text hdone body name runner hrunner he => ?_⟩
  have hunit : t.unit ∈ [namelessStart] := by
    rw [← hrun.map_unit]
    exact List.mem_map_of_mem ht
  obtain ⟨_, _, hu⟩ := hrun.unitRuns ht
  have htext : p.compiler.script t.unit = .ok text := hu.text_eq _ hdone
  rw [List.mem_singleton.mp hunit, he, hrunner.eq] at htext
  have hlast : (p.compiler.script namelessStart).toOption.bind (·.toList.getLast?) = some ';' := by
    decide +kernel
  rw [htext] at hlast
  exact absurd (Option.some.inj ((getLast?_mainRunner body name).symm.trans hlast)) (by decide)

end Pipeline
end ClassScript
