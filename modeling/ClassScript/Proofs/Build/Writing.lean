/-
  File:      ClassScript/Proofs/Build/Writing.lean
  Subject:   What writing units does, step by step.

  Writing a unit goes through its artifacts until one of them fails; writing a
  batch goes through its units, whatever becomes of each. Both are read here as
  derivations that keep the texts that were written. What a run leaves behind
  is then an induction over its derivation.

  * `ArtifactFails`: the ways an artifact is not written;
  * `UnitRuns`, `BatchRuns`: the runs of one unit and of a batch, and
    `runs_writeArtifacts`, `runs_writeUnits`: the program runs like that;
  * `UnitRuns.isPrefix`, `UnitRuns.fault_eq_none_iff`: how far a unit comes;
  * `UnitRuns.textAt`, `BatchRuns.textAt`: what the files hold afterwards.
-/
import ClassScript.Proofs.Build.Survey
import ClassScript.Proofs.FileSystem.Contents

namespace ClassScript

/-- The file of an artifact of a unit. -/
def Artifact.path (outDir : FilePath) (u : CompilationUnit) (a : Artifact) : FilePath :=
  outputPath u.path outDir a.extension

/-- What became of a unit: the artifacts that were written, with their texts, and what ended it
    early. -/
structure UnitTrace where
  unit : CompilationUnit
  done : List (Artifact × String)
  fault : Option BuildError

namespace UnitTrace

/-- The artifacts that were written, in their order. -/
def artifacts (t : UnitTrace) : List Artifact := t.done.map (·.1)

/-- The writes, in their order. -/
def writes (outDir : FilePath) (t : UnitTrace) : List (FilePath × String) :=
  t.done.map fun d => (d.1.path outDir t.unit, d.2)

theorem writes_cons (outDir : FilePath) (u : CompilationUnit) (a : Artifact) (text : String)
    (done : List (Artifact × String)) (fault : Option BuildError) :
    writes outDir ⟨u, (a, text) :: done, fault⟩ =
      (a.path outDir u, text) :: writes outDir ⟨u, done, fault⟩ := by
  simp only [writes, List.map_cons]

/-- The outcome of the unit, as a build keeps it. -/
def outcome (outDir : FilePath) (t : UnitTrace) : UnitOutcome :=
  ⟨(t.writes outDir).map (·.1), t.fault⟩

theorem outcome_cons (outDir : FilePath) (u : CompilationUnit) (a : Artifact) (text : String)
    (done : List (Artifact × String)) (fault : Option BuildError) :
    outcome outDir ⟨u, (a, text) :: done, fault⟩ =
      { outcome outDir ⟨u, done, fault⟩ with
        written := a.path outDir u :: (outcome outDir ⟨u, done, fault⟩).written } := by
  simp only [outcome, writes_cons, List.map_cons]

end UnitTrace

section

variable {σ : Type} (save : Save (StateM σ)) (c : Compiler) (outDir : FilePath)

/-! ## 1. Runs -/

/-- An artifact is not written: it has no text, or its file cannot be saved. -/
inductive ArtifactFails (u : CompilationUnit) (a : Artifact) : σ → BuildError → σ → Prop where
  | noText (s : σ) (e : BuildError) (ht : c.text u a = .error e) : ArtifactFails u a s e s
  | unsaved (s s' : σ) (text : String) (cause : IoError) (ht : c.text u a = .ok text)
      (hs : (save (a.path outDir u) text).run s = (.error cause, s')) :
      ArtifactFails u a s (.unwritable (a.path outDir u) cause) s'

/-- **A run over artifacts of a unit**: what is written with its text, and what ends the run. -/
inductive UnitRuns (u : CompilationUnit) :
    List Artifact → σ → List (Artifact × String) → Option BuildError → σ → Prop where
  | finished (s : σ) : UnitRuns u [] s [] none s
  | failed (a : Artifact) (as : List Artifact) (s s' : σ) (e : BuildError)
      (hf : ArtifactFails save c outDir u a s e s') : UnitRuns u (a :: as) s [] (some e) s'
  | wrote (a : Artifact) (as : List Artifact) (s s₁ s₂ : σ) (text : String)
      (done : List (Artifact × String)) (fault : Option BuildError)
      (ht : c.text u a = .ok text)
      (hs : (save (a.path outDir u) text).run s = (.ok (), s₁))
      (hr : UnitRuns u as s₁ done fault s₂) :
      UnitRuns u (a :: as) s ((a, text) :: done) fault s₂

/-- **A run over units**: one trace for each of them. -/
inductive BatchRuns (targets : Targets) :
    List CompilationUnit → σ → List UnitTrace → σ → Prop where
  | finished (s : σ) : BatchRuns targets [] s [] s
  | unit (u : CompilationUnit) (us : List CompilationUnit) (s s₁ s₂ : σ)
      (done : List (Artifact × String)) (fault : Option BuildError) (ts : List UnitTrace)
      (hu : UnitRuns save c outDir u targets.artifacts s done fault s₁)
      (hr : BatchRuns targets us s₁ ts s₂) :
      BatchRuns targets (u :: us) s (⟨u, done, fault⟩ :: ts) s₂

/-! ## 2. The program runs like that -/

/-- A program that starts with `x` goes on where `x` ends. -/
theorem run_bind_of_run {α β : Type} {x : StateM σ α} {s s' : σ} {a : α} (h : x.run s = (a, s'))
    (f : α → StateM σ β) : (x >>= f).run s = (f a).run s' := by
  show (f (x.run s).1).run (x.run s).2 = (f a).run s'
  rw [h]

/-- One artifact is written to its file, or fails. -/
theorem writeArtifact_cases (u : CompilationUnit) (a : Artifact) (s : σ) :
    (∃ text s', c.text u a = .ok text ∧
      (save (a.path outDir u) text).run s = (.ok (), s') ∧
      (writeArtifact save c outDir u a).run s = (.ok (a.path outDir u), s')) ∨
    (∃ e s', ArtifactFails save c outDir u a s e s' ∧
      (writeArtifact save c outDir u a).run s = (.error e, s')) := by
  unfold writeArtifact
  cases ht : c.text u a with
  | error e => exact Or.inr ⟨e, s, .noText s e ht, rfl⟩
  | ok text =>
    cases hs : (save (a.path outDir u) text).run s with
    | mk answer s' =>
      cases answer with
      | ok _ =>
        refine Or.inl ⟨text, s', rfl, hs, ?_⟩
        exact run_bind_of_run hs _
      | error cause =>
        refine Or.inr ⟨_, s', .unsaved s s' text cause ht hs, ?_⟩
        exact run_bind_of_run hs _

/-- **Writing a unit is a run over its artifacts.** -/
theorem runs_writeArtifacts (u : CompilationUnit) (as : List Artifact) (s : σ) :
    ∃ done fault s', UnitRuns save c outDir u as s done fault s' ∧
      (writeArtifacts save c outDir u as).run s =
        (UnitTrace.outcome outDir ⟨u, done, fault⟩, s') := by
  induction as generalizing s with
  | nil => exact ⟨[], none, s, .finished s, rfl⟩
  | cons a as ih =>
    rcases writeArtifact_cases save c outDir u a s with
      ⟨text, s₁, ht, hs, hw⟩ | ⟨e, s', hf, hw⟩
    · obtain ⟨done, fault, s₂, hr, he⟩ := ih s₁
      refine ⟨(a, text) :: done, fault, s₂, .wrote a as s s₁ s₂ text done fault ht hs hr, ?_⟩
      have hstep : (writeArtifacts save c outDir u (a :: as)).run s =
          (writeArtifacts save c outDir u as >>= fun rest =>
            pure { rest with written := a.path outDir u :: rest.written }).run s₁ :=
        run_bind_of_run hw _
      rw [hstep, run_bind_of_run he, UnitTrace.outcome_cons]
      rfl
    · refine ⟨[], some e, s', .failed a as s s' e hf, ?_⟩
      exact run_bind_of_run hw _

/-- **Writing units is a run over them.** -/
theorem runs_writeUnits (targets : Targets) (us : List CompilationUnit) (s : σ) :
    ∃ ts s', BatchRuns save c outDir targets us s ts s' ∧
      (writeUnits save c outDir targets us).run s =
        (ts.map fun t => (t.unit.path, t.outcome outDir), s') := by
  induction us generalizing s with
  | nil => exact ⟨[], s, .finished s, rfl⟩
  | cons u us ih =>
    obtain ⟨done, fault, s₁, hu, he⟩ :=
      runs_writeArtifacts save c outDir u targets.artifacts s
    obtain ⟨ts, s₂, hr, hes⟩ := ih s₁
    refine ⟨⟨u, done, fault⟩ :: ts, s₂, .unit u us s s₁ s₂ done fault ts hu hr, ?_⟩
    have hstep : (writeUnits save c outDir targets (u :: us)).run s =
        (writeUnits save c outDir targets us >>= fun rest =>
          pure ((u.path, UnitTrace.outcome outDir ⟨u, done, fault⟩) :: rest)).run s₁ :=
      run_bind_of_run he _
    rw [hstep, run_bind_of_run hes]
    rfl

/-- **A build that no project rule stops is a run over the accepted units.** -/
theorem Pipeline.runs_build {p : Pipeline} {units : List CompilationUnit}
    (h : p.validator.checkProject (p.validator.accepted units) = []) (save : Save (StateM σ))
    (outDir : FilePath) (targets : Targets) (s : σ) :
    ∃ ts s', BatchRuns save p.compiler outDir targets (p.validator.accepted units) s ts s' ∧
      (p.build save units outDir targets).run s =
        (reportOf (p.validator.checkAll units)
          (ts.map fun t => (t.unit.path, t.outcome outDir)), s') := by
  obtain ⟨ts, s', hr, he⟩ :=
    runs_writeUnits save p.compiler outDir targets (p.validator.accepted units) s
  refine ⟨ts, s', hr, ?_⟩
  rw [build_of_silent h, run_bind_of_run he]
  rfl

variable {save c outDir}

/-! ## 3. How far a unit comes -/

namespace UnitRuns

variable {u : CompilationUnit} {as : List Artifact} {s s' : σ} {done : List (Artifact × String)}
  {fault : Option BuildError}

/-- What is written is a first part of what was asked for. -/
theorem isPrefix (h : UnitRuns save c outDir u as s done fault s') : done.map (·.1) <+: as := by
  induction h with
  | finished s => exact List.prefix_refl []
  | failed a as s s' e _ => exact List.nil_prefix
  | wrote a as s s₁ s₂ text done fault _ _ _ ih => exact (List.prefix_cons_inj a).mpr ih

/-- Nothing ends the run early exactly when everything is written. -/
theorem fault_eq_none_iff (h : UnitRuns save c outDir u as s done fault s') :
    fault = none ↔ done.map (·.1) = as := by
  induction h with
  | finished s => exact iff_of_true rfl rfl
  | failed a as s s' e _ => exact iff_of_false (Option.some_ne_none e) (List.cons_ne_nil a as).symm
  | wrote a as s s₁ s₂ text done fault _ _ _ ih =>
    rw [ih, List.map_cons, List.cons_inj_right]

/-- Every text that is written is that of its artifact. -/
theorem text_eq (h : UnitRuns save c outDir u as s done fault s') :
    ∀ d ∈ done, c.text u d.1 = .ok d.2 := by
  induction h with
  | finished s => exact fun d hd => absurd hd List.not_mem_nil
  | failed a as s s' e _ => exact fun d hd => absurd hd List.not_mem_nil
  | wrote a as s s₁ s₂ text done fault ht _ _ ih =>
    intro d hd
    rcases List.mem_cons.mp hd with rfl | hd
    · exact ht
    · exact ih d hd

/-- What ends the run is the failure of one of its artifacts. -/
theorem fails (h : UnitRuns save c outDir u as s done fault s') {e : BuildError}
    (he : fault = some e) : ∃ a ∈ as, ∃ s₁ s₂, ArtifactFails save c outDir u a s₁ e s₂ := by
  induction h with
  | finished s => cases he
  | failed a as s s' e' hf =>
    cases he
    exact ⟨a, List.mem_cons_self, s, s', hf⟩
  | wrote a as s s₁ s₂ text done fault _ _ _ ih =>
    obtain ⟨b, hb, hf⟩ := ih he
    exact ⟨b, List.mem_cons_of_mem a hb, hf⟩

end UnitRuns

namespace BatchRuns

variable {targets : Targets} {us : List CompilationUnit} {s s' : σ} {ts : List UnitTrace}

/-- There is one trace for each unit, in their order. -/
theorem map_unit (h : BatchRuns save c outDir targets us s ts s') : ts.map (·.unit) = us := by
  induction h with
  | finished s => rfl
  | unit u us s s₁ s₂ done fault ts _ _ ih => rw [List.map_cons, ih]

/-- Every trace is a run of its unit. -/
theorem unitRuns (h : BatchRuns save c outDir targets us s ts s') {t : UnitTrace} (ht : t ∈ ts) :
    ∃ s₁ s₂, UnitRuns save c outDir t.unit targets.artifacts s₁ t.done t.fault s₂ := by
  induction h with
  | finished s => exact absurd ht List.not_mem_nil
  | unit u us s s₁ s₂ done fault ts hu _ ih =>
    rcases List.mem_cons.mp ht with rfl | ht
    · exact ⟨s, s₁, hu⟩
    · exact ih ht

end BatchRuns

/-! ## 4. What the files hold -/

variable {files : FileSystem (StateM σ)}
  (hsave : ∀ path text, files.Stores path text (save path text))
include hsave

/-- An artifact that fails changes no text. -/
theorem ArtifactFails.textAt {u : CompilationUnit} {a : Artifact} {s s' : σ} {e : BuildError}
    (h : ArtifactFails save c outDir u a s e s') : files.textAt s' = files.textAt s := by
  cases h with
  | noText ht => rfl
  | unsaved _ text cause ht hs => exact (hsave _ text).textAt_error hs

/-- A run over artifacts leaves its writes behind, and changes nothing else. -/
theorem UnitRuns.textAt {u : CompilationUnit} {as : List Artifact} {s s' : σ}
    {done : List (Artifact × String)} {fault : Option BuildError}
    (h : UnitRuns save c outDir u as s done fault s') :
    files.textAt s' = (files.textAt s).putAll ((UnitTrace.mk u done fault).writes outDir) := by
  induction h with
  | finished s => rfl
  | failed a as s s' e hf => exact hf.textAt hsave
  | wrote a as s s₁ s₂ text done fault _ hs _ ih =>
    rw [ih, (hsave _ text).textAt_ok hs, UnitTrace.writes_cons, Contents.putAll_cons]

/-- **A run over units** leaves the writes of all of them behind, in their order. -/
theorem BatchRuns.textAt {targets : Targets} {us : List CompilationUnit} {s s' : σ}
    {ts : List UnitTrace} (h : BatchRuns save c outDir targets us s ts s') :
    files.textAt s' = (files.textAt s).putAll (ts.flatMap (·.writes outDir)) := by
  induction h with
  | finished s => rfl
  | unit u us s s₁ s₂ done fault ts hu _ ih =>
    rw [ih, hu.textAt hsave, List.flatMap_cons, Contents.putAll_append]

end
end ClassScript
