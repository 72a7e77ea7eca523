/-
  File:      ClassScript/Proofs/Project/Location.lean
  Subject:   The configuration that a run uses, at any depth of folders.

  What counts is said by rules, apart from the search: the file that is asked
  for, else the project file of the nearest folder, else the user's settings,
  else the defaults. The rules leave one file, and the search finds it. It
  looks at files only; then the one that was found is read, and nothing else
  is. What is wrong with it is an error, and no other file is tried.

  * `IsProjectFile`, `IsNearest`, `Selects`: the rules;
  * `selects_iff`: the search finds what the rules leave;
  * `looks_select?`: the search only looks;
  * `Answers`, `run_locate`: what becomes of the file that was found;
  * `location_laws`: the laws of a configuration's place.
-/
import ClassScript.Project.Location
import ClassScript.Proofs.FileSystem.Access
import ClassScript.Proofs.FileSystem.Disk
import ClassScript.Proofs.Text.Ancestors

namespace ClassScript

/-! ## 1. The rules -/

/-- The project file of a folder. A hidden one counts only if there is no other. -/
inductive IsProjectFile (files : FileSystem Id) (folder : FilePath) : FilePath → Prop where
  | plain (h : (files.isFile (folder.join ⟨"javats.toml"⟩)).run = true) :
      IsProjectFile files folder (folder.join ⟨"javats.toml"⟩)
  | hidden (hplain : (files.isFile (folder.join ⟨"javats.toml"⟩)).run = false)
      (h : (files.isFile (folder.join ⟨".javats.toml"⟩)).run = true) :
      IsProjectFile files folder (folder.join ⟨".javats.toml"⟩)

/-- The nearest folder with a project file, `k` folders above `start`. -/
structure IsNearest (files : FileSystem Id) (start : FilePath) (k : Nat)
    (folder file : FilePath) : Prop where
  above : start.Above k folder
  holds : IsProjectFile files folder file
  nearest : ∀ j < k, ∀ nearer, start.Above j nearer → ∀ other, ¬ IsProjectFile files nearer other

/-- No folder from `start` upwards has a project file. -/
def HasNoProject (files : FileSystem Id) (start : FilePath) : Prop :=
  ∀ k folder, start.Above k folder → ∀ file, ¬ IsProjectFile files folder file

/-- The file that counts, and the folder that its paths are seen from. -/
inductive Selects (files : FileSystem Id) (s : Surroundings) :
    Option FilePath → Option Selection → Prop where
  /-- A file that is asked for counts, wherever it is. -/
  | asked (file : FilePath) : Selects files s (some file) (some ⟨file, file.parent?.getD ⟨""⟩⟩)
  | project {k : Nat} {folder file : FilePath} (h : IsNearest files s.current k folder file) :
      Selects files s none (some ⟨file, if k = 0 then ⟨""⟩ else folder⟩)
  | settings {folder : FilePath} (hproject : HasNoProject files s.current)
      (hfolder : s.settingsFolder? = some folder)
      (h : (files.isFile (folder.join ⟨"config.toml"⟩)).run = true) :
      Selects files s none (some ⟨folder.join ⟨"config.toml"⟩, ⟨""⟩⟩)
  | defaults (hproject : HasNoProject files s.current)
      (hsettings : ∀ folder, s.settingsFolder? = some folder →
        (files.isFile (folder.join ⟨"config.toml"⟩)).run = false) :
      Selects files s none none

variable {files : FileSystem Id} {s : Surroundings} {start folder file other : FilePath}
  {explicit : Option FilePath} {k j : Nat}

theorem IsProjectFile.unique (h : IsProjectFile files folder file)
    (h' : IsProjectFile files folder other) : file = other := by
  cases h with
  | plain h =>
    cases h' with
    | plain _ => rfl
    | hidden hplain _ => rw [h] at hplain; cases hplain
  | hidden hplain _ =>
    cases h' with
    | plain h => rw [h] at hplain; cases hplain
    | hidden _ _ => rfl

theorem IsProjectFile.iff_eq (h : IsProjectFile files folder file) :
    some file = some other ↔ IsProjectFile files folder other :=
  ⟨fun heq => Option.some.inj heq ▸ h, fun h' => congrArg some (h.unique h')⟩

/-- Two nearest folders are one. -/
theorem IsNearest.unique {folder' file' : FilePath} (h : IsNearest files start k folder file)
    (h' : IsNearest files start j folder' file') : k = j ∧ folder = folder' ∧ file = file' := by
  obtain rfl : k = j := by
    rcases Nat.lt_trichotomy k j with hlt | heq | hlt
    · exact absurd h.holds (h'.nearest k hlt folder h.above file)
    · exact heq
    · exact absurd h'.holds (h.nearest j hlt folder' h'.above file')
  obtain rfl := h.above.unique h'.above
  exact ⟨rfl, rfl, h.holds.unique h'.holds⟩

theorem IsNearest.not_hasNoProject (h : IsNearest files start k folder file) :
    ¬ HasNoProject files start :=
  fun hnone => hnone k folder h.above file h.holds

/-- **The rules leave one file.** -/
theorem Selects.unique {a b : Option Selection} (h : Selects files s explicit a)
    (h' : Selects files s explicit b) : a = b := by
  cases h with
  | asked file => cases h' with | asked _ => rfl
  | project h =>
    cases h' with
    | project h' =>
      obtain ⟨rfl, rfl, rfl⟩ := h.unique h'
      rfl
    | settings hproject _ _ => exact absurd hproject h.not_hasNoProject
    | defaults hproject _ => exact absurd hproject h.not_hasNoProject
  | settings hproject hfolder hfile =>
    cases h' with
    | project h' => exact absurd hproject h'.not_hasNoProject
    | settings _ hfolder' _ =>
      rw [hfolder] at hfolder'
      rw [Option.some.inj hfolder']
    | defaults _ hnone => rw [hnone _ hfolder] at hfile; cases hfile
  | defaults hproject hnone =>
    cases h' with
    | project h' => exact absurd hproject h'.not_hasNoProject
    | settings _ hfolder hfile => rw [hnone _ hfolder] at hfile; cases hfile
    | defaults _ _ => rfl

/-! ## 2. The search -/

theorem run_firstFile? (paths : List FilePath) :
    (firstFile? files paths).run = paths.find? fun p => (files.isFile p).run := by
  induction paths with
  | nil => rfl
  | cons p paths ih =>
    rw [List.find?_cons, ← ih]
    show (if (files.isFile p).run = true then some p else (firstFile? files paths).run) = _
    cases (files.isFile p).run <;> rfl

/-- The project file of a folder is found. -/
theorem projectFileIn?_eq_some_iff :
    (projectFileIn? files folder).run = some file ↔ IsProjectFile files folder file := by
  rw [projectFileIn?, run_firstFile?]
  show [folder.join ⟨"javats.toml"⟩, folder.join ⟨".javats.toml"⟩].find? _ = some file ↔ _
  rw [List.find?_cons]
  cases hplain : (files.isFile (folder.join ⟨"javats.toml"⟩)).run with
  | true => exact (IsProjectFile.plain hplain).iff_eq
  | false =>
    rw [List.find?_cons]
    cases hhidden : (files.isFile (folder.join ⟨".javats.toml"⟩)).run with
    | true => exact (IsProjectFile.hidden hplain hhidden).iff_eq
    | false =>
      refine ⟨fun h => absurd h nofun, fun h => ?_⟩
      cases h with
      | plain h => rw [hplain] at h; cases h
      | hidden _ h => rw [hhidden] at h; cases h

theorem projectFileIn?_eq_none_iff :
    (projectFileIn? files folder).run = none ↔ ∀ file, ¬ IsProjectFile files folder file := by
  rw [Option.eq_none_iff_forall_ne_some]
  exact forall_congr' fun file => not_congr projectFileIn?_eq_some_iff

theorem run_nearest? (folders : List FilePath) :
    (nearest? files folders).run = folders.findSome? fun folder =>
      (projectFileIn? files folder).run.map fun file => Selection.mk file folder := by
  induction folders with
  | nil => rfl
  | cons folder folders ih =>
    rw [List.findSome?_cons, ← ih, nearest?, Id.run_bind]
    cases (projectFileIn? files folder).run <;> rfl

/-- The folder where the search starts comes first, -/
theorem run_projectFile?_of_here (h : IsProjectFile files start file) :
    (projectFile? files start).run = some ⟨file, ⟨""⟩⟩ := by
  rw [projectFile?, Id.run_bind, projectFileIn?_eq_some_iff.mpr h]
  rfl

/-- and then those above. -/
theorem run_projectFile?_of_not_here (h : ∀ file, ¬ IsProjectFile files start file) :
    (projectFile? files start).run = (nearest? files (start.ancestors.drop 1)).run := by
  rw [projectFile?, Id.run_bind, projectFileIn?_eq_none_iff.mpr h]

theorem getElem?_drop_ancestors :
    (start.ancestors.drop 1)[k]? = some folder ↔ start.Above (k + 1) folder := by
  rw [List.getElem?_drop, Nat.add_comm]
  exact FilePath.getElem?_ancestors

/-- **The search finds the nearest project file**, -/
theorem isNearest_of_projectFile? {chosen : Selection}
    (h : (projectFile? files start).run = some chosen) :
    ∃ k folder, IsNearest files start k folder chosen.file ∧
      chosen.root = if k = 0 then ⟨""⟩ else folder := by
  by_cases hhere : ∃ file, IsProjectFile files start file
  · obtain ⟨file, hfile⟩ := hhere
    rw [run_projectFile?_of_here hfile] at h
    obtain rfl := Option.some.inj h
    exact ⟨0, start, ⟨.self start, hfile, fun j hj => absurd hj (Nat.not_lt_zero j)⟩, rfl⟩
  · have hhere : ∀ file, ¬ IsProjectFile files start file := not_exists.mp hhere
    rw [run_projectFile?_of_not_here hhere, run_nearest?] at h
    obtain ⟨before, folder, after, hfolders, hfound, hbefore⟩ := List.findSome?_eq_some_iff.mp h
    obtain ⟨file, hfile, rfl⟩ := Option.map_eq_some_iff.mp hfound
    refine ⟨before.length + 1, folder, ⟨?_, projectFileIn?_eq_some_iff.mp hfile,
      fun j hj nearer hnearer => ?_⟩, (if_neg (Nat.succ_ne_zero _)).symm⟩
    · refine getElem?_drop_ancestors.mp ?_
      rw [hfolders, List.getElem?_append_right (Nat.le_refl _), Nat.sub_self]
      rfl
    · cases j with
      | zero =>
        obtain rfl := hnearer.unique (.self start)
        exact hhere
      | succ j =>
        have hj := Nat.lt_of_succ_lt_succ hj
        have hmem := getElem?_drop_ancestors.mpr hnearer
        rw [hfolders, List.getElem?_append_left hj] at hmem
        have hnone := hbefore nearer (List.mem_of_getElem? hmem)
        exact projectFileIn?_eq_none_iff.mp (Option.map_eq_none_iff.mp hnone)

/-- and if it finds none, there is none. -/
theorem hasNoProject_of_projectFile? (h : (projectFile? files start).run = none) :
    HasNoProject files start := by
  intro k folder habove file hfile
  by_cases hhere : ∃ file, IsProjectFile files start file
  · obtain ⟨file, hfile⟩ := hhere
    rw [run_projectFile?_of_here hfile] at h
    cases h
  · have hhere : ∀ file, ¬ IsProjectFile files start file := not_exists.mp hhere
    rw [run_projectFile?_of_not_here hhere, run_nearest?] at h
    cases k with
    | zero =>
      obtain rfl := habove.unique (.self start)
      exact hhere file hfile
    | succ k =>
      have hmem := List.mem_of_getElem? (getElem?_drop_ancestors.mpr habove)
      have hnone := List.findSome?_eq_none_iff.mp h folder hmem
      exact projectFileIn?_eq_none_iff.mp (Option.map_eq_none_iff.mp hnone) file hfile

/-- Without a project file, the user's settings count, or else the defaults. -/
theorem selects_of_hasNoProject (hproject : HasNoProject files s.current) :
    Selects files s none
      ((firstFile? files s.settingsFile?.toList).run.map fun file => Selection.mk file ⟨""⟩) := by
  rw [run_firstFile?, Surroundings.settingsFile?]
  cases hfolder : s.settingsFolder? with
  | none => exact .defaults hproject fun folder h => by rw [hfolder] at h; cases h
  | some folder =>
    show Selects files s none (([folder.join ⟨"config.toml"⟩].find? _).map _)
    rw [List.find?_cons]
    cases hfile : (files.isFile (folder.join ⟨"config.toml"⟩)).run with
    | true => exact .settings hproject hfolder hfile
    | false =>
      refine .defaults hproject fun other h => ?_
      rw [hfolder] at h
      rwa [← Option.some.inj h]

/-- What the search finds is what the rules say. -/
theorem selects_select? (files : FileSystem Id) (s : Surroundings) (explicit : Option FilePath) :
    Selects files s explicit (select? files s explicit).run := by
  cases explicit with
  | some file => exact .asked file
  | none =>
    rw [select?, Id.run_bind]
    cases hproject : (projectFile? files s.current).run with
    | some chosen =>
      obtain ⟨file, root⟩ := chosen
      obtain ⟨k, folder, hnearest, hroot⟩ := isNearest_of_projectFile? hproject
      obtain rfl : root = if k = 0 then ⟨""⟩ else folder := hroot
      exact .project hnearest
    | none => exact selects_of_hasNoProject (hasNoProject_of_projectFile? hproject)

/-- **The search finds the file that the rules leave.** -/
theorem selects_iff {chosen : Option Selection} :
    Selects files s explicit chosen ↔ chosen = (select? files s explicit).run :=
  ⟨fun h => h.unique (selects_select? files s explicit),
    fun h => h ▸ selects_select? files s explicit⟩

/-! ## 3. Looking only -/

theorem looks_firstFile? (files : FileSystem Id) (paths : List FilePath) :
    Looks (firstFile? files.noted paths) (firstFile? files paths).run := by
  induction paths with
  | nil => exact .pure none
  | cons p paths ih =>
    refine (Looks.isFile files p).bind ?_
    show Looks (if (files.isFile p).run = true then pure (some p) else firstFile? files.noted paths)
      (if (files.isFile p).run = true then some p else (firstFile? files paths).run)
    split
    · exact .pure (some p)
    · exact ih

theorem looks_projectFileIn? (files : FileSystem Id) (folder : FilePath) :
    Looks (projectFileIn? files.noted folder) (projectFileIn? files folder).run :=
  looks_firstFile? files _

theorem looks_nearest? (files : FileSystem Id) (folders : List FilePath) :
    Looks (nearest? files.noted folders) (nearest? files folders).run := by
  induction folders with
  | nil => exact .pure none
  | cons folder folders ih =>
    simp only [nearest?, Id.run_bind]
    refine (looks_projectFileIn? files folder).bind ?_
    cases (projectFileIn? files folder).run with
    | some file => exact .pure _
    | none => exact ih

theorem looks_projectFile? (files : FileSystem Id) (start : FilePath) :
    Looks (projectFile? files.noted start) (projectFile? files start).run := by
  simp only [projectFile?, Id.run_bind]
  refine (looks_projectFileIn? files start).bind ?_
  cases (projectFileIn? files start).run with
  | some file => exact .pure _
  | none => exact looks_nearest? files _

/-- **The search only looks.** -/
theorem looks_select? (files : FileSystem Id) (s : Surroundings) (explicit : Option FilePath) :
    Looks (select? files.noted s explicit) (select? files s explicit).run := by
  cases explicit with
  | some file => exact .pure _
  | none =>
    simp only [select?, Id.run_bind]
    refine (looks_projectFile? files s.current).bind ?_
    cases (projectFile? files s.current).run with
    | some chosen => exact .pure _
    | none => exact (looks_firstFile? files _).bind (.pure _)

/-! ## 4. What is found -/

/-- The answer that the file that counts gives. -/
inductive Answers (files : FileSystem Id) :
    Option Selection → Except ProjectError Project → Prop where
  | defaults : Answers files none (.ok {})
  | unreadable {chosen : Selection} {cause : IoError}
      (h : (files.read chosen.file).run = .error cause) :
      Answers files (some chosen) (.error ⟨chosen.file, .unreadable cause⟩)
  | malformed {chosen : Selection} {text : String} (h : (files.read chosen.file).run = .ok text)
      (hconfig : Config.ofText? text = none) :
      Answers files (some chosen) (.error ⟨chosen.file, .malformed⟩)
  | loaded {chosen : Selection} {text : String} {config : Config}
      (h : (files.read chosen.file).run = .ok text) (hconfig : Config.ofText? text = some config) :
      Answers files (some chosen) (.ok ⟨config, chosen.root, some chosen.file⟩)

/-- The file that counts is read once, and nothing else happens. -/
theorem run_load (files : FileSystem Id) (chosen : Selection) (notes : List Access) :
    ∃ answer, Answers files (some chosen) answer ∧
      (Project.load files.noted chosen).run notes = (answer, notes ++ [.read chosen.file]) := by
  rw [Project.load, FileSystem.run_noted_read_bind]
  cases hread : (files.read chosen.file).run with
  | error cause => exact ⟨_, .unreadable hread, rfl⟩
  | ok text =>
    dsimp only
    cases hconfig : Config.ofText? text with
    | none => exact ⟨_, .malformed hread hconfig, rfl⟩
    | some config => exact ⟨_, .loaded hread hconfig, rfl⟩

/-- Of all operations, the only one that is not a look is that the file that counts is read. -/
theorem run_locate (files : FileSystem Id) (s : Surroundings) (explicit : Option FilePath) :
    ∃ (answer : Except ProjectError Project) (looked : List FilePath),
      Answers files (select? files s explicit).run answer ∧
      (Project.locate files.noted s explicit).run [] =
        (answer, looked.map .look ++
          ((select? files s explicit).run.map fun chosen => .read chosen.file).toList) := by
  obtain ⟨looked, hlooked⟩ := (looks_select? files s explicit).run_bind []
  rw [Project.locate, hlooked, List.nil_append]
  cases (select? files s explicit).run with
  | none => exact ⟨_, looked, .defaults, Prod.ext rfl (List.append_nil _).symm⟩
  | some chosen =>
    obtain ⟨answer, hanswers, hload⟩ := run_load files chosen (looked.map .look)
    exact ⟨answer, looked, hanswers, hload⟩

/-! ## 5. The laws -/

theorem FilePath.empty_join (p : FilePath) : (⟨""⟩ : FilePath).join p = p := by
  unfold FilePath.join
  split
  · rfl
  · exact congrArg FilePath.mk String.empty_append

/-- The root is empty right where a run takes place. Above, it is the folder, which is empty only
    at the end of a relative path. -/
theorem IsNearest.root_eq_empty_iff (h : IsNearest files start k folder file) :
    ((if k = 0 then ⟨""⟩ else folder) = (⟨""⟩ : FilePath) ↔ k = 0 ∨ folder = ⟨""⟩) ∧
      (start.isAbsolute = true → folder ≠ ⟨""⟩) := by
  refine ⟨?_, h.above.ne_empty⟩
  by_cases hk : k = 0
  · simp [hk]
  · simp [hk]

/-- **The laws of a configuration's place.** Whatever files there are and wherever a run takes
    place, the rules leave one file at most, and its fate is the answer: the defaults if there is
    none, an error if it cannot be read or understood, and else its configuration. But for looking
    around, the only thing that happens is that this file is read. If no file is asked for, it is
    the one of the nearest folder, whose steps are the first ones of the current folder's. Right
    where the run takes place the root is empty; above, it is that folder, and empty only if the
    folder itself is, as at the end of a relative path but never of an absolute one. Output goes
    where it is asked to go, and else to the configured folder, seen from the root. -/
theorem location_laws (files : FileSystem Id) (s : Surroundings) (explicit : Option FilePath) :
    ∃ (selection : Option Selection) (answer : Except ProjectError Project)
        (looked : List FilePath),
      (∀ other, Selects files s explicit other ↔ other = selection) ∧
      Answers files selection answer ∧
      (Project.locate files.noted s explicit).run [] =
        (answer, looked.map .look ++ (selection.map fun chosen => .read chosen.file).toList) ∧
      (explicit = none → ∀ k folder file, IsNearest files s.current k folder file →
        ∃ root, selection = some ⟨file, root⟩ ∧ (k ≠ 0 → root = folder) ∧
          folder.components = s.current.components.take (s.current.components.length - k) ∧
          (root = ⟨""⟩ ↔ k = 0 ∨ folder = ⟨""⟩) ∧
          (s.current.isAbsolute = true → folder ≠ ⟨""⟩)) ∧
      ∀ project, answer = .ok project →
        (∀ asked, project.outDir (some asked) = asked) ∧
        project.outDir none = project.root.join project.config.build.outDir ∧
        (project.root = ⟨""⟩ → project.outDir none = project.config.build.outDir) := by
  obtain ⟨answer, looked, hanswers, hrun⟩ := run_locate files s explicit
  refine ⟨_, answer, looked, fun other => selects_iff, hanswers, hrun,
    fun hnone k folder file hnearest => ⟨_, ?_, fun hk => if_neg hk,
      hnearest.above.components_eq, hnearest.root_eq_empty_iff⟩,
    fun project _ => ⟨fun _ => rfl, rfl, fun hroot => ?_⟩⟩
  · subst hnone
    exact (selects_iff.mp (.project hnearest)).symm
  · show project.root.join _ = _
    rw [hroot, FilePath.empty_join]

/-- A project whose hidden configuration is broken off, and a sound one above it. -/
def nested : Disk where
  root := .folder [("work", .folder [
    ("javats.toml", .file "preset = 'legacy'\n".toUTF8),
    ("src", .folder [
      (".javats.toml", .file "[build".toUTF8),
      ("app", .folder [])])])]

theorem location_laws_nested :
    IsNearest nested.seen ⟨"/work/src/app"⟩ 1 ⟨"/work/src"⟩ ⟨"/work/src/.javats.toml"⟩ ∧
      ∃ looked : List FilePath,
        (Project.locate nested.seen.noted { current := ⟨"/work/src/app"⟩ } none).run [] =
          (.error ⟨⟨"/work/src/.javats.toml"⟩, .malformed⟩,
            looked.map .look ++ [.read ⟨"/work/src/.javats.toml"⟩]) := by
  have hnearest :
      IsNearest nested.seen ⟨"/work/src/app"⟩ 1 ⟨"/work/src"⟩ ⟨"/work/src/.javats.toml"⟩ := by
    refine ⟨.parent (by decide +kernel) (.self _), projectFileIn?_eq_some_iff.mp (by decide +kernel),
      fun j hj nearer hnearer => ?_⟩
    obtain rfl := Nat.lt_one_iff.mp hj
    obtain rfl := hnearer.unique (.self _)
    exact projectFileIn?_eq_none_iff.mp (by decide +kernel)
  have hread : (nested.seen.read ⟨"/work/src/.javats.toml"⟩).run = .ok "[build" := by
    decide +kernel
  have hmalformed : Config.ofText? "[build" = none := by decide +kernel
  obtain ⟨_, _, looked, _, hanswers, hrun, hselected, _⟩ :=
    location_laws nested.seen { current := ⟨"/work/src/app"⟩ } none
  obtain ⟨root, rfl, _⟩ := hselected rfl 1 _ _ hnearest
  refine ⟨hnearest, looked, hrun.trans ?_⟩
  cases hanswers with
  | unreadable h => rw [hread] at h; cases h
  | malformed _ _ => rfl
  | loaded h hconfig =>
    rw [hread] at h
    cases h
    rw [hmalformed] at hconfig
    cases hconfig

end ClassScript
