/-
  File:      ClassScript/Proofs/Project/Scaffold.lean
  Subject:   What a new project overwrites.

  A new project is not created over a configuration, unless that is forced.
  This is the only file that is looked for: a first class or a list of left
  out names that is already there gets another text.

  * `Scaffold.writeEach_wrote`: the files that are written, up to the first
    one that cannot be written;
  * `Scaffold.refused_iff`, `Scaffold.create_wrote`: when a project is refused,
    and what is written if it is not;
  * `Scaffold.create_spares_iff`: when creating a project spares every file;
  * `Scaffold.ownFiles_overwritten`: a project that loses two files.
-/
import ClassScript.Project.Scaffold
import ClassScript.Proofs.FileSystem.Disk

namespace ClassScript
namespace Scaffold

open Disk (SameFiles Wrote)

/-! ## 1. The places of the files -/

variable {d : Disk} {folder : FilePath}

theorem target_configFile (d : Disk) (folder : FilePath) :
    d.target (configFile folder) = d.target folder ++ ["javats.toml"] :=
  Disk.target_join d folder (by decide) (by decide)

/-- **The files of a project have different places.** -/
theorem targets_files_nodup (d : Disk) (folder : FilePath) :
    ((files folder).map fun w => d.target w.1).Nodup := by
  have hmain : d.target ((sourceFolder folder).join ⟨"Main.javats"⟩) =
      d.target folder ++ ["src", "Main.javats"] := by
    rw [Disk.target_join d _ (by decide) (by decide)]
    unfold sourceFolder
    rw [Disk.target_join d folder (by decide) (by decide), List.append_assoc]
    rfl
  have hleftOut : d.target (folder.join ⟨".gitignore"⟩) = d.target folder ++ [".gitignore"] :=
    Disk.target_join d folder (by decide) (by decide)
  unfold files
  rw [List.map_cons, List.map_cons, List.map_cons, target_configFile, hmain, hleftOut]
  simp

/-! ## 2. Writing -/

theorem writeEach_cons_run (w : FilePath × String) (ws : List (FilePath × String)) (d : Disk) :
    (writeEach Disk.files (w :: ws)).run d =
      match d.write w.1 w.2 with
      | .ok d' => (writeEach Disk.files ws).run d'
      | .error cause => (.error (.unwritable w.1 cause), d) := by
  rw [writeEach, StateT.run_bind, Disk.write_run]
  cases d.write w.1 w.2 <;> rfl

/-- **Writing files one after the other** writes those before the first one that cannot be
    written, and names that one. -/
theorem writeEach_wrote {ws : List (FilePath × String)}
    (hplaces : (ws.map fun w => d.target w.1).Nodup) :
    ∃ written rest, ws = written ++ rest ∧
      d.Wrote ((writeEach Disk.files ws).run d).2 written ∧
      match rest with
      | [] => ((writeEach Disk.files ws).run d).1 = .ok ()
      | w :: _ =>
        ∃ cause, ((writeEach Disk.files ws).run d).1 = .error (.unwritable w.1 cause) := by
  induction ws generalizing d with
  | nil => exact ⟨[], [], rfl, (SameFiles.refl d).wrote, rfl⟩
  | cons w ws ih =>
    rw [writeEach_cons_run]
    cases hw : d.write w.1 w.2 with
    | error cause => exact ⟨[], w :: ws, rfl, (SameFiles.refl d).wrote, cause, rfl⟩
    | ok d' =>
      rw [List.map_cons, List.nodup_cons] at hplaces
      -- the write leaves the current folder, so the other paths lead where they led
      have hrest : (ws.map fun v => d'.target v.1).Nodup := by
        simpa only [Disk.target_eq (Disk.write_eq_ok hw).1] using hplaces.2
      obtain ⟨written, rest, rfl, hwrote, hend⟩ := ih hrest
      refine ⟨w :: written, rest, rfl, hwrote.cons hw fun v hv heq => hplaces.1 ?_, hend⟩
      exact List.mem_map.mpr ⟨v, List.mem_append_left _ hv, heq⟩

/-! ## 3. Creating a project -/

theorem create_run (d : Disk) (folder : FilePath) :
    (create Disk.files folder false).run d =
      if d.isThere (configFile folder) = true then
        (.error (.configExists (configFile folder)), d)
      else
        match (Disk.files.makeFolders (sourceFolder folder)).run d with
        | (.error cause, d') => (.error (.noFolder (sourceFolder folder) cause), d')
        | (.ok (), d') =>
          (((writeEach Disk.files (files folder)).run d').1.map fun _ => (files folder).map (·.1),
            ((writeEach Disk.files (files folder)).run d').2) := by
  rw [create, StateT.run_bind, Disk.isThere_run]
  cases d.isThere (configFile folder) with
  | true => rfl
  | false =>
    rw [if_neg Bool.false_ne_true]
    show StateT.run (Disk.files.makeFolders (sourceFolder folder) >>= _) d = _
    rw [StateT.run_bind]
    cases (Disk.files.makeFolders (sourceFolder folder)).run d with
    | mk made d' => cases made <;> rfl

/-- **How creating a project may go**: it is refused at once, or some files are written, up to
    the first one that the system refuses. -/
theorem create_cases (d : Disk) (folder : FilePath) :
    (d.isThere (configFile folder) = true ∧
      (create Disk.files folder false).run d =
        (.error (.configExists (configFile folder)), d)) ∨
    (d.isThere (configFile folder) = false ∧ ∃ written rest, files folder = written ++ rest ∧
      d.Wrote ((create Disk.files folder false).run d).2 written ∧
      ((rest = [] ∧
          ((create Disk.files folder false).run d).1 = .ok ((files folder).map (·.1))) ∨
        (rest ≠ [] ∧ ∃ e, ((create Disk.files folder false).run d).1 = .error e ∧
          e.cause?.isSome = true))) := by
  have hmade := Disk.makeFolders_sameFiles (sourceFolder folder) d
  rw [create_run]
  cases hthere : d.isThere (configFile folder) with
  | true => exact .inl ⟨rfl, rfl⟩
  | false =>
    refine .inr ⟨rfl, ?_⟩
    rw [if_neg Bool.false_ne_true]
    cases hrun : (Disk.files.makeFolders (sourceFolder folder)).run d with
    | mk made d' =>
      rw [hrun] at hmade
      cases made with
      | error cause =>
        exact ⟨[], files folder, rfl, SameFiles.wrote hmade,
          .inr ⟨List.cons_ne_nil _ _, _, rfl, rfl⟩⟩
      | ok _ =>
        obtain ⟨written, rest, hfiles, hwrote, hend⟩ :=
          writeEach_wrote (targets_files_nodup d' folder)
        refine ⟨written, rest, hfiles, .after hmade hwrote, ?_⟩
        cases rest with
        | nil => exact .inl ⟨rfl, congrArg (Except.map _) hend⟩
        | cons w rest =>
          obtain ⟨cause, hcause⟩ := hend
          exact .inr ⟨List.cons_ne_nil _ _, .unwritable w.1 cause,
            congrArg (Except.map _) hcause, rfl⟩

/-- **A project is refused exactly if there is a configuration.** -/
theorem refused_iff (d : Disk) (folder : FilePath) :
    (∃ path, ((create Disk.files folder false).run d).1 = .error (.configExists path)) ↔
      d.isThere (configFile folder) = true := by
  rcases create_cases d folder with ⟨hthere, hrun⟩ | ⟨hthere, _, _, _, _, hend⟩
  · exact ⟨fun _ => hthere, fun _ => ⟨_, congrArg Prod.fst hrun⟩⟩
  · rw [hthere]
    refine ⟨?_, nofun⟩
    rintro ⟨path, hpath⟩
    rcases hend with ⟨_, hok⟩ | ⟨_, e, he, hcause⟩
    · cases hpath.symm.trans hok
    · cases hpath.symm.trans he
      cases hcause

/-- **A refusal changes nothing.** -/
theorem create_of_isThere (h : d.isThere (configFile folder) = true) :
    ((create Disk.files folder false).run d).2 = d := by
  rw [create_run, if_pos h]

/-- **What is written** are the files up to one that is refused, all of them exactly if the
    project is created. -/
theorem create_wrote (d : Disk) (folder : FilePath) :
    ∃ written, written <+: files folder ∧
      d.Wrote ((create Disk.files folder false).run d).2 written ∧
      (((create Disk.files folder false).run d).1 = .ok ((files folder).map (·.1)) ↔
        written = files folder) := by
  rcases create_cases d folder with ⟨_, hrun⟩ | ⟨_, written, rest, hfiles, hwrote, hend⟩
  · rw [hrun]
    exact ⟨[], List.nil_prefix, (SameFiles.refl d).wrote, nofun, nofun⟩
  · refine ⟨written, ⟨rest, hfiles.symm⟩, hwrote, ?_⟩
    rcases hend with ⟨rfl, hok⟩ | ⟨hrest, e, he, _⟩
    · exact ⟨fun _ => by rw [hfiles, List.append_nil], fun _ => hok⟩
    · constructor
      · intro hok
        cases he.symm.trans hok
      · rintro rfl
        exact absurd (List.append_right_eq_self.mp hfiles.symm) hrest

/-- A configuration that the program does not find is not where its path leads, unless the path
    leads up on its way. -/
theorem fileAt_configFile (hup : ".." ∉ Disk.stepsOf folder)
    (h : d.isThere (configFile folder) = false) :
    d.fileAt (d.target (configFile folder)) = none := by
  rw [Option.eq_none_iff_forall_ne_some]
  intro bytes hbytes
  have hfile : d.isFile (configFile folder) = true :=
    Disk.isFile_of_fileAt (by decide) (by decide) hup hbytes
  rw [Disk.isThere, hfile, Bool.true_or] at h
  cases h

-- It is looked for before the folders are made: without a folder `a` it is not found, though the
-- path leads to it as soon as `a` is there.
example :
    let disk : Disk := ⟨.folder [("b", .folder [("javats.toml", .file "own".toUTF8)])], []⟩
    disk.isThere (configFile ⟨"/a/../b"⟩) = false ∧
      disk.fileAt (disk.target (configFile ⟨"/a/../b"⟩)) = some "own".toUTF8 := by
  decide +kernel

/-- **Where the other two files are not there yet, nothing is lost.** -/
theorem spares_of_free (hup : ".." ∉ Disk.stepsOf folder)
    (hfree : ∀ w ∈ (files folder).tail, d.fileAt (d.target w.1) = none) :
    d.Spares ((create Disk.files folder false).run d).2 := by
  cases hthere : d.isThere (configFile folder) with
  | true =>
    rw [create_of_isThere hthere]
    exact fun _ _ => id
  | false =>
    obtain ⟨written, hstart, hwrote, _⟩ := create_wrote d folder
    refine hwrote.spares_iff.mpr fun w hw bytes hbytes => ?_
    have hnone : d.fileAt (d.target w.1) = none := by
      rcases List.mem_cons.mp (hstart.subset hw) with rfl | hw
      · exact fileAt_configFile hup hthere
      · exact hfree w hw
    rw [hnone] at hbytes
    cases hbytes

/-- **What a new project leaves alone.** It is refused exactly if there is a configuration, and
    then nothing changes. Else some of its files are written, all of them if it is created, and
    no other file changes. So it spares every file unless a file that is written is there
    already, with another text. If no step to the folder leads up, the configuration is never
    such a file, and where there is no first class and no list of left out names, all is spared. -/
theorem create_spares_iff (d : Disk) (folder : FilePath) :
    let answer := ((create Disk.files folder false).run d).1
    let after := ((create Disk.files folder false).run d).2
    ((∃ path, answer = .error (.configExists path)) ↔ d.isThere (configFile folder) = true) ∧
      ((∃ path, answer = .error (.configExists path)) → after = d) ∧
      (∃ written, written <+: files folder ∧ d.Wrote after written ∧
        (answer = .ok ((files folder).map (·.1)) ↔ written = files folder) ∧
        (d.Spares after ↔ ∀ w ∈ written, ∀ bytes,
          d.fileAt (d.target w.1) = some bytes → bytes = w.2.toUTF8)) ∧
      (".." ∉ Disk.stepsOf folder →
        (∀ w ∈ (files folder).tail, d.fileAt (d.target w.1) = none) → d.Spares after) := by
  obtain ⟨written, hstart, hwrote, hcreated⟩ := create_wrote d folder
  exact ⟨refused_iff d folder, fun h => create_of_isThere ((refused_iff d folder).mp h),
    ⟨written, hstart, hwrote, hcreated, hwrote.spares_iff⟩, spares_of_free⟩

/-- A folder with other files than those of a new project. -/
def neighbours : Disk where
  root := .folder [("demo", .folder [("notes.txt", .file "kept".toUTF8),
    ("src", .folder [("Note.javats", .file "kept too".toUTF8)])])]

theorem neighbours_spared :
    let after := ((create Disk.files ⟨"/demo"⟩ false).run neighbours).2
    ".." ∉ Disk.stepsOf ⟨"/demo"⟩ ∧
      (∀ w ∈ (files ⟨"/demo"⟩).tail, neighbours.fileAt (neighbours.target w.1) = none) ∧
      neighbours.Spares after ∧ after.fileAt ["demo", "notes.txt"] = some "kept".toUTF8 := by
  have hup : ".." ∉ Disk.stepsOf ⟨"/demo"⟩ := by decide +kernel
  have hfree : ∀ w ∈ (files ⟨"/demo"⟩).tail,
      neighbours.fileAt (neighbours.target w.1) = none := by decide +kernel
  have hspares := (create_spares_iff neighbours ⟨"/demo"⟩).2.2.2 hup hfree
  exact ⟨hup, hfree, hspares, hspares _ _ (by decide +kernel)⟩

/-- A folder with a list of left out names and a first class of its own, and no configuration. -/
def ownFiles : Disk where
  root := .folder [("demo", .folder [(".gitignore", .file "mine\n".toUTF8),
    ("src", .folder [("Main.javats", .file "old".toUTF8)])])]

/-- **A new project in a folder that has files of its own takes two of them away**, though it is
    not forced: no configuration is there. -/
theorem ownFiles_overwritten :
    let after := ((create Disk.files ⟨"/demo"⟩ false).run ownFiles).2
    ownFiles.isThere (configFile ⟨"/demo"⟩) = false ∧
      after.fileAt ["demo", "src", "Main.javats"] = some mainText.toUTF8 ∧
      after.fileAt ["demo", ".gitignore"] = some leftOutText.toUTF8 ∧
      ¬ ownFiles.Spares after := by
  intro after
  have hwrote : ownFiles.Wrote after (files ⟨"/demo"⟩) := by
    obtain ⟨written, _, hwrote, hcreated⟩ := create_wrote ownFiles ⟨"/demo"⟩
    rwa [hcreated.mp (by decide +kernel)] at hwrote
  have hbefore : ownFiles.fileAt ["demo", ".gitignore"] = some "mine\n".toUTF8 := by
    decide +kernel
  have hmain : after.fileAt ["demo", "src", "Main.javats"] = some mainText.toUTF8 :=
    hwrote.texts (⟨"/demo/src/Main.javats"⟩, mainText) (by decide +kernel)
  have hleftOut : after.fileAt ["demo", ".gitignore"] = some leftOutText.toUTF8 :=
    hwrote.texts (⟨"/demo/.gitignore"⟩, leftOutText) (by decide +kernel)
  refine ⟨by decide +kernel, hmain, hleftOut, fun hspares => ?_⟩
  have hsame := Option.some.inj (hleftOut.symm.trans (hspares _ _ hbefore))
  exact absurd hsame (by decide +kernel)

end Scaffold
end ClassScript
