/-
  File:      ClassScript/Proofs/Build/Imports.lean
  Subject:   Which imports find their module after a build.

  A script asks for a module by the path that its source gives, with the
  extension of scripts in place of that of sources. A build puts all scripts
  right into one folder, whatever folders their sources are in. So an import
  finds the script of the unit it is from exactly if the folders in its path
  lead from the folder of the scripts back to it. The path `./` does, and with
  it all imports of a project in one folder are found.

  * `components_script_path`: every script is right in the folder of scripts;
  * `ImportsFrom`: a statement of a unit is from another unit;
  * `ImportsFrom.resolves_iff`: when its script finds the script of that unit.
-/
import ClassScript.Loading
import ClassScript.Proofs.Build.Writing
import ClassScript.Proofs.Emission.Requests

namespace ClassScript

open Syntax (Source Tree)

open Emission (IsFrom Loads quoted isQuote moduleStem scriptExtension)
open FilePath (Component IsRelative componentsOf placeOf)

/-! ## 1. Scripts in their folder -/

/-- The name of a unit has no separator in it. -/
theorem CompilationUnit.notMem_stem (u : CompilationUnit) : '/' ∉ u.stem.toList := by
  unfold stem
  cases hstem : Text.dropTail? ("." ++ sourceExtension) u.baseName with
  | none => exact FilePath.notMem_baseName u.path
  | some stem =>
    intro hmem
    refine FilePath.notMem_baseName u.path ?_
    show '/' ∈ u.baseName.toList
    rw [Text.dropTail?_eq_some_iff.mp hstem, String.toList_append]
    exact List.mem_append_left _ hmem

/-- The name of a unit is that of its file without the extension. -/
theorem CompilationUnit.toList_stem {u : CompilationUnit} {name : String} {base : List Char}
    (hfile : u.path.fileName? = some name)
    (hname : name.toList = base ++ ("." ++ sourceExtension).toList) : u.stem.toList = base := by
  have hbase : u.baseName = String.ofList base ++ ("." ++ sourceExtension) := by
    refine String.toList_inj.mp ?_
    rw [String.toList_append, String.toList_ofList, ← hname]
    show (u.path.fileName?.getD "").toList = name.toList
    rw [hfile]
    rfl
  rw [stem, Text.dropTail?_eq_some_iff.mpr hbase]
  exact String.toList_ofList

theorem notMem_ending {extension : String}
    (h : extension = sourceExtension ∨ extension = scriptExtension) :
    '/' ∉ ("." ++ extension).toList ∧ 2 < ("." ++ extension).toList.length := by
  rcases h with rfl | rfl <;> decide +kernel

/-- **Every script is right in the folder of the scripts.** -/
theorem components_script_path (outDir : FilePath) (u : CompilationUnit) :
    (Artifact.script.path outDir u).components =
      outDir.components ++ [.name (u.stem.toList ++ ("." ++ scriptExtension).toList)] := by
  obtain ⟨hext, hlong⟩ := notMem_ending (.inr rfl)
  have hname : '/' ∉ (u.stem ++ "." ++ scriptExtension).toList := by
    rw [String.append_assoc, String.toList_append]
    exact fun hmem => (List.mem_append.mp hmem).elim u.notMem_stem hext
  have hlength : 2 < (u.stem ++ "." ++ scriptExtension).toList.length := by
    rw [String.append_assoc, String.toList_append, List.length_append]
    omega
  have hpath : Artifact.script.path outDir u =
      outDir.join ⟨u.stem ++ "." ++ scriptExtension⟩ := by
    rw [Artifact.path, outputPath]
    rfl
  rw [hpath, FilePath.components_join_name outDir hname hlength, String.append_assoc,
    String.toList_append]

theorem place_script (outDir : FilePath) (u : CompilationUnit) :
    (Artifact.script.path outDir u).place =
      .name (u.stem.toList ++ ("." ++ scriptExtension).toList) :: outDir.place := by
  rw [FilePath.place, components_script_path, FilePath.placeOf_concat_name]
  rfl

/-- From any script, a path with a file name leads to a file in the folder it leads to from the
    folder of the scripts. -/
theorem reached_script (outDir : FilePath) (u : CompilationUnit) {path : String}
    {folder : List Component} {name : List Char}
    (h : componentsOf path.toList = folder ++ [.name name]) :
    (Artifact.script.path outDir u).reached path =
      .name name :: placeOf (outDir.components ++ folder) := by
  rw [FilePath.reached, components_script_path, List.dropLast_concat, h, ← List.append_assoc,
    FilePath.placeOf_concat_name]

/-- A tail without separators is cut off the name that a path ends with. -/
theorem exists_base {stem tail folder name : List Char} (htail : '/' ∉ tail)
    (h : stem ++ tail = folder ++ '/' :: name) :
    ∃ base, stem = folder ++ '/' :: base ∧ name = base ++ tail := by
  rcases List.append_eq_append_iff.mp h with ⟨rest, rfl, hrest⟩ | ⟨rest, rfl, hrest⟩
  · rw [hrest] at htail
    exact absurd (List.mem_append_right _ List.mem_cons_self) htail
  · cases rest with
    | nil =>
      rw [List.nil_append] at hrest
      rw [← hrest] at htail
      exact absurd List.mem_cons_self htail
    | cons c base =>
      rw [List.cons_append] at hrest
      obtain ⟨rfl, rfl⟩ := List.cons.inj hrest
      exact ⟨base, rfl, rfl⟩

/-- The steps of a relative path to a source file, and of the same path in a script: they end with
    the name of the source, and with that of the script. -/
theorem exists_of_sourcePath {path stem : String} (hrelative : IsRelative path)
    (hstem : path = stem ++ ("." ++ sourceExtension)) :
    ∃ folder base, ∀ extension, extension = sourceExtension ∨ extension = scriptExtension →
      componentsOf (stem ++ ("." ++ extension)).toList =
        folder ++ [.name (base ++ ("." ++ extension).toList)] := by
  obtain ⟨folder, name, hpath, hfolder, hname⟩ := hrelative.exists_eq
  rw [hstem, String.toList_append] at hpath
  obtain ⟨base, hbase, rfl⟩ := exists_base (notMem_ending (.inl rfl)).1 hpath
  refine ⟨componentsOf folder, base, fun extension hextension => ?_⟩
  obtain ⟨hext, hlong⟩ := notMem_ending hextension
  have hplain : '/' ∉ base ++ ("." ++ extension).toList := fun hmem =>
    (List.mem_append.mp hmem).elim (fun hmem => hname (List.mem_append_left _ hmem)) hext
  rw [String.toList_append, hbase, List.append_assoc, List.cons_append,
    FilePath.componentsOf_append hfolder, Text.splitOn_of_notMem hplain, List.filterMap_cons,
    FilePath.ofPiece?_eq_name (by rw [List.length_append]; omega)]
  rfl

/-! ## 2. Imports from another unit -/

/-- **The statement `t` of the unit `a` is from the unit `b`**: its path is relative, has the
    extension of sources, and leads from the folder of `a` to `b`. -/
structure ImportsFrom (a b : CompilationUnit) (t : Tree) (q : Char) (path : String) : Prop where
  statement : IsFrom (.ofString a.text) t (quoted q path)
  quote : isQuote q = true
  relative : IsRelative path
  ending : (Text.dropTail? ("." ++ sourceExtension) path).isSome = true
  file : b.path.fileName?.isSome = true
  leads : a.path.reached path = b.path.place

/-- The unit that a path leads to has the name that the path ends with. -/
theorem ImportsFrom.toList_stem {a b : CompilationUnit} {t : Tree} {q : Char} {path : String}
    (h : ImportsFrom a b t q path) {folder : List Component} {base : List Char}
    (hpath : componentsOf path.toList =
      folder ++ [.name (base ++ ("." ++ sourceExtension).toList)]) : b.stem.toList = base := by
  obtain ⟨name, hfile⟩ := Option.isSome_iff_exists.mp h.file
  obtain ⟨own, hown⟩ := FilePath.exists_of_fileName? hfile
  have hleads := h.leads
  rw [FilePath.reached, hpath, ← List.append_assoc, FilePath.placeOf_concat_name,
    FilePath.place, hown, FilePath.placeOf_concat_name] at hleads
  exact b.toList_stem hfile (Component.name.inj (List.cons.inj hleads).1).symm

/-- **When an import finds its module after a build.** One edit comes into the place of the
    statement, and loads the module under its path with the extension of scripts, unless the
    statement brings nothing. From the script of the one unit this path leads to the script of the
    other exactly if the folders in it lead from the folder of the scripts back to it. A path that
    has no folders but `./` does. -/
theorem ImportsFrom.resolves_iff {a b : CompilationUnit} {t : Tree} {q : Char} {path : String}
    (h : ImportsFrom a b t q path) (outDir : FilePath) :
    let script := fun u : CompilationUnit => Artifact.script.path outDir u
    let folders := (componentsOf path.toList).dropLast
    (∀ following e, Emission.emit (.ofString a.text) following t = .ok e →
      ∃ x, e.edits = [x] ∧ Loads (.ofString a.text) t (quoted q (moduleStem path)) x) ∧
    ((script a).reached (moduleStem path) = (script b).place ↔
      placeOf (outDir.components ++ folders) = outDir.place) ∧
    (folders = [.here] → (script a).reached (moduleStem path) = (script b).place) := by
  intro script folders
  obtain ⟨stem, hstem⟩ := Option.isSome_iff_exists.mp h.ending
  have hpath := Text.dropTail?_eq_some_iff.mp hstem
  have hjs : moduleStem path = stem ++ ("." ++ scriptExtension) := by
    rw [hpath, Emission.moduleStem_append]
  obtain ⟨folder, base, hsteps⟩ := exists_of_sourcePath h.relative hpath
  have hsource := hsteps _ (.inl rfl)
  have hscript := hsteps _ (.inr rfl)
  rw [← hpath] at hsource
  rw [← hjs] at hscript
  have hfolders : folders = folder := by
    show (componentsOf path.toList).dropLast = folder
    rw [hsource, List.dropLast_concat]
  have hiff : (script a).reached (moduleStem path) = (script b).place ↔
      placeOf (outDir.components ++ folders) = outDir.place := by
    rw [reached_script outDir a hscript, place_script, h.toList_stem hsource, hfolders,
      List.cons_inj_right]
  refine ⟨fun following e he => ?_, hiff, fun hhere => hiff.mpr ?_⟩
  · rw [← Emission.moduleName_quoted h.quote h.relative hpath]
    exact Emission.loads_of_emit h.statement he
  · rw [hhere, FilePath.placeOf_concat_here]
    rfl

/-- The first statement of a unit. -/
def CompilationUnit.firstStatement (u : CompilationUnit) : Tree :=
  ((Tree.ofSource (.ofString u.text)).toOption.bind (·.children.head?)).getD default

/-- A statement that is from a module without more words. -/
theorem Emission.isFrom_of_plain {src : Source} {t : Tree} {literal : String}
    (h : t.kind = .importStatement ∧ (Emission.namedPart? .importRequire t).isNone = true ∧
      t.partText? src .source = some literal) : IsFrom src t literal :=
  .imported h.1 (Option.isNone_iff_eq_none.mp h.2.1) h.2.2

/-- A unit that loads its neighbour. -/
def loadsNeighbour : CompilationUnit := ⟨⟨"src/Main.javats"⟩, "import'./User.javats'", []⟩

/-- From one folder to one folder, an import finds its module. -/
theorem loadsNeighbour_resolves :
    let neighbour : CompilationUnit := ⟨⟨"src/User.javats"⟩, "", []⟩
    let outDir : FilePath := ⟨"dist"⟩
    ImportsFrom loadsNeighbour neighbour loadsNeighbour.firstStatement '\'' "./User.javats" ∧
      (Artifact.script.path outDir loadsNeighbour).reached (moduleStem "./User.javats") =
        (Artifact.script.path outDir neighbour).place := by
  intro neighbour outDir
  have h : ImportsFrom loadsNeighbour neighbour loadsNeighbour.firstStatement '\''
      "./User.javats" :=
    ⟨Emission.isFrom_of_plain (by decide +kernel), rfl, by decide +kernel, by decide +kernel,
      by decide +kernel, by decide +kernel⟩
  exact ⟨h, (h.resolves_iff outDir).2.2 (by decide +kernel)⟩

/-- Two units in two folders, the first of which loads the second. -/
def loadsAcross : List CompilationUnit :=
  [⟨⟨"app/Main.javats"⟩, "import'../lib/User.javats';class Main\x7b\x7d",
    [.classItem ⟨some "Main", ⟨1, 28⟩, ⟨1, 34⟩, false, false, none, [], []⟩]⟩,
   ⟨⟨"lib/User.javats"⟩, "class User\x7b\x7d",
    [.classItem ⟨some "User", ⟨1, 1⟩, ⟨1, 7⟩, false, false, none, [], []⟩]⟩]

/-- From one folder to another, an import finds nothing: both units are accepted, their scripts
    are `dist/Main.js` and `dist/User.js`, and the first loads `lib/User.js`. -/
theorem loadsAcross_unresolved :
    let p := Pipeline.ofPreset .mature {}
    let a := loadsAcross[0]
    let b := loadsAcross[1]
    let script := fun u : CompilationUnit => Artifact.script.path ⟨"dist"⟩ u
    (p.validator.accepted loadsAcross).map (·.path.text) = ["app/Main.javats", "lib/User.javats"] ∧
      ImportsFrom a b a.firstStatement '\'' "../lib/User.javats" ∧
      (p.compiler.script a).toOption = some
        (Script.strictLine ++ Script.moduleLine ++ "require('../lib/User.js');class Main\x7b\x7d") ∧
      (script a).text = "dist/Main.js" ∧ (script b).text = "dist/User.js" ∧
      (script a).reached "../lib/User.js" = (⟨"lib/User.js"⟩ : FilePath).place ∧
      (script a).reached "../lib/User.js" ≠ (script b).place := by
  intro p a b script
  refine ⟨by decide +kernel, ?_, by decide +kernel, by decide +kernel, by decide +kernel,
    by decide +kernel, by decide +kernel⟩
  exact ⟨Emission.isFrom_of_plain (by decide +kernel), rfl, by decide +kernel, by decide +kernel,
    by decide +kernel, by decide +kernel⟩

end ClassScript
