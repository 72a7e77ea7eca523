/-
  File:      ClassScript/Proofs/Build/EntryClass.lean
  Subject:   Which script still has the class that it runs.

  Two readers go over the tree of a text. One finds the classes of a unit, and
  the compiler lets the script run the first of them that declares the entry
  point. The other takes out what has no counterpart in a script. They agree on
  every class but one behind `declare`: the first reader takes it for a class,
  the second takes it out, and then the script runs a class that it has not.

  * `IsAmbient`: a statement declares only types;
  * `KeepsClass`: a script has a class of the source in it, under its name;
  * `exists_of_classItem`: the statements that declare a class;
  * `Compiler.script_of_entryClass`: a script has the class that it runs, unless
    its statement is ambient and taken out.
-/
import ClassScript.Proofs.Build.EntryPoint
import ClassScript.Proofs.Emission.ClassHead

namespace ClassScript

open Syntax (Source Tree Kind AllFormed)
open Emission (emit emitAll treatment exportForm dropStatement DeclaresClass IsClass IsHead
  AroundHead)

variable {s text name : String} {src : Source} {t d : Tree} {following : List Tree}
  {cls : ClassDecl} {e : Emission}

/-! ## 1. The statements that declare a class -/

/-- What the statement `t` declares has no counterpart when the program runs: it stands behind
    `declare`, perhaps in an export. -/
def IsAmbient (t : Tree) : Prop :=
  t.kind = .ambientDecl ∨
    t.kind = .exportStatement ∧ ∃ d, t.part? .declaration = some d ∧ d.kind = .ambientDecl

/-- A declaration stands for a class if it is one, or is ambient. -/
theorem exists_of_declared {site : Tree.Site} (h : d.declared? src site = some (.classItem cls)) :
    d.kind = .ambientDecl ∨ IsClass d ∧ cls = d.classDecl src site := by
  unfold Tree.declared? at h
  split at h
  · exact .inl rfl
  · unfold Tree.plainItem? at h
    split at h
    case h_1 hk | h_2 hk | h_3 hk =>
      cases h
      exact .inr ⟨by simp [IsClass, hk], rfl⟩
    all_goals cases h

/-- **A statement that stands for a class** declares it, or is ambient. -/
theorem exists_of_classItem (h : t.item? src = some (.classItem cls)) :
    IsAmbient t ∨ ∃ d, DeclaresClass t d ∧ cls.name = (d.part? .name).map (Tree.text src) := by
  unfold Tree.item? at h
  split at h
  · rename_i hk
    unfold Tree.exportedItem? at h
    dsimp only at h
    split at h
    · rename_i d hd
      rcases exists_of_declared h with hambient | ⟨hclass, rfl⟩
      · exact .inl (.inr ⟨hk, d, hd, hambient⟩)
      · exact .inr ⟨d, ⟨hclass, .inr ⟨hk, .inl hd⟩⟩, rfl⟩
    · rename_i d hnone hd
      split at h
      · rename_i hkind
        rcases exists_of_declared h with hambient | ⟨hclass, rfl⟩
        · rw [hambient] at hkind
          exact absurd hkind (by decide)
        · exact .inr ⟨d, ⟨hclass, .inr ⟨hk, .inr ⟨hnone, hd⟩⟩⟩, rfl⟩
      · cases h
    · cases h
  · rename_i hk
    rcases exists_of_declared h with hambient | ⟨hclass, rfl⟩
    · exact .inl (.inl hambient)
    · exact .inr ⟨t, ⟨hclass, .inl ⟨hk, rfl⟩⟩, rfl⟩

/-! ## 2. Ambient statements -/

/-- An export with a declaration keeps it, unless only types are exported or a decorator stands
    before it. -/
theorem exportForm_of_declaration (hd : t.part? .declaration = some d) :
    exportForm t = .typeOnly ∨ (∃ decorator, exportForm t = .decorated decorator) ∨
      exportForm t = .declaration d := by
  unfold exportForm
  split
  · exact .inl rfl
  · cases Emission.exportDecorator? t with
    | some decorator => exact .inr (.inl ⟨decorator, rfl⟩)
    | none => exact .inr (.inr (by rw [hd]))

/-- **An ambient statement is taken out**, and nothing else becomes of it. -/
theorem edits_of_ambient (h : IsAmbient t) (he : emit src following t = .ok e) :
    e.edits = [dropStatement src t] := by
  rcases h with hk | ⟨hk, d, hd, hambient⟩
  · obtain ⟨kind, role, start, stop, parts⟩ := t
    obtain rfl : kind = .ambientDecl := hk
    cases he
    rfl
  · have hstays : treatment d.kind = .droppedStatement := by rw [hambient]; rfl
    rw [Emission.emit_export hk] at he
    rcases exportForm_of_declaration hd with hform | ⟨decorator, hform⟩ | hform
    · rw [hform] at he
      exact Except.ok.inj he ▸ rfl
    · rw [hform] at he
      cases he
    · rw [hform] at he
      dsimp only at he
      rw [if_pos hstays] at he
      exact Except.ok.inj he ▸ rfl

/-- Of an ambient statement nothing is left. -/
theorem exists_of_ambient (h : IsAmbient t) (he : emit src following t = .ok e) :
    ∃ x, e.edits = [x] ∧ x.text = "" ∧ x.start ≤ t.start ∧ t.stop ≤ x.stop := by
  exact ⟨dropStatement src t, edits_of_ambient h he, Emission.text_dropLines src t.start t.stop,
    Emission.dropLines_around src t.start t.stop⟩

/-! ## 3. The class in a script -/

/-- The text `text`, which the emission `e` makes of the source, has the class `d` in it under the
    name `name`. No edit touches the head of the class, and the text has the word `class`, what
    stands between it and the name, the name, and then the brace of its body. -/
def KeepsClass (s : String) (e : Emission) (d : Tree) (name text : String) : Prop :=
  ∃ word ident brace, IsHead s d word ident brace ∧ ident.text (.ofString s) = name ∧
    (∀ x ∈ e.edits, AroundHead word ident brace x) ∧
    ∃ before between rest, text =
      before ++ "class" ++ (Source.ofString s).text word.stop ident.start ++ name ++ between ++
        "\x7b" ++ rest

/-- A brace is no blank, so what stands before it stays. -/
theorem trimEnd_append_brace (a b : String) :
    Text.trimEnd (a ++ "\x7b" ++ b) = a ++ "\x7b" ++ Text.trimEnd b := by
  have hbrace : Text.isBlank '\x7b' = false := by decide
  have hchars : (a ++ "\x7b" ++ b).toList.reverse =
      b.toList.reverse ++ '\x7b' :: a.toList.reverse := by simp
  apply String.toList_injective
  rw [Text.trimEnd, hchars, List.dropWhile_append]
  split
  · rename_i hblank
    simp [Text.trimEnd, List.isEmpty_iff.mp hblank, hbrace]
  · simp [Text.trimEnd]

namespace KeepsClass

theorem append_left (h : KeepsClass s e d name text) (lines : String) :
    KeepsClass s e d name (lines ++ text) := by
  obtain ⟨word, ident, brace, hhead, hname, haround, before, between, rest, rfl⟩ := h
  exact ⟨word, ident, brace, hhead, hname, haround, lines ++ before, between, rest,
    by simp only [String.append_assoc]⟩

theorem append_right (h : KeepsClass s e d name text) (lines : String) :
    KeepsClass s e d name (text ++ lines) := by
  obtain ⟨word, ident, brace, hhead, hname, haround, before, between, rest, rfl⟩ := h
  exact ⟨word, ident, brace, hhead, hname, haround, before, between, rest ++ lines,
    by simp only [String.append_assoc]⟩

theorem trimEnd (h : KeepsClass s e d name text) :
    KeepsClass s e d name (Text.trimEnd text) := by
  obtain ⟨word, ident, brace, hhead, hname, haround, before, between, rest, rfl⟩ := h
  exact ⟨word, ident, brace, hhead, hname, haround, before, between, Text.trimEnd rest,
    trimEnd_append_brace _ rest⟩

end KeepsClass

/-- **The edited text keeps every class** with a name that an outermost statement declares. -/
theorem keepsClass_applyTo {root : Tree} {before after : List Tree} (hroot : AllFormed s root)
    (hparts : root.children = before ++ t :: after) (hdeclares : DeclaresClass t d)
    (hname : (d.part? .name).map (Tree.text (.ofString s)) = some name)
    (he : emitAll (.ofString s) root.children = .ok e) :
    KeepsClass s e d name (Emission.Edit.applyTo (.ofString s) e.edits) := by
  obtain ⟨ident, hident, rfl⟩ := Option.map_eq_some_iff.mp hname
  obtain ⟨word, ident', brace, hhead, haround⟩ :=
    Emission.exists_head_of_program hroot hparts hdeclares (hident ▸ rfl) he
  obtain rfl : ident = ident' := Option.some.inj (hident.symm.trans hhead.isName)
  exact ⟨word, ident, brace, hhead, rfl, fun x hx => (haround x hx).2,
    hhead.exists_of_applyTo haround⟩

/-! ## 4. The script of a unit -/

variable {path : FilePath} {u : CompilationUnit}

/-- A unit of a text has the text, and the items of its tree. -/
theorem CompilationUnit.exists_of_ofText (h : ofText path s = .ok u) :
    ∃ root, Tree.ofSource (.ofString s) = .ok root ∧ u = ⟨path, s, root.items (.ofString s)⟩ := by
  unfold ofText at h
  dsimp only at h
  split at h
  · rename_i root hroot
    exact ⟨root, hroot, (Except.ok.inj h).symm⟩
  · cases h

/-- A class of a unit is what an outermost statement stands for. -/
theorem exists_of_mem_items {root : Tree} (h : .classItem cls ∈ root.items src) :
    ∃ before t after, root.children = before ++ t :: after ∧
      t.item? src = some (.classItem cls) := by
  obtain ⟨t, ht, hitem⟩ := List.mem_filterMap.mp h
  obtain ⟨before, after, hparts⟩ := List.append_of_mem (List.mem_of_mem_filter ht)
  exact ⟨before, t, after, hparts, hitem⟩

/-- The script toolchain gives the script of the text. -/
theorem scriptAmong?_scriptToolchain {fileName found : String} {emitted : List EmittedFile}
    (h : scriptToolchain fileName s = .ok emitted)
    (hfound : Compiler.scriptAmong? emitted = some found) : Script.ofText s = .ok found := by
  unfold scriptToolchain at h
  split at h
  · rename_i script hscript
    cases h
    obtain ⟨file, hfile, rfl⟩ := Option.map_eq_some_iff.mp hfound
    obtain rfl := List.mem_singleton.mp (List.mem_of_find?_eq_some hfile)
    exact hscript
  · cases h

/-- What a text comes to: the items of its tree, the kinds of its statements, and its script. -/
def digest (s : String) : Option (List Item × List Kind × Option String) :=
  (Tree.ofSource (.ofString s)).toOption.map fun root =>
    (root.items (.ofString s), root.children.map Tree.kind,
      (Script.ofTree (.ofString s) root).toOption)

theorem eq_ok_of_toOption {α ε : Type} {x : Except ε α} {a : α} (h : x.toOption = some a) :
    x = .ok a := by
  cases x with
  | error _ => cases h
  | ok b => exact congrArg Except.ok (Option.some.inj h)

/-- A unit with the digest of its text is the unit of the text, and its script is the one of the
    digest with the lines that run it. -/
theorem exists_of_digest {u : CompilationUnit} {kinds : List Kind} {found : String}
    (h : digest u.text = some (u.items, kinds, some found))
    (hcheck : Compiler.typedText {} u = .ok u.text)
    (hfile : Compiler.scriptAmong? [⟨⟨FilePath.withExtension (Compiler.hostName u)
      Emission.scriptExtension⟩, found⟩] = some found) :
    CompilationUnit.ofText u.path u.text = .ok u ∧
      Compiler.script {} u = .ok (Compiler.withRunner u found) ∧
      ∀ root, Tree.ofSource (.ofString u.text) = .ok root →
        root.children.map Tree.kind = kinds := by
  obtain ⟨root, hroot, hdigest⟩ := Option.map_eq_some_iff.mp h
  have hroot := eq_ok_of_toOption hroot
  obtain ⟨hitems, hdigest⟩ := Prod.mk.inj hdigest
  obtain ⟨hkinds, hscript⟩ := Prod.mk.inj hdigest
  have hscript := eq_ok_of_toOption hscript
  refine ⟨?_, ?_, fun root' hroot' => ?_⟩
  · rw [CompilationUnit.ofText, hroot]
    exact congrArg (fun items => Except.ok (CompilationUnit.mk u.path u.text items)) hitems
  · have htext : Script.ofText u.text = .ok found := by rw [Script.ofText, hroot]; exact hscript
    have htool : Compiler.toolchain {} (Compiler.hostName u) u.text = .ok
        [⟨⟨FilePath.withExtension (Compiler.hostName u) Emission.scriptExtension⟩, found⟩] := by
      change scriptToolchain _ _ = _
      rw [scriptToolchain, htext]
    rw [Compiler.script_of_typedText hcheck, htool]
    simp only [Except.mapError, Except.bind, hfile, Option.elim]
  · obtain rfl := Except.ok.inj (hroot.symm.trans hroot')
    exact hkinds

/-- **The script of a unit has the class that it runs**, unless the statement that declares it is
    ambient. Then the edit of the statement takes all of it out. -/
theorem Compiler.script_of_entryClass {c : Compiler} (htool : c.toolchain = scriptToolchain)
    (hu : CompilationUnit.ofText path s = .ok u) (hentry : u.entryClass? = some cls)
    (h : c.script u = .ok text) :
    ∃ root before t after e name body runner, Tree.ofSource (.ofString s) = .ok root ∧
      root.children = before ++ t :: after ∧ t.item? (.ofString s) = some (.classItem cls) ∧
      cls.name = some name ∧ emitAll (.ofString s) root.children = .ok e ∧
      body = Text.trimEnd (Script.header e ++ Emission.Edit.applyTo (.ofString s) e.edits) ++ "\n" ∧
      text = body ++ runner ∧ CallsMain name runner ∧
      (¬IsAmbient t → ∃ d, DeclaresClass t d ∧ KeepsClass s e d name body) ∧
      (IsAmbient t → ∃ inner x, emit (.ofString s) after t = .ok inner ∧ inner.edits = [x] ∧
        x ∈ e.edits ∧ x.text = "" ∧ x.start ≤ t.start ∧ t.stop ≤ x.stop) := by
  obtain ⟨root, hroot, rfl⟩ := CompilationUnit.exists_of_ofText hu
  obtain ⟨hmem, -, hnamed⟩ := CompilationUnit.entryClass?_spec hentry
  obtain ⟨name, hname⟩ := Option.isSome_iff_exists.mp hnamed
  -- the script is the text of the tree, edited
  obtain ⟨emitted, found, hemitted, hfound, rfl⟩ := exists_of_script h
  rw [htool] at hemitted
  have hscript := scriptAmong?_scriptToolchain hemitted hfound
  rw [Script.ofText, hroot] at hscript
  obtain ⟨e, he, rfl⟩ := Emission.exists_of_map_ok hscript
  -- the class is what a statement of the tree stands for
  obtain ⟨item, hitem, hclass⟩ := List.mem_filterMap.mp hmem
  obtain rfl : item = .classItem cls := by
    cases item <;> cases hclass
    rfl
  obtain ⟨before, t, after, hparts, hitem⟩ := exists_of_mem_items hitem
  refine ⟨root, before, t, after, e, name, _, _, hroot, hparts, hitem, hname, he, rfl,
    withRunner_of_entryClass hentry hname _, callsMain_mainRunner _, fun hkept => ?_,
    fun hambient => ?_⟩
  · obtain ⟨d, hdeclares, hd⟩ := (exists_of_classItem hitem).resolve_left hkept
    have hformed := Syntax.allFormed_ofSource hroot
    have hkeeps := keepsClass_applyTo hformed hparts hdeclares (hd ▸ hname) he
    exact ⟨d, hdeclares, (hkeeps.append_left _).trimEnd.append_right "\n"⟩
  · obtain ⟨inner, hinner, hedits⟩ := Emission.exists_of_emitAll (hparts ▸ he)
    obtain ⟨x, hx, htext, hstart, hstop⟩ := exists_of_ambient hambient hinner
    exact ⟨inner, x, hinner, hx, hedits x (by simp [hx]), htext, hstart, hstop⟩

/-- The class that is run in the unit of one class. -/
def startClass : ClassDecl :=
  ⟨some "Main", ⟨1, 1⟩, ⟨1, 7⟩, false, false, none, [],
    [.method ⟨"main", ⟨1, 12⟩, ⟨1, 26⟩, ⟨some .pub, true, false, false⟩, some "void", []⟩]⟩

open Pipeline (namedStart)

/-- The script of a class that is not ambient has it before the lines that run it. -/
theorem Compiler.script_of_entryClass_namedStart :
    CompilationUnit.ofText namedStart.path namedStart.text = .ok namedStart ∧
      namedStart.entryClass? = some startClass ∧
      ∃ e d body runner, Compiler.script {} namedStart = .ok (body ++ runner) ∧
        CallsMain "Main" runner ∧ KeepsClass namedStart.text e d "Main" body := by
  have hdigest : digest namedStart.text = some (namedStart.items, [.classDecl],
      some "\"use strict\";\nclass Main\x7bstatic main()\x7b\x7d\x7d") := by decide +kernel
  obtain ⟨hunit, htext, hkinds⟩ := exists_of_digest hdigest rfl rfl
  have hentry : namedStart.entryClass? = some startClass := by decide
  obtain ⟨root, before, t, after, e, name, body, runner, hroot, hparts, -, hname, -, -, hbody,
    hrunner, hkept, -⟩ := script_of_entryClass rfl hunit hentry htext
  obtain rfl : name = "Main" := (Option.some.inj hname).symm
  have hkind : t.kind = .classDecl := by
    have hmem : t.kind ∈ root.children.map Tree.kind := List.mem_map_of_mem (by simp [hparts])
    rw [hkinds root hroot] at hmem
    exact List.mem_singleton.mp hmem
  obtain ⟨d, -, hclass⟩ := hkept (by simp [IsAmbient, hkind])
  exact ⟨hunit, hentry, e, d, body, runner, hbody ▸ htext, hrunner, hclass⟩

def ambientStart : CompilationUnit where
  path := ⟨"Main.javats"⟩
  text := "declare class Main\x7bpublic static main():void\x7d"
  items :=
    [.classItem ⟨some "Main", ⟨1, 1⟩, ⟨1, 15⟩, false, false, none, [],
      [.method ⟨"main", ⟨1, 20⟩, ⟨1, 34⟩, ⟨some .pub, true, false, false⟩, some "void", []⟩]⟩]

/-- A class behind `declare` is the one that is run, but the script has no class: it runs one that
    it has not. -/
theorem Compiler.script_ambientStart :
    CompilationUnit.ofText ambientStart.path ambientStart.text = .ok ambientStart ∧
      (ambientStart.entryClass?.map ClassDecl.name) = some (some "Main") ∧
      ∃ text, Compiler.script {} ambientStart = .ok (text ++ mainRunner "Main") ∧
        text = "\"use strict\";\n" ∧
        ∀ e d, ¬KeepsClass ambientStart.text e d "Main" (text ++ mainRunner "Main") := by
  have hdigest : digest ambientStart.text = some (ambientStart.items, [.ambientDecl],
      some "\"use strict\";\n") := by decide +kernel
  obtain ⟨hunit, htext, -⟩ := exists_of_digest hdigest rfl rfl
  refine ⟨hunit, by decide, "\"use strict\";\n", htext.trans (congrArg Except.ok ?_), rfl, ?_⟩
  · exact withRunner_of_entryClass rfl rfl _
  · rintro e d ⟨word, ident, brace, -, -, -, before, between, rest, htext⟩
    have hinfix : "class".toList <:+: ("\"use strict\";\n" ++ mainRunner "Main").toList := by
      rw [htext]
      refine ⟨before.toList, ((Source.ofString ambientStart.text).text word.stop ident.start ++
        "Main" ++ between ++ "\x7b" ++ rest).toList, ?_⟩
      simp only [String.toList_append, List.append_assoc]
    revert hinfix
    decide +kernel

end ClassScript
