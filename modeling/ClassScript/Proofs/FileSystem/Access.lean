/-
  File:      ClassScript/Proofs/FileSystem/Access.lean
  Subject:   What a program does to a file system, step by step.

  The files are as they are, and every operation on them is noted down. A
  program only looks if its notes show that no file is read and that nothing
  changes; what it answers then is what it answers without notes. To look is
  closed under doing one thing after another, so a program only looks if its
  parts do.

  * `Access`, `FileSystem.noted`: operations, and a file system with notes;
  * `Looks`: what only looks;
  * `Looks.run_bind`, `Looks.bind`: one thing after another.
-/
import ClassScript.FileSystem

namespace ClassScript

/-- An operation on a file system. -/
inductive Access where
  /-- What is at a path, or in a folder. -/
  | look (path : FilePath)
  | read (path : FilePath)
  /-- A file is written, or a folder is made. -/
  | change (path : FilePath)
  deriving DecidableEq, Repr

/-- An answer, with a note. -/
def noting {α : Type} (access : Access) (answer : α) : StateM (List Access) α :=
  fun notes => (answer, notes ++ [access])

/-- The file system with a note of each operation. -/
def FileSystem.noted (files : FileSystem Id) : FileSystem (StateM (List Access)) where
  isFile path := noting (.look path) (files.isFile path).run
  isFolder path := noting (.look path) (files.isFolder path).run
  names path := noting (.look path) (files.names path).run
  read path := noting (.read path) (files.read path).run
  makeFolder path := noting (.change path) (files.makeFolder path).run
  write path text := noting (.change path) (files.write path text).run

/-- A file is read, and the program goes on. -/
theorem FileSystem.run_noted_read_bind {α : Type} (files : FileSystem Id) (path : FilePath)
    (f : Except IoError String → StateM (List Access) α) (notes : List Access) :
    (files.noted.read path >>= f).run notes =
      (f (files.read path).run).run (notes ++ [.read path]) := rfl

/-- A program only looks, and then answers. -/
def Looks {α : Type} (x : StateM (List Access) α) (answer : α) : Prop :=
  ∀ notes, ∃ looked : List FilePath, x.run notes = (answer, notes ++ looked.map .look)

namespace Looks

variable {α β : Type} {x : StateM (List Access) α} {f : α → StateM (List Access) β} {a : α} {b : β}

protected theorem pure (a : α) : Looks (pure a) a :=
  fun notes => ⟨[], Prod.ext rfl (List.append_nil notes).symm⟩

/-- What has looked goes on with its answer. -/
theorem run_bind (hx : Looks x a) (notes : List Access) :
    ∃ looked : List FilePath, (x >>= f).run notes = (f a).run (notes ++ looked.map .look) := by
  obtain ⟨looked, hlooked⟩ := hx notes
  refine ⟨looked, ?_⟩
  show (f (x.run notes).1).run (x.run notes).2 = _
  rw [hlooked]

/-- To look and to look again is to look. -/
protected theorem bind (hx : Looks x a) (hf : Looks (f a) b) : Looks (x >>= f) b := by
  intro notes
  obtain ⟨first, hfirst⟩ := hx.run_bind notes
  obtain ⟨second, hsecond⟩ := hf (notes ++ first.map .look)
  exact ⟨first ++ second, by rw [hfirst, hsecond, List.map_append, List.append_assoc]⟩

theorem isFile (files : FileSystem Id) (path : FilePath) :
    Looks (files.noted.isFile path) (files.isFile path).run :=
  fun _ => ⟨[path], rfl⟩

end Looks
end ClassScript
