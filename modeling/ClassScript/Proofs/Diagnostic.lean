/-
  File:      ClassScript/Proofs/Diagnostic.lean
  Subject:   Where a diagnostic is shown in the text of its file.

  A diagnostic has a place, and a view of the source marks the byte at the
  offset of this place. A place need not be one of the text: a diagnostic may
  be older than the text, or come from another tool. The mark stays in the text
  all the same.

  * `CompilationUnit.length_bytes`: the bytes of a text are as many as it says;
  * `CompilationUnit.place_laws`: places and offsets of a file, and the mark of
    a diagnostic.
-/
import ClassScript.Diagnostic
import ClassScript.Proofs.Text.Position

namespace ClassScript

/-! ## 1. The bytes of a text -/

theorem length_toList_loop (bytes : ByteArray) (i : Nat) (read : List UInt8) :
    (ByteArray.toList.loop bytes i read).length = read.length + (bytes.size - i) := by
  fun_induction ByteArray.toList.loop bytes i read with
  | case1 i read hi ih =>
    rw [ih, List.length_cons]
    omega
  | case2 i read hi =>
    rw [List.length_reverse]
    omega

theorem length_toList (bytes : ByteArray) : bytes.toList.length = bytes.size :=
  (length_toList_loop bytes 0 []).trans (Nat.zero_add _)

namespace CompilationUnit

variable {u : CompilationUnit}

theorem length_bytes (u : CompilationUnit) : u.bytes.length = u.text.utf8ByteSize :=
  length_toList u.text.toUTF8

/-! ## 2. Places of a file -/

/-- **Places and offsets of a file.** The place of an offset is told by the line feeds before it
    and by the bytes behind the last of them, and leads back to it. Any place at all leads into
    the text; a later one leads no less far, and one on a line that is not there leads to the end.
    So the mark of any diagnostic, which starts at its place, lies in the text. -/
theorem place_laws (u : CompilationUnit) :
    (∀ o ≤ u.text.utf8ByteSize,
      u.offsetOf ⟨1 + (u.bytes.take o).count 10, 1 + (lastLine (u.bytes.take o)).length⟩ = o) ∧
    (∀ p, u.offsetOf p ≤ u.text.utf8ByteSize) ∧
    (∀ p q, p.Before q → u.offsetOf p ≤ u.offsetOf q) ∧
    (∀ p, 1 + u.bytes.count 10 < p.line → u.offsetOf p = u.text.utf8ByteSize) ∧
    ∀ d, (SourceLabel.of d u).offset = u.offsetOf d.location.position ∧
      (SourceLabel.of d u).offset + (SourceLabel.of d u).length ≤ u.text.utf8ByteSize := by
  rw [← length_bytes]
  refine ⟨fun o ho => ?_, fun p => offsetOf_le u.bytes p, fun p q h => offsetOf_mono u.bytes h,
    fun p h => offsetOf_of_beyond h, fun d => ⟨rfl, ?_⟩⟩
  · rw [← Position.ofOffset_eq]
    exact offsetOf_ofOffset ho
  · have hle : u.offsetOf d.location.position ≤ u.bytes.length := offsetOf_le u.bytes _
    unfold SourceLabel.of
    dsimp only
    split <;> omega

/-- Four lines of text, the second and the last one empty. -/
def fourLines : CompilationUnit := ⟨⟨"Main.javats"⟩, "a\n\nbé\n", []⟩

/-- The é on the third line is where two line feeds and one more byte say; a column past the end
    of that line is before the fourth; and there is no ninth line. -/
theorem place_laws_fourLines :
    4 ≤ fourLines.text.utf8ByteSize ∧ fourLines.offsetOf ⟨3, 2⟩ = 4 ∧
      (⟨3, 9⟩ : Position).Before ⟨4, 0⟩ ∧ fourLines.offsetOf ⟨3, 9⟩ ≤ fourLines.offsetOf ⟨4, 0⟩ ∧
      1 + fourLines.bytes.count 10 < 9 ∧ fourLines.offsetOf ⟨9, 1⟩ = 7 := by
  obtain ⟨hback, _, hmono, hbeyond, _⟩ := place_laws fourLines
  have hsize : 4 ≤ fourLines.text.utf8ByteSize := by decide
  have hbefore : (⟨3, 9⟩ : Position).Before ⟨4, 0⟩ := by decide
  have hcount : 1 + fourLines.bytes.count 10 < 9 := by decide +kernel
  have hplace : (⟨1 + (fourLines.bytes.take 4).count 10,
      1 + (lastLine (fourLines.bytes.take 4)).length⟩ : Position) = ⟨3, 2⟩ := by decide +kernel
  exact ⟨hsize, hplace ▸ hback 4 hsize, hbefore, hmono _ _ hbefore, hcount, hbeyond _ hcount⟩

end CompilationUnit
end ClassScript
