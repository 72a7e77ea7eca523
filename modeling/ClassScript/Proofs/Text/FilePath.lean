/-
  File:      ClassScript/Proofs/Text/FilePath.lean
  Subject:   Where paths lead.

  A path is read as steps. To follow it is to keep the steps that lead to the
  present place, and to take one back at each `..`. Two paths that are written
  in two ways may lead to one place.

  * `components_join_name`: the steps to a file right in a folder;
  * `exists_of_fileName?`: a path with a file name ends with a step to it;
  * `IsRelative.exists_eq`: the steps of a relative path that ends with a name;
  * `placeOf`, `FilePath.place`, `FilePath.reached`: places, and what a path
    reaches from a file;
  * `withExtension_eq`, `extension?_withExtension`: file names with another
    extension, which they have then, with one exception.
-/
import Mathlib.Data.List.TakeDrop
import ClassScript.Text.FilePath
import ClassScript.Proofs.Text.Split

namespace ClassScript

open Text (splitOn)

/-! ## 1. Tails -/

namespace Text

/-- What is left of a text without its tail. -/
theorem dropTail?_eq_some_iff {tail s stem : String} :
    dropTail? tail s = some stem ↔ s = stem ++ tail := by
  unfold dropTail?
  constructor
  · intro h
    split at h
    · rename_i hsuffix
      obtain ⟨front, hfront⟩ := List.isSuffixOf_iff_suffix.mp hsuffix
      rw [← Option.some.inj h]
      refine String.toList_inj.mp ?_
      rw [String.toList_append, String.toList_ofList, ← hfront, List.length_append,
        Nat.add_sub_cancel, List.take_left]
    · cases h
  · rintro rfl
    rw [String.toList_append, if_pos (List.isSuffixOf_iff_suffix.mpr (List.suffix_append _ _)),
      List.length_append, Nat.add_sub_cancel, List.take_left, String.ofList_toList]

end Text

/-! ## 2. Steps -/

namespace FilePath

variable {cs : List Char}

/-- A piece that is longer than `..` is a name. -/
theorem ofPiece?_eq_name {piece : List Char} (h : 2 < piece.length) :
    Component.ofPiece? piece = some (.name piece) := by
  unfold Component.ofPiece?
  split
  · simp at h
  · simp at h
  · simp at h
  · rfl

theorem ofPiece?_eq_some_name {piece name : List Char}
    (h : Component.ofPiece? piece = some (.name name)) : name = piece := by
  unfold Component.ofPiece? at h
  split at h <;> cases h
  rfl

/-- The steps of a path go on behind a separator. -/
theorem componentsOf_append {as bs : List Char} (h : as ≠ []) :
    componentsOf (as ++ '/' :: bs) =
      componentsOf as ++ (splitOn '/' bs).filterMap Component.ofPiece? := by
  have hnil : splitOn '/' as = [[]] → as = [] := by
    intro hsplit
    cases as with
    | nil => rfl
    | cons a as =>
      rw [splitOn] at hsplit
      split at hsplit
      · exact absurd (List.cons.inj hsplit).2 (Text.splitOn_ne_nil as)
      · split at hsplit <;> cases hsplit
  unfold componentsOf
  rw [Text.splitOn_append]
  cases hsplit : splitOn '/' as with
  | nil => exact absurd hsplit (Text.splitOn_ne_nil as)
  | cons first rest =>
    simp only [List.cons_append, List.filterMap_append]
    split
    · rename_i hfirst
      have hrest : rest ≠ [] := by
        rintro rfl
        rw [List.isEmpty_iff.mp hfirst] at hsplit
        exact h (hnil hsplit)
      rw [if_neg (by simp [hrest]), if_neg (by simp [hrest])]
      rfl
    · split
      · rfl
      · rw [List.append_assoc]

/-- A step to a name comes from a piece. -/
theorem mem_splitOn_of_mem_componentsOf {name : List Char}
    (h : Component.name name ∈ componentsOf cs) : name ∈ splitOn '/' cs := by
  unfold componentsOf at h
  cases hsplit : splitOn '/' cs with
  | nil => exact absurd hsplit (Text.splitOn_ne_nil cs)
  | cons first rest =>
    have hpiece : Component.name name ∈ (first :: rest).filterMap Component.ofPiece? := by
      have htail (step : Component) (hstep : step ≠ .name name)
          (hmem : Component.name name ∈ step :: rest.filterMap Component.ofPiece?) :
          Component.name name ∈ (first :: rest).filterMap Component.ofPiece? := by
        obtain ⟨piece, hp, hname⟩ :=
          List.mem_filterMap.mp ((List.mem_cons.mp hmem).resolve_left hstep.symm)
        exact List.mem_filterMap.mpr ⟨piece, List.mem_cons_of_mem first hp, hname⟩
      rw [hsplit] at h
      dsimp only at h
      split at h
      · split at h
        · exact absurd h List.not_mem_nil
        · exact htail .root nofun h
      · split at h
        · exact htail .here nofun h
        · rw [List.filterMap_cons]
          cases hfirst : Component.ofPiece? first with
          | none =>
            rw [hfirst] at h
            exact h
          | some step =>
            rw [hfirst] at h
            exact h
    obtain ⟨piece, hp, hname⟩ := List.mem_filterMap.mp hpiece
    rw [ofPiece?_eq_some_name hname]
    exact hp

/-- A text without separators that is longer than `..` is one step. -/
theorem componentsOf_name {name : List Char} (hname : '/' ∉ name) (hlong : 2 < name.length) :
    componentsOf name = [.name name] := by
  have hempty : name.isEmpty = false := by
    cases name with
    | nil => simp at hlong
    | cons _ _ => rfl
  have hdot : name ≠ ['.'] := by
    rintro rfl
    simp at hlong
  unfold componentsOf
  rw [Text.splitOn_of_notMem hname]
  simp [hempty, hdot, ofPiece?_eq_name hlong]

/-- A separator at the end of a path that is not empty is no step. -/
theorem componentsOf_append_separator {as : List Char} (h : as ≠ []) :
    componentsOf (as ++ ['/']) = componentsOf as := by
  rw [componentsOf_append h]
  exact List.append_nil _

variable {piece : List Char} {step : Component}

/-- A piece is one more step behind a path that is not empty, -/
theorem componentsOf_append_piece {as : List Char} (h : as ≠ []) (hpiece : '/' ∉ piece)
    (hstep : Component.ofPiece? piece = some step) :
    componentsOf (as ++ '/' :: piece) = componentsOf as ++ [step] := by
  rw [componentsOf_append h, Text.splitOn_of_notMem hpiece, List.filterMap_cons, hstep]
  rfl

/-- and behind a path that ends with a separator. -/
theorem componentsOf_separator_append_piece (as : List Char) (hpiece : '/' ∉ piece)
    (hstep : Component.ofPiece? piece = some step) :
    componentsOf (as ++ '/' :: piece) = componentsOf (as ++ ['/']) ++ [step] := by
  cases as with
  | nil =>
    have hnil : Component.ofPiece? [] = none := rfl
    unfold componentsOf
    rw [Text.splitOn_append, Text.splitOn_append, Text.splitOn_of_notMem hpiece]
    simp [splitOn, hstep, hnil]
  | cons a as =>
    rw [componentsOf_append_piece (List.cons_ne_nil a as) hpiece hstep,
      componentsOf_append_separator (List.cons_ne_nil a as)]

theorem isAbsolute_eq_false {name : String} (hname : '/' ∉ name.toList) :
    (⟨name⟩ : FilePath).isAbsolute = false := by
  unfold isAbsolute
  split
  · rename_i cs h
    have hcs : name.toList = '/' :: cs := h
    exact absurd (hcs ▸ List.mem_cons_self) hname
  · rfl

/-- **The steps to a file right in a folder** are those to the folder, and one more. -/
theorem components_join_name (folder : FilePath) {name : String} (hname : '/' ∉ name.toList)
    (hlong : 2 < name.toList.length) :
    (folder.join ⟨name⟩).components = folder.components ++ [.name name.toList] := by
  obtain ⟨text⟩ := folder
  unfold join components
  rw [isAbsolute_eq_false hname, if_neg Bool.false_ne_true]
  split
  · rename_i h
    show componentsOf (text ++ name).toList = componentsOf text.toList ++ _
    rw [String.toList_append]
    rcases Bool.or_eq_true_iff.mp h with h | h
    · obtain rfl : text = "" := String.isEmpty_iff.mp h
      exact componentsOf_name hname hlong
    · obtain ⟨cs, hcs⟩ := List.getLast?_eq_some_iff.mp (of_decide_eq_true h)
      rw [hcs, List.append_assoc, List.singleton_append]
      exact componentsOf_separator_append_piece cs hname (ofPiece?_eq_name hlong)
  · rename_i h
    show componentsOf (text ++ "/" ++ name).toList = componentsOf text.toList ++ _
    have htext : text.toList ≠ [] := by
      intro hnil
      rw [String.toList_eq_nil_iff.mp hnil] at h
      exact h rfl
    rw [String.toList_append, String.toList_append, List.append_assoc]
    exact componentsOf_append_piece htext hname (ofPiece?_eq_name hlong)

/-- A path with a file name ends with the step to it. -/
theorem exists_of_fileName? {p : FilePath} {name : String} (h : p.fileName? = some name) :
    ∃ folder, p.components = folder ++ [.name name.toList] := by
  unfold fileName? at h
  split at h
  · rename_i cs hlast
    obtain ⟨folder, hfolder⟩ := List.getLast?_eq_some_iff.mp hlast
    refine ⟨folder, ?_⟩
    rw [hfolder, ← Option.some.inj h, String.toList_ofList]
  · cases h

/-- The name of a file has no separator in it. -/
theorem notMem_baseName (p : FilePath) : '/' ∉ p.baseName.toList := by
  unfold baseName
  cases hname : p.fileName? with
  | none => exact List.not_mem_nil
  | some name =>
    obtain ⟨folder, hfolder⟩ := exists_of_fileName? hname
    have hmem : Component.name name.toList ∈ componentsOf p.text.toList := by
      show _ ∈ p.components
      rw [hfolder]
      exact List.mem_append_right _ List.mem_cons_self
    exact Text.notMem_of_mem_splitOn (mem_splitOn_of_mem_componentsOf hmem)

/-! ## 3. Places -/

/-- The place that a step leads to. A place is given by the steps that lead to it, the last one
    first; `..` takes a name back, and leads nowhere at the root. -/
def stepFrom : List Component → Component → List Component
  | place, .here => place
  | .name _ :: place, .up => place
  | .root :: place, .up => .root :: place
  | place, step => step :: place

/-- The place that steps lead to. -/
def placeOf (steps : List Component) : List Component := steps.foldl stepFrom []

/-- The place of a path. -/
def place (p : FilePath) : List Component := placeOf p.components

/-- The place that a path leads to from the folder of the file `p`. -/
def reached (p : FilePath) (path : String) : List Component :=
  placeOf (p.components.dropLast ++ componentsOf path.toList)

theorem placeOf_concat (steps : List Component) (step : Component) :
    placeOf (steps ++ [step]) = stepFrom (placeOf steps) step := by
  rw [placeOf, List.foldl_append]
  rfl

theorem placeOf_concat_here (steps : List Component) :
    placeOf (steps ++ [.here]) = placeOf steps := by
  rw [placeOf_concat]
  cases placeOf steps with
  | nil => rfl
  | cons last rest => cases last <;> rfl

theorem placeOf_concat_name (steps : List Component) (name : List Char) :
    placeOf (steps ++ [.name name]) = .name name :: placeOf steps := by
  rw [placeOf_concat]
  cases placeOf steps with
  | nil => rfl
  | cons last rest => cases last <;> rfl

/-! ## 4. Relative paths -/

/-- A path starts with `./` or `../`. -/
def IsRelative (path : String) : Prop :=
  ['.', '/'] <+: path.toList ∨ ['.', '.', '/'] <+: path.toList

instance (path : String) : Decidable (IsRelative path) := instDecidableOr

/-- A relative path has a folder and a name. -/
theorem IsRelative.exists_eq {path : String} (h : IsRelative path) :
    ∃ folder name, path.toList = folder ++ '/' :: name ∧ folder ≠ [] ∧ '/' ∉ name := by
  have hmem : '/' ∈ path.toList.reverse := by
    rcases h with ⟨rest, h⟩ | ⟨rest, h⟩ <;> simp [← h]
  obtain ⟨name, folder, hsplit, hname⟩ := List.eq_append_cons_of_mem hmem
  have hpath : path.toList = folder.reverse ++ '/' :: name.reverse := by
    rw [← List.reverse_reverse path.toList, hsplit]
    simp
  refine ⟨folder.reverse, name.reverse, hpath, fun hnil => ?_, fun hc => hname (by simpa using hc)⟩
  rw [hnil, List.nil_append] at hpath
  rcases h with ⟨rest, h⟩ | ⟨rest, h⟩ <;> rw [hpath] at h <;> cases h

/-! ## 5. Extensions -/

variable {base after : List Char}

/-- Read from its end, a name is cut at its last dot. -/
theorem span_reverse (base : List Char) (hafter : '.' ∉ after) :
    (base ++ '.' :: after).reverse.span (· ≠ '.') = (after.reverse, '.' :: base.reverse) := by
  have hall : ∀ c ∈ after.reverse, decide (c ≠ '.') = true := by
    intro c hc
    refine decide_eq_true fun he => hafter ?_
    rwa [he, List.mem_reverse] at hc
  rw [List.span_eq_takeWhile_dropWhile, List.reverse_append, List.reverse_cons, List.append_assoc,
    List.takeWhile_append_of_pos hall, List.dropWhile_append_of_pos hall]
  simp

/-- A name is cut at its last dot, if this is not its first character. -/
theorem cutName_append (hbase : base ≠ []) (hafter : '.' ∉ after)
    (hup : base ++ '.' :: after ≠ ['.', '.']) :
    cutName (base ++ '.' :: after) = (base, some after) := by
  unfold cutName
  rw [if_neg hup, span_reverse base hafter]
  simp [hbase]

/-- A dot at the start of a name does not cut it. -/
theorem cutName_dot (hafter : '.' ∉ after) : cutName ('.' :: after) = ('.' :: after, none) := by
  have hup : '.' :: after ≠ ['.', '.'] := by
    rintro h
    rw [(List.cons.inj h).2] at hafter
    exact hafter List.mem_cons_self
  unfold cutName
  rw [if_neg hup, ← List.nil_append ('.' :: after), span_reverse [] hafter]
  rfl

/-- A text without separators that is longer than `..` is a file name. -/
theorem fileName?_of_name {name : String} (hname : '/' ∉ name.toList)
    (hlong : 2 < name.toList.length) : (⟨name⟩ : FilePath).fileName? = some name := by
  unfold fileName? components
  rw [componentsOf_name hname hlong]
  show some (String.ofList name.toList) = _
  rw [String.ofList_toList]

variable {stem old ext : String}

/-- **A file name with another extension.** It loses what stands behind its last dot, if this is
    not its first character; but of `..` and an extension nothing but `..` is left. -/
theorem withExtension_eq (hold : '.' ∉ old.toList) (hne : old ≠ "") :
    withExtension (stem ++ "." ++ old) ext =
      if stem = "." then ".." else if stem = "" then "." ++ old ++ "." ++ ext
      else stem ++ "." ++ ext := by
  have hchars : (stem ++ "." ++ old).toList = stem.toList ++ '.' :: old.toList := by simp
  unfold withExtension
  rw [hchars]
  by_cases hempty : stem = ""
  · -- the dot is the first character, so the name stays as it is
    have hup : '.' :: old.toList ≠ ['.', '.'] := fun h =>
      hold ((List.cons.inj h).2 ▸ List.mem_cons_self)
    have hback : String.ofList ('.' :: old.toList) = "." ++ old := String.toList_inj.mp (by simp)
    rw [hempty, String.toList_empty, List.nil_append, cutName_dot hold]
    dsimp only
    rw [if_neg hup, cutName_dot hold, hback, if_neg (by decide), if_pos rfl]
  · have hbase : stem.toList ≠ [] := fun h => hempty (String.toList_eq_nil_iff.mp h)
    have hup : stem.toList ++ '.' :: old.toList ≠ ['.', '.'] := by
      intro h
      have hlength := congrArg List.length h
      have hstem := List.length_pos_iff.mpr hbase
      have hold : 0 < old.toList.length :=
        List.length_pos_iff.mpr fun h => hne (String.toList_eq_nil_iff.mp h)
      simp only [List.length_append, List.length_cons, List.length_nil] at hlength
      omega
    rw [cutName_append hbase hold hup]
    dsimp only
    by_cases hdot : stem = "."
    · subst hdot
      rfl
    · have hkept : stem.toList ++ ['.'] ≠ ['.', '.'] := fun h =>
        hdot (String.toList_inj.mp ((List.append_left_inj ['.']).mp h))
      rw [if_neg hkept, cutName_append hbase List.not_mem_nil hkept, if_neg hdot, if_neg hempty,
        String.ofList_toList]

theorem extension?_of_name (hbase : base ≠ []) (hbaseName : '/' ∉ base) (hext : '.' ∉ ext.toList)
    (hextName : '/' ∉ ext.toList) (hne : ext ≠ "") :
    (⟨String.ofList base ++ "." ++ ext⟩ : FilePath).extension? = some ext := by
  have hchars : (String.ofList base ++ "." ++ ext).toList = base ++ '.' :: ext.toList := by simp
  have hstart := List.length_pos_iff.mpr hbase
  have hend : 0 < ext.toList.length :=
    List.length_pos_iff.mpr fun h => hne (String.toList_eq_nil_iff.mp h)
  have hlong : 2 < (String.ofList base ++ "." ++ ext).toList.length := by
    rw [hchars, List.length_append, List.length_cons]
    omega
  have hname : '/' ∉ (String.ofList base ++ "." ++ ext).toList := by
    rw [hchars]
    simp [hbaseName, hextName]
  have hup : base ++ '.' :: ext.toList ≠ ['.', '.'] := by
    intro h
    rw [hchars, h] at hlong
    exact absurd hlong (by decide)
  rw [extension?, fileName?_of_name hname hlong, Option.bind_some, extensionOfName?, hchars,
    cutName_append hbase hext hup, Option.map_some, String.ofList_toList]

/-- **A file name has the extension that it is given**, unless it is `.` and an extension. Then it
    is no file name any more. -/
theorem extension?_withExtension (hstem : '/' ∉ stem.toList) (hold : '.' ∉ old.toList)
    (holdName : '/' ∉ old.toList) (hne : old ≠ "") (hext : '.' ∉ ext.toList)
    (hextName : '/' ∉ ext.toList) (hextNe : ext ≠ "") :
    (⟨withExtension (stem ++ "." ++ old) ext⟩ : FilePath).extension? =
      if stem = "." then none else some ext := by
  rw [withExtension_eq hold hne]
  by_cases hdot : stem = "."
  · rw [if_pos hdot, if_pos hdot]
    rfl
  · rw [if_neg hdot, if_neg hdot]
    by_cases hempty : stem = ""
    · have hback : String.ofList ('.' :: old.toList) = "." ++ old := String.toList_inj.mp (by simp)
      rw [if_pos hempty, ← hback]
      exact extension?_of_name (List.cons_ne_nil _ _) (by simp [holdName]) hext hextName hextNe
    · have hbase : stem.toList ≠ [] := fun h => hempty (String.toList_eq_nil_iff.mp h)
      rw [if_neg hempty]
      have hfound := extension?_of_name hbase hstem hext hextName hextNe
      rwa [String.ofList_toList] at hfound

end FilePath
end ClassScript
