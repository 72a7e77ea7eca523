/-
  File:      ClassScript/Proofs/FileSystem/Disk.lean
  Subject:   The files of a disk.

  A file is known by the names that lead to it from the root. Where a path
  leads is read off the path alone, step by step: since there are no links, an
  operation that finds anything finds it there. So a write changes the file
  its path leads to and no other one, and a new folder changes no file.

  * `Node.bytesAt_put_append`, `Node.bytesAt_put_of_not_prefix`: a tree after
    something is put into it;
  * `Disk.target`, `Disk.walk_eq_ok`: the names that a path leads to, and that
    it leads nowhere else;
  * `Disk.target_join`, `Disk.isFile_of_fileAt`: where a path into a folder
    leads, and when looking at it finds the file that is there;
  * `Disk.write_eq_ok`, `Disk.makeFolders_sameFiles`: what writing a file and
    making folders change;
  * `Disk.Wrote`, `Disk.Wrote.spares_iff`: several writes, and which files they
    spare;
  * `Disk.seen`: the file system of a disk that is only looked at.
-/
import Mathlib.Data.List.Basic
import ClassScript.FileSystem.Memory
import ClassScript.Proofs.FileSystem.Contents
import ClassScript.Proofs.Text.FilePath

namespace ClassScript

/-- What is bound gives a result only if both parts do. -/
theorem exists_of_bind_eq_ok {ε α β : Type} {x : Except ε α} {f : α → Except ε β} {b : β}
    (h : x >>= f = .ok b) : ∃ a, x = .ok a ∧ f a = .ok b := by
  cases x with
  | ok a => exact ⟨a, rfl, h⟩
  | error e => cases h

/-! ## 1. Trees -/

namespace Node

/-- The bytes of a file. -/
def bytes? : Node → Option ByteArray
  | .file bytes => some bytes
  | .folder _ => none

/-- The bytes of the file that `names` lead to. -/
def bytesAt (names : List String) (node : Node) : Option ByteArray :=
  (node.follow? names).bind bytes?

variable {x root : Node} {name step : String} {names : List String}
  {entries : List (String × Node)}

theorem follow?_append (names rest : List String) (node : Node) :
    node.follow? (names ++ rest) = (node.follow? names).bind (follow? rest) := by
  induction names generalizing node with
  | nil => rfl
  | cons name names ih =>
    show (node.child? name).bind (follow? (names ++ rest)) = _
    rw [follow?, Option.bind_assoc]
    exact Option.bind_congr fun child _ => ih child

theorem child?_putEntry (name other : String) (x : Node) (entries : List (String × Node)) :
    (folder (putEntry name x entries)).child? other =
      if other = name then some x else (folder entries).child? other := by
  induction entries with
  | nil =>
    by_cases h : other = name
    · subst h
      simp [putEntry, child?]
    · simp [putEntry, child?, h, Ne.symm h]
  | cons e es ih =>
    simp only [child?] at ih ⊢
    by_cases he : e.1 = name
    · by_cases h : other = name
      · subst h
        simp [putEntry, he]
      · simp [putEntry, he, h, Ne.symm h]
    · by_cases ho : e.1 = other
      · subst ho
        simp [putEntry, he]
      · simp [putEntry, he, ho, ih]

/-- Names that lead on from a node start at a folder. -/
theorem exists_child_of_follow? {node : Node} (h : root.follow? (name :: names) = some node) :
    ∃ entries child, root = folder entries ∧ root.child? name = some child ∧
      child.follow? names = some node := by
  obtain ⟨child, hchild, hrest⟩ := Option.bind_eq_some_iff.mp h
  cases root with
  | folder entries => exact ⟨entries, child, rfl, hchild, hrest⟩
  | file bytes => cases hchild

theorem put_cons {child : Node} (h : (folder entries).child? name = some child) :
    put x (name :: names) (folder entries) =
      folder (putEntry name (put x names child) entries) := by
  rw [put, h, Option.getD_some]

/-- The files below a name in a folder. -/
theorem bytesAt_append_cons (h : root.follow? names = some (folder entries))
    (rest : List String) :
    root.bytesAt (names ++ step :: rest) = ((folder entries).child? step).bind (bytesAt rest) := by
  unfold bytesAt
  rw [follow?_append, h, Option.bind_some, follow?, Option.bind_assoc]

/-- What is put into a folder is found there. -/
theorem bytesAt_put_append (h : root.follow? names = some (folder entries)) (rest : List String) :
    (put x (names ++ [step]) root).bytesAt (names ++ [step] ++ rest) = x.bytesAt rest := by
  unfold bytesAt
  congr 1
  induction names generalizing root with
  | nil =>
    obtain rfl : root = folder entries := Option.some.inj h
    show ((put x [step] (folder entries)).child? step).bind (follow? rest) = _
    rw [put, put, child?_putEntry, if_pos rfl, Option.bind_some]
  | cons name names ih =>
    obtain ⟨es, child, rfl, hchild, hrest⟩ := exists_child_of_follow? h
    show ((put x (name :: (names ++ [step])) (folder es)).child? name).bind _ = _
    rw [put_cons hchild, child?_putEntry, if_pos rfl, Option.bind_some]
    exact ih hrest

/-- **A file that is not below the place where something is put stays as it is.** -/
theorem bytesAt_put_of_not_prefix (h : root.follow? names = some (folder entries))
    {found : List String} (hfound : ¬ names ++ [step] <+: found) :
    (put x (names ++ [step]) root).bytesAt found = root.bytesAt found := by
  induction names generalizing root found with
  | nil =>
    obtain rfl : root = folder entries := Option.some.inj h
    cases found with
    | nil => rfl
    | cons other found =>
      have hother : other ≠ step := by
        rintro rfl
        exact hfound ⟨found, rfl⟩
      show (((put x [step] (folder entries)).child? other).bind (follow? found)).bind bytes? = _
      rw [put, child?_putEntry, if_neg hother]
      rfl
  | cons name names ih =>
    obtain ⟨es, child, rfl, hchild, hrest⟩ := exists_child_of_follow? h
    rw [List.cons_append, put_cons hchild]
    cases found with
    | nil => rfl
    | cons other found =>
      unfold bytesAt follow?
      rw [child?_putEntry]
      by_cases hother : other = name
      · subst hother
        rw [if_pos rfl, hchild]
        exact ih hrest fun hbelow => hfound (List.cons_prefix_cons.mpr ⟨rfl, hbelow⟩)
      · rw [if_neg hother]

end Node

/-! ## 2. Where paths lead -/

namespace Disk

open FileSystem (Along)

/-- The bytes of the file at `names`. -/
def fileAt (d : Disk) (names : List String) : Option ByteArray := d.root.bytesAt names

/-- Where one step leads from the folder at `names`. -/
def advance (names : List String) (step : String) : List String :=
  if step = "" ∨ step = "." then names
  else if step = ".." then names.dropLast
  else names ++ [step]

/-- The names that a path leads to. -/
def target (d : Disk) (path : FilePath) : List String :=
  (stepsOf path).foldl advance (d.origin path)

variable {d : Disk} {path : FilePath} {names steps found : List String} {step : String}

theorem advance_of_not_idle (h : isIdle step = false) (names : List String) :
    advance names step = names ++ [step] := by
  simp only [isIdle, Bool.or_eq_false_iff, decide_eq_false_iff_not] at h
  rw [advance, if_neg (not_or.mpr h.1), if_neg h.2]

theorem nodeAt_eq_ok_iff {node : Node} :
    d.nodeAt names = .ok node ↔ d.root.follow? names = some node := by
  unfold nodeAt
  cases d.root.follow? names <;> simp

theorem node_of_locate (h : d.locate path = .ok names) : d.node path = d.nodeAt names := by
  unfold node
  rw [h]
  rfl

/-- A walk goes step by step, and starts at a folder. -/
theorem walk_cons_eq_ok (h : d.walk names (step :: steps) = .ok found) :
    d.walk (advance names step) steps = .ok found := by
  rw [walk] at h
  obtain ⟨here, _, h⟩ := exists_of_bind_eq_ok h
  unfold advance
  split_ifs at h ⊢ <;> exact h

/-- **A walk that comes to an end ends where its steps lead.** -/
theorem walk_eq_ok (h : d.walk names steps = .ok found) : found = steps.foldl advance names := by
  induction steps generalizing names with
  | nil =>
    rw [walk] at h
    exact (Except.ok.inj h).symm
  | cons step steps ih => exact ih (walk_cons_eq_ok h)

/-- Steps that do not lead up lead on from where they start. -/
theorem exists_foldl_advance (h : ".." ∉ steps) (names : List String) :
    ∃ more, steps.foldl advance names = names ++ more := by
  induction steps generalizing names with
  | nil => exact ⟨[], (List.append_nil names).symm⟩
  | cons step steps ih =>
    have hstep : step ≠ ".." := fun hstep => h (hstep ▸ List.mem_cons_self)
    obtain ⟨more, hmore⟩ := ih (fun hsteps => h (List.mem_cons_of_mem step hsteps))
      (advance names step)
    rw [List.foldl_cons, hmore, advance]
    split_ifs
    · exact ⟨more, rfl⟩
    · exact ⟨step :: more, List.append_assoc _ _ _⟩

/-- Below a file nothing is found: what leads to a file leads through folders. -/
theorem exists_folder_of_fileAt {name : String} {more : List String} {bytes : ByteArray}
    (h : d.fileAt (names ++ name :: more) = some bytes) :
    ∃ entries, d.root.follow? names = some (.folder entries) ∧
      ((Node.folder entries).child? name).isSome = true := by
  obtain ⟨node, hnode, _⟩ := Option.bind_eq_some_iff.mp h
  rw [Node.follow?_append] at hnode
  obtain ⟨here, hhere, hnode⟩ := Option.bind_eq_some_iff.mp hnode
  obtain ⟨entries, child, rfl, hchild, _⟩ := Node.exists_child_of_follow? hnode
  exact ⟨entries, hhere, Option.isSome_of_eq_some hchild⟩

/-- A step that does not lead up is taken in a folder, if it is idle or names what is there. -/
theorem walk_cons_of_folder {entries : List (String × Node)}
    (h : d.root.follow? names = some (.folder entries)) (hup : step ≠ "..")
    (hstep : isIdle step = false → ((Node.folder entries).child? step).isSome = true) :
    d.walk names (step :: steps) = d.walk (advance names step) steps := by
  rw [walk, nodeAt_eq_ok_iff.mpr h, advance]
  show (if step = "" ∨ step = "." then _ else _) = _
  by_cases hidle : step = "" ∨ step = "."
  · rw [if_pos hidle, if_pos hidle]
  · have hname : isIdle step = false := by
      simp only [isIdle, Bool.or_eq_false_iff, decide_eq_false_iff_not]
      exact ⟨not_or.mp hidle, hup⟩
    rw [if_neg hidle, if_neg hup, if_pos (hstep hname), if_neg hidle, if_neg hup]

/-- **Steps that do not lead up find the file where they lead**, if the last one is a name. -/
theorem walk_of_fileAt {bytes : ByteArray} (hup : ".." ∉ steps) (hstep : isIdle step = false)
    (h : d.fileAt ((steps ++ [step]).foldl advance names) = some bytes) :
    d.walk names (steps ++ [step]) = .ok ((steps ++ [step]).foldl advance names) := by
  have hstepUp : step ≠ ".." := by
    rintro rfl
    exact absurd hstep (by decide)
  induction steps generalizing names with
  | nil =>
    have htarget : ([] ++ [step]).foldl advance names = names ++ [step] :=
      advance_of_not_idle hstep names
    rw [htarget] at h
    obtain ⟨entries, hentries, hchild⟩ := exists_folder_of_fileAt h
    rw [List.nil_append, walk_cons_of_folder hentries hstepUp fun _ => hchild, walk]
    rfl
  | cons first steps ih =>
    have hfirst : first ≠ ".." := fun hfirst => hup (hfirst ▸ List.mem_cons_self)
    have hrest : ".." ∉ steps := fun hmem => hup (List.mem_cons_of_mem first hmem)
    rw [List.cons_append, List.foldl_cons] at h ⊢
    obtain ⟨more, hmore⟩ := exists_foldl_advance hrest (advance names first)
    have htarget : (steps ++ [step]).foldl advance (advance names first) =
        advance names first ++ (more ++ [step]) := by
      rw [List.foldl_append, hmore, ← List.append_assoc]
      exact advance_of_not_idle hstep _
    -- whichever way the first step goes, the file is below the folder it is taken in
    have hfolder : ∃ entries, d.root.follow? names = some (.folder entries) ∧
        (isIdle first = false → ((Node.folder entries).child? first).isSome = true) := by
      rw [htarget] at h
      cases hidle : isIdle first with
      | false =>
        rw [advance_of_not_idle hidle, List.append_assoc, List.singleton_append] at h
        obtain ⟨entries, hentries, hchild⟩ := exists_folder_of_fileAt h
        exact ⟨entries, hentries, fun _ => hchild⟩
      | true =>
        have hstay : advance names first = names := by
          simp only [isIdle, Bool.or_eq_true, decide_eq_true_eq] at hidle
          exact if_pos (hidle.resolve_right hfirst)
        obtain ⟨name, later, hlater⟩ : ∃ name later, more ++ [step] = name :: later :=
          List.exists_cons_of_ne_nil (List.append_ne_nil_of_right_ne_nil more (by simp))
        rw [hstay, hlater] at h
        obtain ⟨entries, hentries, _⟩ := exists_folder_of_fileAt h
        exact ⟨entries, hentries, fun hname => absurd hname (by decide)⟩
    obtain ⟨entries, hentries, hchild⟩ := hfolder
    rw [walk_cons_of_folder hentries hfirst hchild]
    exact ih hrest h

/-- The steps of a path to something right in a folder: those of the folder, which may end in
    an empty one, and one more. -/
theorem exists_stepsOf_join (folder : FilePath) {name : String} (hname : '/' ∉ name.toList) :
    ∃ first, stepsOf (folder.join ⟨name⟩) = first ++ [name] ∧
      (stepsOf folder = first ∨ stepsOf folder = first ++ [""]) := by
  have hlast : (Text.splitOn '/' name.toList).map String.ofList = [name] := by
    rw [Text.splitOn_of_notMem hname, List.map_singleton, String.ofList_toList]
  obtain ⟨text⟩ := folder
  unfold FilePath.join stepsOf
  rw [FilePath.isAbsolute_eq_false hname, if_neg Bool.false_ne_true]
  split
  · rename_i h
    rw [String.toList_append]
    rcases Bool.or_eq_true_iff.mp h with h | h
    · obtain rfl : text = "" := String.isEmpty_iff.mp h
      exact ⟨[], hlast, .inr rfl⟩
    · obtain ⟨cs, hcs⟩ := List.getLast?_eq_some_iff.mp (of_decide_eq_true h)
      refine ⟨(Text.splitOn '/' cs).map String.ofList, ?_, .inr ?_⟩
      · rw [hcs, List.append_assoc, List.singleton_append, Text.splitOn_append, List.map_append,
          hlast]
      · show (Text.splitOn '/' text.toList).map String.ofList = _
        rw [hcs, Text.splitOn_append, List.map_append]
        rfl
  · refine ⟨(Text.splitOn '/' text.toList).map String.ofList, ?_, .inl rfl⟩
    have hslash : "/".toList = ['/'] := by decide
    rw [String.toList_append, String.toList_append, hslash, List.append_assoc,
      List.singleton_append, Text.splitOn_append, List.map_append, hlast]

/-- The first character says whether a path starts at the root. -/
theorem isAbsolute_of_cons {c : Char} {cs : List Char} (h : path.text.toList = c :: cs) :
    path.isAbsolute = decide (c = '/') := by
  unfold FilePath.isAbsolute
  rw [h]
  split
  · rename_i hc
    obtain ⟨rfl, _⟩ := List.cons.inj hc
    rfl
  · rename_i hc
    refine (decide_eq_false ?_).symm
    rintro rfl
    exact hc cs rfl

/-- A path into a folder starts where the folder's path starts. -/
theorem origin_join (d : Disk) (folder : FilePath) {name : String} (hname : '/' ∉ name.toList) :
    d.origin (folder.join ⟨name⟩) = d.origin folder := by
  have habs : (folder.join ⟨name⟩).isAbsolute = folder.isAbsolute := by
    have hplain := FilePath.isAbsolute_eq_false hname
    obtain ⟨text⟩ := folder
    unfold FilePath.join
    rw [hplain, if_neg Bool.false_ne_true]
    cases htext : text.toList with
    | nil =>
      obtain rfl : text = "" := String.toList_eq_nil_iff.mp htext
      show FilePath.isAbsolute (if (true || _) = true then ⟨"" ++ name⟩ else _) = false
      rw [Bool.true_or, if_pos rfl, String.empty_append, hplain]
    | cons c cs =>
      rw [isAbsolute_of_cons htext]
      split
      · have hjoin : (text ++ name).toList = c :: (cs ++ name.toList) := by
          rw [String.toList_append, htext, List.cons_append]
        exact isAbsolute_of_cons hjoin
      · have hjoin : (text ++ "/" ++ name).toList = c :: (cs ++ ("/" ++ name).toList) := by
          rw [String.append_assoc, String.toList_append, htext, List.cons_append]
        exact isAbsolute_of_cons hjoin
  rw [origin, habs, origin]

/-- **Where a path into a folder leads**: to the folder, and from there to the name. -/
theorem target_join (d : Disk) (folder : FilePath) {name : String} (hname : '/' ∉ name.toList)
    (hplain : isIdle name = false) : d.target (folder.join ⟨name⟩) = d.target folder ++ [name] := by
  obtain ⟨first, hjoin, hfolder⟩ := exists_stepsOf_join folder hname
  have hfirst : d.target folder = first.foldl advance (d.origin folder) := by
    unfold target
    rcases hfolder with hfolder | hfolder
    · rw [hfolder]
    · rw [hfolder, List.foldl_append]
      rfl
  rw [target, hjoin, origin_join d folder hname, List.foldl_append, ← hfirst]
  exact advance_of_not_idle hplain _

/-- **A file in a folder is found by its path** if no step to the folder leads up. -/
theorem isFile_of_fileAt {folder : FilePath} {name : String} {bytes : ByteArray}
    (hname : '/' ∉ name.toList) (hplain : isIdle name = false) (hup : ".." ∉ stepsOf folder)
    (h : d.fileAt (d.target (folder.join ⟨name⟩)) = some bytes) :
    d.isFile (folder.join ⟨name⟩) = true := by
  obtain ⟨first, hjoin, hfolder⟩ := exists_stepsOf_join folder hname
  have hfirst : ".." ∉ first := by
    rcases hfolder with hfolder | hfolder
    · rwa [hfolder] at hup
    · rw [hfolder] at hup
      exact fun hmem => hup (List.mem_append_left _ hmem)
  -- an empty path has an idle step only
  have htext : ¬ (folder.join ⟨name⟩).text.isEmpty = true := by
    intro hempty
    have hsteps : stepsOf (folder.join ⟨name⟩) = [] ++ [""] := by
      unfold stepsOf
      rw [String.isEmpty_iff.mp hempty]
      rfl
    obtain ⟨_, hlast⟩ := List.append_inj' (hjoin.symm.trans hsteps) rfl
    rw [List.singleton_inj.mp hlast] at hplain
    exact absurd hplain (by decide)
  have hlocate : d.locate (folder.join ⟨name⟩) = .ok (d.target (folder.join ⟨name⟩)) := by
    unfold locate
    rw [if_neg htext, hjoin, target, hjoin]
    rw [target, hjoin] at h
    exact walk_of_fileAt hfirst hplain h
  obtain ⟨found, hfound, hbytes⟩ := Option.bind_eq_some_iff.mp h
  have hnode : d.node (folder.join ⟨name⟩) = .ok found :=
    (node_of_locate hlocate).trans (nodeAt_eq_ok_iff.mpr hfound)
  unfold isFile
  rw [hnode]
  cases found with
  | file _ => rfl
  | folder _ => cases hbytes

/-! ## 3. Changes -/

/-- A path that has a holder leads to a name in it, unless its last step is idle. -/
theorem holder_eq_ok (h : d.holder path = .ok (names, step)) (hstep : isIdle step = false) :
    d.target path = names ++ [step] := by
  unfold holder at h
  split at h
  · cases h
  obtain ⟨found, hwalk, h⟩ := exists_of_bind_eq_ok h
  obtain ⟨rfl, hlast⟩ := Prod.mk.inj (Except.ok.inj h)
  have hsteps : stepsOf path = (stepsOf path).dropLast ++ [step] := by
    cases hget : (stepsOf path).getLast? with
    | none =>
      rw [hget] at hlast
      exact absurd (hlast ▸ hstep) (by decide)
    | some last =>
      rw [hget] at hlast
      obtain rfl : last = step := hlast
      exact (List.dropLast_append_getLast? _ hget).symm
  rw [target, hsteps, List.foldl_append, ← walk_eq_ok hwalk]
  exact advance_of_not_idle hstep _

/-- The files of a disk are those of another one, and paths lead to the same places. -/
structure SameFiles (d d' : Disk) : Prop where
  current : d'.current = d.current
  fileAt : ∀ names, d'.fileAt names = d.fileAt names

theorem SameFiles.refl (d : Disk) : d.SameFiles d := ⟨rfl, fun _ => rfl⟩

theorem SameFiles.trans {d d' d'' : Disk} (h : d.SameFiles d') (h' : d'.SameFiles d'') :
    d.SameFiles d'' :=
  ⟨h'.current.trans h.current, fun names => (h'.fileAt names).trans (h.fileAt names)⟩

theorem target_eq {d' : Disk} (h : d'.current = d.current) (path : FilePath) :
    d'.target path = d.target path := by
  unfold target origin
  rw [h]

/-- **A file that is put where no folder is** changes that place alone. -/
theorem fileAt_put_file {entries : List (String × Node)} {bytes : ByteArray}
    (h : d.root.follow? names = some (.folder entries))
    (hfree : ∀ es, (Node.folder entries).child? step ≠ some (.folder es)) (found : List String) :
    (d.put (names ++ [step]) (.file bytes)).fileAt found =
      if found = names ++ [step] then some bytes else d.fileAt found := by
  unfold fileAt put
  by_cases hbelow : names ++ [step] <+: found
  · obtain ⟨rest, rfl⟩ := hbelow
    rw [Node.bytesAt_put_append h]
    cases rest with
    | nil =>
      rw [if_pos (List.append_nil _)]
      rfl
    | cons name rest =>
      rw [if_neg fun hrest => List.cons_ne_nil name rest (List.append_right_eq_self.mp hrest),
        List.append_assoc, List.singleton_append, Node.bytesAt_append_cons h]
      -- nothing is below a file, neither below the new one nor below one that was there
      cases hchild : (Node.folder entries).child? step with
      | none => rfl
      | some child =>
        cases child with
        | file _ => rfl
        | folder es => exact absurd hchild (hfree es)
  · rw [Node.bytesAt_put_of_not_prefix h hbelow, if_neg]
    rintro rfl
    exact hbelow List.prefix_rfl

/-- A new folder changes no file. -/
theorem fileAt_put_folder {entries : List (String × Node)}
    (h : d.root.follow? names = some (.folder entries))
    (hfree : (Node.folder entries).child? step = none) (found : List String) :
    (d.put (names ++ [step]) (.folder [])).fileAt found = d.fileAt found := by
  unfold fileAt put
  by_cases hbelow : names ++ [step] <+: found
  · obtain ⟨rest, rfl⟩ := hbelow
    rw [Node.bytesAt_put_append h, List.append_assoc, List.singleton_append,
      Node.bytesAt_append_cons h, hfree]
    cases rest <;> rfl
  · exact Node.bytesAt_put_of_not_prefix h hbelow

/-- **A write changes the file its path leads to**, and no other one. -/
theorem write_eq_ok {d' : Disk} {text : String} (h : d.write path text = .ok d') :
    d'.current = d.current ∧
      ∀ names, d'.fileAt names =
        if names = d.target path then some text.toUTF8 else d.fileAt names := by
  obtain ⟨⟨names, step⟩, hholder, h⟩ := exists_of_bind_eq_ok h
  obtain ⟨here, hhere, h⟩ := exists_of_bind_eq_ok h
  rw [nodeAt_eq_ok_iff] at hhere
  cases here with
  | file bytes => cases h
  | folder entries =>
    cases hstep : isIdle step with
    | true =>
      rw [hstep] at h
      cases h
    | false =>
      rw [holder_eq_ok hholder hstep]
      simp only [Node.isFolder, hstep, Bool.not_true, Bool.false_eq_true, if_false] at h
      split at h
      · cases h
      · rename_i hfree
        obtain rfl := Except.ok.inj h
        exact ⟨rfl, fileAt_put_file hhere hfree⟩

/-- A new folder changes no file, and no path. -/
theorem makeFolder_eq_ok {d' : Disk} (h : d.makeFolder path = .ok d') : d.SameFiles d' := by
  obtain ⟨⟨names, step⟩, hholder, h⟩ := exists_of_bind_eq_ok h
  obtain ⟨here, hhere, h⟩ := exists_of_bind_eq_ok h
  rw [nodeAt_eq_ok_iff] at hhere
  cases here with
  | file bytes => cases h
  | folder entries =>
    change (if (isIdle step || ((Node.folder entries).child? step).isSome) = true
      then throw IoError.fileExists else Except.ok _) = _ at h
    split at h
    · cases h
    · rename_i htaken
      rw [Bool.or_eq_true, not_or, Option.not_isSome_iff_eq_none] at htaken
      obtain rfl := Except.ok.inj h
      exact ⟨rfl, fileAt_put_folder hhere htaken.2⟩

/-- A change that fails changes nothing. -/
theorem change_run (f : Disk → Except IoError Disk) (d : Disk) :
    (change f).run d =
      match f d with
      | .ok d' => (.ok (), d')
      | .error cause => (.error cause, d) := rfl

theorem write_run (d : Disk) (path : FilePath) (text : String) :
    (files.write path text).run d =
      match d.write path text with
      | .ok d' => (.ok (), d')
      | .error cause => (.error cause, d) :=
  change_run (·.write path text) d

theorem change_sameFiles {f : Disk → Except IoError Disk}
    (hf : ∀ d d', f d = .ok d' → d.SameFiles d') : Along SameFiles (change f) := by
  intro d
  rw [change_run]
  split
  · rename_i hchanged
    exact hf _ _ hchanged
  · exact .refl d

theorem makeFolder_eq (path : FilePath) : files.makeFolder path = change (·.makeFolder path) := by
  unfold files
  dsimp only

/-- **Making a folder and those above it changes no file.** -/
theorem makeFolders_sameFiles (path : FilePath) : Along SameFiles (files.makeFolders path) := by
  have hmake : ∀ path, Along SameFiles (files.makeFolder path) := by
    intro path
    rw [makeFolder_eq]
    exact change_sameFiles fun _ _ => makeFolder_eq_ok
  have hlook : ∀ path, Along SameFiles (files.isFolder path) := fun _ => SameFiles.refl
  exact Along.makeFolders SameFiles.refl (fun _ _ _ => SameFiles.trans) hmake hlook path

/-! ## 4. Several writes -/

/-- From `d` to `d'` the files `ws` got their texts, and no other file changed. -/
structure Wrote (d d' : Disk) (ws : List (FilePath × String)) : Prop where
  current : d'.current = d.current
  texts : ∀ w ∈ ws, d'.fileAt (d.target w.1) = some w.2.toUTF8
  others : ∀ names, (∀ w ∈ ws, d.target w.1 ≠ names) → d'.fileAt names = d.fileAt names

/-- Every file of `d` is in `d'`, with its bytes. -/
def Spares (d d' : Disk) : Prop :=
  ∀ names bytes, d.fileAt names = some bytes → d'.fileAt names = some bytes

variable {d' d'' : Disk} {ws : List (FilePath × String)}

theorem SameFiles.wrote (h : d.SameFiles d') : d.Wrote d' [] :=
  ⟨h.current, fun _ hw => absurd hw List.not_mem_nil, fun names _ => h.fileAt names⟩

/-- What changes no file may go before some writes. -/
theorem Wrote.after (h : d.SameFiles d') (h' : d'.Wrote d'' ws) : d.Wrote d'' ws where
  current := h'.current.trans h.current
  texts w hw := by
    rw [← target_eq h.current]
    exact h'.texts w hw
  others names hnames := by
    rw [h'.others names fun w hw => target_eq h.current w.1 ▸ hnames w hw]
    exact h.fileAt names

/-- One write, and then writes to other places. -/
theorem Wrote.cons {w : FilePath × String} (hw : d.write w.1 w.2 = .ok d')
    (h : d'.Wrote d'' ws) (hother : ∀ v ∈ ws, d.target v.1 ≠ d.target w.1) :
    d.Wrote d'' (w :: ws) := by
  obtain ⟨hcurrent, hfile⟩ := write_eq_ok hw
  have hplaces : ∀ path, d'.target path = d.target path := target_eq hcurrent
  constructor
  case current => exact h.current.trans hcurrent
  case texts =>
    intro v hv
    rcases List.mem_cons.mp hv with rfl | hv
    · rw [h.others _ fun u hu => hplaces u.1 ▸ hother u hu, hfile, if_pos rfl]
    · rw [← hplaces]
      exact h.texts v hv
  case others =>
    intro names hnames
    rw [h.others names fun v hv => hplaces v.1 ▸ hnames v (List.mem_cons_of_mem w hv), hfile,
      if_neg (hnames w List.mem_cons_self).symm]

/-- **What writes spare**: every file, unless one of them goes to a place where there was a file
    with another text. -/
theorem Wrote.spares_iff (h : d.Wrote d' ws) :
    d.Spares d' ↔ ∀ w ∈ ws, ∀ bytes, d.fileAt (d.target w.1) = some bytes →
      bytes = w.2.toUTF8 := by
  constructor
  · intro hspares w hw bytes hbytes
    have hafter := hspares _ bytes hbytes
    rw [h.texts w hw] at hafter
    exact (Option.some.inj hafter).symm
  · intro hsame names bytes hbytes
    by_cases hwritten : ∃ w ∈ ws, d.target w.1 = names
    · obtain ⟨w, hw, rfl⟩ := hwritten
      rw [h.texts w hw, hsame w hw bytes hbytes]
    · rw [h.others names fun w hw heq => hwritten ⟨w, hw, heq⟩, hbytes]

/-- Something is at a path. -/
def isThere (d : Disk) (path : FilePath) : Bool := d.isFile path || d.isFolder path

theorem isThere_run (d : Disk) (path : FilePath) :
    (files.isThere path).run d = (d.isThere path, d) := by
  unfold isThere
  show (if d.isFile path = true then pure true
    else files.isFolder path : StateM Disk Bool).run d = _
  cases d.isFile path <;> rfl

/-- What can be seen of a disk, which cannot be changed. -/
def seen (d : Disk) : FileSystem Id where
  isFile := d.isFile
  isFolder := d.isFolder
  names := d.names
  read := d.read
  makeFolder _ := .error (.other "Read-only file system (os error 30)")
  write _ _ := .error (.other "Read-only file system (os error 30)")

end Disk
end ClassScript
