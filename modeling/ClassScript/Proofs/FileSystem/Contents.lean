/-
  File:      ClassScript/Proofs/FileSystem/Contents.lean
  Subject:   A file system as a map from paths to texts.

  What a file holds is what reading it gives. A file system acts as a map if
  writing a file changes that file alone, if a write that fails changes none,
  and if folders are made and looked at without changing files. Which writes
  fail, and why, is left open. Paths count as the program compares them, by
  their components.

  * `Contents`, `Contents.putAll`: a map, and the map after some writes;
  * `Contents.putAll_last`, `Contents.putAll_untouched`: the last write wins,
    and a path that is not written keeps its text;
  * `FileSystem.Along.makeFolders`: what every operation on folders keeps is
    kept by making a folder and those above it;
  * `FileSystem.ActsAsMap`: the law of a file system;
  * `FileSystem.ActsAsMap.save`: it also holds of writes that make their folder;
  * `mapFiles`: a file system that is nothing but a map.
-/
import ClassScript.FileSystem

namespace ClassScript

/-! ## 1. Maps -/

/-- The text that each path holds. -/
abbrev Contents : Type := FilePath → Option String

namespace Contents

/-- The map with the text `text` under `path`. -/
def put (c : Contents) (path : FilePath) (text : String) : Contents :=
  fun q => if path.same q then some text else c q

/-- The map after writing files one after the other. -/
def putAll (c : Contents) (ws : List (FilePath × String)) : Contents :=
  ws.foldl (fun c w => c.put w.1 w.2) c

@[simp] theorem putAll_nil (c : Contents) : c.putAll [] = c := rfl

@[simp] theorem putAll_cons (c : Contents) (w : FilePath × String) (ws : List (FilePath × String)) :
    c.putAll (w :: ws) = (c.put w.1 w.2).putAll ws := rfl

theorem putAll_append (c : Contents) (ws vs : List (FilePath × String)) :
    c.putAll (ws ++ vs) = (c.putAll ws).putAll vs := List.foldl_append

/-- A path that no write touches keeps its text. -/
theorem putAll_untouched {ws : List (FilePath × String)} {q : FilePath} (c : Contents)
    (h : ∀ w ∈ ws, w.1.same q = false) : c.putAll ws q = c q := by
  induction ws generalizing c with
  | nil => rfl
  | cons w ws ih =>
    rw [putAll_cons, ih (c.put w.1 w.2) fun x hx => h x (List.mem_cons_of_mem w hx)]
    unfold put
    rw [h w List.mem_cons_self]
    rfl

/-- **The last write wins**: a path holds the text of the write after which no other touches it. -/
theorem putAll_last {before after : List (FilePath × String)} {w : FilePath × String}
    {q : FilePath} (c : Contents) (hw : w.1.same q = true)
    (ha : ∀ x ∈ after, x.1.same q = false) :
    c.putAll (before ++ w :: after) q = some w.2 := by
  rw [putAll_append, putAll_cons, putAll_untouched _ ha]
  unfold put
  rw [if_pos hw]

/-- Among the writes that touch a path there is a last one. -/
theorem exists_last {ws : List (FilePath × String)} {q : FilePath}
    (h : ∃ w ∈ ws, w.1.same q = true) :
    ∃ before w after, ws = before ++ w :: after ∧ w.1.same q = true ∧
      ∀ x ∈ after, x.1.same q = false := by
  induction ws with
  | nil =>
    obtain ⟨w, hw, _⟩ := h
    exact absurd hw List.not_mem_nil
  | cons v ws ih =>
    by_cases hrest : ∃ w ∈ ws, w.1.same q = true
    · obtain ⟨before, w, after, rfl, hw, ha⟩ := ih hrest
      exact ⟨v :: before, w, after, rfl, hw, ha⟩
    · obtain ⟨w, hw, hq⟩ := h
      rcases List.mem_cons.mp hw with rfl | hw
      · refine ⟨[], w, ws, rfl, hq, fun x hx => ?_⟩
        rw [← Bool.not_eq_true]
        exact fun hxq => hrest ⟨x, hx, hxq⟩
      · exact absurd ⟨w, hw, hq⟩ hrest

/-- A path that is written holds the text of the last write that touches it. -/
theorem putAll_of_written {ws : List (FilePath × String)} {q : FilePath} (c : Contents)
    (h : ∃ p ∈ ws.map (·.1), p.same q = true) :
    ∃ before w after, ws = before ++ w :: after ∧ w.1.same q = true ∧
      (∀ x ∈ after, x.1.same q = false) ∧ c.putAll ws q = some w.2 := by
  obtain ⟨p, hp, hq⟩ := h
  obtain ⟨v, hv, rfl⟩ := List.mem_map.mp hp
  obtain ⟨before, w, after, rfl, hw, ha⟩ := exists_last ⟨v, hv, hq⟩
  exact ⟨before, w, after, rfl, hw, ha, putAll_last c hw ha⟩

end Contents

namespace FileSystem

variable {σ α β : Type}

/-! ## 2. Making folders -/

/-- Every run of a program leads to a state that `R` relates to the one before. -/
def Along (R : σ → σ → Prop) (x : StateM σ α) : Prop := ∀ s, R s (x.run s).2

namespace Along

variable {R : σ → σ → Prop} {files : FileSystem (StateM σ)} (hrefl : ∀ s, R s s)
  (htrans : ∀ s t u, R s t → R t u → R s u) (hmake : ∀ path, Along R (files.makeFolder path))
  (hlook : ∀ path, Along R (files.isFolder path))

include htrans in
theorem bind {x : StateM σ α} {f : α → StateM σ β} (hx : Along R x) (hf : ∀ a, Along R (f a)) :
    Along R (x >>= f) := fun s =>
  htrans s _ _ (hx s) (hf (x.run s).1 (x.run s).2)

include hrefl htrans hmake hlook

theorem ensureFolder (path : FilePath) : Along R (files.ensureFolder path) := by
  refine bind htrans (hmake path) fun answer => ?_
  cases answer with
  | ok _ => exact hrefl
  | error cause =>
    refine bind htrans (hlook path) fun there => ?_
    cases there <;> exact hrefl

theorem makeFoldersUpTo (depth : Nat) (path : FilePath) :
    Along R (files.makeFoldersUpTo depth path) := by
  have hensure := ensureFolder hrefl htrans hmake hlook
  induction depth generalizing path with
  | zero => exact hensure path
  | succ depth ih =>
    unfold FileSystem.makeFoldersUpTo
    split
    · exact hrefl
    · refine bind htrans (hensure path) fun answer => ?_
      split
      · split
        · exact hrefl
        · rename_i parent _
          refine bind htrans (ih parent) fun made => ?_
          cases made with
          | ok _ => exact hensure path
          | error _ => exact hrefl
      · exact hrefl

/-- **What every operation on folders keeps** is kept by making a folder and those above it. -/
theorem makeFolders (path : FilePath) : Along R (files.makeFolders path) :=
  makeFoldersUpTo hrefl htrans hmake hlook _ path

end Along

/-! ## 3. The law of a file system -/

/-- The text of a file: what reading it gives. -/
def textAt (files : FileSystem (StateM σ)) (s : σ) : Contents := fun path =>
  match ((files.read path).run s).1 with
  | .ok text => some text
  | .error _ => none

/-- An operation that changes no text. -/
def Quiet (files : FileSystem (StateM σ)) (x : StateM σ α) : Prop :=
  ∀ s, files.textAt (x.run s).2 = files.textAt s

/-- An operation that gives the file `path` the text `text`, or else fails and changes no text. -/
def Stores (files : FileSystem (StateM σ)) (path : FilePath) (text : String)
    (x : StateM σ (Except IoError Unit)) : Prop :=
  ∀ s, files.textAt (x.run s).2 =
    match (x.run s).1 with
    | .ok () => (files.textAt s).put path text
    | .error _ => files.textAt s

/-- **A file system that acts as a map from paths to texts.** Any write may fail. -/
structure ActsAsMap (files : FileSystem (StateM σ)) : Prop where
  write : ∀ path text, files.Stores path text (files.write path text)
  makeFolder : ∀ path, files.Quiet (files.makeFolder path)
  isFolder : ∀ path, files.Quiet (files.isFolder path)

variable {files : FileSystem (StateM σ)}

/-- A store that succeeds. -/
theorem Stores.textAt_ok {path : FilePath} {text : String}
    {x : StateM σ (Except IoError Unit)} (h : files.Stores path text x) {s s' : σ}
    (hx : x.run s = (.ok (), s')) : files.textAt s' = (files.textAt s).put path text := by
  have hs := h s
  rw [hx] at hs
  exact hs

/-- A store that fails. -/
theorem Stores.textAt_error {path : FilePath} {text : String}
    {x : StateM σ (Except IoError Unit)} (h : files.Stores path text x) {s s' : σ}
    {cause : IoError} (hx : x.run s = (.error cause, s')) :
    files.textAt s' = files.textAt s := by
  have hs := h s
  rw [hx] at hs
  exact hs

/-- A failure on its own changes no text. -/
theorem Stores.failure {path : FilePath} {text : String} (cause : IoError) :
    files.Stores path text (Pure.pure (.error cause)) := fun _ => rfl

/-- What happens quietly before a file is stored does not count. -/
theorem Stores.after {path : FilePath} {text : String} {x : StateM σ α}
    {f : α → StateM σ (Except IoError Unit)} (hx : files.Quiet x)
    (hf : ∀ a, files.Stores path text (f a)) : files.Stores path text (x >>= f) := by
  intro s
  have h := hf (x.run s).1 (x.run s).2
  rw [hx s] at h
  exact h

namespace ActsAsMap

variable (h : files.ActsAsMap)
include h

theorem makeFolders (path : FilePath) : files.Quiet (files.makeFolders path) :=
  Along.makeFolders (R := fun s t => files.textAt t = files.textAt s) (fun _ => rfl)
    (fun _ _ _ hst htu => htu.trans hst) h.makeFolder h.isFolder path

/-- **Storing a file and its folder** changes the file alone, or nothing. -/
theorem save (path : FilePath) (text : String) :
    files.Stores path text (files.save path text) := by
  unfold FileSystem.save
  split
  · rename_i parent _
    split
    · exact h.write path text
    · refine .after (h.makeFolders parent) fun made => ?_
      cases made with
      | ok _ => exact h.write path text
      | error cause => exact .failure cause
  · exact h.write path text

end ActsAsMap
end FileSystem

/-! ## 4. A map as a file system -/

/-- A file system that is nothing but a map: every folder is there, and the files that `refuses`
    names cannot be written. -/
def mapFiles (refuses : FilePath → Bool) : FileSystem (StateM Contents) where
  isFile path := fun c => ((c path).isSome, c)
  isFolder _ := fun c => (true, c)
  names _ := fun c => ([], c)
  read path := fun c =>
    match c path with
    | some text => (.ok text, c)
    | none => (.error .notFound, c)
  makeFolder _ := fun c => (.ok (), c)
  write path text := fun c =>
    if refuses path then (.error (.other "Permission denied (os error 13)"), c)
    else (.ok (), c.put path text)

@[simp] theorem textAt_mapFiles (refuses : FilePath → Bool) (c : Contents) :
    (mapFiles refuses).textAt c = c := by
  funext path
  unfold FileSystem.textAt mapFiles
  cases h : c path with
  | some text => simp [StateT.run, h]
  | none => simp [StateT.run, h]

theorem mapFiles_actsAsMap (refuses : FilePath → Bool) : (mapFiles refuses).ActsAsMap where
  write path text c := by
    simp only [textAt_mapFiles]
    unfold mapFiles
    by_cases h : refuses path = true
    · simp [StateT.run, h]
    · simp [StateT.run, h]
  makeFolder _ _ := rfl
  isFolder _ _ := rfl

end ClassScript
