/-
  File:      ClassScript/Glob/Search.lean
  Subject:   The paths that a pattern stands for.

  The steps of a pattern are followed one by one. A step without wildcards
  names what is there; for any other step, all names in the folder are
  compared. Two stars stand for the folders below, at any depth.

  * `Glob.stepsOf?`: the steps of a pattern;
  * `Glob.search`: the paths.
-/
import ClassScript.FileSystem
import ClassScript.Glob.Pattern

namespace ClassScript

namespace Glob

variable {m : Type → Type} [Monad m]

/-- The steps of a pattern: the pieces between separators, without an empty last one. -/
def stepsOf? (pattern : String) : Option (List Glob) :=
  let pieces := Text.splitOn '/' pattern.toList
  let steps := if pieces.getLast? == some [] then pieces.dropLast else pieces
  steps.mapM fun step => ofText? (String.ofList step)

/-- The path of a name in a folder; names in the current folder stand alone. -/
def childPath (folder : FilePath) (name : String) : FilePath :=
  if folder.text = "." then ⟨name⟩ else folder.join ⟨name⟩

/-- What the steps `steps` stand for, in the folder `path` or, if `isNamed`, for `path` itself,
    whose last name is still to be compared. -/
def follow (files : FileSystem m) : Nat → Bool → List Glob → FilePath → m (List FilePath)
  | 0, _, _, _ => return []
  | _, _, [], path => return [path]
  | fuel + 1, false, step :: steps, path => do
    match step.literal? with
    | some name =>
      let next := childPath path name
      let isThere ←
        if name = "." ∨ name = ".." then files.isFolder path else files.isThere next
      if isThere then follow files fuel false steps next else return []
    | none =>
      if ← files.isFolder path then
        let names ← files.names path
        let below ←
          FileSystem.gather (fun name => follow files fuel true (step :: steps) (childPath path name)) names
        let idle :=
          if step.tokens.head? == some (.char '.') then [".", ".."].filter step.accepts else []
        let around ← FileSystem.gather (fun name => follow files fuel false steps (path.join ⟨name⟩)) idle
        return below ++ around
      else return []
  | fuel + 1, true, step :: steps, path => do
    if step.isRecursive then
      let rest := steps.dropWhile isRecursive
      let isFolder ← files.isFolder path
      let below ← if isFolder then follow files fuel false (step :: rest) path else pure []
      match rest with
      | [] => return if isFolder then path :: below else []
      | _ => do
        let here ← follow files fuel true rest path
        return below ++ here
    else if (path.fileName?.map step.accepts).getD false then
      follow files fuel false steps path
    else return []

/-- The paths a pattern stands for; nothing if it is no pattern. -/
def search (files : FileSystem m) (pattern : String) : Option (m (List FilePath)) :=
  match ofText? pattern with
  | none => none
  | some _ =>
    let isAbsolute := (FilePath.mk pattern).isAbsolute
    let relative := if isAbsolute then String.ofList (pattern.toList.drop 1) else pattern
    (stepsOf? relative).map fun steps => do
      let found ← follow files FileSystem.maxDepth false steps ⟨if isAbsolute then "/" else "."⟩
      if pattern.toList.getLast? = some '/' then found.filterM files.isFolder else return found

end Glob
end ClassScript
