/-
  File:      ClassScript/Project/Discovery.lean
  Subject:   The sources that the arguments of a command stand for.

  An argument is a pattern, a folder or a file. What it stands for is ordered
  by path; arguments keep their order, and a path that comes up again counts
  once. Exclude patterns are compared with paths as they are written.

  How patterns are read and folders are walked is left open: a finder says
  what they yield. `Finder.ofFiles` is the one that commands use.

  * `Finder`: what patterns and folders yield;
  * `collectSources`: what is kept of the paths found for each argument;
  * `sourcesAt`: the sources of one argument;
  * `discover`: the sources of all of them.
-/
import ClassScript.CompilationUnit
import ClassScript.FileSystem.Walk
import ClassScript.Glob.Search

namespace ClassScript

/-- Why sources cannot be found. -/
inductive DiscoveryError where
  | badExclude (pattern : String)
  | badPattern (pattern : String)
  /-- Ignore files above a folder have faults. -/
  | badIgnoreFile (messages : List String)
  deriving DecidableEq, Repr

/-- The message of an error. -/
def DiscoveryError.message : DiscoveryError → String
  | .badExclude pattern => "Invalid exclude pattern: " ++ pattern
  | .badPattern pattern => "Invalid glob pattern: " ++ pattern
  | .badIgnoreFile messages => "\n".intercalate messages

/-! ## 1. Collecting -/

/-- The paths that are neither among `seen` nor come up before. -/
def distinctPaths (seen : List FilePath) : List FilePath → List FilePath
  | [] => []
  | p :: ps =>
    if seen.any (·.same p) then distinctPaths seen ps else p :: distinctPaths (p :: seen) ps

/-- Paths in their order; equal ones stay as they are. -/
def sortPaths (paths : List FilePath) : List FilePath := paths.mergeSort FilePath.notAfter

/-- What is kept of the paths found for each argument. -/
def collectSources (excluded : List (FilePath → Bool)) (found : List (List FilePath)) :
    List FilePath :=
  distinctPaths [] ((found.flatMap sortPaths).filter fun p => !excluded.any (· p))

/-! ## 2. Finding -/

section

variable {m : Type → Type}

/-- What patterns and folders yield. -/
structure Finder (m : Type → Type) where
  /-- The paths that an exclude pattern stands for; nothing if it is no pattern. -/
  exclusion? : String → Option (FilePath → Bool)
  /-- The paths that a pattern yields. -/
  matching : String → m (Except DiscoveryError (List FilePath))
  /-- The paths that a folder yields. -/
  below : FilePath → m (Except DiscoveryError (List FilePath))

variable [Monad m]

/-- Patterns as `Glob` reads them, and folders as they are walked outside of git work trees, seen
    from the folder `current`. The name `-` stands for no folder. -/
def Finder.ofFiles (files : FileSystem m) (current : FilePath) : Finder m where
  exclusion? text := (Glob.ofText? text).map fun pattern path => pattern.accepts path.text
  matching text :=
    match Glob.search files text with
    | some paths => do return .ok (← paths)
    | none => return .error (.badPattern text)
  below folder :=
    if folder.same ⟨"-"⟩ then return .ok []
    else do return (← files.walk current folder).mapError .badIgnoreFile

/-- A path stands for a source. -/
def isSource (files : FileSystem m) (path : FilePath) : m Bool := do
  if path.extension? == some sourceExtension then files.isFile path else return false

/-- The paths that are sources. -/
def onlySources (files : FileSystem m) (paths : List FilePath) : m (List FilePath) :=
  FileSystem.gather
    (fun path => do if ← isSource files path then return [path] else return []) paths

/-- The paths that an argument yields: those of a pattern, those of a folder, or else the one that
    it is. -/
def pathsAt (files : FileSystem m) (finder : Finder m) (argument : String) :
    m (Except DiscoveryError (List FilePath)) := do
  if Glob.isWrittenIn argument then finder.matching argument
  else if ← files.isFolder ⟨argument⟩ then finder.below ⟨argument⟩
  else return .ok [⟨argument⟩]

/-- The sources that an argument stands for. -/
def sourcesAt (files : FileSystem m) (finder : Finder m) (argument : String) :
    m (Except DiscoveryError (List FilePath)) := do
  match ← pathsAt files finder argument with
  | .ok paths => return .ok (← onlySources files paths)
  | .error e => return .error e

/-- The sources of each argument, up to the first error. -/
def sourcesOfEach (files : FileSystem m) (finder : Finder m) :
    List String → m (Except DiscoveryError (List (List FilePath)))
  | [] => return .ok []
  | argument :: arguments => do
    match ← sourcesAt files finder argument with
    | .error e => return .error e
    | .ok found => return (← sourcesOfEach files finder arguments).map (found :: ·)

/-- What the exclude patterns stand for. -/
def Finder.exclusions (finder : Finder m) :
    List String → Except DiscoveryError (List (FilePath → Bool))
  | [] => .ok []
  | text :: texts =>
    match finder.exclusion? text with
    | none => .error (.badExclude text)
    | some excludes => (finder.exclusions texts).map (excludes :: ·)

/-- The sources that arguments stand for. -/
def discover (files : FileSystem m) (finder : Finder m) (arguments exclude : List String) :
    m (Except DiscoveryError (List FilePath)) := do
  match finder.exclusions exclude with
  | .error e => return .error e
  | .ok excluded => return (← sourcesOfEach files finder arguments).map (collectSources excluded)

end

end ClassScript
