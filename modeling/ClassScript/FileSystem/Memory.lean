/-
  File:      ClassScript/FileSystem/Memory.lean
  Subject:   A file system in memory.

  Folders hold files and folders under names. A path is followed step by
  step, from the root or from the current folder; all but its last step have
  to lead through folders. There are no links, and nothing is protected.

  * `Node`: a file or a folder;
  * `Disk`: the root folder, and the names that lead to the current one;
  * `Disk.files`: the operations, over a disk as the state.
-/
import ClassScript.FileSystem

namespace ClassScript

/-- A file with its bytes, or a folder with what it holds. -/
inductive Node where
  | file (bytes : ByteArray)
  | folder (entries : List (String × Node))
  deriving Inhabited

namespace Node

def isFolder : Node → Bool
  | .folder _ => true
  | .file _ => false

/-- What a folder holds under a name. -/
def child? (name : String) : Node → Option Node
  | .folder entries => (entries.find? fun e => e.1 == name).map (·.2)
  | .file _ => none

/-- The entries with `node` under `name`. -/
def putEntry (name : String) (node : Node) : List (String × Node) → List (String × Node)
  | [] => [(name, node)]
  | e :: es => if e.1 = name then (name, node) :: es else e :: putEntry name node es

/-- The tree with `node` where `names` lead; what is missing on the way is made. -/
def put (node : Node) : List String → Node → Node
  | [], _ => node
  | name :: names, .folder entries =>
    .folder (putEntry name (put node names (((Node.folder entries).child? name).getD (.folder [])))
      entries)
  | _ :: _, .file bytes => .file bytes

/-- The node that `names` lead to. -/
def follow? : List String → Node → Option Node
  | [], node => some node
  | name :: names, node => (node.child? name).bind (follow? names)

mutual

/-- The files of a tree, each with the names that lead to it. -/
def allFiles : Node → List (List String × ByteArray)
  | .file bytes => [([], bytes)]
  | .folder entries => filesOfEntries entries

/-- The files below some entries. -/
def filesOfEntries : List (String × Node) → List (List String × ByteArray)
  | [] => []
  | (name, node) :: rest =>
    (node.allFiles.map fun f => (name :: f.1, f.2)) ++ filesOfEntries rest

end
end Node

/-- The files of a machine, and its current folder. -/
structure Disk where
  root : Node := .folder []
  current : List String := []

namespace Disk

/-- The steps of a path, as they are written. -/
def stepsOf (path : FilePath) : List String :=
  (Text.splitOn '/' path.text.toList).map String.ofList

/-- The node at `names`, which have to lead somewhere. -/
def nodeAt (d : Disk) (names : List String) : Except IoError Node :=
  match d.root.follow? names with
  | some node => .ok node
  | none => .error .notFound

/-- Where steps lead from the folder at `names`. -/
def walk (d : Disk) : List String → List String → Except IoError (List String)
  | names, [] => .ok names
  | names, step :: steps => do
    let here ← d.nodeAt names
    if !here.isFolder then throw .notFolder
    else if step = "" ∨ step = "." then walk d names steps
    else if step = ".." then walk d names.dropLast steps
    else if (here.child? step).isSome then walk d (names ++ [step]) steps
    else throw .notFound

/-- The folder in which a path starts. -/
def origin (d : Disk) (path : FilePath) : List String :=
  if path.isAbsolute then [] else d.current

/-- The names that lead to what a path stands for. -/
def locate (d : Disk) (path : FilePath) : Except IoError (List String) :=
  if path.text.isEmpty then .error .notFound else d.walk (d.origin path) (stepsOf path)

/-- What a path stands for. -/
def node (d : Disk) (path : FilePath) : Except IoError Node := d.locate path >>= d.nodeAt

/-! ## 1. Looking -/

def isFile (d : Disk) (path : FilePath) : Bool :=
  match d.node path with
  | .ok (.file _) => true
  | _ => false

def isFolder (d : Disk) (path : FilePath) : Bool :=
  match d.node path with
  | .ok (.folder _) => true
  | _ => false

/-- The names in a folder. -/
def names (d : Disk) (path : FilePath) : List String :=
  match d.node path with
  | .ok (.folder entries) => entries.map (·.1)
  | _ => []

/-- The text of a file. -/
def read (d : Disk) (path : FilePath) : Except IoError String := do
  match ← d.node path with
  | .file bytes =>
    match String.fromUTF8? bytes with
    | some text => return text
    | none => throw .notText
  | .folder _ => throw .isFolder

/-! ## 2. Changing -/

/-- The disk with `node` at `names`. -/
def put (d : Disk) (names : List String) (node : Node) : Disk :=
  { d with root := Node.put node names d.root }

/-- The folder that holds what a path stands for, and the last step of the path. -/
def holder (d : Disk) (path : FilePath) : Except IoError (List String × String) := do
  if path.text.isEmpty then throw .notFound
  else
    let steps := stepsOf path
    let names ← d.walk (d.origin path) steps.dropLast
    return (names, steps.getLast?.getD "")

/-- A step that names nothing of its own. -/
def isIdle (step : String) : Bool := step = "" || step = "." || step = ".."

/-- Gives a file a text. -/
def write (d : Disk) (path : FilePath) (text : String) : Except IoError Disk := do
  let (names, step) ← d.holder path
  let here ← d.nodeAt names
  if !here.isFolder then throw .notFolder
  else if isIdle step then throw .isFolder
  else
    match here.child? step with
    | some (.folder _) => throw .isFolder
    | _ => return d.put (names ++ [step]) (.file text.toUTF8)

/-- A path without separators at its end. -/
def withoutEnd (path : FilePath) : FilePath :=
  let kept := (path.text.toList.reverse.dropWhile (· = '/')).reverse
  ⟨String.ofList (if kept.isEmpty then path.text.toList.take 1 else kept)⟩

/-- Makes a folder. -/
def makeFolder (d : Disk) (path : FilePath) : Except IoError Disk := do
  let (names, step) ← d.holder (withoutEnd path)
  let here ← d.nodeAt names
  if !here.isFolder then throw .notFolder
  else if isIdle step || (here.child? step).isSome then throw .fileExists
  else return d.put (names ++ [step]) (.folder [])

/-! ## 3. The file system -/

/-- A change of the disk as an operation; one that fails changes nothing. -/
def change (f : Disk → Except IoError Disk) : StateM Disk (Except IoError Unit) := fun d =>
  match f d with
  | .ok changed => (.ok (), changed)
  | .error cause => (.error cause, d)

/-- The operations, over a disk as the state. -/
def files : FileSystem (StateM Disk) where
  isFile path := fun d => (d.isFile path, d)
  isFolder path := fun d => (d.isFolder path, d)
  names path := fun d => (d.names path, d)
  read path := fun d => (d.read path, d)
  makeFolder path := change (·.makeFolder path)
  write path text := change (·.write path text)

end Disk
end ClassScript
