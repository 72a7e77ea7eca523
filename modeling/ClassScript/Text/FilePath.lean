/-
  File:      ClassScript/Text/FilePath.lean
  Subject:   File paths: what they name, and how they are written.

  A path is the text a user or a file system gave. It is printed as it was
  given, but compared by its components: `a//b`, `a/./b` and `a/b/` are one
  path, `./a` is another one than `a`. Components are ordered: the root, then
  a leading `.`, then `..`, then names by their bytes.

  * `FilePath.components`: the component view;
  * `FilePath.same`, `FilePath.order`: equality and order through the view;
  * `FilePath.fileName?`, `extension?`, `parent?`, `join`, `ancestors`;
  * `withExtension`: a file NAME with another extension.
-/
import ClassScript.Text.Blank

namespace ClassScript

/-- A path, as it was written. -/
structure FilePath where
  text : String
  deriving DecidableEq, Repr, Inhabited

namespace FilePath

open ClassScript.Text

/-! ## 1. The component view -/

/-- One step of a path. -/
inductive Component where
  | root
  | here
  | up
  | name (chars : List Char)
  deriving DecidableEq, Repr

/-- The rank of a component's form. -/
def Component.rank : Component → Nat
  | .root => 0
  | .here => 1
  | .up => 2
  | .name _ => 3

/-- The order of components: by form, and names by their code points. -/
def Component.order : Component → Component → Ordering
  | .name a, .name b => byCodePoint a b
  | a, b => compare a.rank b.rank

/-- The component a piece between separators stands for: empty pieces and `.` stand for none. -/
def Component.ofPiece? (piece : List Char) : Option Component :=
  match piece with
  | [] => none
  | ['.'] => none
  | ['.', '.'] => some .up
  | _ => some (.name piece)

/-- The steps of a path given as characters. -/
def componentsOf (cs : List Char) : List Component :=
  match splitOn '/' cs with
  | [] => []
  | first :: rest =>
    let steps := rest.filterMap Component.ofPiece?
    if first.isEmpty then
      if rest.isEmpty then [] else .root :: steps
    else if first = ['.'] then .here :: steps
    else (Component.ofPiece? first).toList ++ steps

/-- The steps of a path. Repeated and trailing separators and inner `.` leave no step. -/
def components (p : FilePath) : List Component := componentsOf p.text.toList

/-- Two paths are the same when their components are. -/
def same (p q : FilePath) : Bool := decide (p.components = q.components)

/-- The order of lists of components: the first difference decides. -/
def orderOf : List Component → List Component → Ordering
  | [], [] => .eq
  | [], _ :: _ => .lt
  | _ :: _, [] => .gt
  | a :: as, b :: bs =>
    match a.order b with
    | .eq => orderOf as bs
    | other => other

/-- The order of paths. -/
def order (p q : FilePath) : Ordering := orderOf p.components q.components

/-- True when `p` does not come after `q`. -/
def notAfter (p q : FilePath) : Bool := p.order q != .gt

/-! ## 2. Names -/

/-- The last step, if it is a name. -/
def fileName? (p : FilePath) : Option String :=
  match p.components.getLast? with
  | some (.name cs) => some (String.ofList cs)
  | _ => none

/-- The last step's name, or nothing at all. -/
def baseName (p : FilePath) : String := p.fileName?.getD ""

/-- A file name cut at its last dot: what stands before it, and after it. A name without a dot,
    or with one dot at its start only, is not cut. -/
def cutName (cs : List Char) : List Char × Option (List Char) :=
  if cs = ['.', '.'] then (cs, none)
  else
    match cs.reverse.span (· ≠ '.') with
    | (_, []) => (cs, none)
    | (after, _ :: before) =>
      if before.isEmpty then (cs, none) else (before.reverse, some after.reverse)

/-- The extension of a file name, without its dot. -/
def extensionOfName? (name : String) : Option String :=
  (cutName name.toList).2.map String.ofList

/-- The extension of the last step's name, without its dot. -/
def extension? (p : FilePath) : Option String := p.fileName?.bind extensionOfName?

/-- The file name `name` with the extension `ext` instead of its own. When what is left of the
    name after its extension is cut off is `..`, that is no file name and stays as it is. -/
def withExtension (name ext : String) : String :=
  let kept : List Char :=
    match cutName name.toList with
    | (_, none) => name.toList
    | (stem, some _) => stem ++ ['.']
  if kept = ['.', '.'] then ".."
  else String.ofList (cutName kept).1 ++ "." ++ ext

/-! ## 3. Directories -/

/-- True of a path that starts at the root. -/
def isAbsolute (p : FilePath) : Bool :=
  match p.text.toList with
  | '/' :: _ => true
  | _ => false

/-- `q` seen from the directory `p`. -/
def join (p q : FilePath) : FilePath :=
  if q.isAbsolute then q
  else if p.text.isEmpty || p.text.toList.getLast? = some '/' then ⟨p.text ++ q.text⟩
  else ⟨p.text ++ "/" ++ q.text⟩

/-- Reversed characters of a path without the separators and inner `.` steps at its end. The
    root and a leading `.` stay. -/
def dropIdleTail : List Char → List Char
  | ['/'] => ['/']
  | '/' :: cs => dropIdleTail cs
  | ['.', '/'] => ['/']
  | '.' :: '/' :: cs => dropIdleTail ('/' :: cs)
  | cs => cs
  termination_by cs => cs.length

/-- The path without its last step: nothing for the root and for the empty path. -/
def parent? (p : FilePath) : Option FilePath :=
  match p.components.getLast? with
  | none => none
  | some .root => none
  | some _ =>
    let trimmed := dropIdleTail p.text.toList.reverse
    let rest := trimmed.dropWhile (· ≠ '/')
    some ⟨String.ofList (dropIdleTail rest).reverse⟩

/-- The first `fuel` of the path's ancestors, the path itself first. -/
def ancestorsUpTo : Nat → FilePath → List FilePath
  | 0, _ => []
  | fuel + 1, p =>
    p ::
      match p.parent? with
      | none => []
      | some parent => ancestorsUpTo fuel parent

/-- The path, its parent, the parent's parent, and so on. -/
def ancestors (p : FilePath) : List FilePath := ancestorsUpTo (p.text.length + 1) p

end FilePath
end ClassScript
