/-
  File:      ClassScript/Toml/Value.lean
  Subject:   TOML values, and how a document is put together.

  A document is a table that grows line by line: an entry goes into the table
  that the last header names. No key is given twice. A table is opened by one
  header only, and one that was opened by a header, by dotted keys or as an
  inline value is not extended in another way.

  * `Toml`, `Origin`: the values; how a table came about;
  * `Toml.insert?`: one more entry, under a dotted key;
  * `Toml.openTable?`, `Toml.openItem?`: the two headers.
-/

namespace ClassScript

/-- How a table came about. -/
inductive Toml.Origin where
  /-- It is written between braces. -/
  | inlined
  /-- A header names it. -/
  | header
  /-- The header of a table inside of it implies it. -/
  | implied
  /-- A dotted key implies it. -/
  | dotted
  deriving DecidableEq, Repr

/-- A TOML value. Numbers with a fraction and dates keep their text. -/
inductive Toml where
  | text (value : String)
  | integer (value : Int)
  | number (literal : String)
  | bool (value : Bool)
  | date (literal : String)
  | list (items : List Toml)
  | table (origin : Toml.Origin) (entries : List (String × Toml))
  /-- The tables that headers in double brackets add, one each. -/
  | tables (items : List (List (String × Toml)))
  deriving Repr, Inhabited

namespace Toml

/-- The entries of a table. -/
abbrev Entries : Type := List (String × Toml)

/-- The value of a key. -/
def find? (key : String) (entries : Entries) : Option Toml :=
  (entries.find? fun e => e.1 == key).map (·.2)

/-- The entries with another value for a key; a new key comes last. -/
def put (key : String) (value : Toml) : Entries → Entries
  | [] => [(key, value)]
  | e :: es => if e.1 = key then (key, value) :: es else e :: put key value es

/-- A change of the entries of a table, which may not be allowed. -/
abbrev Change : Type := Origin → Entries → Option Entries

/-- Changes the last of several tables. -/
def changeLast (change : Change) : List Entries → Option (List Entries)
  | [] => none
  | [last] => (change .header last).map ([·])
  | t :: ts => (changeLast change ts).map (t :: ·)

/-- Changes the table under a path of keys. Tables that are missing come about by `origin`. A
    path of a dotted key leads through tables of such paths only. -/
def changeAt (origin : Origin) (change : Change) : List String → Change
  | [] => change
  | key :: path => fun _ entries =>
    match find? key entries with
    | none => (changeAt origin change path origin []).map fun es => put key (.table origin es) entries
    | some (.table .inlined _) => none
    | some (.table own es) =>
      if origin = .dotted && own == .header then none
      else (changeAt origin change path own es).map fun es => put key (.table own es) entries
    | some (.tables items) =>
      (changeLast (changeAt origin change path) items).map fun items =>
        put key (.tables items) entries
    | some _ => none

/-- One more entry under a key without dots. A dotted key ends in a table of dotted keys. -/
def addPlain (isDotted : Bool) (key : String) (value : Toml) : Change := fun own entries =>
  if (own == .dotted) != isDotted then none
  else if (find? key entries).isSome then none
  else some (put key value entries)

/-- One more entry under a dotted key. -/
def insert? (path : List String) (key : String) (value : Toml) : Change :=
  changeAt .dotted (addPlain (!path.isEmpty) key value) path

/-- Opens the table `key`, which no header has named yet. -/
def openPlain (key : String) : Change := fun _ entries =>
  match find? key entries with
  | none => some (put key (.table .header []) entries)
  | some (.table .implied es) => some (put key (.table .header es) entries)
  | some _ => none

/-- The document with the table that a header names. -/
def openTable? (path : List String) (key : String) : Change :=
  changeAt .implied (openPlain key) path

/-- One more of the tables `key`. -/
def openOneMore (key : String) : Change := fun _ entries =>
  match find? key entries with
  | none => some (put key (.tables [[]]) entries)
  | some (.tables items) => some (put key (.tables (items ++ [[]])) entries)
  | some _ => none

/-- The document with one more of the tables that a header in double brackets names. -/
def openItem? (path : List String) (key : String) : Change :=
  changeAt .implied (openOneMore key) path

/-- The document with an entry in the table that the last header names. -/
def addIn? (header path : List String) (key : String) (value : Toml) : Change :=
  match header with
  | [] => insert? path key value
  | _ => changeAt .implied (insert? path key value) header

end Toml
end ClassScript
