/-
  File:      ClassScript/Glob/Ignore.lean
  Subject:   Ignore files: what a walk through folders leaves out.

  Each line of an ignore file is a pattern for the paths below its folder. A
  pattern without a separator stands for names at any depth. `!` takes a path
  back in, and a separator at the end stands for folders only. Of the lines
  that stand for a path the last one counts.

  * `IgnoreToken`, `IgnoreToken.tokensOf`: patterns, and how they are written;
  * `IgnoreRule`, `IgnoreFile`: one line, and all lines of a file;
  * `isIgnored`: what the files of nested folders come to.
-/
import ClassScript.Text.Blank

namespace ClassScript

/-! ## 1. Patterns -/

/-- A part of a pattern. -/
inductive IgnoreToken where
  | char (c : Char)
  /-- A character other than a separator. -/
  | anyChar
  /-- Characters other than separators. -/
  | anyName
  /-- Any folders before what follows, or none. -/
  | leadingFolders
  /-- A separator, or any folders between two of them. -/
  | innerFolders
  /-- All that is below. -/
  | allBelow
  | class (negated : Bool) (ranges : List (Char × Char))
  /-- One of several patterns. -/
  | choice (patterns : List (List IgnoreToken))
  deriving Repr, Inhabited

/-- Why a line is no pattern. -/
inductive IgnoreFault where
  | badRange (low high : Char)
  | unopenedChoice
  | unclosedChoice
  | danglingEscape
  deriving DecidableEq, Repr

/-- The text of a fault. -/
def IgnoreFault.message : IgnoreFault → String
  | .badRange low high => "invalid range; '" ++ low.toString ++ "' > '" ++ high.toString ++ "'"
  | .unopenedChoice =>
    "unopened alternate group; missing '\x7b' (maybe escape '\x7d' with '[\x7d]'?)"
  | .unclosedChoice =>
    "unclosed alternate group; missing '\x7d' (maybe escape '\x7b' with '[\x7b]'?)"
  | .danglingEscape => "dangling '\\'"

namespace IgnoreToken

/-- The ranges of a class before its closing bracket, and what follows it; nothing if it is not
    closed. -/
def classBody : Bool → Bool → List (Char × Char) → List Char →
    Except IgnoreFault (Option (List (Char × Char) × List Char))
  | _, _, _, [] => .ok none
  | isFirst, inRange, ranges, c :: cs =>
    if c = ']' && !isFirst then
      .ok (some (if inRange then ranges ++ [('-', '-')] else ranges, cs))
    else if c = '-' && !isFirst && !inRange then classBody false true ranges cs
    else
      match inRange, ranges.getLast? with
      | true, some (low, _) =>
        if c < low then .error (.badRange low c)
        else classBody false false (ranges.dropLast ++ [(low, c)]) cs
      | _, _ => classBody false false (ranges ++ [(c, c)]) cs

/-- A class after its opening bracket, and what follows it; nothing if it is not closed. -/
def classOf (cs : List Char) : Except IgnoreFault (Option (IgnoreToken × List Char)) :=
  let negated := cs.head? == some '!' || cs.head? == some '^'
  let body := if negated then cs.drop 1 else cs
  (classBody true false [] body).map fun found =>
    found.map fun (ranges, rest) => (.class negated ranges, rest)

/-- A pattern ends before `cs`: at the end, or between braces at a comma or the closing brace. -/
def isEnd (nested : Bool) (cs : List Char) : Bool :=
  match cs with
  | [] => true
  | c :: _ => nested && (c = ',' || c = '\x7d')

/-- The tokens `seen` followed by two stars, and what follows these. -/
def folders (nested : Bool) (seen : List IgnoreToken) (previous : Option Char) (cs : List Char) :
    List IgnoreToken × Option Char × List Char :=
  let plain := (seen ++ [.anyName, .anyName], some '*', cs)
  let keeps := match seen.getLast? with
    | some .leadingFolders | some .allBelow => true
    | _ => false
  if seen.isEmpty then
    match cs with
    | [] => ([.leadingFolders], some '*', [])
    | '/' :: rest => ([.leadingFolders], some '/', rest)
    | _ => plain
  else if previous = some '/' then
    if isEnd nested cs then
      (if keeps then seen else seen.dropLast ++ [.allBelow], some '*', cs)
    else
      match cs with
      | '/' :: rest => (if keeps then seen else seen.dropLast ++ [.innerFolders], some '/', rest)
      | _ => plain
  else plain

/-- The tokens of a pattern, and what follows it. Between braces, `depth` of which are open, a
    comma or the closing brace ends a pattern. A bracket that is not closed stands for itself. -/
def tokensFrom : Nat → Nat → List IgnoreToken → Option Char → List Char →
    Except IgnoreFault (List IgnoreToken × List Char)
  | 0, _, _, _, _ => .error .unclosedChoice
  | _, depth, seen, _, [] => if depth = 0 then .ok (seen, []) else .error .unclosedChoice
  | fuel + 1, depth, seen, previous, c :: cs =>
    if c = '?' then tokensFrom fuel depth (seen ++ [.anyChar]) (some c) cs
    else if c = '*' then
      match cs with
      | '*' :: rest =>
        let (seen, previous, rest) := folders (depth ≠ 0) seen previous rest
        tokensFrom fuel depth seen previous rest
      | _ => tokensFrom fuel depth (seen ++ [.anyName]) (some c) cs
    else if c = '[' then
      match classOf cs with
      | .ok (some (token, rest)) => tokensFrom fuel depth (seen ++ [token]) (some ']') rest
      | .ok none => tokensFrom fuel depth (seen ++ [.char c]) (some c) cs
      | .error fault => .error fault
    else if c = '\\' then
      match cs with
      | d :: rest => tokensFrom fuel depth (seen ++ [.char d]) (some d) rest
      | [] => .error .danglingEscape
    else if c = '\x7b' then
      match choices fuel depth cs with
      | .ok (patterns, rest) =>
        let written := patterns.filter fun pattern => !pattern.isEmpty
        let seen := if written.isEmpty then seen else seen ++ [.choice written]
        tokensFrom fuel depth seen (some '\x7d') rest
      | .error fault => .error fault
    else if c = '\x7d' then if depth = 0 then .error .unopenedChoice else .ok (seen, c :: cs)
    else if c = ',' && depth ≠ 0 then .ok (seen, c :: cs)
    else tokensFrom fuel depth (seen ++ [.char c]) (some c) cs
where
  /-- The patterns between braces, and what follows them. -/
  choices : Nat → Nat → List Char → Except IgnoreFault (List (List IgnoreToken) × List Char)
    | 0, _, _ => .error .unclosedChoice
    | fuel + 1, depth, cs =>
      match tokensFrom fuel (depth + 1) [] none cs with
      | .ok (pattern, ',' :: rest) =>
        (choices fuel depth rest).map fun (more, rest) => (pattern :: more, rest)
      | .ok (pattern, _ :: rest) => .ok ([pattern], rest)
      | .ok (_, []) => .error .unclosedChoice
      | .error fault => .error fault

/-- The tokens of a pattern. -/
def tokensOf (pattern : List Char) : Except IgnoreFault (List IgnoreToken) :=
  (tokensFrom (2 * pattern.length + 2) 0 [] none pattern).map (·.1)

/-- All that is left of a text after some characters, which all are in `within`. -/
def suffixes (within : Char → Bool) : List Char → List (List Char)
  | [] => [[]]
  | c :: cs => (c :: cs) :: if within c then suffixes within cs else []

/-- All that is left of a text after a separator. -/
def afterSeparators : List Char → List (List Char)
  | [] => []
  | c :: cs => if c = '/' then cs :: afterSeparators cs else afterSeparators cs

/-- The tokens stand for the characters. -/
def matchTokens : Nat → List IgnoreToken → List Char → Bool
  | 0, _, _ => false
  | _, [], cs => cs.isEmpty
  | fuel + 1, t :: ts, cs =>
    match t with
    | .anyName => (suffixes (· ≠ '/') cs).any (matchTokens fuel ts)
    | .leadingFolders =>
      ts.isEmpty || matchTokens fuel ts cs || (afterSeparators cs).any (matchTokens fuel ts)
    | .innerFolders =>
      match cs with
      | '/' :: rest =>
        matchTokens fuel ts rest || (afterSeparators rest).any (matchTokens fuel ts)
      | _ => false
    | .allBelow =>
      match cs with
      | '/' :: rest => (suffixes (fun _ => true) rest).any (matchTokens fuel ts)
      | _ => false
    | .choice patterns => patterns.any fun pattern => matchTokens fuel (pattern ++ ts) cs
    | .char d =>
      match cs with
      | c :: rest => c = d && matchTokens fuel ts rest
      | [] => false
    | .anyChar =>
      match cs with
      | c :: rest => c ≠ '/' && matchTokens fuel ts rest
      | [] => false
    | .class negated ranges =>
      match cs with
      | c :: rest =>
        (ranges.any fun (low, high) => low ≤ c && c ≤ high) != negated &&
          matchTokens fuel ts rest
      | [] => false

end IgnoreToken

/-! ## 2. Lines -/

/-- A line of an ignore file. -/
structure IgnoreRule where
  tokens : List IgnoreToken
  /-- The paths it stands for are taken back in. -/
  readmits : Bool
  foldersOnly : Bool
  /-- The steps its matching may take. -/
  size : Nat

namespace IgnoreRule

/-- The pattern of a line, as it is compared with whole paths. -/
def wholePattern (anchored : Bool) (pattern : List Char) : List Char :=
  let doubled := "**/".toList
  let free := !anchored && !pattern.contains '/' && !doubled.isPrefixOf pattern &&
    pattern != "**".toList
  let whole := if free then doubled ++ pattern else pattern
  if "/**".toList.isSuffixOf whole then whole ++ "/*".toList else whole

/-- The line without blanks at its end, unless the last one is escaped. -/
def trimmed (line : List Char) : List Char :=
  if ['\\', ' '].isSuffixOf line then line
  else (line.reverse.dropWhile Text.isBlank).reverse

/-- A separator at the end of a pattern: whether there is one, and what stands before it. -/
def folderMark (pattern : List Char) : Bool × List Char :=
  if pattern.getLast? = some '/' then
    let kept := pattern.dropLast
    (true, if kept.getLast? = some '\\' then kept.dropLast else kept)
  else (false, pattern)

/-- The rule of a line without blanks at its end. -/
def ofTrimmed (line : List Char) : Except IgnoreFault IgnoreRule :=
  let (readmits, anchored, pattern) : Bool × Bool × List Char :=
    match line with
    | '\\' :: '!' :: rest => (false, false, '!' :: rest)
    | '\\' :: '#' :: rest => (false, false, '#' :: rest)
    | '!' :: '/' :: rest => (true, true, rest)
    | '!' :: rest => (true, false, rest)
    | '/' :: rest => (false, true, rest)
    | _ => (false, false, line)
  let (foldersOnly, pattern) := folderMark pattern
  let whole := wholePattern anchored pattern
  (IgnoreToken.tokensOf whole).map fun tokens => ⟨tokens, readmits, foldersOnly, whole.length + 2⟩

/-- What a line is without blanks at its end; nothing for remarks and empty lines. -/
def written? (line : List Char) : Option (List Char) :=
  match line with
  | '#' :: _ => none
  | _ =>
    match trimmed line with
    | [] => none
    | kept => some kept

/-- The rule stands for a path below its folder. -/
def accepts (r : IgnoreRule) (path : List Char) (isFolder : Bool) : Bool :=
  (isFolder || !r.foldersOnly) && IgnoreToken.matchTokens r.size r.tokens path

end IgnoreRule

/-! ## 3. Files -/

/-- An ignore file: its rules in order, and its lines that are no patterns, each with its
    number. -/
structure IgnoreFile where
  rules : List IgnoreRule := []
  faults : List (Nat × String × IgnoreFault) := []

namespace IgnoreFile

/-- A line without the carriage return at its end. -/
def withoutReturn (line : List Char) : List Char :=
  if line.getLast? = some '\r' then line.dropLast else line

/-- The file of the lines from the number `n` on. -/
def ofLines : Nat → List (List Char) → IgnoreFile
  | _, [] => {}
  | n, line :: lines =>
    let rest := ofLines (n + 1) lines
    match IgnoreRule.written? (withoutReturn line) with
    | none => rest
    | some kept =>
      match IgnoreRule.ofTrimmed kept with
      | .ok rule => { rest with rules := rule :: rest.rules }
      | .error fault => { rest with faults := (n, String.ofList kept, fault) :: rest.faults }

/-- The file of a text. Byte order marks at its start do not count. -/
def ofText (text : String) : IgnoreFile :=
  ofLines 1 (Text.splitOn '\n' (text.toList.dropWhile (· = '\uFEFF')))

/-- Whether the file leaves a path below its folder out, if it says anything about it. -/
def decide? (f : IgnoreFile) (path : List Char) (isFolder : Bool) : Option Bool :=
  ((f.rules.filter fun r => r.accepts path isFolder).getLast?).map fun r => !r.readmits

/-- The messages about the file at `path`. -/
def messages (f : IgnoreFile) (path : String) : List String :=
  f.faults.map fun (n, line, fault) =>
    path ++ ": line " ++ toString n ++ ": error parsing glob '" ++ line ++ "': " ++ fault.message

end IgnoreFile

/-! ## 4. Nested folders -/

/-- An ignore file, seen from below its folder: the names that lead down from there. -/
structure IgnoreScope where
  file : IgnoreFile
  names : List String := []

/-- The scope one folder further down. -/
def IgnoreScope.enter (s : IgnoreScope) (name : String) : IgnoreScope :=
  { s with names := s.names ++ [name] }

/-- What the file of a scope says about the place it is seen from. -/
def IgnoreScope.decide? (s : IgnoreScope) (isFolder : Bool) : Option Bool :=
  s.file.decide? ("/".intercalate s.names).toList isFolder

/-- The place that the scopes are seen from is left out. The scopes come innermost first, and the
    first one that says anything about the place decides. -/
def isIgnored (scopes : List IgnoreScope) (isFolder : Bool) : Bool :=
  (scopes.findSome? fun s => s.decide? isFolder).getD false

end ClassScript
