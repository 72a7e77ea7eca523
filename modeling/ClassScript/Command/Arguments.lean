/-
  File:      ClassScript/Command/Arguments.lean
  Subject:   How a command line is written.

  A word of a command line is an option or a plain word. An option has a name
  after two hyphens or a letter after one, and letters may share a hyphen. The
  value of an option stands behind `=`, right behind the letter, or in the next
  word, which then must not look like an option. After `--` all words are
  plain.

  * `OptionForm`: an option that may be given;
  * `Interruption`: why words are not read to their end;
  * `Matches`, `readWords`: what is given.
-/

namespace ClassScript

/-! ## 1. Options -/

/-- What an option does. -/
inductive OptionKind where
  | flag
  /-- It has a value, which has to be acceptable. -/
  | value (accepts : String → Bool)
  | help
  | version

/-- An option that may be given. -/
structure OptionForm where
  name : String
  letter : Option Char := none
  kind : OptionKind := .flag
  /-- It may be given more than once. -/
  repeats : Bool := false

/-- What is wrong with a command line. -/
inductive UsageError where
  | missingCommand
  | unknownCommand (word : String)
  | unknownOption (word : String)
  | missingValue (option : String)
  | unexpectedValue (option : String)
  | badValue (option value : String)
  | repeatedOption (option : String)
  | missingArgument (name : String)
  | extraArgument (word : String)
  deriving DecidableEq, Repr

/-- The message of an error. -/
def UsageError.message : UsageError → String
  | .missingCommand => "a command is required"
  | .unknownCommand word => "unrecognized command '" ++ word ++ "'"
  | .unknownOption word => "unexpected argument '" ++ word ++ "' found"
  | .missingValue option => "a value is required for '--" ++ option ++ "' but none was supplied"
  | .unexpectedValue option => "no value was expected for '--" ++ option ++ "'"
  | .badValue option value => "invalid value '" ++ value ++ "' for '--" ++ option ++ "'"
  | .repeatedOption option => "the argument '--" ++ option ++ "' cannot be used multiple times"
  | .missingArgument name => "the argument " ++ name ++ " is required"
  | .extraArgument word => "unexpected argument '" ++ word ++ "' found"

/-- Why words are not read to their end. -/
inductive Interruption where
  | help
  | version
  | misuse (e : UsageError)
  deriving DecidableEq, Repr

/-! ## 2. What is given -/

/-- The options of a command line with their values, and its plain words. -/
structure Matches where
  options : List (String × String) := []
  words : List String := []
  deriving DecidableEq, Repr

namespace Matches

/-- The option was given. -/
def has (ms : Matches) (name : String) : Bool := ms.options.any (·.1 == name)

/-- The value of an option. -/
def value? (ms : Matches) (name : String) : Option String :=
  (ms.options.find? (·.1 == name)).map (·.2)

/-- All values of an option. -/
def values (ms : Matches) (name : String) : List String :=
  (ms.options.filter (·.1 == name)).map (·.2)

/-- One more plain word. -/
def addWord (ms : Matches) (word : String) : Matches := { ms with words := ms.words ++ [word] }

/-- One more option without a value, or with the value `value`. -/
def add (ms : Matches) (form : OptionForm) (value : Option String) :
    Except Interruption Matches :=
  if ms.has form.name && !form.repeats then .error (.misuse (.repeatedOption form.name))
  else
    match form.kind, value with
    | .help, none => .error .help
    | .version, none => .error .version
    | .flag, none => .ok { ms with options := ms.options ++ [(form.name, "")] }
    | .value accepts, some text =>
      if accepts text then .ok { ms with options := ms.options ++ [(form.name, text)] }
      else .error (.misuse (.badValue form.name text))
    | .value _, none => .error (.misuse (.missingValue form.name))
    | _, some _ => .error (.misuse (.unexpectedValue form.name))

end Matches

/-! ## 3. Reading -/

/-- What a word looks like. -/
inductive WordForm where
  | plain
  /-- After this word, all words are plain. -/
  | separator
  | letters (cs : List Char)
  | named (name : String) (value : Option String)
  deriving DecidableEq, Repr

/-- The look of a word. -/
def wordForm (word : String) : WordForm :=
  match word.toList with
  | ['-', '-'] => .separator
  | '-' :: '-' :: cs =>
    match cs.span (· ≠ '=') with
    | (name, _ :: value) => .named (String.ofList name) (some (String.ofList value))
    | (name, []) => .named (String.ofList name) none
  | '-' :: c :: cs => .letters (c :: cs)
  | _ => .plain

/-- The option has to have a value. -/
def OptionForm.takesValue (form : OptionForm) : Bool :=
  match form.kind with
  | .value _ => true
  | _ => false

/-- Reads the letters behind one hyphen. The last one may still need the next word as its
    value. -/
def readLetters (forms : List OptionForm) :
    List Char → Matches → Except Interruption (Matches × Option OptionForm)
  | [], ms => .ok (ms, none)
  | c :: cs, ms =>
    match forms.find? (·.letter == some c) with
    | none => .error (.misuse (.unknownOption ("-" ++ c.toString)))
    | some form =>
      if form.takesValue then
        match cs with
        | [] => .ok (ms, some form)
        | _ =>
          let value := if cs.head? = some '=' then cs.drop 1 else cs
          (ms.add form (some (String.ofList value))).map fun ms => (ms, none)
      else
        match ms.add form none with
        | .ok ms => readLetters forms cs ms
        | .error e => .error e

/-- Reads a word that is no plain one: the option that needs the next word as its value, if there
    is one. -/
def readOption (forms : List OptionForm) (word : WordForm) (ms : Matches) :
    Except Interruption (Matches × Option OptionForm) :=
  match word with
  | .letters cs => readLetters forms cs ms
  | .named name value =>
    match forms.find? (·.name == name) with
    | none => .error (.misuse (.unknownOption ("--" ++ name)))
    | some form =>
      if form.takesValue && value.isNone then .ok (ms, some form)
      else (ms.add form value).map fun ms => (ms, none)
  | .plain | .separator => .ok (ms, none)

/-- Reads words. If `stops`, the first plain word ends the reading, and is left with those that
    follow. -/
def readWords (forms : List OptionForm) (stops : Bool) :
    List String → Matches → Except Interruption (Matches × List String)
  | [], ms => .ok (ms, [])
  | word :: words, ms =>
    match wordForm word with
    | .separator =>
      if stops then .ok (ms, []) else .ok ({ ms with words := ms.words ++ words }, [])
    | .plain =>
      if stops then .ok (ms, word :: words) else readWords forms stops words (ms.addWord word)
    | other =>
      match readOption forms other ms with
      | .error e => .error e
      | .ok (ms, none) => readWords forms stops words ms
      | .ok (ms, some form) =>
        match words with
        | [] => .error (.misuse (.missingValue form.name))
        | value :: rest =>
          if wordForm value = .plain then
            match ms.add form (some value) with
            | .ok ms => readWords forms stops rest ms
            | .error e => .error e
          else .error (.misuse (.missingValue form.name))

end ClassScript
