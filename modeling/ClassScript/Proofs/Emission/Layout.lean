/-
  File:      ClassScript/Proofs/Emission/Layout.lean
  Subject:   What emission relies on about a tree and its text.

  Emission takes parts out together with the blanks and the lines around
  them. This is safe on the trees of a grammar: parts lie in their parents,
  one after the other, with nothing but blanks between them, and no part but
  a fragment of a text starts with a blank. What is taken out with its lines
  must not meet the blanks that another edit takes, nor the place where one
  comes in: it follows no word that goes, and it does not start or end where
  an export, the operand of a cast or the first statement of a constructor
  does.

  * `memberEnd`, `removalEnd?`, `removals`: what is taken out with its lines;
  * `wordEnds`, `heads`, `tails`: where other edits take blanks, or come in;
  * `Nested`, `Solid`, `Layout`: the conditions on one tree, and on a program.
-/
import ClassScript.Emission.Erasure
import ClassScript.Proofs.Syntax.Source
import ClassScript.Proofs.Syntax.Tree

namespace ClassScript.Emission

open Syntax (Source Tree Kind IsBoundary IsInk)

/-! ## 1. What is taken out with its lines -/

/-- The end of a member and of the mark behind it. -/
def memberEnd (t : Tree) (following : List Tree) : Nat :=
  match following with
  | [] => t.stop
  | next :: _ => if endsMember next then next.stop else t.stop

theorem dropMember_eq (src : Source) (t : Tree) (following : List Tree) :
    dropMember src t following = dropLines src t.start (memberEnd t following) := by
  cases following <;> rfl

/-- An export keeps nothing. -/
def dropsExport (src : Source) (t : Tree) : Bool :=
  match exportForm t with
  | .typeOnly => true
  | .declaration declaration => treatment declaration.kind = .droppedStatement
  | .names => (exportLines src t).isEmpty
  | _ => false

/-- The end of what is taken out with its lines if `t` is a statement or a member without a
    counterpart in a script. -/
def removalEnd? (src : Source) (following : List Tree) (t : Tree) : Option Nat :=
  match treatment t.kind with
  | .droppedStatement => some t.stop
  | .droppedMember => some (memberEnd t following)
  | .field => if isTypeOnlyField t then some (memberEnd t following) else none
  | .importStatement => if t.hasToken "type" || t.hasToken "typeof" then some t.stop else none
  | .exportStatement => if dropsExport src t then some t.stop else none
  | _ => none

/-- Each of some parts with the parts behind it. -/
def withFollowing : List Tree → List (Tree × List Tree)
  | [] => []
  | c :: cs => (c, cs) :: withFollowing cs

/-- The ranges that are taken out with their lines, of statements and members in a tree. -/
def removals (src : Source) (root : Tree) : List (Nat × Nat) :=
  root.nodes.flatMap fun n =>
    (withFollowing n.children).filterMap fun p =>
      (removalEnd? src p.2 p.1).map fun stop => (p.1.start, stop)

/-! ## 2. Where other edits reach or come in -/

/-- The modifiers among the parts of such a tree go. -/
def erasesModifiers (kind : Kind) : Bool :=
  match treatment kind with
  | .field | .parameter | .declarator | .method => true
  | _ => false

/-- A word of the tree `n` goes, with the blanks behind it. -/
def isWordOf (n word : Tree) : Bool :=
  treatment word.kind = .droppedWord || (erasesModifiers n.kind && isErasedWord word) ||
    (treatment n.kind = .abstractClass && word.kind == .token "abstract")

/-- The end of the comma behind a parameter that gives the type of `this`. -/
def commaEnd? (t : Tree) (following : List Tree) : Option Nat :=
  if treatment t.kind = .parameter && isThisParameter t then
    match following with
    | comma :: _ => if comma.kind = .token "," then some comma.stop else none
    | [] => none
  else none

/-- The ends of the words and commas of a tree that go with the blanks behind them. -/
def wordEnds (n : Tree) : List Nat :=
  ((n.children.filter (isWordOf n)).map Tree.stop) ++
    (withFollowing n.children).filterMap fun p => commaEnd? p.1 p.2

/-- What an export keeps: a declaration or a value. -/
def keptPart? (src : Source) (t : Tree) : Option Tree :=
  if dropsExport src t then none
  else
    match exportForm t with
    | .declaration declaration => some declaration
    | .value value => some value
    | .assignment => t.children.find? Tree.isNamed
    | _ => none

/-- The start of what an export keeps. -/
def heads (src : Source) (n : Tree) : List Nat :=
  match treatment n.kind with
  | .exportStatement => ((keptPart? src n).map Tree.start).toList
  | _ => []

/-- The end of the call of the constructor of the superclass, if a constructor starts with it. -/
def superCallEnd? (src : Source) (n : Tree) : Option Nat :=
  if isConstructor src n then
    match n.part? .body with
    | some body =>
      match body.named with
      | first :: _ => if isSuperCall first then some first.stop else none
      | [] => none
    | none => none
  else none

/-- The ends of operands of casts, of first statements of constructors, and of exports that keep
    a declaration or a value. -/
def tails (src : Source) (n : Tree) : List Nat :=
  match treatment n.kind with
  | .cast => ((n.children.find? Tree.isNamed).map Tree.stop).toList
  | .method => (superCallEnd? src n).toList
  | .exportStatement => ((keptPart? src n).map fun _ => n.stop).toList
  | _ => []

/-! ## 3. Conditions on one tree -/

/-- Nothing but blanks stands between the parts, which follow one another. -/
def gapsAreBlank (src : Source) : List Tree → Bool
  | c :: d :: rest => isBlankBetween src c.stop d.start && gapsAreBlank src (d :: rest)
  | _ => true

/-- A tree lies around its parts, which follow one another, on the characters of the text. -/
structure Nested (s : String) (t : Tree) : Prop where
  start : IsBoundary s t.start
  stop : IsBoundary s t.stop
  start_le_stop : t.start ≤ t.stop
  around : ∀ c ∈ t.children, t.start ≤ c.start ∧ c.stop ≤ t.stop
  gaps : gapsAreBlank (Source.ofString s) t.children = true

/-- A piece of the text of a literal, which may start and end with blanks. -/
def isFragment (t : Tree) : Bool := t.kind == .other "string_fragment"

/-- A tree starts with no blank, and with the line it ends in it has more than blanks. The text
    of a comment may end with blanks. -/
structure Solid (s : String) (t : Tree) : Prop where
  nonempty : t.start < t.stop
  ink : IsInk s t.start
  settled : isBlankBetween (Source.ofString s) ((Source.ofString s).lineStart t.stop) t.stop = false

/-- What is taken out of a tree's place may end behind the tree: that of a modifier, a member, or
    a parameter that gives the type of `this`. -/
def stretches (t : Tree) : Bool :=
  match treatment t.kind with
  | .droppedMember | .droppedWord => true
  | .field => isTypeOnlyField t
  | .parameter => isThisParameter t
  | _ => false

/-- The operand of a cast is an expression. -/
def hasPlainOperand (t : Tree) : Bool :=
  match treatment t.kind with
  | .cast => !(t.children.find? Tree.isNamed).any stretches
  | _ => true

/-- The body of a constructor is a block that starts with its brace. -/
def hasBracedBody (src : Source) (t : Tree) : Bool :=
  if treatment t.kind = .method && isConstructor src t then
    match t.part? .body with
    | some body =>
      body.kind == .other "statement_block" &&
        match body.children with
        | brace :: _ =>
          brace.kind == .token "\x7b" && brace.start == body.start && brace.stop == body.start + 1
        | [] => false
    | none => true
  else true

/-! ## 4. Conditions on a program -/

/-- A tree of a grammar over the text `s`. Marks have no parts there, the operand of a cast is an
    expression, and the body of a constructor is a block. -/
structure Layout (s : String) (root : Tree) : Prop where
  nested : ∀ n ∈ root.nodes, Nested s n
  solid : ∀ n ∈ root.inner, isFragment n = false → Solid s n
  tokens : ∀ n ∈ root.nodes, n.isNamed = false → n.children = []
  operands : ∀ n ∈ root.nodes, hasPlainOperand n = true
  bodies : ∀ n ∈ root.nodes, hasBracedBody (Source.ofString s) n = true
  /-- No word or comma that goes is directly followed by what is taken out with its lines. -/
  words : ∀ n ∈ root.nodes, ∀ place ∈ wordEnds n, ∀ r ∈ removals (Source.ofString s) root,
    isBlankBetween (Source.ofString s) place r.1 = false
  /-- What is taken out with its lines is not the start of what an export keeps. -/
  heads : ∀ n ∈ root.nodes, ∀ place ∈ heads (Source.ofString s) n,
    ∀ r ∈ removals (Source.ofString s) root,
      isBlankBetween (Source.ofString s) place r.1 = false
  /-- What is taken out with its lines is not the end of an operand, a first statement or an
      export. -/
  tails : ∀ n ∈ root.nodes, ∀ place ∈ tails (Source.ofString s) n,
    ∀ r ∈ removals (Source.ofString s) root,
      isBlankBetween (Source.ofString s) r.2 place = false

instance (s : String) (t : Tree) : Decidable (Nested s t) :=
  decidable_of_iff
    (IsBoundary s t.start ∧ IsBoundary s t.stop ∧ t.start ≤ t.stop ∧
      (∀ c ∈ t.children, t.start ≤ c.start ∧ c.stop ≤ t.stop) ∧
      gapsAreBlank (Source.ofString s) t.children = true)
    ⟨fun ⟨h₁, h₂, h₃, h₄, h₅⟩ => ⟨h₁, h₂, h₃, h₄, h₅⟩,
      fun ⟨h₁, h₂, h₃, h₄, h₅⟩ => ⟨h₁, h₂, h₃, h₄, h₅⟩⟩

instance (s : String) (t : Tree) : Decidable (Solid s t) :=
  decidable_of_iff
    (t.start < t.stop ∧ IsInk s t.start ∧
      isBlankBetween (Source.ofString s) ((Source.ofString s).lineStart t.stop) t.stop = false)
    ⟨fun ⟨h₁, h₂, h₃⟩ => ⟨h₁, h₂, h₃⟩, fun ⟨h₁, h₂, h₃⟩ => ⟨h₁, h₂, h₃⟩⟩

instance (s : String) (root : Tree) : Decidable (Layout s root) :=
  decidable_of_iff
    ((∀ n ∈ root.nodes, Nested s n) ∧
      (∀ n ∈ root.inner, isFragment n = false → Solid s n) ∧
      (∀ n ∈ root.nodes, n.isNamed = false → n.children = []) ∧
      (∀ n ∈ root.nodes, hasPlainOperand n = true) ∧
      (∀ n ∈ root.nodes, hasBracedBody (Source.ofString s) n = true) ∧
      (∀ n ∈ root.nodes, ∀ place ∈ wordEnds n, ∀ r ∈ removals (Source.ofString s) root,
        isBlankBetween (Source.ofString s) place r.1 = false) ∧
      (∀ n ∈ root.nodes, ∀ place ∈ heads (Source.ofString s) n,
        ∀ r ∈ removals (Source.ofString s) root,
          isBlankBetween (Source.ofString s) place r.1 = false) ∧
      ∀ n ∈ root.nodes, ∀ place ∈ tails (Source.ofString s) n,
        ∀ r ∈ removals (Source.ofString s) root,
          isBlankBetween (Source.ofString s) r.2 place = false)
    ⟨fun ⟨h₁, h₂, h₃, h₄, h₅, h₆, h₇, h₈⟩ => ⟨h₁, h₂, h₃, h₄, h₅, h₆, h₇, h₈⟩,
      fun ⟨h₁, h₂, h₃, h₄, h₅, h₆, h₇, h₈⟩ => ⟨h₁, h₂, h₃, h₄, h₅, h₆, h₇, h₈⟩⟩

end ClassScript.Emission
