/-
  File:      ClassScript/Proofs/Emission/Enum/Execution.lean
  Subject:   The values that the members of an enum have in the script.

  A member has the value that it is given: an integer literal, or the value of
  an earlier member. Without one it has one more than the member before it,
  and the first one has zero. The script arrives at the same values when it
  carries out the assignments on an object, some of which count in the script
  itself.

  The script may go wrong on the way. The object also maps values back to
  names, in properties of the same object, so no member may be named like a
  value. And the lowering takes the name of a member for a number if its
  reader finds one in it: `_1` is 1 to it.

  The two sides are kept together by `Agrees`: what the lowering counts on
  from, and what the object holds, are right for the members so far. It holds
  at the start, and each member keeps it.

  * `Object`, `Assignment.run?`, `runAll?`: what a script does;
  * `Initializer`, `declaration?`, `valuesFrom?`: what the source says;
  * `Gives`, `gives_of_initializer?`: a value as the lowering has it;
  * `Agrees`, `run?_of_agrees`, `runAll?_of_agrees`: one member, and all;
  * `lowerEnum_values`: the values of an enum.
-/
import Mathlib.Algebra.Group.Nat.Defs
import ClassScript.Proofs.Emission.Enum.Members
import ClassScript.Proofs.Script.IntegerLiteral

namespace ClassScript.Script

/-! ## 1. Objects -/

/-- What a property holds. -/
inductive Held where
  | integer (n : Int)
  | text (units : List Nat)
  deriving DecidableEq, Repr

/-- The properties of an object that hold integers and texts, by the code units of their names. -/
def Object : Type := List Nat → Option Held

/-- The name of the property that is no property of the object itself. -/
def prototypeName : List Nat := "__proto__".toList.map Char.toNat

/-- The object after an assignment to a property. -/
def Object.set (o : Object) (name : List Nat) (held : Held) : Object := fun other =>
  if other = name ∧ name ≠ prototypeName then some held else o other

/-- The integer that a property holds. -/
def Object.integer? (o : Object) (name : List Nat) : Option Int :=
  match o name with
  | some (.integer n) => some n
  | _ => none

/-- The integer, if numbers of a script have it exactly. -/
def exactInteger? (n : Int) : Option Int := if n.natAbs < 2 ^ 53 then some n else none

/-- The name of the property that an integer stands for. -/
def decimalName (n : Int) : List Nat := (toString n).toList.map Char.toNat

variable {o : Object} {name other : List Nat} {held : Held}

theorem Object.set_self (h : name ≠ prototypeName) : o.set name held name = some held :=
  if_pos ⟨rfl, h⟩

theorem Object.set_other (h : other ≠ name) : o.set name held other = o other :=
  if_neg fun hname => h hname.1

theorem exactInteger?_of_lt {n : Int} (h : n.natAbs < 2 ^ 53) : exactInteger? n = some n := if_pos h

end ClassScript.Script

namespace ClassScript.Emission

open Syntax (Source Tree)
open Script (Object Held prototypeName exactInteger? decimalName textLiteral? unitsFrom?
  integerLiteral?)

/-! ## 2. What a script does -/

/-- The integer that the text of a value comes to: that of a literal, of a property, or of an
    addition. Of other values nothing is said. -/
def Value.result? (o : Object) : Value → Option Int
  | .integer n => (integerLiteral? (toString n).toList).bind exactInteger?
  | .oneMoreThan key =>
    (textLiteral? (keyLiteral key)).bind fun name =>
      (o.integer? name).bind fun n => exactInteger? (n + 1)
  | .written pieces =>
    match pieces.filter (· ≠ .copied "") with
    | [.copied text] => (integerLiteral? text.toList).bind exactInteger?
    | [.reference member] => (unitsFrom? '"' 0 member.toList).bind o.integer?
    | _ => none

/-- The value that an assignment assigns, and the object after it. -/
def Assignment.run? (o : Object) (a : Assignment) : Option (Int × Object) :=
  (a.value.result? o).bind fun n => (textLiteral? (keyLiteral a.key)).map fun name =>
    let o := o.set name (.integer n)
    (n, if a.mapsBack then o.set (decimalName n) (.text name) else o)

/-- The values that assignments assign one after the other, and the object after them. -/
def runAll? (o : Object) : List Assignment → Option (List Int × Object)
  | [] => some ([], o)
  | a :: body =>
    (a.run? o).bind fun (n, o) => (runAll? o body).map fun (values, o) => (n :: values, o)

/-! ## 3. What the source says -/

/-- What the source says about the value of a member. -/
inductive Initializer where
  /-- Nothing. -/
  | next
  | literal (n : Int)
  /-- It is the value of the member `name`. -/
  | sameAs (name : List Nat)
  deriving DecidableEq, Repr

/-- The value given to a part of an enum's body. -/
def memberValue? (m : Tree) : Option Tree :=
  if m.kind = .enumAssignment then m.part? .value else none

/-- What is said about the value of a member, if it is an integer literal or a name. -/
def initializer? (src : Source) (m : Tree) : Option Initializer :=
  match memberValue? m with
  | none => some .next
  | some value =>
    if value.kind = .identifier then (unitsFrom? '"' 0 (value.text src).toList).map .sameAs
    else if value.kind = .stringLiteral ∨ value.kind = .templateLiteral ∨
      referencesIn value ≠ [] then none
    else (integerLiteral? (value.text src).toList).map .literal

/-- The name of a member, and what is said about its value. -/
def declaration? (src : Source) (m : Tree) : Option (List Nat × Initializer) :=
  (memberName? m).bind fun name => (nameUnits? src name).bind fun units =>
    (initializer? src m).map (units, ·)

/-- One more than the value of the last member, which comes first; or zero. -/
def nextValue : List (List Nat × Int) → Int
  | [] => 0
  | (_, n) :: _ => n + 1

/-- The value of a member behind others. -/
def valueOf? (before : List (List Nat × Int)) : Initializer → Option Int
  | .next => some (nextValue before)
  | .literal n => some n
  | .sameAs name => before.lookup name

/-- The values of members behind others, the last of which comes first. -/
def valuesFrom? (before : List (List Nat × Int)) : List (List Nat × Initializer) → Option (List Int)
  | [] => some []
  | (name, init) :: members =>
    (valueOf? before init).bind fun n =>
      (valuesFrom? ((name, n) :: before) members).map (n :: ·)

variable {before : List (List Nat × Int)} {members : List (List Nat × Initializer)}
  {values : List Int}

/-- A member without a value has one more than the member before it, or zero. -/
theorem getElem?_valuesFrom? (h : valuesFrom? before members = some values) :
    (∀ name, members[0]? = some (name, .next) → values[0]? = some (nextValue before)) ∧
      ∀ (i : Nat) name n, members[i + 1]? = some (name, .next) → values[i]? = some n →
        values[i + 1]? = some (n + 1) := by
  induction members generalizing before values with
  | nil => exact ⟨fun _ => nofun, fun _ _ _ => nofun⟩
  | cons m members ih =>
    obtain ⟨name, init⟩ := m
    obtain ⟨n, hn, hrest⟩ := Option.bind_eq_some_iff.mp h
    obtain ⟨values, hvalues, rfl⟩ := Option.map_eq_some_iff.mp hrest
    obtain ⟨hfirst, hlater⟩ := ih hvalues
    refine ⟨fun name' hname' => ?_, fun i name' k hname' hk => ?_⟩
    · obtain rfl : init = .next := (Prod.mk.inj (Option.some.inj hname')).2
      exact hn.symm
    · cases i with
      | zero =>
        obtain rfl : n = k := Option.some.inj hk
        exact hfirst name' hname'
      | succ i => exact hlater i name' k hname' hk

/-! ## 4. Values as the lowering has them -/

/-- The value as the lowering has it says the same as the source. What is read off a literal is
    what it denotes, and nothing is read off a name. -/
inductive Gives : Given → Initializer → Prop where
  | nothing : Gives .nothing .next
  | literal {text : String} {n : Int} {read : Option Int}
      (denotes : integerLiteral? text.toList = some n) (reads : ∀ k, read = some k → k = n) :
      Gives (.expression [.copied text] read) (.literal n)
  | reference {member : String} {name : List Nat}
      (denotes : unitsFrom? '"' 0 member.toList = some name) :
      Gives (.expression [.copied "", .reference member, .copied ""] none) (.sameAs name)

/-- A member as the lowering has it says the same as the source: its key denotes its name. -/
structure Declares (e : EnumMember) (d : List Nat × Initializer) : Prop where
  name : textLiteral? (keyLiteral e.key) = some d.1
  value : Gives e.given d.2

theorem Gives.hasText_eq {e : EnumMember} {init : Initializer} (h : Gives e.given init) :
    e.hasText = false := by
  unfold EnumMember.hasText
  generalize e.given = given at h
  cases h <;> rfl

variable {src : Source} {t m : Tree}

theorem text_self (src : Source) (a : Nat) : src.text a a = "" := by
  rw [Source.text, Source.slice, ByteArray.extract_same]
  rfl

/-- What a name of a member is in pieces. -/
theorem pieces_of_identifier {value : Tree} {keys : List String} (hkind : value.kind = .identifier)
    (hkey : value.text src ∈ keys) :
    pieces src keys value = [.copied "", .reference (value.text src), .copied ""] := by
  have hself : referencesIn value = [value] := by
    obtain ⟨kind, field, start, stop, parts⟩ := value
    obtain rfl : kind = .identifier := hkind
    rw [referencesIn, if_pos rfl]
  rw [pieces, hself, piecesFrom, if_pos (List.contains_iff_mem.mpr hkey), piecesFrom, text_self,
    text_self]

/-- **The value of a member**, as the source says it and as the lowering has it. -/
theorem gives_of_initializer? {keys : List String} {init : Initializer}
    (h : initializer? src m = some init)
    (hnames : ∀ value ∈ memberValue? m, value.kind = .identifier →
      value.text src ∈ keys ∧ readInteger? (value.text src) = none) :
    Gives (givenValue src keys m) init := by
  unfold initializer? at h
  show Gives (match memberValue? m with
    | none => .nothing
    | some value =>
      if value.kind = .stringLiteral then .literalText (value.text src)
      else if value.kind = .templateLiteral then .template (pieces src keys value)
      else .expression (pieces src keys value) (readInteger? (value.text src))) init
  cases hvalue : memberValue? m with
  | none =>
    rw [hvalue] at h
    obtain rfl := Option.some.inj h
    exact .nothing
  | some value =>
    rw [hvalue] at h
    dsimp only at h ⊢
    by_cases hname : value.kind = .identifier
    · rw [if_pos hname] at h
      obtain ⟨units, hunits, rfl⟩ := Option.map_eq_some_iff.mp h
      obtain ⟨hkey, hread⟩ := hnames value hvalue hname
      rw [if_neg (by rw [hname]; decide), if_neg (by rw [hname]; decide),
        pieces_of_identifier hname hkey, hread]
      exact .reference hunits
    · rw [if_neg hname] at h
      by_cases hother : value.kind = .stringLiteral ∨ value.kind = .templateLiteral ∨
          referencesIn value ≠ []
      · rw [if_pos hother] at h
        cases h
      · rw [if_neg hother] at h
        obtain ⟨n, hn, rfl⟩ := Option.map_eq_some_iff.mp h
        have hpieces : pieces src keys value = [.copied (value.text src)] := by
          have hnone : referencesIn value = [] :=
            Classical.byContradiction fun hne => hother (.inr (.inr hne))
          rw [pieces, hnone]
          rfl
        rw [if_neg (fun hkind => hother (.inl hkind)),
          if_neg (fun hkind => hother (.inr (.inl hkind))), hpieces]
        exact .literal hn fun k hk => Script.eq_of_readLiteral? hn hk

/-! ## 5. One member -/

/-- The lowering and the object are right about the members so far: the object holds their values,
    and what the next member counts on from comes to one more than the last of them. -/
structure Agrees (before : List (List Nat × Int)) (counter : Counter) (o : Object) : Prop where
  holds : ∀ name n, before.lookup name = some n → o name = some (.integer n)
  counts : match counter with
    | .integer n => n = nextValue before
    | .oneMoreThan key => ∃ name n rest, before = (name, n) :: rest ∧
        textLiteral? (keyLiteral key) = some name
    | .unknown => False

theorem agrees_start (o : Object) : Agrees [] (.integer 0) o := ⟨nofun, rfl⟩

variable {counter : Counter} {o : Object} {e : EnumMember} {name : List Nat} {n : Int}
  {init : Initializer}

theorem integer?_of_lookup (h : Agrees before counter o) (hname : before.lookup name = some n) :
    o.integer? name = some n := by
  rw [Object.integer?, h.holds name n hname]

/-- The value that the lowering has for a member comes to the one that the source says. -/
theorem result?_of_agrees (h : Agrees before counter o) (hgives : Gives e.given init)
    (hvalue : valueOf? before init = some n) (hexact : n.natAbs < 2 ^ 53) :
    (counter.valueOf e).result? o = some n := by
  unfold Counter.valueOf
  generalize e.given = given at hgives
  cases hgives with
  | nothing =>
    obtain rfl : nextValue before = n := Option.some.inj hvalue
    have hcounts := h.counts
    cases counter with
    | integer k =>
      obtain rfl : k = nextValue before := hcounts
      show (integerLiteral? (toString (nextValue before)).toList).bind exactInteger? = _
      rw [Script.integerLiteral?_toString]
      exact Script.exactInteger?_of_lt hexact
    | oneMoreThan key =>
      obtain ⟨name, k, rest, rfl, hname⟩ := hcounts
      have hlast : o.integer? name = some k := integer?_of_lookup h List.lookup_cons_self
      show (textLiteral? (keyLiteral key)).bind _ = _
      rw [hname, Option.bind_some, hlast, Option.bind_some]
      exact Script.exactInteger?_of_lt hexact
    | unknown => exact hcounts.elim
  | @literal text k read hdenotes =>
    obtain rfl : k = n := Option.some.inj hvalue
    have htext : text ≠ "" := by
      rintro rfl
      simp [integerLiteral?] at hdenotes
    show (match [Piece.copied text].filter (· ≠ .copied "") with
      | [.copied text] => (integerLiteral? text.toList).bind exactInteger?
      | [.reference member] => (unitsFrom? '"' 0 member.toList).bind o.integer?
      | _ => none) = _
    rw [List.filter_cons_of_pos (by simpa using htext), List.filter_nil]
    dsimp only
    rw [hdenotes]
    exact Script.exactInteger?_of_lt hexact
  | @reference member other hdenotes =>
    show (unitsFrom? '"' 0 member.toList).bind o.integer? = some n
    rw [hdenotes]
    exact integer?_of_lookup h hvalue

theorem after_of_lt (key : String) (h : n.natAbs < 2 ^ 53) :
    Counter.after key (some n) = .integer (n + 1) := by
  have hbounds : -maxInteger - 2 ≤ n ∧ n + 1 ≤ maxInteger := by
    unfold maxInteger
    omega
  rw [Counter.after_eq_beyond hbounds.1, Counter.beyond, if_pos hbounds.2]

/-- What the lowering counts on from behind a member is right. -/
theorem next_of_agrees (h : Agrees before counter o) (hgives : Gives e.given init)
    (hvalue : valueOf? before init = some n) (hexact : n.natAbs < 2 ^ 53) :
    counter.next e = .integer (n + 1) ∨ counter.next e = .oneMoreThan e.key := by
  unfold Counter.next
  generalize e.given = given at hgives
  cases hgives with
  | nothing =>
    obtain rfl : nextValue before = n := Option.some.inj hvalue
    have hcounts := h.counts
    cases counter with
    | integer k =>
      obtain rfl : k = nextValue before := hcounts
      exact .inl (after_of_lt e.key hexact)
    | oneMoreThan key => exact .inr rfl
    | unknown => exact hcounts.elim
  | @literal text k read hdenotes hreads =>
    obtain rfl : k = n := Option.some.inj hvalue
    cases read with
    | none => exact .inr rfl
    | some k' =>
      obtain rfl := hreads k' rfl
      exact .inl (after_of_lt e.key hexact)
  | reference => exact .inr rfl

theorem mem_of_lookup {other : List Nat} {k : Int} (h : before.lookup other = some k) :
    other ∈ before.map Prod.fst := by
  obtain ⟨front, back, rfl, _⟩ := List.lookup_eq_some_iff.mp h
  exact List.mem_map.mpr ⟨(other, k), by simp, rfl⟩

/-- **One member.** Its assignment assigns its value, and the lowering and the object stay right,
    if no member so far is named like the value. -/
theorem run?_of_agrees (h : Agrees before counter o) (hdeclares : Declares e (name, init))
    (hvalue : valueOf? before init = some n) (hexact : n.natAbs < 2 ^ 53)
    (hproto : name ≠ prototypeName)
    (hapart : ∀ other ∈ name :: before.map Prod.fst, other ≠ decimalName n) :
    ∃ o', Assignment.run? o ⟨e.key, counter.valueOf e, !e.hasText⟩ = some (n, o') ∧
      Agrees ((name, n) :: before) (counter.next e) o' := by
  refine ⟨(o.set name (.integer n)).set (decimalName n) (.text name), ?_, ?_, ?_⟩
  · rw [Assignment.run?, result?_of_agrees h hdeclares.value hvalue hexact, Option.bind_some,
      hdeclares.name, hdeclares.value.hasText_eq]
    rfl
  · -- the property that maps back is none of a member so far
    intro other k hother
    rw [List.lookup_cons] at hother
    by_cases hsame : other = name
    · rw [hsame, beq_self_eq_true] at hother
      obtain rfl : n = k := Option.some.inj hother
      rw [hsame, Object.set_other (hapart name List.mem_cons_self), Object.set_self hproto]
    · rw [beq_eq_false_iff_ne.mpr hsame] at hother
      rw [Object.set_other (hapart other (List.mem_cons_of_mem name (mem_of_lookup hother))),
        Object.set_other hsame, h.holds other k hother]
  · rcases next_of_agrees h hdeclares.value hvalue hexact with hnext | hnext
    · rw [hnext]
      rfl
    · rw [hnext]
      exact ⟨name, n, before, rfl, hdeclares.name⟩

/-! ## 6. All members -/

/-- **All members.** Their assignments assign their values, and at the end the object holds the
    value of each, if no member is named like a value. -/
theorem runAll?_of_agrees {ms : List EnumMember} (hdeclares : List.Forall₂ Declares ms members)
    (h : Agrees before counter o) (hvalues : valuesFrom? before members = some values)
    (hexact : ∀ n ∈ values, n.natAbs < 2 ^ 53)
    (hproto : ∀ name ∈ members.map Prod.fst, name ≠ prototypeName)
    (hapart : ∀ name ∈ before.map Prod.fst ++ members.map Prod.fst, ∀ n ∈ values,
      name ≠ decimalName n) :
    ∃ o', runAll? o (bodyFrom counter ms) = some (values, o') ∧
      ∀ name n, (((members.map Prod.fst).zip values).reverse ++ before).lookup name = some n →
        o' name = some (.integer n) := by
  -- what the lowering counts on from and what the object holds change with each member
  induction hdeclares generalizing before counter o values with
  | nil =>
    obtain rfl : [] = values := Option.some.inj hvalues
    exact ⟨o, rfl, h.holds⟩
  | @cons e d ms members hd _ ih =>
    obtain ⟨name, init⟩ := d
    obtain ⟨n, hn, hrest⟩ := Option.bind_eq_some_iff.mp hvalues
    obtain ⟨values, hlast, rfl⟩ := Option.map_eq_some_iff.mp hrest
    have hfirst : ∀ other ∈ name :: before.map Prod.fst, other ≠ decimalName n := by
      intro other hother
      refine hapart other ?_ n List.mem_cons_self
      rcases List.mem_cons.mp hother with rfl | hother
      · exact List.mem_append_right _ List.mem_cons_self
      · exact List.mem_append_left _ hother
    obtain ⟨o₁, hrun, h₁⟩ := run?_of_agrees h hd hn (hexact n List.mem_cons_self)
      (hproto name List.mem_cons_self) hfirst
    have hlater : ∀ other ∈ ((name, n) :: before).map Prod.fst ++ members.map Prod.fst,
        ∀ k ∈ values, other ≠ decimalName k := by
      intro other hother k hk
      refine hapart other ?_ k (List.mem_cons_of_mem n hk)
      simp only [List.map_cons, List.cons_append, List.mem_cons, List.mem_append] at hother ⊢
      exact hother.elim (.inr ∘ .inl) fun h => h.elim .inl (.inr ∘ .inr)
    obtain ⟨o', hall, hholds⟩ := ih h₁ hlast (fun k hk => hexact k (List.mem_cons_of_mem n hk))
      (fun other hother => hproto other (List.mem_cons_of_mem name hother)) hlater
    refine ⟨o', ?_, fun other k hother => hholds other k ?_⟩
    · rw [bodyFrom, runAll?, hrun, Option.bind_some]
      dsimp only
      rw [hall]
      rfl
    · simpa using hother

/-- A declared member as the lowering has it. -/
theorem declares_of_declaration? {keys : List String} {d : List Nat × Initializer}
    (he : EnumMember.ofTree? src keys m = some e) (hd : declaration? src m = some d)
    (hkeeps : ∀ name ∈ memberName? m, KeepsMeaning src name)
    (hnames : ∀ value ∈ memberValue? m, value.kind = .identifier →
      value.text src ∈ keys ∧ readInteger? (value.text src) = none) : Declares e d := by
  obtain ⟨name, hname, hdeclared⟩ := Option.bind_eq_some_iff.mp hd
  obtain ⟨units, hunits, hinit⟩ := Option.bind_eq_some_iff.mp hdeclared
  obtain ⟨init, hvalue, rfl⟩ := Option.map_eq_some_iff.mp hinit
  obtain ⟨name', hname', hkey⟩ := key_of_ofTree? he
  obtain rfl : name = name' := Option.some.inj (hname.symm.trans hname')
  obtain ⟨key, _, rfl⟩ := Option.map_eq_some_iff.mp he
  refine ⟨?_, gives_of_initializer? hvalue hnames⟩
  rw [hkey]
  exact (textLiteral?_of_nameUnits? hunits).mpr (hkeeps name hname)

theorem forall₂_declares {keys : List String} {parts : List Tree} {ms : List EnumMember}
    (hms : List.Forall₂ (fun m e => EnumMember.ofTree? src keys m = some e) parts ms)
    (hds : parts.map (declaration? src) = members.map some)
    (hkeeps : ∀ m ∈ parts, ∀ name ∈ memberName? m, KeepsMeaning src name)
    (hnames : ∀ m ∈ parts, ∀ value ∈ memberValue? m, value.kind = .identifier →
      value.text src ∈ keys ∧ readInteger? (value.text src) = none) :
    List.Forall₂ Declares ms members := by
  induction hms generalizing members with
  | nil =>
    rw [List.map_eq_nil_iff.mp hds.symm]
    exact .nil
  | @cons m e parts ms he _ ih =>
    cases members with
    | nil => cases hds
    | cons d members =>
      obtain ⟨hd, hrest⟩ := List.cons.inj hds
      exact .cons
        (declares_of_declaration? he hd (hkeeps m List.mem_cons_self) (hnames m List.mem_cons_self))
        (ih hrest (fun x hx => hkeeps x (List.mem_cons_of_mem m hx))
          fun x hx => hnames x (List.mem_cons_of_mem m hx))

/-- No member has a text, so none lacks a value to count on from. -/
theorem firstUncounted?_of_declares {ms : List EnumMember}
    (h : List.Forall₂ Declares ms members) : firstUncounted? ms = none := by
  induction h with
  | nil => rfl
  | cons hd hrest ih =>
    cases hrest with
    | nil => rfl
    | cons => rw [firstUncounted?, hd.value.hasText_eq, Bool.false_and, if_neg Bool.false_ne_true, ih]

/-! ## 7. The lowered enum -/

/-- The source gives the members of an enum these values, and nothing is in the way of the script
    and the lowering. -/
structure Evaluates (src : Source) (t : Tree) (members : List (List Nat × Initializer))
    (values : List Int) : Prop where
  /-- Each member has an integer literal for its value, the name of an earlier one, or none. -/
  declared : (declaredMembers t).map (declaration? src) = members.map some
  evaluated : valuesFrom? [] members = some values
  exact : ∀ n ∈ values, n.natAbs < 2 ^ 53
  /-- No comment is taken for a member. -/
  comments : ∀ m ∈ t.bodyParts, m.kind ≠ .comment
  /-- Each name denotes the same between double quotes. -/
  keeps : ∀ m ∈ declaredMembers t, ∀ name ∈ memberName? m, KeepsMeaning src name
  /-- A name that stands for a value is written like the member's, and no number is read off it. -/
  references : ∀ m ∈ declaredMembers t, ∀ value ∈ memberValue? m, value.kind = .identifier →
    value.text src ∈ t.bodyParts.filterMap (memberKey? src) ∧
      readInteger? (value.text src) = none
  /-- No member is named like a value, or like what is no property of the object. -/
  names : ∀ name ∈ members.map Prod.fst,
    name ≠ prototypeName ∧ ∀ n ∈ values, name ≠ decimalName n

variable (h : Evaluates src t members values)

include h

theorem Evaluates.namedParts_eq : namedParts t = declaredMembers t :=
  (List.filter_sublist.eq_of_length ((declaredMembers_eq_iff t).mpr h.comments)).symm

/-- The members as the lowering has them say the same as the source. -/
theorem Evaluates.declares : List.Forall₂ Declares (enumMembers src t) members := by
  have hmembers := forall₂_enumMembers src t
  rw [h.namedParts_eq] at hmembers
  exact forall₂_declares hmembers h.declared h.keeps h.references

/-- **The values of an enum.** It can be lowered, and whatever object the script starts from, the
    assignments assign the values that the source gives, in their order; at the end each member
    has the last value under its name. A member without a value has one more than the one before
    it, and the first one zero. -/
theorem lowerEnum_values :
    ∃ body text,
      lowerEnum src t = .ok (.ofEdit ⟨t.start, t.stop, text⟩) ∧
      IsEnumText (t.nameText src) (indentation src t) body text ∧
      (∀ o, ∃ o', runAll? o body = some (values, o') ∧
        ∀ name n, ((members.map Prod.fst).zip values).reverse.lookup name = some n →
          o' name = some (.integer n)) ∧
      (∀ name, members[0]? = some (name, .next) → values[0]? = some 0) ∧
      ∀ (i : Nat) name n, members[i + 1]? = some (name, .next) → values[i]? = some n →
        values[i + 1]? = some (n + 1) := by
  have hdeclares := h.declares
  refine ⟨bodyFrom (.integer 0) (enumMembers src t), _, ?_, isEnumText_iff.mpr rfl, fun o => ?_,
    getElem?_valuesFrom? h.evaluated⟩
  · rw [lowerEnum, assignments_eq, firstUncounted?_of_declares hdeclares]
    rfl
  · obtain ⟨o', hrun, hholds⟩ := runAll?_of_agrees hdeclares (agrees_start o) h.evaluated h.exact
      (fun name hname => (h.names name hname).1) fun name hname => (h.names name hname).2
    exact ⟨o', hrun, fun name n hname => hholds name n (by rwa [List.append_nil])⟩

omit h

/-- An enum of which some members are counted in the script. -/
def mixedText : String := "enum E \x7b A = -0xf, 'B', C = 0b111, D, F = A, G \x7d"

def mixedMembers : List (List Nat × Initializer) :=
  [([65], .literal (-15)), ([66], .next), ([67], .literal 7), ([68], .next),
    ([70], .sameAs [65]), ([71], .next)]

/-- The script counts on behind a base that the lowering does not read, and behind a name. -/
theorem lowerEnum_values_mixed :
    let src := Source.ofString mixedText
    let t := enumOf mixedText
    let values := [-15, -14, 7, 8, -15, -14]
    Evaluates src t mixedMembers values ∧ ∃ body text,
      lowerEnum src t = .ok (.ofEdit ⟨t.start, t.stop, text⟩) ∧
      IsEnumText (t.nameText src) (indentation src t) body text ∧
      ∀ o, ∃ o', runAll? o body = some (values, o') ∧ o' [71] = some (.integer (-14)) := by
  intro src t values
  have htree : (declaredMembers t).map (declaration? src) = mixedMembers.map some ∧
      (∀ m ∈ t.bodyParts, m.kind ≠ .comment) ∧
      (∀ m ∈ declaredMembers t, ∀ name ∈ memberName? m, KeepsMeaning src name) ∧
      ∀ m ∈ declaredMembers t, ∀ value ∈ memberValue? m, value.kind = .identifier →
        value.text src ∈ t.bodyParts.filterMap (memberKey? src) ∧
          readInteger? (value.text src) = none := by
    decide +kernel
  obtain ⟨hdeclared, hcomments, hkeeps, hreferences⟩ := htree
  have h : Evaluates src t mixedMembers values :=
    ⟨hdeclared, by decide, by decide, hcomments, hkeeps, hreferences, by decide +kernel⟩
  obtain ⟨body, text, hlowered, htext, hrun, _⟩ := lowerEnum_values h
  refine ⟨h, body, text, hlowered, htext, fun o => ?_⟩
  obtain ⟨o', hvalues, hholds⟩ := hrun o
  exact ⟨o', hvalues, hholds [71] (-14) (by decide)⟩

/-- An enum with a member whose name the lowering reads as a number. -/
def misreadText : String := "enum E\x7b_1=5,B=_1,C\x7d"

/-- The name `_1` is read as one: the last member gets two, behind one with the value five. -/
theorem misread_enum_values :
    let members := [([95, 49], .literal 5), ([66], .sameAs [95, 49]), ([67], .next)]
    (declaredMembers (enumOf misreadText)).map (declaration? (.ofString misreadText)) =
        members.map some ∧
      valuesFrom? [] members = some [5, 5, 6] ∧
      ((assignmentsIn? misreadText).bind (runAll? fun _ => none)).map Prod.fst =
        some [5, 5, 2] := by
  decide +kernel

end ClassScript.Emission
