/-
  File:      ClassScript/Proofs/Emission/Enum/Counting.lean
  Subject:   How the members of an enum count on.

  What a member without a value gets depends on a counter with three states.
  After an integer it is the next integer; after any other expression, and
  past the greatest integer of 64 bits, the script adds one to the member
  before; after a text there is nothing to count on from. What a run of
  members without values does to the counter is said in one state,
  `Counter.beyond`, which is kept from each member of the run to the next.

  * `Counter.next`, `assignments_eq`: the assignments, member by member;
  * `firstUncounted?`, `assignments_eq_error_iff`: when there are none;
  * `Counter.beyond`, `foldl_next_beyond`: the counter along a run;
  * `lowerEnum_counts`: the lowered enum.
-/
import ClassScript.Proofs.Emission.Enum.Lines
import ClassScript.Proofs.Syntax.Tree
import ClassScript.Syntax.Program

namespace ClassScript.Emission

open Syntax (Source Tree Kind)

/-! ## 1. Member by member -/

namespace EnumMember

/-- The value is a text, from which nothing counts on. -/
def hasText (m : EnumMember) : Bool :=
  match m.given with
  | .literalText _ | .template _ => true
  | .nothing | .expression _ _ => false

/-- No value is given. -/
def isBare (m : EnumMember) : Bool :=
  match m.given with
  | .nothing => true
  | _ => false

theorem isBare_iff {m : EnumMember} : m.isBare = true ↔ m.given = .nothing := by
  unfold isBare
  cases m.given <;> simp

theorem hasText_of_bare {m : EnumMember} (h : m.given = .nothing) : m.hasText = false := by
  rw [hasText, h]

end EnumMember

/-- The counter after a member. A member without a value is not reached from an unknown one. -/
def Counter.next (counter : Counter) (m : EnumMember) : Counter :=
  match m.given with
  | .literalText _ | .template _ => .unknown
  | .expression _ read => .after m.key read
  | .nothing =>
    match counter with
    | .integer n => .after m.key (some n)
    | .oneMoreThan _ | .unknown => .oneMoreThan m.key

/-- The value of a member, from a counter that is not unknown if the member has no value. -/
def Counter.valueOf (counter : Counter) (m : EnumMember) : Value :=
  match m.given with
  | .literalText text => .written [.copied text]
  | .template pieces | .expression pieces _ => .written pieces
  | .nothing =>
    match counter with
    | .integer n => .integer n
    | .oneMoreThan key => .oneMoreThan key
    | .unknown => .written []

/-- The assignments to members from a counter on, if there are any. -/
def bodyFrom : Counter → List EnumMember → List Assignment
  | _, [] => []
  | counter, m :: ms => ⟨m.key, counter.valueOf m, !m.hasText⟩ :: bodyFrom (counter.next m) ms

theorem assignment?_eq (counter : Counter) (m : EnumMember) :
    assignment? counter m =
      if counter = .unknown ∧ m.given = .nothing then none
      else some (⟨m.key, counter.valueOf m, !m.hasText⟩, counter.next m) := by
  unfold assignment? Counter.valueOf Counter.next EnumMember.hasText
  cases m.given with
  | literalText text => simp
  | template pieces => simp
  | expression pieces integer => simp
  | nothing => cases counter <;> simp

/-- Nothing counts on after a text, and after nothing else. -/
theorem Counter.next_eq_unknown_iff (counter : Counter) (m : EnumMember) :
    counter.next m = .unknown ↔ m.hasText = true := by
  have hafter (n : Option Int) : Counter.after m.key n ≠ .unknown := by
    unfold Counter.after
    split <;> exact nofun
  unfold next EnumMember.hasText
  cases m.given with
  | literalText text => simp
  | template pieces => simp
  | expression pieces integer => simpa using hafter integer
  | nothing =>
    cases counter with
    | integer n => simpa using hafter (some n)
    | oneMoreThan key => simp
    | unknown => simp

theorem Counter.next_of_expression (counter : Counter) {m : EnumMember} {pieces : List Piece}
    {read : Option Int} (h : m.given = .expression pieces read) :
    counter.next m = .after m.key read := by
  unfold next
  rw [h]

theorem map_key_bodyFrom (counter : Counter) (ms : List EnumMember) :
    (bodyFrom counter ms).map Assignment.key = ms.map EnumMember.key := by
  induction ms generalizing counter with
  | nil => rfl
  | cons m ms ih => rw [bodyFrom, List.map_cons, ih, List.map_cons]

/-! ## 2. When there are assignments -/

/-- The first member without a value that comes directly after one with a text. -/
def firstUncounted? : List EnumMember → Option EnumMember
  | a :: m :: ms => if a.hasText && m.isBare then some m else firstUncounted? (m :: ms)
  | _ => none

/-- What assignments come to, if `uncounted` is the first member that has to have a value. -/
def outcome (uncounted : Option EnumMember) (body : List Assignment) :
    Except EmissionError (List Assignment) :=
  match uncounted with
  | none => .ok body
  | some m => .error (.missingValue m.key m.position)

theorem map_cons_outcome (uncounted : Option EnumMember) (a : Assignment)
    (body : List Assignment) :
    (outcome uncounted body).map (a :: ·) = outcome uncounted (a :: body) := by
  cases uncounted <;> rfl

/-- Behind a member, the counter is unknown exactly if the member has a text. -/
theorem assignmentsFrom_behind {counter : Counter} {a : EnumMember}
    (h : counter = .unknown ↔ a.hasText = true) (ms : List EnumMember) :
    assignmentsFrom counter ms = outcome (firstUncounted? (a :: ms)) (bodyFrom counter ms) := by
  induction ms generalizing counter a with
  | nil => rfl
  | cons m ms ih =>
    rw [assignmentsFrom, assignment?_eq, firstUncounted?]
    by_cases hfails : counter = .unknown ∧ m.given = .nothing
    · have htext : (a.hasText && m.isBare) = true :=
        Bool.and_eq_true_iff.mpr ⟨h.mp hfails.1, EnumMember.isBare_iff.mpr hfails.2⟩
      rw [if_pos hfails, if_pos htext]
      rfl
    · have htext : ¬(a.hasText && m.isBare) = true := by
        rw [Bool.and_eq_true_iff, EnumMember.isBare_iff, ← h]
        exact hfails
      rw [if_neg hfails, if_neg htext, bodyFrom, ← map_cons_outcome,
        ← ih (counter.next_eq_unknown_iff m)]

/-- **The assignments of an enum**: those of its members one by one, unless a member without a
    value comes directly after one with a text. -/
theorem assignments_eq (ms : List EnumMember) :
    assignments ms = outcome (firstUncounted? ms) (bodyFrom (.integer 0) ms) := by
  cases ms with
  | nil => rfl
  | cons m ms =>
    rw [assignments, assignmentsFrom, assignment?_eq, if_neg (fun h => nomatch h.1), bodyFrom,
      ← map_cons_outcome, ← assignmentsFrom_behind (Counter.next_eq_unknown_iff _ m)]

theorem assignments_eq_error_iff {ms : List EnumMember} {e : EmissionError} :
    assignments ms = .error e ↔
      ∃ m, firstUncounted? ms = some m ∧ e = .missingValue m.key m.position := by
  rw [assignments_eq]
  cases firstUncounted? ms with
  | none => simp [outcome]
  | some m => simp [outcome, eq_comm]

theorem eq_bodyFrom_of_assignments {ms : List EnumMember} {body : List Assignment}
    (h : assignments ms = .ok body) : body = bodyFrom (.integer 0) ms := by
  rw [assignments_eq] at h
  cases hfirst : firstUncounted? ms with
  | none => rw [hfirst] at h; exact (Except.ok.inj h).symm
  | some m => rw [hfirst] at h; cases h

/-! ## 3. Integers of 64 bits -/

theorem fits_of_checked {m n : Int} (h : checked m = some n) : fits n = true := by
  unfold checked at h
  split at h
  · rename_i hfits
    rwa [← Option.some.inj h]
  · cases h

theorem fits_of_bind_checked {α : Type} {o : Option α} {f : α → Int} {n : Int}
    (h : (o.bind fun a => checked (f a)) = some n) : fits n = true := by
  obtain ⟨a, _, ha⟩ := Option.bind_eq_some_iff.mp h
  exact fits_of_checked ha

theorem fits_of_readRadix? {digit? : Char → Option Nat} {base : Nat} {cs : List Char} {n : Int}
    (h : readRadix? digit? base cs = some n) : fits n = true := by
  unfold readRadix? at h
  split at h <;> exact fits_of_bind_checked h

/-- What is read off a literal has 64 bits. -/
theorem fits_of_readInteger? {literal : String} {n : Int} (h : readInteger? literal = some n) :
    fits n = true := by
  unfold readInteger? at h
  rw [readLiteral?] at h
  split at h
  · exact fits_of_bind_checked h
  · unfold readMagnitude? at h
    split at h <;> exact fits_of_readRadix? h

/-- The integers that are read off values have 64 bits. -/
def ReadsIntegers (ms : List EnumMember) : Prop :=
  ∀ m ∈ ms, ∀ pieces n, m.given = .expression pieces (some n) → fits n = true

theorem readsIntegers_enumMembers (src : Source) (t : Tree) :
    ReadsIntegers (enumMembers src t) := by
  intro m hm pieces n hgiven
  obtain ⟨part, _, hpart⟩ := List.mem_filterMap.mp hm
  obtain ⟨key, _, rfl⟩ := Option.map_eq_some_iff.mp hpart
  change givenValue src _ part = _ at hgiven
  unfold givenValue at hgiven
  split at hgiven
  · cases hgiven
  · split at hgiven
    · cases hgiven
    · split at hgiven
      · cases hgiven
      · injection hgiven with _ hread
        exact fits_of_readInteger? hread

/-! ## 4. Runs of members without values -/

/-- The counter `n + 1`, where `key` is the member before: past the greatest integer it is the
    script that adds. -/
def Counter.beyond (n : Int) (key : String) : Counter :=
  if n + 1 ≤ maxInteger then .integer (n + 1) else .oneMoreThan key

theorem Counter.after_eq_beyond {n : Int} (h : -maxInteger - 2 ≤ n) (key : String) :
    Counter.after key (some n) = .beyond n key := by
  have hmin : -maxInteger - 1 ≤ n + 1 := by omega
  have hnext : (some n).bind plusOne? = checked (n + 1) := rfl
  rw [Counter.after, hnext]
  unfold checked beyond
  by_cases hle : n + 1 ≤ maxInteger
  · rw [if_pos (fits_iff.mpr ⟨hmin, hle⟩), if_pos hle]
  · rw [if_neg (fun h => hle (fits_iff.mp h).2), if_neg hle]

/-- The step along a run: from beyond `n` to beyond `n + 1`. -/
theorem Counter.next_beyond {n : Int} (h : -maxInteger - 2 ≤ n) (key : String) {m : EnumMember}
    (hm : m.given = .nothing) : (Counter.beyond n key).next m = .beyond (n + 1) m.key := by
  unfold next
  rw [hm]
  by_cases hle : n + 1 ≤ maxInteger
  · rw [beyond, if_pos hle]
    exact after_eq_beyond (by omega) m.key
  · rw [beyond, if_neg hle, beyond, if_neg (by omega)]

/-- The key of the last member, or `key` if there is none. -/
def lastKey (key : String) (ms : List EnumMember) : String := (ms.getLast?.map (·.key)).getD key

theorem lastKey_cons (key : String) (m : EnumMember) (ms : List EnumMember) :
    lastKey key (m :: ms) = lastKey m.key ms := by
  unfold lastKey
  cases ms with
  | nil => rfl
  | cons m' ms => rw [List.getLast?_cons_cons, List.getLast?_cons]; rfl

/-- **Along a run** of members without values, the counter is beyond one more with each. -/
theorem foldl_next_beyond {n : Int} (h : -maxInteger - 2 ≤ n) (key : String)
    {run : List EnumMember} (hrun : ∀ m ∈ run, m.given = .nothing) :
    run.foldl .next (Counter.beyond n key) = .beyond (n + run.length) (lastKey key run) := by
  induction run generalizing n key with
  | nil => simp [lastKey]
  | cons m run ih =>
    have hm := hrun m List.mem_cons_self
    have hrest : ∀ m ∈ run, m.given = .nothing := fun x hx => hrun x (List.mem_cons_of_mem m hx)
    rw [List.foldl_cons, Counter.next_beyond h key hm, ih (by omega) m.key hrest, lastKey_cons,
      List.length_cons]
    congr 1
    omega

/-- Along a run behind an addition of the script, the script adds to the member before. -/
theorem foldl_next_oneMoreThan (key : String) {run : List EnumMember}
    (hrun : ∀ m ∈ run, m.given = .nothing) :
    run.foldl .next (Counter.oneMoreThan key) = .oneMoreThan (lastKey key run) := by
  induction run generalizing key with
  | nil => rfl
  | cons m run ih =>
    have hstep : (Counter.oneMoreThan key).next m = .oneMoreThan m.key := by
      rw [Counter.next, hrun m List.mem_cons_self]
    rw [List.foldl_cons, hstep, ih m.key fun x hx => hrun x (List.mem_cons_of_mem m hx),
      lastKey_cons]

theorem lastKey_append (key : String) (ms more : List EnumMember) :
    lastKey key (ms ++ more) = lastKey (lastKey key ms) more := by
  induction ms generalizing key with
  | nil => rfl
  | cons m ms ih => rw [List.cons_append, lastKey_cons, ih, lastKey_cons]

/-- Members count on from `n` behind others: the last of these has the integer `n`, or there are
    none and `n` is one less than zero. -/
def CountsOnFrom (n : Int) (before : List EnumMember) : Prop :=
  (before = [] ∧ n = -1) ∨
    ∃ m pieces, before.getLast? = some m ∧ m.given = .expression pieces (some n)

/-- Members count on behind others in the script: the last of these has a value that is no text,
    and of which no integer is read. -/
def CountsOnInScript (before : List EnumMember) : Prop :=
  ∃ m pieces, before.getLast? = some m ∧ m.given = .expression pieces none

theorem foldl_next_of_getLast? {before : List EnumMember} {m : EnumMember}
    (h : before.getLast? = some m) (counter : Counter) :
    ∃ earlier : Counter, before.foldl .next counter = earlier.next m ∧
      ∀ key, lastKey key before = m.key := by
  obtain ⟨front, rfl⟩ := List.getLast?_eq_some_iff.mp h
  exact ⟨front.foldl .next counter, by rw [List.foldl_append]; rfl,
    fun key => by rw [lastKey_append]; rfl⟩

theorem CountsOnFrom.foldl_next {n : Int} {before : List EnumMember} (h : CountsOnFrom n before)
    (hreads : ReadsIntegers before) :
    -maxInteger - 2 ≤ n ∧
      before.foldl .next (Counter.integer 0) = .beyond n (lastKey "" before) := by
  rcases h with ⟨rfl, rfl⟩ | ⟨m, pieces, hlast, hgiven⟩
  · exact ⟨by decide, rfl⟩
  · have hmin := (fits_iff.mp (hreads m (List.mem_of_getLast? hlast) pieces n hgiven)).1
    obtain ⟨earlier, hfold, hkey⟩ := foldl_next_of_getLast? hlast (.integer 0)
    refine ⟨by omega, ?_⟩
    rw [hfold, hkey, Counter.next_of_expression _ hgiven]
    exact Counter.after_eq_beyond (by omega) m.key

theorem CountsOnInScript.foldl_next {before : List EnumMember} (h : CountsOnInScript before) :
    before.foldl .next (Counter.integer 0) = .oneMoreThan (lastKey "" before) := by
  obtain ⟨m, pieces, hlast, hgiven⟩ := h
  obtain ⟨earlier, hfold, hkey⟩ := foldl_next_of_getLast? hlast (.integer 0)
  rw [hfold, hkey, Counter.next_of_expression _ hgiven]
  rfl

/-! ## 5. The assignments of a run -/

/-- An assignment is made from the counter after the members before it. -/
theorem getElem?_bodyFrom (counter : Counter) (ms : List EnumMember) (i : Nat) :
    (bodyFrom counter ms)[i]? =
      ms[i]?.map fun m =>
        ⟨m.key, ((ms.take i).foldl .next counter).valueOf m, !m.hasText⟩ := by
  induction ms generalizing counter i with
  | nil => rfl
  | cons m ms ih =>
    cases i with
    | zero => rfl
    | succ i => rw [bodyFrom, List.getElem?_cons_succ, ih]; rfl

variable {members before run after : List EnumMember}

/-- In a run, the members before one are those before the run and the first ones of the run. -/
theorem take_of_run (hmembers : members = before ++ run ++ after) {i : Nat} (hi : i < run.length) :
    members.take (before.length + i) = before ++ run.take i ∧
      members[before.length + i]? = some run[i] := by
  subst hmembers
  constructor
  · rw [List.append_assoc, List.take_length_add_append,
      List.take_append_of_le_length (Nat.le_of_lt hi)]
  · rw [List.append_assoc, List.getElem?_append_right (Nat.le_add_right _ i),
      Nat.add_sub_cancel_left, List.getElem?_append_left hi, List.getElem?_eq_getElem hi]

/-- The value of a member without one, from a counter beyond `n`. -/
theorem Counter.valueOf_beyond {n : Int} {key : String} {m : EnumMember}
    (hm : m.given = .nothing) :
    (Counter.beyond n key).valueOf m =
      if n + 1 ≤ maxInteger then .integer (n + 1) else .oneMoreThan key := by
  unfold valueOf beyond
  rw [hm]
  by_cases h : n + 1 ≤ maxInteger
  · rw [if_pos h, if_pos h]
  · rw [if_neg h, if_neg h]

section Run

variable (hmembers : members = before ++ run ++ after) (hrun : ∀ m ∈ run, m.given = .nothing)
  {i : Nat} (hi : i < run.length)

include hmembers hrun

/-- **A run behind an integer** counts on from it, and from the greatest integer on it is the
    script that adds. -/
theorem getElem?_of_countsOnFrom {n : Int} (h : CountsOnFrom n before)
    (hreads : ReadsIntegers members) :
    (bodyFrom (.integer 0) members)[before.length + i]? = some
      ⟨run[i].key,
        if n + (i + 1) ≤ maxInteger then .integer (n + (i + 1))
        else .oneMoreThan (lastKey "" (members.take (before.length + i))), true⟩ := by
  have hbefore : ReadsIntegers before := fun m hm => hreads m (by simp [hmembers, hm])
  obtain ⟨hmin, hfold⟩ := h.foldl_next hbefore
  obtain ⟨htake, hget⟩ := take_of_run hmembers hi
  have hmember : run[i].given = .nothing := hrun _ (List.getElem_mem hi)
  have hfirst : ∀ m ∈ run.take i, m.given = .nothing := fun m hm => hrun m (List.mem_of_mem_take hm)
  rw [getElem?_bodyFrom, hget, htake, List.foldl_append, hfold,
    foldl_next_beyond hmin _ hfirst, Option.map_some, Counter.valueOf_beyond hmember,
    EnumMember.hasText_of_bare hmember, ← lastKey_append, List.length_take_of_le (Nat.le_of_lt hi),
    Int.add_assoc]
  rfl

/-- **A run behind a value that is only known in the script** adds to the member before. -/
theorem getElem?_of_countsOnInScript (h : CountsOnInScript before) :
    (bodyFrom (.integer 0) members)[before.length + i]? = some
      ⟨run[i].key, .oneMoreThan (lastKey "" (members.take (before.length + i))), true⟩ := by
  obtain ⟨htake, hget⟩ := take_of_run hmembers hi
  have hmember : run[i].given = .nothing := hrun _ (List.getElem_mem hi)
  have hfirst : ∀ m ∈ run.take i, m.given = .nothing := fun m hm => hrun m (List.mem_of_mem_take hm)
  rw [getElem?_bodyFrom, hget, htake, List.foldl_append, h.foldl_next,
    foldl_next_oneMoreThan _ hfirst, Option.map_some, EnumMember.hasText_of_bare hmember,
    ← lastKey_append, Counter.valueOf, hmember]
  rfl

end Run

/-! ## 6. No integer wraps -/

/-- The integer of a counter has 64 bits. -/
def Counter.Bounded (counter : Counter) : Prop := ∀ n, counter = .integer n → fits n = true

theorem Counter.bounded_after (key : String) (read : Option Int) :
    (Counter.after key read).Bounded := by
  intro n h
  unfold after at h
  split at h
  · rename_i next hnext
    obtain rfl := Counter.integer.inj h
    obtain ⟨m, _, hm⟩ := Option.bind_eq_some_iff.mp hnext
    exact fits_of_checked hm
  · cases h

theorem Counter.bounded_next (counter : Counter) (m : EnumMember) : (counter.next m).Bounded := by
  unfold next
  cases m.given with
  | literalText text => exact nofun
  | template pieces => exact nofun
  | expression pieces read => exact bounded_after m.key read
  | nothing =>
    cases counter with
    | integer n => exact bounded_after m.key (some n)
    | oneMoreThan key => exact nofun
    | unknown => exact nofun

theorem bounded_bodyFrom {counter : Counter} (h : counter.Bounded) (ms : List EnumMember) :
    ∀ a ∈ bodyFrom counter ms, ∀ n, a.value = .integer n → fits n = true := by
  induction ms generalizing counter with
  | nil => exact nofun
  | cons m ms ih =>
    intro a ha n hn
    rcases List.mem_cons.mp ha with rfl | ha
    · refine h n ?_
      change counter.valueOf m = .integer n at hn
      unfold Counter.valueOf at hn
      cases hgiven : m.given <;> rw [hgiven] at hn <;> try cases hn
      cases counter <;> cases hn
      rfl
    · exact ih (counter.bounded_next m) a ha n hn

/-! ## 7. The lowered enum -/

/-- **How an enum counts.** It cannot be lowered exactly if a member without a value comes directly
    after one with a text for its value; the error names the first such member. Otherwise each
    member has one assignment, in their order. In a run of members without values, the `i`-th one
    behind the integer `n`, which is one less than zero at the start of the enum, is assigned
    `n + i` up to the greatest integer of 64 bits, and one more than the member before it from then
    on; behind a value that is no text and of which no integer is read, each is assigned one more
    than the member before it. No integer leaves the 64 bits. -/
theorem lowerEnum_counts (src : Source) (t : Tree) :
    let members := enumMembers src t
    (∀ e, lowerEnum src t = .error e ↔
        ∃ m, firstUncounted? members = some m ∧ e = .missingValue m.key m.position) ∧
      ∀ emission, lowerEnum src t = .ok emission → ∃ body text,
        emission = .ofEdit ⟨t.start, t.stop, text⟩ ∧
        IsEnumText (t.nameText src) (indentation src t) body text ∧
        body.map Assignment.key = members.map EnumMember.key ∧
        (∀ before run after, members = before ++ run ++ after →
          (∀ m ∈ run, m.given = .nothing) → ∀ i, (hi : i < run.length) →
            let previous := lastKey "" (members.take (before.length + i))
            (∀ n, CountsOnFrom n before →
              body[before.length + i]? = some
                ⟨run[i].key,
                  if n + (i + 1) ≤ maxInteger then .integer (n + (i + 1))
                  else .oneMoreThan previous, true⟩) ∧
            (CountsOnInScript before →
              body[before.length + i]? = some ⟨run[i].key, .oneMoreThan previous, true⟩)) ∧
        ∀ a ∈ body, ∀ n, a.value = .integer n → -maxInteger - 1 ≤ n ∧ n ≤ maxInteger := by
  intro members
  refine ⟨fun e => ?_, fun emission h => ?_⟩
  · rw [← assignments_eq_error_iff]
    show (assignments members).map _ = _ ↔ _
    cases assignments members with
    | error e' => exact ⟨fun h => by cases h; rfl, fun h => by cases h; rfl⟩
    | ok body => exact ⟨nofun, nofun⟩
  · have hreads : ReadsIntegers members := readsIntegers_enumMembers src t
    unfold lowerEnum at h
    cases hbody : assignments members with
    | error e => rw [hbody] at h; cases h
    | ok body =>
      rw [hbody] at h
      obtain rfl := eq_bodyFrom_of_assignments hbody
      refine ⟨_, _, (Except.ok.inj h).symm, isEnumText_iff.mpr rfl, map_key_bodyFrom _ members,
        fun before run after hmembers hrun i hi => ⟨fun n hn => ?_, fun hn => ?_⟩, ?_⟩
      · exact getElem?_of_countsOnFrom hmembers hrun hi hn hreads
      · exact getElem?_of_countsOnInScript hmembers hrun hi hn
      · have hzero : (Counter.integer 0).Bounded := fun n hn => by cases hn; rfl
        exact fun a ha n hn => fits_iff.mp (bounded_bodyFrom hzero members a ha n hn)

/-- The first enum of a text. -/
def enumOf (text : String) : Tree :=
  (((Tree.ofSource (.ofString text)).toOption.map Tree.nodes).getD []).find?
    (·.kind = .enumDecl) |>.getD default

/-- The assignments of the first enum of a text, if it can be lowered. -/
def assignmentsIn? (text : String) : Option (List Assignment) :=
  (assignments (enumMembers (.ofString text) (enumOf text))).toOption

/-- An enum that counts on past the greatest integer. -/
def greatText : String := "enum E \x7b A = 0x7fff_ffff_ffff_fffe, B, C \x7d"

/-- Behind the greatest integer, the script adds one to the member that has it. -/
theorem lowerEnum_counts_past_greatest :
    let src := Source.ofString greatText
    let t := enumOf greatText
    ∃ (body : List Assignment) (text : String),
      lowerEnum src t = .ok (.ofEdit ⟨t.start, t.stop, text⟩) ∧
      IsEnumText (t.nameText src) (indentation src t) body text ∧
      body[1]? = some ⟨"B", .integer 9223372036854775807, true⟩ ∧
      body[2]? = some ⟨"C", .oneMoreThan "B", true⟩ := by
  intro src t
  have hmembers : enumMembers src t =
      [⟨"A", ⟨1, 10⟩, .expression [.copied "0x7fff_ffff_ffff_fffe"] (some 9223372036854775806)⟩] ++
        [⟨"B", ⟨1, 37⟩, .nothing⟩, ⟨"C", ⟨1, 40⟩, .nothing⟩] ++ [] := by decide +kernel
  obtain ⟨herror, hlowered⟩ := lowerEnum_counts src t
  cases he : lowerEnum src t with
  | error e =>
    obtain ⟨m, hm, _⟩ := (herror e).mp he
    rw [hmembers] at hm
    cases hm
  | ok emission =>
    obtain ⟨body, text, rfl, htext, _, hruns, _⟩ := hlowered emission he
    have hrun (i : Nat) (hi : i < 2) := (hruns _ _ _ hmembers (by simp) i hi).1 9223372036854775806
      (.inr ⟨_, _, rfl, rfl⟩)
    refine ⟨body, text, rfl, htext, (hrun 0 (by decide)).trans rfl, (hrun 1 (by decide)).trans ?_⟩
    rw [hmembers]
    rfl

end ClassScript.Emission
