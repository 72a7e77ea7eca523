/-
  File:      ClassScript/Proofs/Emission/Refusal.lean
  Subject:   Which programs have no script, and which error says so.

  Three constructs have no counterpart in a script: decorators, namespaces and
  aliases of imports; and an enum has none if a member without a value comes
  directly behind one with a text. A program is refused exactly if such a tree
  is on the walk of emission, and the error is that of the first one in the
  order of the text.

  The parts of an enum's body count as members even if they are comments. So a
  comment directly behind a member with a text is taken for a member without a
  value. As long as there is none, only declared members count.

  * `IsFirstUncounted`, `Blocks`: an enum, and a tree, that has no counterpart;
  * `blocks_iff`: it is what emission refuses;
  * `blocks_declared_iff`: comments in other places change nothing;
  * `emission_refusal_laws`: the first error of a program.
-/
import Mathlib.Data.List.Chain
import ClassScript.Proofs.Emission.Enum.Execution
import ClassScript.Proofs.Emission.Reach

namespace ClassScript.Emission

open Syntax (Source Tree Kind rootOf ofSource_rootOf)

variable {s : String} {src : Source} {t m : Tree} {parts : List Tree} {e : EmissionError}

/-! ## 1. Members that have to have a value -/

/-- The value of a member is a text. -/
def hasTextValue (m : Tree) : Bool :=
  (memberValue? m).any fun v => v.kind == .stringLiteral || v.kind == .templateLiteral

/-- The member `m` has no value, and the member `previous` directly before it has a text. -/
def isUncounted (previous m : Tree) : Bool := hasTextValue previous && (memberValue? m).isNone

/-- `m` is the first of some members that has no value directly behind one with a text. -/
def IsFirstUncounted (members : List Tree) (m : Tree) : Prop :=
  ∃ before previous after, members = before ++ previous :: m :: after ∧
    isUncounted previous m = true ∧
    (before ++ [previous]).IsChain fun a b => isUncounted a b = false

/-- The first of some members that has no value directly behind one with a text, if there is one. -/
def firstUncountedPart? : List Tree → Option Tree
  | a :: m :: ms => if isUncounted a m then some m else firstUncountedPart? (m :: ms)
  | _ => none

/-- What is in front of a part behind another one starts as all of them do. -/
theorem head?_of_append {a b : Tree} {before after ms : List Tree}
    (h : b :: ms = before ++ a :: after) : (before ++ [a]).head? = some b := by
  cases before with
  | nil => rw [(List.cons.inj h).1]; rfl
  | cons c before => rw [(List.cons.inj h).1]; rfl

theorem firstUncountedPart?_eq_some_iff {members : List Tree} :
    firstUncountedPart? members = some m ↔ IsFirstUncounted members m := by
  induction members with
  | nil => simp [firstUncountedPart?, IsFirstUncounted]
  | cons a ms ih =>
    cases ms with
    | nil =>
      refine ⟨nofun, fun ⟨before, previous, after, hparts, _⟩ => ?_⟩
      have hlength := congrArg List.length hparts
      simp only [List.length_append, List.length_cons, List.length_nil] at hlength
      omega
    | cons b ms =>
      rw [firstUncountedPart?]
      cases hpair : isUncounted a b with
      | true =>
        rw [if_pos rfl]
        constructor
        · intro h
          obtain rfl := Option.some.inj h
          exact ⟨[], a, ms, rfl, hpair, .singleton a⟩
        · rintro ⟨before, previous, after, hparts, _, hchain⟩
          cases before with
          | nil =>
            obtain ⟨rfl, hrest⟩ := List.cons.inj hparts
            exact congrArg some (List.cons.inj hrest).1
          | cons c before =>
            -- the pair at the start comes before any other one
            obtain ⟨rfl, hrest⟩ := List.cons.inj hparts
            have hfirst := (List.isChain_cons.mp hchain).1 b (head?_of_append hrest)
            rw [hpair] at hfirst
            cases hfirst
      | false =>
        rw [if_neg Bool.false_ne_true, ih]
        constructor
        · rintro ⟨before, previous, after, hparts, huncounted, hchain⟩
          refine ⟨a :: before, previous, after, congrArg (a :: ·) hparts, huncounted,
            List.isChain_cons.mpr ⟨fun c hc => ?_, hchain⟩⟩
          obtain rfl : b = c := Option.some.inj ((head?_of_append hparts).symm.trans hc)
          exact hpair
        · rintro ⟨before, previous, after, hparts, huncounted, hchain⟩
          cases before with
          | nil =>
            obtain ⟨rfl, hrest⟩ := List.cons.inj hparts
            rw [(List.cons.inj hrest).1, huncounted] at hpair
            cases hpair
          | cons c before =>
            exact ⟨before, previous, after, (List.cons.inj hparts).2, huncounted,
              (List.isChain_cons.mp hchain).2⟩

/-! ## 2. Parts of an enum and its members -/

theorem hasText_of_ofTree? {keys : List String} {a : EnumMember}
    (h : EnumMember.ofTree? src keys m = some a) :
    a.hasText = hasTextValue m ∧ a.isBare = (memberValue? m).isNone := by
  obtain ⟨key, _, rfl⟩ := Option.map_eq_some_iff.mp h
  rw [EnumMember.hasText, EnumMember.isBare, hasTextValue]
  dsimp only
  rw [givenValue, ← memberValue?]
  cases memberValue? m with
  | none => exact ⟨rfl, rfl⟩
  | some value =>
    dsimp only
    split_ifs with hliteral htemplate <;> simp [*]

/-- The first part that has to have a value is the first member that has to have one. -/
theorem firstUncounted?_of_parts {keys : List String} {ms : List EnumMember}
    (h : List.Forall₂ (fun m a => EnumMember.ofTree? src keys m = some a) parts ms) :
    Option.Rel (fun m a => EnumMember.ofTree? src keys m = some a) (firstUncountedPart? parts)
      (firstUncounted? ms) := by
  induction h with
  | nil => exact .none
  | @cons m a parts ms hm hrest ih =>
    cases hrest with
    | nil => exact .none
    | @cons n b parts ms hn hrest =>
      have hpair : isUncounted m n = (a.hasText && b.isBare) := by
        rw [isUncounted, (hasText_of_ofTree? hm).1, (hasText_of_ofTree? hn).2]
      rw [firstUncountedPart?, firstUncounted?, hpair]
      split
      · exact .some hn
      · exact ih

/-! ## 3. Trees without a counterpart -/

/-- The tree `t`, in which `members` are the members of an enum, has no counterpart in a script. -/
inductive Blocks (src : Source) (members : Tree → List Tree) (t : Tree) : EmissionError → Prop where
  | decorator (kind : t.kind = .decorator) :
    Blocks src members t (.unsupported .decorator (t.position src))
  | namespaceBlock (kind : t.kind = .namespaceBlock ∨ t.kind = .moduleBlock) :
    Blocks src members t (.unsupported .namespaceBlock (t.position src))
  | importAlias (kind : t.kind = .importAlias) :
    Blocks src members t (.unsupported .importAlias (t.position src))
  | enumDecl {m name : Tree} (kind : t.kind = .enumDecl)
      (first : IsFirstUncounted (members t) m) (key : memberName? m = some name) :
    Blocks src members t
      (.missingValue (Text.strip isQuote (name.text src)) (m.position src))

theorem refusal?_of_enum (h : t.kind = .enumDecl) :
    refusal? src t = some e ↔
      ∃ m name, IsFirstUncounted (namedParts t) m ∧ memberName? m = some name ∧
        e = .missingValue (Text.strip isQuote (name.text src)) (m.position src) := by
  have hrefusal : refusal? src t =
      (firstUncounted? (enumMembers src t)).map fun m => .missingValue m.key m.position := by
    rw [refusal?, h]
    rfl
  have hrel := firstUncounted?_of_parts (forall₂_enumMembers src t)
  rw [hrefusal]
  simp only [← firstUncountedPart?_eq_some_iff]
  generalize firstUncountedPart? (namedParts t) = part? at hrel
  generalize firstUncounted? (enumMembers src t) = member? at hrel
  cases hrel with
  | none => simp
  | @some m a hm =>
    obtain ⟨name, hname, hkey⟩ := key_of_ofTree? hm
    obtain ⟨_, _, rfl⟩ := Option.map_eq_some_iff.mp hm
    constructor
    · intro he
      obtain rfl := Option.some.inj he
      exact ⟨m, name, rfl, hname, by rw [← hkey]⟩
    · rintro ⟨m', name', hm', hname', rfl⟩
      obtain rfl := Option.some.inj hm'
      obtain rfl := Option.some.inj (hname.symm.trans hname')
      rw [← hkey]
      rfl

/-- **Emission refuses** the trees that have no counterpart, with all named parts of an enum for
    its members. -/
theorem blocks_iff : Blocks src namedParts t e ↔ refusal? src t = some e := by
  constructor
  · rintro (hkind | hkind | hkind | ⟨hkind, hfirst, hname⟩)
    · rw [refusal?, hkind]; rfl
    · rcases hkind with hkind | hkind <;> rw [refusal?, hkind] <;> rfl
    · rw [refusal?, hkind]; rfl
    · exact (refusal?_of_enum hkind).mpr ⟨_, _, hfirst, hname, rfl⟩
  · intro h
    by_cases henum : t.kind = .enumDecl
    · obtain ⟨m, name, hfirst, hname, rfl⟩ := (refusal?_of_enum henum).mp h
      exact .enumDecl henum hfirst hname
    · unfold refusal? at h
      cases hkind : t.kind <;> rw [hkind] at h henum <;>
        first
        | cases h; done
        | exact absurd rfl henum
        | (obtain rfl := Option.some.inj h
           first
           | exact .decorator hkind
           | exact .namespaceBlock (.inl hkind)
           | exact .namespaceBlock (.inr hkind)
           | exact .importAlias hkind)

/-! ## 4. Comments -/

/-- No comment stands directly behind a member with a text. -/
def TextsUncommented (t : Tree) : Prop :=
  (namedParts t).IsChain fun a c => hasTextValue a = true → c.kind ≠ .comment

instance (t : Tree) : Decidable (TextsUncommented t) :=
  inferInstanceAs (Decidable (List.IsChain _ _))

theorem memberValue?_of_comment (h : m.kind = .comment) : memberValue? m = none := by
  rw [memberValue?, h]
  rfl

/-- Behind members of which neither or both have a text, comments change nothing. -/
theorem firstUncountedPart?_filter {a a' : Tree} (hsame : hasTextValue a = hasTextValue a')
    (h : (a :: parts).IsChain fun a c => hasTextValue a = true → c.kind ≠ .comment) :
    firstUncountedPart? (a :: parts) =
      firstUncountedPart? (a' :: parts.filter (·.kind ≠ .comment)) := by
  induction parts generalizing a a' with
  | nil => rfl
  | cons m ms ih =>
    obtain ⟨hpair, hrest⟩ := List.isChain_cons_cons.mp h
    by_cases hm : m.kind = .comment
    · have ha : hasTextValue a = false := Bool.eq_false_iff.mpr fun htext => hpair htext hm
      have htext : hasTextValue m = false := by
        rw [hasTextValue, memberValue?_of_comment hm]
        rfl
      rw [firstUncountedPart?, isUncounted, ha, Bool.false_and, if_neg Bool.false_ne_true,
        List.filter_cons_of_neg (by simpa using hm)]
      exact ih (htext.trans (ha.symm.trans hsame)) hrest
    · rw [List.filter_cons_of_pos (by simpa using hm), firstUncountedPart?, firstUncountedPart?,
        ih rfl hrest, isUncounted, isUncounted, hsame]

/-- **Comments in other places** change nothing. -/
theorem firstUncountedPart?_declared (h : TextsUncommented t) :
    firstUncountedPart? (namedParts t) = firstUncountedPart? (declaredMembers t) := by
  unfold TextsUncommented at h
  unfold declaredMembers
  generalize namedParts t = parts at h
  cases parts with
  | nil => rfl
  | cons a ms =>
    by_cases ha : a.kind = .comment
    · rw [List.filter_cons_of_neg (by simpa using ha), firstUncountedPart?_filter rfl h]
      cases ms.filter (·.kind ≠ .comment) with
      | nil => rfl
      | cons m ms =>
        rw [firstUncountedPart?, isUncounted, hasTextValue, memberValue?_of_comment ha]
        rfl
    · rw [List.filter_cons_of_pos (by simpa using ha), firstUncountedPart?_filter rfl h]

theorem blocks_declared_iff (h : t.kind = .enumDecl → TextsUncommented t) :
    Blocks src declaredMembers t e ↔ Blocks src namedParts t e := by
  have hfirst (hkind : t.kind = .enumDecl) (m : Tree) :
      IsFirstUncounted (declaredMembers t) m ↔ IsFirstUncounted (namedParts t) m := by
    rw [← firstUncountedPart?_eq_some_iff, ← firstUncountedPart?_eq_some_iff,
      firstUncountedPart?_declared (h hkind)]
  constructor
  · rintro (hkind | hkind | hkind | ⟨hkind, hm, hname⟩)
    · exact .decorator hkind
    · exact .namespaceBlock hkind
    · exact .importAlias hkind
    · exact .enumDecl hkind ((hfirst hkind _).mp hm) hname
  · rintro (hkind | hkind | hkind | ⟨hkind, hm, hname⟩)
    · exact .decorator hkind
    · exact .namespaceBlock hkind
    · exact .importAlias hkind
    · exact .enumDecl hkind ((hfirst hkind _).mpr hm) hname

/-! ## 5. The first error -/

/-- `e` is the error of the first of some trees that has no counterpart. -/
def IsFirstError (src : Source) (members : Tree → List Tree) (ts : List Tree) (e : EmissionError) :
    Prop :=
  ∃ before t after, ts = before ++ t :: after ∧ Blocks src members t e ∧
    ∀ u ∈ before, ∀ e', ¬Blocks src members u e'

theorem isFirstError_iff {ts : List Tree} :
    IsFirstError src namedParts ts e ↔ ts.findSome? (refusal? src) = some e := by
  simp only [IsFirstError, blocks_iff, List.findSome?_eq_some_iff,
    Option.eq_none_iff_forall_ne_some, ne_eq]

theorem isFirstError_declared_iff {ts : List Tree}
    (h : ∀ t ∈ ts, t.kind = .enumDecl → TextsUncommented t) :
    IsFirstError src declaredMembers ts e ↔ IsFirstError src namedParts ts e := by
  constructor
  · rintro ⟨before, t, after, rfl, hblocks, hbefore⟩
    exact ⟨before, t, after, rfl, (blocks_declared_iff (h t (by simp))).mp hblocks,
      fun u hu e' hu' => hbefore u hu e' ((blocks_declared_iff (h u (by simp [hu]))).mpr hu')⟩
  · rintro ⟨before, t, after, rfl, hblocks, hbefore⟩
    exact ⟨before, t, after, rfl, (blocks_declared_iff (h t (by simp))).mpr hblocks,
      fun u hu e' hu' => hbefore u hu e' ((blocks_declared_iff (h u (by simp [hu]))).mp hu')⟩

/-- There is a first error exactly if there is one. -/
theorem exists_isFirstError_iff {ts : List Tree} :
    (∃ e, IsFirstError src namedParts ts e) ↔ ∃ t ∈ ts, ∃ e, Blocks src namedParts t e := by
  simp only [isFirstError_iff, blocks_iff, ← Option.isSome_iff_exists, List.findSome?_isSome_iff]

/-- **Which programs are refused.** The walk of emission meets trees of the program in the order of
    the text. A program has no script exactly if one of them has no counterpart, and the error is
    that of the first one. In an enum all named parts of the body, also comments, count as members;
    if no comment stands directly behind a member with a text, only declared members do. -/
theorem emission_refusal_laws {root : Tree} (h : Tree.ofSource (.ofString s) = .ok root) :
    let src := Source.ofString s
    (walk root).Sublist root.nodes ∧ (walk root).Pairwise (fun a b => a.start ≤ b.start) ∧
      (∀ e, Script.ofText s = .error e ↔ IsFirstError src namedParts (walk root) e) ∧
      ((∀ t ∈ walk root, t.kind = .enumDecl → TextsUncommented t) →
        (∀ e, Script.ofText s = .error e ↔ IsFirstError src declaredMembers (walk root) e) ∧
        ((∃ e, Script.ofText s = .error e) ↔
          ∃ t ∈ walk root, ∃ e, Blocks src declaredMembers t e)) := by
  intro src
  have hfirst (e : EmissionError) :
      Script.ofText s = .error e ↔ IsFirstError src namedParts (walk root) e := by
    rw [isFirstError_iff]
    exact ofText_eq_error_iff h e
  refine ⟨walk_sublist_nodes root,
    (Syntax.allFormed_ofSource h).ordered.pairwise_nodes.sublist (walk_sublist_nodes root), hfirst,
    fun huncommented => ⟨fun e => ?_, ?_⟩⟩
  · rw [hfirst, isFirstError_declared_iff huncommented]
  · simp only [hfirst, exists_isFirstError_iff]
    exact exists_congr fun t => and_congr_right fun ht => exists_congr fun e =>
      (blocks_declared_iff (huncommented t ht)).symm

/-- An enum with a comment behind a member without a text, and a decorator. -/
def refusedText : String := "enum E\x7bA,/*a*/B='b',C\x7d@d class K\x7b\x7d"

/-- The member `C` has to have a value; the decorator comes later. -/
theorem emission_refusal_laws_enum :
    Tree.ofSource (.ofString refusedText) = .ok (rootOf refusedText) ∧
      (∀ t ∈ walk (rootOf refusedText), t.kind = .enumDecl → TextsUncommented t) ∧
      IsFirstError (.ofString refusedText) declaredMembers (walk (rootOf refusedText))
        (.missingValue "C" ⟨1, 21⟩) := by
  have hroot := ofSource_rootOf (s := refusedText) (by decide +kernel)
  have huncommented : ∀ t ∈ walk (rootOf refusedText), t.kind = .enumDecl → TextsUncommented t := by
    decide +kernel
  have herror : Script.ofText refusedText = .error (.missingValue "C" ⟨1, 21⟩) := by decide +kernel
  obtain ⟨_, _, _, hlaws⟩ := emission_refusal_laws hroot
  exact ⟨hroot, huncommented, ((hlaws huncommented).1 _).mp herror⟩

theorem not_blocks {members : Tree → List Tree}
    (h : (treatment t.kind).speaks = false ∨
      t.kind = .enumDecl ∧ (firstUncountedPart? (members t)).isNone = true) :
    ¬Blocks src members t e := by
  rintro (hkind | hkind | hkind | ⟨hkind, hfirst, _⟩)
  · rw [hkind] at h; simp [treatment, Treatment.speaks] at h
  · rcases hkind with hkind | hkind <;> rw [hkind] at h <;> simp [treatment, Treatment.speaks] at h
  · rw [hkind] at h; simp [treatment, Treatment.speaks] at h
  · rw [firstUncountedPart?_eq_some_iff.mpr hfirst, hkind] at h
    simp [treatment, Treatment.speaks] at h

/-- An enum with a comment between two members that both have a text. -/
def commentedText : String := "enum E\x7bA='a',/*c*/B='b'\x7d"

/-- The comment is taken for a member without a value. -/
theorem commented_enum_refused :
    Tree.ofSource (.ofString commentedText) = .ok (rootOf commentedText) ∧
      Script.ofText commentedText = .error (.missingValue "/*c*/" ⟨1, 14⟩) ∧
      ∀ t ∈ walk (rootOf commentedText), ∀ e,
        ¬Blocks (.ofString commentedText) declaredMembers t e := by
  have hparts : ∀ t ∈ walk (rootOf commentedText), (treatment t.kind).speaks = false ∨
      t.kind = .enumDecl ∧ (firstUncountedPart? (declaredMembers t)).isNone = true := by
    decide +kernel
  exact ⟨ofSource_rootOf (by decide +kernel), by decide +kernel,
    fun t ht e => not_blocks (hparts t ht)⟩

end ClassScript.Emission
