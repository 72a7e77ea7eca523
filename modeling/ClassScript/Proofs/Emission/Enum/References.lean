/-
  File:      ClassScript/Proofs/Emission/Enum/References.lean
  Subject:   The value of a member, with its references qualified.

  A value may name other members of its enum. Each such name is put behind the
  name of the enum, and all the rest of the value is copied. The names count
  that stand in no arrow function, no function expression and no class; the
  expression of a generator and the methods of an object are none of these.

  What becomes of a value is said by edits of its text. The names do not
  overlap and come in the order of the text, so that copying from each name to
  the next one performs all of these edits at once.

  * `IsReference`: a name in a value that may be one of a member;
  * `ValueTree`: a value as the grammar has it;
  * `qualification`: the edit that qualifies a name;
  * `text_pieces`: the text of a value.
-/
import ClassScript.Proofs.Emission.Range
import ClassScript.Proofs.Emission.Enum.Counting
import ClassScript.Proofs.Emission.Types
import ClassScript.Proofs.Syntax.Order

namespace ClassScript.Emission

open Syntax (Source Tree Kind Ordered IsBoundary bytesOf)

variable {s : String} {value r n : Tree} {members : List String}

/-! ## 1. References -/

/-- A name in a tree of this kind may be its own. -/
def opensScope : Kind → Bool
  | .arrowFunction | .functionExpression | .classExpression => true
  | _ => false

/-- `r` is a name in `value` that is in no function and in no class. -/
structure IsReference (value r : Tree) : Prop where
  mem : r ∈ value.nodes
  kind : r.kind = .identifier
  outside : ∀ n ∈ value.nodes, opensScope n.kind = true → r ∉ n.nodes

/-- A value of a grammar over the text `s`: its parts lie in it on the characters of the text, one
    after the other, and names, marks and literal texts have no parts. -/
structure ValueTree (s : String) (value : Tree) : Prop where
  ordered : Ordered value
  boundaries : ∀ n ∈ value.nodes, IsBoundary s n.start ∧ IsBoundary s n.stop
  leaves : ∀ n ∈ value.nodes,
    n.isNamed = false ∨ n.kind = .identifier ∨ n.kind = .stringLiteral → n.children = []
  names : ∀ n ∈ value.nodes, n.kind = .identifier → n.start < n.stop

instance (s : String) (value : Tree) : Decidable (ValueTree s value) :=
  decidable_of_iff
    (Ordered value ∧ (∀ n ∈ value.nodes, IsBoundary s n.start ∧ IsBoundary s n.stop) ∧
      (∀ n ∈ value.nodes,
        n.isNamed = false ∨ n.kind = .identifier ∨ n.kind = .stringLiteral → n.children = []) ∧
      ∀ n ∈ value.nodes, n.kind = .identifier → n.start < n.stop)
    ⟨fun ⟨h₁, h₂, h₃, h₄⟩ => ⟨h₁, h₂, h₃, h₄⟩, fun ⟨h₁, h₂, h₃, h₄⟩ => ⟨h₁, h₂, h₃, h₄⟩⟩

/-- A walk through a value leaves out what is in functions and classes. -/
def skipsScope (n _c : Tree) : Bool := opensScope n.kind

/-- A tree is a name. -/
def isName (t : Tree) : Bool := t.kind == .identifier

theorem ValueTree.child {c : Tree} (h : ValueTree s value) (hc : c ∈ value.children) :
    ValueTree s c := by
  have hmem {n : Tree} (hn : n ∈ c.nodes) : n ∈ value.nodes :=
    Tree.mem_nodes_trans hn (Tree.mem_nodes_of_child hc value.mem_nodes_self)
  exact ⟨h.ordered.child hc, fun n hn => h.boundaries n (hmem hn),
    fun n hn => h.leaves n (hmem hn), fun n hn => h.names n (hmem hn)⟩

theorem opensScope_iff {kind : Kind} : opensScope kind = true ↔
    kind = .arrowFunction ∨ kind = .functionExpression ∨ kind = .classExpression := by
  cases kind <;> simp [opensScope]

/-- The names that are collected from parts outside of functions and classes. -/
theorem referencesInParts_eq {cs : List Tree} (hopen : opensScope n.kind = false)
    (h : ∀ c ∈ cs, ValueTree s c)
    (ih : ∀ c ∈ cs, referencesIn c = (c.reached skipsScope).filter isName) :
    referencesInParts cs = (Tree.reachedIn skipsScope n cs).filter isName := by
  induction cs with
  | nil => rfl
  | cons c cs ihcs =>
    have hskip : skipsScope n c = false := hopen
    rw [referencesInParts, Tree.reachedIn, List.filter_append, hskip,
      ihcs (fun d hd => h d (List.mem_cons_of_mem c hd))
        fun d hd => ih d (List.mem_cons_of_mem c hd)]
    congr 1
    by_cases hnamed : c.isNamed = true
    · rw [if_pos hnamed]
      exact ih c List.mem_cons_self
    · -- a mark has no parts, and is no name
      rw [Bool.not_eq_true] at hnamed
      have hleaf := (h c List.mem_cons_self).leaves c c.mem_nodes_self (.inl hnamed)
      have hname : isName c = false := by
        rw [← Bool.not_eq_true, isName, beq_iff_eq]
        intro hkind
        rw [Tree.isNamed, hkind] at hnamed
        cases hnamed
      simp [hnamed, Tree.reached_of_leaf hleaf, hname]

/-- The names that are collected from a value are those on a walk through it. -/
theorem referencesIn_eq (h : ValueTree s value) :
    referencesIn value = (value.reached skipsScope).filter isName := by
  induction value using Tree.induction with
  | step value ih =>
    have hvalue (c : Tree) (hc : c ∈ value.children) := h.child hc
    have hcollected (c : Tree) (hc : c ∈ value.children) := ih c hc (h.child hc)
    have hleaf := h.leaves value value.mem_nodes_self
    have hisName : isName value = true ↔ value.kind = .identifier := beq_iff_eq
    rw [Tree.reached_eq, List.filter_cons]
    obtain ⟨kind, field, start, stop, parts⟩ := value
    rw [referencesIn]
    by_cases hname : kind = .identifier
    · rw [if_pos hname, hleaf (.inr (.inl hname)), if_pos (hisName.mpr hname)]
      rfl
    · rw [if_neg hname, if_neg (mt hisName.mp hname)]
      by_cases hscope : opensScope kind = true
      · rw [if_pos (opensScope_iff.mp hscope), eq_comm, List.filter_eq_nil_iff]
        intro r hr
        obtain ⟨c, _, hmeet, _⟩ := Tree.mem_reachedIn_iff.mp hr
        have hclosed : opensScope kind = false := hmeet
        rw [hscope] at hclosed
        cases hclosed
      · rw [if_neg (mt opensScope_iff.mpr hscope)]
        exact referencesInParts_eq (eq_false_of_ne_true hscope) hvalue hcollected

/-- **The names that are collected** from a value are its references. -/
theorem mem_referencesIn_iff (h : ValueTree s value) :
    r ∈ referencesIn value ↔ IsReference value r := by
  rw [referencesIn_eq h, List.mem_filter]
  have hwalk {r : Tree} (hmem : r ∈ value.nodes) (hkind : r.kind = .identifier) :
      r ∈ value.reached skipsScope ↔ r ∈ value.nodes ∧
        ∀ n ∈ value.nodes, ∀ c ∈ n.children, skipsScope n c = true → r ∉ c.nodes :=
    h.ordered.mem_reached_iff (h.names r hmem hkind)
  constructor
  · rintro ⟨hr, hname⟩
    have hkind : r.kind = .identifier := eq_of_beq hname
    have hmem := Tree.mem_nodes_of_reached hr
    refine ⟨hmem, hkind, fun n hn hscope hrn => ?_⟩
    rw [Tree.nodes_eq] at hrn
    rcases List.mem_cons.mp hrn with rfl | hrn
    · rw [hkind] at hscope
      cases hscope
    · obtain ⟨c, hc, hrc⟩ := Tree.mem_inner_iff.mp hrn
      exact ((hwalk hmem hkind).mp hr).2 n hn c hc hscope hrc
  · intro hr
    refine ⟨(hwalk hr.mem hr.kind).mpr ⟨hr.mem, fun n hn c hc hscope hrc => ?_⟩,
      beq_iff_eq.mpr hr.kind⟩
    exact hr.outside n hn hscope
      (Tree.mem_nodes_trans hrc (Tree.mem_nodes_of_child hc n.mem_nodes_self))

/-- They come in the order of the text. -/
theorem pairwise_referencesIn (h : ValueTree s value) :
    (referencesIn value).Pairwise fun a b => a.stop ≤ b.start := by
  rw [referencesIn_eq h]
  exact h.ordered.pairwise_reached fun n hn hname =>
    h.leaves n (Tree.mem_nodes_of_reached hn) (.inr (.inl (eq_of_beq hname)))

/-! ## 2. The text of a value -/

/-- The edit that puts the name `r` behind that of its enum. -/
def qualification (src : Source) (enum : String) (r : Tree) : Edit :=
  ⟨r.start, r.stop, enum ++ "." ++ r.text src⟩

/-- The edits that qualify the names `refs`. -/
def qualifications (src : Source) (enum : String) (refs : List Tree) : List Edit :=
  refs.map (qualification src enum)

theorem qualifications_cons (src : Source) (enum : String) (r : Tree) (refs : List Tree) :
    qualifications src enum (r :: refs) =
      qualification src enum r :: qualifications src enum refs := rfl

/-- A name is one of the members. -/
def namesMember (src : Source) (members : List String) (r : Tree) : Bool :=
  members.contains (r.text src)

/-- Names in a row, from `start` up to `stop`. -/
structure NamesFrom (s : String) (start stop : Nat) (refs : List Tree) : Prop where
  first : IsBoundary s start
  last : IsBoundary s stop
  le : start ≤ stop
  names : ∀ r ∈ refs,
    IsBoundary s r.start ∧ IsBoundary s r.stop ∧ r.start < r.stop ∧ start ≤ r.start ∧ r.stop ≤ stop
  order : refs.Pairwise fun a b => a.stop ≤ b.start

theorem ValueTree.namesFrom (h : ValueTree s value) :
    NamesFrom s value.start value.stop (referencesIn value) := by
  have hself := h.boundaries value value.mem_nodes_self
  refine ⟨hself.1, hself.2, h.ordered.self.start_le_stop, fun r hr => ?_, pairwise_referencesIn h⟩
  obtain ⟨hmem, hkind, _⟩ := (mem_referencesIn_iff h).mp hr
  have hwithin := h.ordered.within hmem
  have hbound := h.boundaries r hmem
  exact ⟨hbound.1, hbound.2, h.names r hmem hkind, hwithin.1, hwithin.2.2⟩

section Pieces

variable {start stop : Nat} {refs : List Tree}

/-- Behind the first name the others are in a row. -/
theorem NamesFrom.behind (h : NamesFrom s start stop (r :: refs)) :
    NamesFrom s r.stop stop refs := by
  obtain ⟨_, hstop, _, _, hle⟩ := h.names r List.mem_cons_self
  obtain ⟨hfirst, hrest⟩ := List.pairwise_cons.mp h.order
  refine ⟨hstop, h.last, hle, fun x hx => ?_, hrest⟩
  obtain ⟨h₁, h₂, h₃, _, h₅⟩ := h.names x (List.mem_cons_of_mem r hx)
  exact ⟨h₁, h₂, h₃, hfirst x hx, h₅⟩

theorem NamesFrom.tail (h : NamesFrom s start stop (r :: refs)) : NamesFrom s start stop refs :=
  ⟨h.first, h.last, h.le, fun x hx => h.names x (List.mem_cons_of_mem r hx),
    (List.pairwise_cons.mp h.order).2⟩

/-- **Copying from name to name** performs the edits that qualify those of members. -/
theorem bytesOf_piecesFrom (h : NamesFrom s start stop refs) (enum : String)
    (members : List String) :
    bytesOf (String.join
        ((piecesFrom (.ofString s) members stop start refs).map (Piece.text enum))).toList =
      Edit.rangeAtOnce (.ofString s)
        (qualifications (.ofString s) enum (refs.filter (namesMember (.ofString s) members)))
        start stop := by
  induction refs generalizing start with
  | nil =>
    rw [piecesFrom, List.map_singleton, String.join_cons, String.join_nil, String.append_empty]
    exact (Edit.rangeAtOnce_of_before h.first h.last h.le fun e he =>
      absurd he List.not_mem_nil).symm
  | cons r refs ih =>
    have hnames : members.contains (r.text (.ofString s)) = namesMember (.ofString s) members r :=
      rfl
    rw [piecesFrom, hnames]
    by_cases hmember : namesMember (.ofString s) members r = true
    · obtain ⟨hrstart, _, hlt, hle, hrstop⟩ := h.names r List.mem_cons_self
      have hbehind : ∀ x ∈ qualifications (.ofString s) enum
          (refs.filter (namesMember (.ofString s) members)), r.stop ≤ x.start := by
        intro x hx
        obtain ⟨r', hr', rfl⟩ := List.mem_map.mp hx
        exact (List.pairwise_cons.mp h.order).1 r' (List.mem_filter.mp hr').1
      have hbefore : ∀ x ∈ qualification (.ofString s) enum r :: qualifications (.ofString s) enum
          (refs.filter (namesMember (.ofString s) members)), r.start ≤ x.start := by
        intro x hx
        rcases List.mem_cons.mp hx with rfl | hx
        · exact Nat.le_refl _
        · exact Nat.le_trans (Nat.le_of_lt hlt) (hbehind x hx)
      have hcopied := Edit.rangeAtOnce_of_before h.first hrstart hle hbefore
      have hname := Edit.rangeAtOnce_cons (s := s) (e := qualification (.ofString s) enum r) hlt
        hrstop hbehind
      change Edit.rangeAtOnce _ _ r.start stop = _ ++ Edit.rangeAtOnce _ _ r.stop stop at hname
      rw [if_pos hmember, List.filter_cons_of_pos hmember, List.map_cons, List.map_cons,
        String.join_cons, String.join_cons, String.toList_append, String.toList_append,
        Syntax.bytesOf_append, Syntax.bytesOf_append, ih h.behind, qualifications_cons,
        Edit.rangeAtOnce_append hle (Nat.le_trans (Nat.le_of_lt hlt) hrstop), hcopied, hname]
      rfl
    · rw [if_neg hmember, List.filter_cons_of_neg hmember]
      exact ih h.tail

end Pieces

/-- The references of a value that name a member are a row of names. -/
theorem mem_memberReferences_iff (h : ValueTree s value) :
    r ∈ (referencesIn value).filter (namesMember (.ofString s) members) ↔
      IsReference value r ∧ r.text (.ofString s) ∈ members := by
  rw [List.mem_filter, mem_referencesIn_iff h, namesMember, List.contains_iff_mem]

/-- A leaf that is none of some references is not touched by their edits. -/
theorem ValueTree.covers_leaf (h : ValueTree s value) {refs : List Tree} (enum : String)
    (hrefs : ∀ r ∈ refs, IsReference value r) (hn : n ∈ value.nodes) (hleaf : n.children = [])
    (hno : n ∉ refs) {i : Nat} (hi : Within i (rangeOf n)) :
    Edit.covers (qualifications (.ofString s) enum refs) i = false := by
  rw [← Bool.not_eq_true, Edit.covers_iff]
  rintro ⟨x, hx, hlow, hhigh⟩
  obtain ⟨r, hr, rfl⟩ := List.mem_map.mp hx
  have href := hrefs r hr
  have hrleaf := h.leaves r href.mem (.inr (.inl href.kind))
  -- of two leaves none is in the other
  have halone {a b : Tree} (ha : a.children = []) (hb : b ∈ a.nodes) : b = a := by
    rw [Tree.nodes_eq, Tree.inner, ha] at hb
    exact List.mem_singleton.mp hb
  obtain ⟨hnlow, hnhigh⟩ := hi
  change n.start ≤ i at hnlow
  change i < n.stop at hnhigh
  change r.start ≤ i at hlow
  change i < r.stop at hhigh
  rcases h.ordered.mem_or_apart hn href.mem with hmem | hmem | hapart | hapart
  · exact hno (halone hrleaf hmem ▸ hr)
  · exact hno (halone hleaf hmem ▸ hr)
  · omega
  · omega

/-- **The text of a value.** The names of members that are in no function and in no class, in the
    order of the text, are put behind the name of the enum, and every other byte is copied, once and
    in order; so all leaves but these names stay: names of properties, other names, and the text of
    templates. -/
theorem text_pieces (h : ValueTree s value) (enum : String) (members : List String) :
    ∃ refs : List Tree,
      (∀ r, r ∈ refs ↔ IsReference value r ∧ r.text (.ofString s) ∈ members) ∧
      (refs.Pairwise fun a b => a.stop ≤ b.start) ∧
      bytesOf (String.join
          ((pieces (.ofString s) members value).map (Piece.text enum))).toList =
        Edit.rangeAtOnce (.ofString s) (qualifications (.ofString s) enum refs) value.start
          value.stop ∧
      ∀ n ∈ value.nodes, n.children = [] → n ∉ refs → ∀ i, Within i (rangeOf n) →
        Edit.covers (qualifications (.ofString s) enum refs) i = false := by
  refine ⟨_, fun r => mem_memberReferences_iff h, (pairwise_referencesIn h).filter _,
    bytesOf_piecesFrom h.namesFrom enum members, fun n hn hleaf hno i hi => ?_⟩
  exact h.covers_leaf enum (fun r hr => ((mem_memberReferences_iff h).mp hr).1) hn hleaf hno hi

/-- The value of the last member of the first enum of a text. -/
def lastValueOf (text : String) : Tree :=
  ((enumOf text).bodyParts.getLast?.bind (·.part? .value)).getD default

/-- An enum whose second member refers to the first one, three times outside of a function. -/
def referringText : String :=
  "enum E \x7b A = 1, B = Math.max(A, \x60$\x7bA\x7dA\x60.A, A, () => A) \x7d"

/-- Neither the function's `A` is qualified, nor the one of the template's text or the property. -/
theorem text_pieces_referring :
    let src := Source.ofString referringText
    let value := lastValueOf referringText
    ValueTree referringText value ∧
      (∃ refs : List Tree,
        (∀ r, r ∈ refs ↔ IsReference value r ∧ r.text src ∈ ["A", "B"]) ∧
        bytesOf (String.join ((pieces src ["A", "B"] value).map (Piece.text "E"))).toList =
          Edit.rangeAtOnce src (qualifications src "E" refs) value.start value.stop) ∧
      String.join ((pieces src ["A", "B"] value).map (Piece.text "E")) =
        "Math.max(E.A, \x60$\x7bE.A\x7dA\x60.A, E.A, () => A)" := by
  intro src value
  have htree : ValueTree referringText value := by decide +kernel
  obtain ⟨refs, hrefs, _, htext, _⟩ := text_pieces htree "E" ["A", "B"]
  exact ⟨htree, ⟨refs, hrefs, htext⟩, by decide +kernel⟩

end ClassScript.Emission
