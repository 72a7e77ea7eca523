/-
  File:      ClassScript/Proofs/Emission/Apart.lean
  Subject:   No edit of a program is lost.

  On a tree of a grammar, the edits of each part are spread out over the part
  and the room behind it: the blanks and the marks up to the next part with
  edits of its own. Since parts follow one another, so do their edits; by
  induction over the tree all edits of a program lie apart, and the script is
  the text with all of them performed at once.

  * `room`, `reach`: where the edits of a part end;
  * `spread_emitAll`, `spread_emit`: the edits of some parts, and of a tree,
    are spread out;
  * `Layout.performs_all`: all edits of a program are performed, and
    all at once.
-/
import ClassScript.Emission.Script
import ClassScript.Proofs.Emission.Spread
import ClassScript.Proofs.Emission.Visit

namespace ClassScript.Emission

open Syntax (Source Tree IsBoundary IsInk bytesOf)

variable {s : String} {root : Tree}

/-! ## 1. What the layout says about ranges -/

theorem mem_withFollowing_iff {parts following : List Tree} {t : Tree} :
    (t, following) ∈ withFollowing parts ↔ ∃ before, parts = before ++ t :: following := by
  induction parts with
  | nil => simp [withFollowing]
  | cons c cs ih =>
    rw [withFollowing, List.mem_cons, ih, Prod.mk.injEq]
    constructor
    · rintro (⟨rfl, rfl⟩ | ⟨before, rfl⟩)
      · exact ⟨[], rfl⟩
      · exact ⟨c :: before, rfl⟩
    · rintro ⟨before, h⟩
      cases before with
      | nil =>
        rw [List.nil_append, List.cons.injEq] at h
        exact .inl ⟨h.1.symm, h.2.symm⟩
      | cons b before =>
        rw [List.cons_append, List.cons.injEq] at h
        exact .inr ⟨before, h.2⟩

/-- The removals of a program are the ranges of parts that are taken out with their lines. -/
theorem mem_removals_iff {src : Source} {r : Nat × Nat} :
    r ∈ removals src root ↔ ∃ n ∈ root.nodes, ∃ before t following,
      n.children = before ++ t :: following ∧ t.start = r.1 ∧
        removalEnd? src following t = some r.2 := by
  rw [removals, List.mem_flatMap]
  constructor
  · rintro ⟨n, hn, h⟩
    obtain ⟨⟨t, following⟩, hmem, h⟩ := List.mem_filterMap.mp h
    obtain ⟨before, hparts⟩ := mem_withFollowing_iff.mp hmem
    obtain ⟨stop, hstop, rfl⟩ := Option.map_eq_some_iff.mp h
    exact ⟨n, hn, before, t, following, hparts, rfl, hstop⟩
  · rintro ⟨n, hn, before, t, following, hparts, hstart, hstop⟩
    refine ⟨n, hn, List.mem_filterMap.mpr ⟨(t, following), ?_, ?_⟩⟩
    · exact mem_withFollowing_iff.mpr ⟨before, hparts⟩
    · rw [hstop, Option.map_some, hstart]

theorem le_of_isBlankBetween {src : Source} {a b : Nat} (h : isBlankBetween src a b = true) :
    a ≤ b := by
  rw [isBlankBetween, Bool.and_eq_true, decide_eq_true_eq] at h
  exact h.1

/-- A removal ends with its tree, or with the mark behind a member. -/
theorem removalEnd?_cases {src : Source} {following : List Tree} {t : Tree} {stop : Nat}
    (h : removalEnd? src following t = some stop) :
    treatment t.kind ≠ .kept ∧
      (stop = t.stop ∧ stretches t = false ∨
        stop = memberEnd t following ∧ stretches t = true) := by
  rw [removalEnd?] at h
  split at h
  case h_1 hk => simp_all [stretches]
  case h_2 hk => simp_all [stretches]
  case h_3 hk => split at h <;> simp_all [stretches]
  case h_4 hk => split at h <;> simp_all [stretches]
  case h_5 hk => split at h <;> simp_all [stretches]
  case h_6 => cases h

/-- Only a part that stays can be a fragment. -/
theorem isFragment_eq_false {t : Tree} (h : treatment t.kind ≠ .kept) : isFragment t = false := by
  refine beq_eq_false_iff_ne.mpr fun hk => h ?_
  rw [hk]
  rfl

theorem isFragment_of_token {t : Tree} (h : t.isNamed = false) : isFragment t = false := by
  refine beq_eq_false_iff_ne.mpr fun hk => ?_
  rw [Tree.isNamed, hk] at h
  cases h

theorem isNamed_of_endsMember {t : Tree} (h : endsMember t = true) : t.isNamed = false := by
  rw [endsMember, Bool.or_eq_true, beq_iff_eq, beq_iff_eq] at h
  rw [Tree.isNamed]
  rcases h with h | h <;> rw [h] <;> rfl

/-! ## 2. Parts in a row -/

/-- Parts that follow one another up to `stop`, with blanks between them. -/
structure Row (s : String) (stop : Nat) (parts : List Tree) : Prop where
  start_le_stop : ∀ c ∈ parts, c.start ≤ c.stop
  stop_le : ∀ c ∈ parts, c.stop ≤ stop
  gaps : gapsAreBlank (.ofString s) parts = true

/-- Where the next part that is no mark starts, or else `stop`. -/
def room (stop : Nat) : List Tree → Nat
  | [] => stop
  | c :: cs => if endsMember c then room stop cs else c.start

namespace Row

variable {stop : Nat} {c d : Tree} {cs : List Tree}

theorem tail (h : Row s stop (c :: cs)) : Row s stop cs := by
  refine ⟨fun d hd => h.start_le_stop d (List.mem_cons_of_mem c hd),
    fun d hd => h.stop_le d (List.mem_cons_of_mem c hd), ?_⟩
  have hgaps := h.gaps
  cases cs with
  | nil => rfl
  | cons d cs =>
    rw [gapsAreBlank, Bool.and_eq_true] at hgaps
    exact hgaps.2

theorem of_append {before : List Tree} (h : Row s stop (before ++ cs)) : Row s stop cs := by
  induction before with
  | nil => exact h
  | cons b before ih => exact ih h.tail

/-- Nothing but blanks stands between a part and the next one. -/
theorem gap (h : Row s stop (c :: d :: cs)) :
    isBlankBetween (.ofString s) c.stop d.start = true := by
  have hgaps := h.gaps
  rw [gapsAreBlank, Bool.and_eq_true] at hgaps
  exact hgaps.1

theorem stop_le_room (h : Row s stop (c :: cs)) : c.stop ≤ room stop cs := by
  induction cs generalizing c with
  | nil => exact h.stop_le c List.mem_cons_self
  | cons d cs ih =>
    have hgap := le_of_isBlankBetween h.gap
    have hd := h.start_le_stop d (List.mem_cons_of_mem c List.mem_cons_self)
    have hroom := ih h.tail
    rw [room]
    split <;> omega

theorem start_le_room (h : Row s stop (c :: cs)) : c.start ≤ room stop (c :: cs) := by
  have hroom := h.stop_le_room
  have hc := h.start_le_stop c List.mem_cons_self
  rw [room]
  split <;> omega

theorem room_le (h : Row s stop cs) : room stop cs ≤ stop := by
  induction cs with
  | nil => exact Nat.le_refl stop
  | cons c cs ih =>
    have hle := ih h.tail
    have hc := h.stop_le_room
    have hc' := h.start_le_stop c List.mem_cons_self
    rw [room]
    split <;> omega

theorem stop_le_start (h : Row s stop (c :: cs)) (hd : d ∈ cs) : c.stop ≤ d.start := by
  induction cs generalizing c with
  | nil => exact absurd hd List.not_mem_nil
  | cons x xs ih =>
    have hgap := le_of_isBlankBetween h.gap
    rcases List.mem_cons.mp hd with rfl | hd
    · exact hgap
    · have hx := h.start_le_stop x (List.mem_cons_of_mem c List.mem_cons_self)
      have hrest := ih h.tail hd
      omega

theorem pairwise (h : Row s stop cs) : cs.Pairwise fun c d => c.stop ≤ d.start := by
  induction cs with
  | nil => exact .nil
  | cons c cs ih => exact List.pairwise_cons.mpr ⟨fun d hd => h.stop_le_start hd, ih h.tail⟩

/-- A member with its mark ends before the next part that is no mark. -/
theorem memberEnd_le_room (h : Row s stop (c :: cs)) : memberEnd c cs ≤ room stop cs := by
  have hroom := h.stop_le_room
  cases cs with
  | nil => exact hroom
  | cons d cs =>
    have hd := h.tail.stop_le_room
    rw [memberEnd]
    split
    · rename_i hmark
      rw [room, if_pos hmark]
      exact hd
    · exact hroom

end Row

theorem mem_nodes_of_parts {n t : Tree} {before following : List Tree} (hn : n ∈ root.nodes)
    (hparts : n.children = before ++ t :: following) : t ∈ root.nodes :=
  Tree.mem_nodes_of_child (by rw [hparts]; exact List.mem_append_right before List.mem_cons_self) hn

section Layout

variable (hl : Layout s root) {n t : Tree} {before following : List Tree}
include hl

/-- The parts of a tree stand in a row. -/
theorem Layout.row (hn : n ∈ root.nodes) : Row s n.stop n.children :=
  ⟨fun c hc => (hl.nested c (Tree.mem_nodes_of_child hc hn)).start_le_stop,
    fun c hc => ((hl.nested n hn).around c hc).2, (hl.nested n hn).gaps⟩

theorem Layout.solid_of_child (hn : n ∈ root.nodes) (hparts : n.children = before ++ t :: following)
    (hfrag : isFragment t = false) : Solid s t := by
  refine hl.solid t (Tree.mem_inner_of_node ?_ hn) hfrag
  rw [hparts]
  exact List.mem_append_right before List.mem_cons_self

/-- A mark behind a member is a part of its own. -/
theorem Layout.removable_member (hn : n ∈ root.nodes)
    (hparts : n.children = before ++ t :: following) (hfrag : isFragment t = false) :
    Removable s (t.start, memberEnd t following) := by
  have ht := hl.solid_of_child hn hparts hfrag
  have hnest := hl.nested t (mem_nodes_of_parts hn hparts)
  have hself : Removable s (t.start, t.stop) :=
    ⟨hnest.start, hnest.stop, ht.nonempty, ht.ink, ht.settled⟩
  unfold memberEnd
  split
  · exact hself
  · rename_i next rest
    split
    · rename_i hmark
      have hnext : n.children = (before ++ [t]) ++ next :: rest := by rw [hparts]; simp
      have hsolid := hl.solid_of_child hn hnext (isFragment_of_token (isNamed_of_endsMember hmark))
      have hrow : Row s n.stop (t :: next :: rest) := (hparts ▸ hl.row hn).of_append
      have hgap := le_of_isBlankBetween hrow.gap
      have hle := ht.nonempty
      have hle' := hsolid.nonempty
      refine ⟨hnest.start, (hl.nested next (mem_nodes_of_parts hn hnext)).stop, ?_, ht.ink,
        hsolid.settled⟩
      change t.start < next.stop
      omega
    · exact hself

/-- What is taken out with its lines starts and ends with ink. -/
theorem Layout.removable :
    ∀ r ∈ removals (.ofString s) root, Removable s r := by
  intro r hr
  obtain ⟨n, hn, before, t, following, hparts, hstart, hstop⟩ := mem_removals_iff.mp hr
  have hcases := removalEnd?_cases hstop
  have hfrag := isFragment_eq_false hcases.1
  obtain ⟨a, b⟩ := r
  obtain rfl : t.start = a := hstart
  rcases hcases.2 with ⟨rfl, _⟩ | ⟨rfl, _⟩
  · have ht := hl.solid_of_child hn hparts hfrag
    have hnest := hl.nested t (mem_nodes_of_parts hn hparts)
    exact ⟨hnest.start, hnest.stop, ht.nonempty, ht.ink, ht.settled⟩
  · exact hl.removable_member hn hparts hfrag

end Layout

/-! ## 3. Edits of parts in a row -/

/-- What a rule says about each part and the parts behind it, one after the other. -/
def eachPart (f : Tree → List Tree → List Edit) : List Tree → List Edit
  | [] => []
  | c :: cs => f c cs ++ eachPart f cs

section Row

variable {R : List (Nat × Nat)} {stop : Nat} {parts cs : List Tree} {c : Tree} {e : Emission}
  {f : Tree → List Tree → List Edit}

/-- The edits at a part and its own are spread out up to the next part that is no mark. -/
structure Settles (s : String) (R : List (Nat × Nat)) (stop : Nat)
    (f : Tree → List Tree → List Edit) (c : Tree) (following : List Tree) : Prop where
  mark : endsMember c = true → ∀ inner, emit (.ofString s) following c = .ok inner →
    f c following ++ inner.edits = []
  spread : ∀ inner, emit (.ofString s) following c = .ok inner →
    Spread s R c.start (room stop following) (f c following ++ inner.edits)

/-- The edits at the first part and those behind it. -/
theorem spread_cons {es fs : List Edit} (hrow : Row s stop (c :: cs))
    (hmark : endsMember c = true → es = []) (hes : Spread s R c.start (room stop cs) es)
    (hfs : Spread s R (room stop cs) stop fs) :
    Spread s R (room stop (c :: cs)) stop (es ++ fs) := by
  rw [room]
  split
  · rename_i hc
    rw [hmark hc]
    exact hfs
  · have hroom := hrow.stop_le_room
    have hc := hrow.start_le_stop c List.mem_cons_self
    exact hes.append hfs (Nat.le_refl _) (by omega) hrow.tail.room_le

/-- The edits at parts in a row and their own are spread out. -/
theorem spread_emitAll (hrow : Row s stop parts)
    (h : ∀ before c following, parts = before ++ c :: following → Settles s R stop f c following)
    (he : emitAll (.ofString s) parts = .ok e) :
    Spread s R (room stop parts) stop (eachPart f parts ++ e.edits) := by
  induction parts generalizing e with
  | nil =>
    cases he
    exact .nil
  | cons c cs ih =>
    obtain ⟨first, rest, hfirst, hrest, hedits⟩ := emitAll_cons_ok he
    have hc := h [] c cs rfl
    have hcs := ih hrow.tail (fun before d fs hp => h (c :: before) d fs (by rw [hp]; rfl)) hrest
    have hboth := spread_cons hrow (fun hm => hc.mark hm first hfirst) (hc.spread first hfirst) hcs
    refine hboth.perm ?_
    rw [hedits, eachPart, List.append_assoc, List.append_assoc]
    exact (List.perm_append_comm_assoc ..).append_left _

/-- So they are with further edits at one of the parts. -/
theorem spread_emitAll_insert {before following : List Tree} {extra : List Edit}
    (hrow : Row s stop (before ++ c :: following))
    (h : ∀ pre d fs, before ++ c :: following = pre ++ d :: fs → Settles s R stop f d fs)
    (hc : Settles s R stop (fun d fs => f d fs ++ extra) c following)
    (he : emitAll (.ofString s) (before ++ c :: following) = .ok e) :
    Spread s R (room stop (before ++ c :: following)) stop
      (eachPart f (before ++ c :: following) ++ (extra ++ e.edits)) := by
  induction before generalizing e with
  | nil =>
    obtain ⟨first, rest, hfirst, hrest, hedits⟩ := emitAll_cons_ok he
    have hcs := spread_emitAll hrow.tail
      (fun pre d fs hp => h (c :: pre) d fs (by rw [hp]; rfl)) hrest
    have hboth := spread_cons hrow (fun hm => hc.mark hm first hfirst) (hc.spread first hfirst) hcs
    refine hboth.perm ?_
    have hperm :=
      List.perm_append_comm_assoc (extra ++ first.edits) (eachPart f following) rest.edits
    rw [hedits, List.nil_append, eachPart]
    simp only [List.append_assoc] at hperm ⊢
    exact hperm.append_left _
  | cons b before ih =>
    obtain ⟨first, rest, hfirst, hrest, hedits⟩ := emitAll_cons_ok he
    have hb := h [] b (before ++ c :: following) rfl
    have hcs := ih hrow.tail
      (fun pre d fs hp => h (b :: pre) d fs (by rw [List.cons_append, hp]; rfl)) hrest
    have hboth := spread_cons hrow (fun hm => hb.mark hm first hfirst) (hb.spread first hfirst) hcs
    refine hboth.perm ?_
    have hperm := List.perm_append_comm_assoc first.edits
      (eachPart f (before ++ c :: following) ++ extra) rest.edits
    rw [hedits, List.cons_append, eachPart]
    simp only [List.append_assoc] at hperm ⊢
    exact hperm.append_left _

end Row

/-! ## 4. A tree's own edits at its parts -/

/-- A keyword or mark has no edits of its own. -/
theorem emit_token {src : Source} {following : List Tree} {t : Tree} (h : t.isNamed = false)
    (hparts : t.children = []) : emit src following t = .ok {} := by
  obtain ⟨kind, role, start, stop, parts⟩ := t
  obtain rfl : parts = [] := hparts
  cases kind with
  | token text => rfl
  | _ => cases h

/-- The edit that a tree makes at one of its parts, a word that goes. -/
def wordEditAt (src : Source) (t c : Tree) (following : List Tree) : List Edit :=
  match treatment t.kind with
  | .nonNull => if c.kind = .token "!" then [drop c] else []
  | .abstractClass => if c.kind = .token "abstract" then [dropWord src c following] else []
  | .field | .parameter | .declarator | .method =>
    if isErasedWord c then [dropWord src c following] else []
  | _ => []

theorem eraseWords_eq (src : Source) (parts : List Tree) :
    eraseWords src parts =
      eachPart (fun c following => if isErasedWord c then [dropWord src c following] else [])
        parts := by
  induction parts with
  | nil => rfl
  | cons c cs ih => rw [eraseWords, eachPart, ih]

theorem eraseWord_sublist (src : Source) (text : String) (parts : List Tree) :
    (eraseWord src text parts).Sublist
      (eachPart (fun c following => if c.kind = .token text then [dropWord src c following] else [])
        parts) := by
  induction parts with
  | nil => exact .refl _
  | cons c cs ih =>
    rw [eraseWord, eachPart]
    split
    · exact (List.nil_sublist _).cons_cons _
    · exact ih

theorem dropToken_sublist (text : String) (parts : List Tree) :
    (((parts.find? fun c => c.kind == .token text).map drop).toList).Sublist
      (eachPart (fun c _ => if c.kind = .token text then [drop c] else []) parts) := by
  induction parts with
  | nil => exact .refl _
  | cons c cs ih =>
    rw [List.find?_cons, eachPart]
    by_cases hc : c.kind = .token text
    · rw [if_pos hc, beq_iff_eq.mpr hc]
      exact (List.nil_sublist _).cons_cons _
    · rw [if_neg hc, beq_eq_false_iff_ne.mpr hc]
      exact ih

/-- All words that go are among the parts. -/
theorem wordEdits_sublist (src : Source) (t : Tree) :
    (wordEdits src t).Sublist (eachPart (wordEditAt src t) t.children) := by
  unfold wordEdits wordEditAt
  cases treatment t.kind with
  | nonNull => exact dropToken_sublist "!" t.children
  | abstractClass => exact eraseWord_sublist src "abstract" t.children
  | field | parameter | declarator | method =>
    exact eraseWords_eq src t.children ▸ List.Sublist.refl (eraseWords src t.children)
  | _ => exact List.nil_sublist _

/-! ## 5. The edits of one part -/

/-- Where the edits of a part end: in front of the next part that is no mark, or with the part. -/
def reach (stop : Nat) (t : Tree) (following : List Tree) : Nat :=
  if stretches t then room stop following else t.stop

theorem Row.reach_le_room {stop : Nat} {c : Tree} {cs : List Tree} (h : Row s stop (c :: cs)) :
    reach stop c cs ≤ room stop cs := by
  rw [reach]
  split
  · exact Nat.le_refl _
  · exact h.stop_le_room

/-- The edits of the part `t`, wherever it stands in a program, are spread out. -/
def SpreadsOut (s : String) (root t : Tree) : Prop :=
  ∀ n ∈ root.nodes, ∀ before following, n.children = before ++ t :: following →
    ∀ e, emit (.ofString s) following t = .ok e →
      Spread s (removals (.ofString s) root) t.start (reach n.stop t following) e.edits

section Part

variable (hl : Layout s root) {n t : Tree} {before following : List Tree} (hn : n ∈ root.nodes)
  (hparts : n.children = before ++ t :: following)
include hl hn hparts

theorem Layout.row_of_child : Row s n.stop (t :: following) := (hparts ▸ hl.row hn).of_append

/-- Nothing that is taken out with its lines reaches a part that is no fragment. -/
theorem Layout.clear (hfrag : isFragment t = false) :
    Clear s (removals (.ofString s) root) t.start t.stop :=
  have ht := hl.solid_of_child hn hparts hfrag
  ⟨before_of_ink hl.removable ht.ink,
    behind_of_settled hl.removable (hl.nested t (mem_nodes_of_parts hn hparts)).stop ht.settled⟩

/-- An edit of the whole range of a part has its place. -/
theorem Layout.sits_whole (hfrag : isFragment t = false) (text : String) :
    Sits s (removals (.ofString s) root) ⟨t.start, t.stop, text⟩ t.start t.stop :=
  have ht := hl.nested t (mem_nodes_of_parts hn hparts)
  ⟨⟨ht.start, ht.stop, ht.start_le_stop⟩, hl.clear hn hparts hfrag,
    .inl ⟨Nat.le_refl _, Nat.le_refl _⟩⟩

/-- A part that is taken out together with the blanks behind it, up to `stop`. -/
theorem Layout.sits_word {p stop : Nat} (hfrag : isFragment t = false) (hp : IsBoundary s p)
    (htp : t.stop ≤ p) (hstop : IsBoundary s stop)
    (hblank : isBlankBetween (.ofString s) p stop = true)
    (hno : ∀ r ∈ removals (.ofString s) root, isBlankBetween (.ofString s) p r.1 = false) :
    Sits s (removals (.ofString s) root) (.removal t.start stop) t.start stop := by
  have ht := hl.nested t (mem_nodes_of_parts hn hparts)
  have hle := ht.start_le_stop
  have hpstop := le_of_isBlankBetween hblank
  refine ⟨⟨ht.start, hstop, ?_⟩, ⟨(hl.clear hn hparts hfrag).before,
    behind_of_apart hl.removable hp hstop hblank hno⟩, .inl ⟨Nat.le_refl _, Nat.le_refl _⟩⟩
  change t.start ≤ stop
  omega

/-- A word that goes with the blanks behind it. -/
theorem Layout.spread_dropWord (hword : isWordOf n t = true) (hfrag : isFragment t = false) :
    Spread s (removals (.ofString s) root) t.start (room n.stop following)
      [dropWord (.ofString s) t following] := by
  have hrow := hl.row_of_child hn hparts
  have hwhole := Spread.single (hl.sits_whole hn hparts hfrag "")
  unfold dropWord
  split
  · exact hwhole.mono (Nat.le_refl _) hrow.stop_le_room
  · rename_i next rest
    split
    · rename_i hblank
      have hnext : n.children = (before ++ [t]) ++ next :: rest := by rw [hparts]; simp
      have hmem : t.stop ∈ wordEnds n := by
        refine List.mem_append_left _ (List.mem_map.mpr ⟨t, List.mem_filter.mpr ⟨?_, hword⟩, rfl⟩)
        rw [hparts]
        exact List.mem_append_right before List.mem_cons_self
      have hsits := hl.sits_word hn hparts hfrag (hl.nested t (mem_nodes_of_parts hn hparts)).stop
        (Nat.le_refl _) (hl.nested next (mem_nodes_of_parts hn hnext)).start hblank
        (hl.words n hn t.stop hmem)
      exact (Spread.single hsits).mono (Nat.le_refl _) hrow.tail.start_le_room
    · exact hwhole.mono (Nat.le_refl _) hrow.stop_le_room

/-- A parameter that gives the type of `this`, with the comma behind it. -/
theorem Layout.spread_dropParameter (hk : treatment t.kind = .parameter)
    (hthis : isThisParameter t = true) :
    Spread s (removals (.ofString s) root) t.start (room n.stop following)
      [dropParameter t following] := by
  have hfrag : isFragment t = false := isFragment_eq_false (by rw [hk]; exact nofun)
  have hrow := hl.row_of_child hn hparts
  have hwhole := (Spread.single (hl.sits_whole hn hparts hfrag "")).mono (Nat.le_refl _)
    hrow.stop_le_room
  unfold dropParameter
  split
  · rename_i comma next rest
    split
    · rename_i hcomma
      have hcommaAt : n.children = (before ++ [t]) ++ comma :: next :: rest := by
        rw [hparts]; simp
      have hnextAt : n.children = (before ++ [t, comma]) ++ next :: rest := by rw [hparts]; simp
      have hmem : comma.stop ∈ wordEnds n := by
        refine List.mem_append_right _ (List.mem_filterMap.mpr ⟨(t, comma :: next :: rest), ?_, ?_⟩)
        · exact mem_withFollowing_iff.mpr ⟨before, hparts⟩
        · simp [commaEnd?, hk, hthis, hcomma]
      have hgap := le_of_isBlankBetween hrow.gap
      have hcommale := hrow.tail.start_le_stop comma List.mem_cons_self
      have hcommaIn := hl.nested comma (mem_nodes_of_parts hn hcommaAt)
      have hnextIn := hl.nested next (mem_nodes_of_parts hn hnextAt)
      have hsits := hl.sits_word hn hparts hfrag hcommaIn.stop (by omega) hnextIn.start hrow.tail.gap
        (hl.words n hn comma.stop hmem)
      have hmark : endsMember comma = true := by
        rw [endsMember, hcomma]
        rfl
      refine (Spread.single hsits).mono (Nat.le_refl _) ?_
      rw [room, if_pos hmark]
      exact hrow.tail.tail.start_le_room
    · exact hwhole
  · exact hwhole

end Part

/-! ## 6. The edits of every part -/

theorem kind_of_isErasedWord {c : Tree} (h : isErasedWord c = true) :
    c.kind = .token "readonly" ∨ c.kind = .token "?" ∨ c.kind = .token "!" := by
  rw [isErasedWord, Bool.or_eq_true, Bool.or_eq_true, beq_iff_eq, beq_iff_eq, beq_iff_eq] at h
  rcases h with (h | h) | h
  · exact .inl h
  · exact .inr (.inl h)
  · exact .inr (.inr h)

/-- A word that goes is a keyword or mark, and none that ends a member. -/
theorem wordEditAt_cases (src : Source) (n c : Tree) (following : List Tree) :
    wordEditAt src n c following = [] ∨
      c.isNamed = false ∧ endsMember c = false ∧
        (wordEditAt src n c following = [drop c] ∨
          isWordOf n c = true ∧ wordEditAt src n c following = [dropWord src c following]) := by
  have hmodifier (hm : erasesModifiers n.kind = true) (hc : isErasedWord c = true) :
      c.isNamed = false ∧ endsMember c = false ∧ isWordOf n c = true := by
    refine ⟨?_, ?_, by simp [isWordOf, hm, hc]⟩
    · rw [Tree.isNamed]
      rcases kind_of_isErasedWord hc with h | h | h <;> rw [h] <;> rfl
    · rw [endsMember]
      rcases kind_of_isErasedWord hc with h | h | h <;> rw [h] <;> rfl
  unfold wordEditAt
  cases hk : treatment n.kind with
  | nonNull =>
    by_cases hc : c.kind = .token "!"
    · exact .inr ⟨by rw [Tree.isNamed, hc]; rfl, by rw [endsMember, hc]; rfl, .inl (if_pos hc)⟩
    · exact .inl (if_neg hc)
  | abstractClass =>
    by_cases hc : c.kind = .token "abstract"
    · exact .inr ⟨by rw [Tree.isNamed, hc]; rfl, by rw [endsMember, hc]; rfl,
        .inr ⟨by simp [isWordOf, hk, hc], if_pos hc⟩⟩
    · exact .inl (if_neg hc)
  | field | parameter | declarator | method =>
    by_cases hc : isErasedWord c = true
    · obtain ⟨htoken, hmark, hword⟩ := hmodifier (by rw [erasesModifiers, hk]) hc
      exact .inr ⟨htoken, hmark, .inr ⟨hword, if_pos hc⟩⟩
    · exact .inl (if_neg hc)
  | _ => exact .inl rfl

section Program

variable (hl : Layout s root) {n t : Tree} {before following : List Tree} {e : Emission}
include hl

/-- A keyword or mark in a program has no edits of its own. -/
theorem Layout.emit_token (ht : t ∈ root.nodes) (h : t.isNamed = false) {inner : Emission}
    (hinner : emit (.ofString s) following t = .ok inner) : inner.edits = [] := by
  rw [Emission.emit_token h (hl.tokens t ht h)] at hinner
  cases hinner
  rfl

/-- The edits at a part of a tree and its own are spread out. -/
theorem Layout.settles (hn : n ∈ root.nodes) (hparts : n.children = before ++ t :: following)
    (ih : SpreadsOut s root t) :
    Settles s (removals (.ofString s) root) n.stop (wordEditAt (.ofString s) n) t following := by
  have hrow := hl.row_of_child hn hparts
  have ht := mem_nodes_of_parts hn hparts
  rcases wordEditAt_cases (.ofString s) n t following with hnone | ⟨htoken, hmark, hedit⟩
  · refine ⟨fun hmark inner hinner => ?_, fun inner hinner => ?_⟩
    · rw [hnone, hl.emit_token ht (isNamed_of_endsMember hmark) hinner]
      rfl
    · rw [hnone, List.nil_append]
      exact (ih n hn before following hparts inner hinner).mono (Nat.le_refl _)
        hrow.reach_le_room
  · refine ⟨fun h => absurd h (by rw [hmark]; exact Bool.false_ne_true), fun inner hinner => ?_⟩
    have hfrag := isFragment_of_token htoken
    rw [hl.emit_token ht htoken hinner, List.append_nil]
    rcases hedit with hedit | ⟨hword, hedit⟩
    · rw [hedit]
      exact (Spread.single (hl.sits_whole hn hparts hfrag "")).mono (Nat.le_refl _)
        hrow.stop_le_room
    · rw [hedit]
      exact hl.spread_dropWord hn hparts hword hfrag

/-- A text that comes in at the end of a part. -/
theorem Layout.sits_insertion (hn : n ∈ root.nodes) (hparts : n.children = before ++ t :: following)
    (hfrag : isFragment t = false) {m : Tree} (hm : m ∈ root.nodes)
    (htail : t.stop ∈ Emission.tails (.ofString s) m) (text : String) :
    Sits s (removals (.ofString s) root) (.insertion t.stop text) t.stop t.stop := by
  have ht := hl.nested t (mem_nodes_of_parts hn hparts)
  exact ⟨⟨ht.stop, ht.stop, Nat.le_refl _⟩,
    ⟨before_of_apart hl.removable ht.stop (hl.tails m hm t.stop htail),
      (hl.clear hn hparts hfrag).behind⟩, .inl ⟨Nat.le_refl _, Nat.le_refl _⟩⟩

theorem Layout.start_le_room (hn : n ∈ root.nodes) : n.start ≤ room n.stop n.children := by
  have hrow := hl.row hn
  have hnest := hl.nested n hn
  cases hparts : n.children with
  | nil => exact hnest.start_le_stop
  | cons c cs =>
    have hc := (hnest.around c (by rw [hparts]; exact List.mem_cons_self)).1
    exact Nat.le_trans hc (hparts ▸ hrow).start_le_room

/-- The edits of a tree whose parts are all treated. -/
theorem Layout.spread_parts (hn : n ∈ root.nodes) (ih : ∀ c ∈ n.children, SpreadsOut s root c)
    (he : emitAll (.ofString s) n.children = .ok e) :
    Spread s (removals (.ofString s) root) n.start n.stop
      (eachPart (wordEditAt (.ofString s) n) n.children ++ e.edits) := by
  refine (spread_emitAll (hl.row hn) (fun pre c fs hp => ?_) he).mono (hl.start_le_room hn)
    (Nat.le_refl _)
  exact hl.settles hn hp (ih c (by rw [hp]; exact List.mem_append_right pre List.mem_cons_self))

/-- So they are with further edits at one of the parts. -/
theorem Layout.spread_parts_insert (extra : List Edit) (hn : n ∈ root.nodes)
    (ih : ∀ c ∈ n.children, SpreadsOut s root c) (hparts : n.children = before ++ t :: following)
    (hmark : endsMember t = false)
    (hword : wordEditAt (.ofString s) n t following = [])
    (hextra : ∀ inner, emit (.ofString s) following t = .ok inner →
      Spread s (removals (.ofString s) root) t.start (room n.stop following)
        (extra ++ inner.edits))
    (he : emitAll (.ofString s) n.children = .ok e) :
    Spread s (removals (.ofString s) root) n.start n.stop
      (eachPart (wordEditAt (.ofString s) n) n.children ++ (extra ++ e.edits)) := by
  have hroom := hl.start_le_room hn
  have hrow := hl.row hn
  rw [hparts] at he hroom hrow ⊢
  refine (spread_emitAll_insert hrow (fun pre c fs hp => ?_) ⟨?_, ?_⟩ he).mono hroom
    (Nat.le_refl _)
  · exact hl.settles hn (hparts.trans hp)
      (ih c (by rw [hparts, hp]; exact List.mem_append_right pre List.mem_cons_self))
  · exact fun h => absurd h (by rw [hmark]; exact Bool.false_ne_true)
  · intro inner hinner
    rw [hword, List.nil_append]
    exact hextra inner hinner

end Program

/-! ## 7. Constructors -/

theorem emit_kept {src : Source} {following : List Tree} {t : Tree}
    (h : treatment t.kind = .kept) : emit src following t = emitAll src t.children := by
  obtain ⟨kind, role, start, stop, parts⟩ := t
  rw [emit]
  dsimp only [Tree.kind] at h
  rw [h]
  rfl

theorem wordEditAt_kept {src : Source} {n : Tree} (h : treatment n.kind = .kept) (c : Tree)
    (following : List Tree) : wordEditAt src n c following = [] := by
  rw [wordEditAt, h]

theorem wordEditAt_named {src : Source} {c : Tree} (n : Tree) (h : c.isNamed = true)
    (following : List Tree) : wordEditAt src n c following = [] := by
  rcases wordEditAt_cases src n c following with hnone | ⟨htoken, _⟩
  · exact hnone
  · rw [h] at htoken
    cases htoken

theorem eachPart_eq_nil {f : Tree → List Tree → List Edit} (h : ∀ c following, f c following = [])
    (parts : List Tree) : eachPart f parts = [] := by
  induction parts with
  | nil => rfl
  | cons c cs ih => rw [eachPart, h, ih, List.nil_append]

theorem endsMember_named {t : Tree} (h : t.isNamed = true) : endsMember t = false := by
  rw [← Bool.not_eq_true]
  intro hmark
  rw [isNamed_of_endsMember hmark] at h
  cases h

/-- The assignments of a constructor come in at one place of its body, or nowhere. -/
theorem initialization_cases (src : Source) (t : Tree) :
    initialization src t = [] ∨ ∃ body text, t.part? .body = some body ∧
      initialization src t = [.insertion (initializationPlace body) text] := by
  rw [initialization]
  split
  · exact .inl rfl
  · exact .inl rfl
  · rename_i body hbody _
    exact .inr ⟨body, _, hbody, rfl⟩

/-- The first named part of a tree stands behind keywords and marks alone. -/
theorem exists_of_named {t first : Tree} {rest : List Tree} (h : t.named = first :: rest) :
    ∃ before after, t.children = before ++ first :: after ∧ first.isNamed = true := by
  obtain ⟨before, after, hparts, _, hfirst, _⟩ := List.filter_eq_cons_iff.mp h
  exact ⟨before, after, hparts, hfirst⟩

theorem exists_brace {src : Source} {t body : Tree} (h : hasBracedBody src t = true)
    (hk : treatment t.kind = .method) (hc : isConstructor src t = true)
    (hbody : t.part? .body = some body) :
    body.kind = .other "statement_block" ∧ ∃ brace rest, body.children = brace :: rest ∧
      brace.kind = .token "\x7b" ∧ brace.start = body.start ∧ brace.stop = body.start + 1 := by
  simp only [hasBracedBody, hk, hc, hbody, decide_true, Bool.and_self, if_true, Bool.and_eq_true,
    beq_iff_eq] at h
  refine ⟨h.1, ?_⟩
  split at h
  · rename_i brace rest hparts
    simp only [Bool.and_eq_true, beq_iff_eq] at h
    exact ⟨brace, rest, hparts, h.2.1.1, h.2.1.2, h.2.2⟩
  · cases h.2

section Constructor

variable (hl : Layout s root) {t body first : Tree} {before after : List Tree} {e : Emission}
include hl

/-- A text that comes in behind the brace of a block. -/
theorem Layout.spread_behind_brace (hbody : body ∈ root.nodes)
    (hkept : treatment body.kind = .kept) (ih : ∀ c ∈ body.children, SpreadsOut s root c)
    {brace : Tree} {rest : List Tree} (hparts : body.children = brace :: rest)
    (hbrace : brace.kind = .token "\x7b") (text : String)
    (he : emitAll (.ofString s) body.children = .ok e) :
    Spread s (removals (.ofString s) root) body.start body.stop
      ([.insertion brace.stop text] ++ e.edits) := by
  have hparts' : body.children = [] ++ brace :: rest := hparts
  have hmem := mem_nodes_of_parts hbody hparts'
  have htoken : brace.isNamed = false := by rw [Tree.isNamed, hbrace]; rfl
  have hmark : endsMember brace = false := by rw [endsMember, hbrace]; rfl
  have hspread := hl.spread_parts_insert [.insertion brace.stop text] hbody ih hparts'
    hmark (wordEditAt_kept hkept brace rest) (fun inner hinner => ?_) he
  · rw [eachPart_eq_nil (wordEditAt_kept hkept), List.nil_append] at hspread
    exact hspread
  · have hb := hl.nested brace hmem
    have hsits : Sits s (removals (.ofString s) root) (.insertion brace.stop text) brace.start
        brace.stop :=
      ⟨⟨hb.stop, hb.stop, Nat.le_refl _⟩, hl.clear hbody hparts' (isFragment_of_token htoken),
        .inl ⟨hb.start_le_stop, Nat.le_refl _⟩⟩
    rw [hl.emit_token hmem htoken hinner, List.append_nil]
    exact (Spread.single hsits).mono (Nat.le_refl _) (hl.row_of_child hbody hparts').stop_le_room

/-- A text that comes in behind a statement of a block. -/
theorem Layout.spread_behind_statement (hbody : body ∈ root.nodes)
    (hkept : treatment body.kind = .kept) (ih : ∀ c ∈ body.children, SpreadsOut s root c)
    (hparts : body.children = before ++ first :: after)
    (hkind : first.kind = .expressionStatement) (ht : t ∈ root.nodes)
    (htail : first.stop ∈ Emission.tails (.ofString s) t) (text : String)
    (he : emitAll (.ofString s) body.children = .ok e) :
    Spread s (removals (.ofString s) root) body.start body.stop
      ([.insertion first.stop text] ++ e.edits) := by
  have hmem : first ∈ body.children := by
    rw [hparts]
    exact List.mem_append_right before List.mem_cons_self
  have hmark : endsMember first = false := by rw [endsMember, hkind]; rfl
  have hfrag : isFragment first = false := by rw [isFragment, hkind]; rfl
  have hspread := hl.spread_parts_insert [.insertion first.stop text] hbody ih hparts
    hmark (wordEditAt_kept hkept first after) (fun inner hinner => ?_) he
  · rw [eachPart_eq_nil (wordEditAt_kept hkept), List.nil_append] at hspread
    exact hspread
  · have hown := ih first hmem body hbody before after hparts inner hinner
    have hreach : reach body.stop first after = first.stop := by
      rw [reach, stretches, hkind]
      rfl
    have hle := (hl.nested first (mem_nodes_of_parts hbody hparts)).start_le_stop
    rw [hreach] at hown
    have hins := Spread.single (hl.sits_insertion hbody hparts hfrag ht htail text)
    have hboth := (hown.append hins (Nat.le_refl _) hle (Nat.le_refl _)).perm List.perm_append_comm
    exact hboth.mono (Nat.le_refl _) (hl.row_of_child hbody hparts).stop_le_room

/-- A text that comes in at the place of a constructor's assignments lies apart from the edits of
    its body. -/
theorem Layout.spread_body (ht : t ∈ root.nodes) (hk : treatment t.kind = .method)
    (hc : isConstructor (.ofString s) t = true) (hbody : t.part? .body = some body)
    (ih : ∀ c ∈ body.children, SpreadsOut s root c) (text : String)
    (he : emitAll (.ofString s) body.children = .ok e) :
    Spread s (removals (.ofString s) root) body.start body.stop
      ([.insertion (initializationPlace body) text] ++ e.edits) := by
  have hmem : body ∈ root.nodes := Tree.mem_nodes_of_child (List.mem_of_find?_eq_some hbody) ht
  obtain ⟨hkind, brace, rest, hparts, hbrace, hstart, hstop⟩ :=
    exists_brace (hl.bodies t ht) hk hc hbody
  have hkept : treatment body.kind = .kept := by rw [hkind]; rfl
  have hbehind := hl.spread_behind_brace hmem hkept ih hparts hbrace text he
  rw [hstop] at hbehind
  unfold initializationPlace
  split
  · rename_i first others hnamed
    split
    · rename_i hsuper
      obtain ⟨before, after, hfirst, _⟩ := exists_of_named hnamed
      have hstatement : first.kind = .expressionStatement := by
        rw [isSuperCall, Bool.and_eq_true, beq_iff_eq] at hsuper
        exact hsuper.1
      have htail : first.stop ∈ Emission.tails (.ofString s) t := by
        simp [Emission.tails, hk, superCallEnd?, hc, hbody, hnamed, hsuper]
      exact hl.spread_behind_statement hmem hkept ih hfirst hstatement ht htail text he
    · exact hbehind
  · exact hbehind

/-- The edits of a tree whose parts are all treated, with the assignments of a constructor. -/
theorem Layout.spread_descended (ht : t ∈ root.nodes) (ih : ∀ d ∈ t.inner, SpreadsOut s root d)
    (he : emitAll (.ofString s) t.children = .ok e) :
    Spread s (removals (.ofString s) root) t.start t.stop
      (wordEdits (.ofString s) t ++ (insertions (.ofString s) t ++ e.edits)) := by
  have hchild (c : Tree) (hc : c ∈ t.children) : SpreadsOut s root c :=
    ih c (Tree.mem_inner_of_child hc)
  have hwords := wordEdits_sublist (.ofString s) t
  have hplain := (hl.spread_parts ht hchild he).sublist (hwords.append (.refl _))
  unfold insertions
  split
  · rename_i hk
    split
    · rename_i hc
      rcases initialization_cases (.ofString s) t with hnone | ⟨body, text, hbody, hsome⟩
      · rw [hnone]
        exact hplain
      · obtain ⟨hkind, _⟩ := exists_brace (hl.bodies t ht) hk hc hbody
        obtain ⟨_, before, after, hparts, _⟩ := List.find?_eq_some_iff_append.mp hbody
        have hnamed : body.isNamed = true := by rw [Tree.isNamed, hkind]; rfl
        have hkept : treatment body.kind = .kept := by rw [hkind]; rfl
        have hbodyIn : body ∈ t.nodes :=
          Tree.mem_nodes_of_child (List.mem_of_find?_eq_some hbody) (Tree.mem_nodes_self t)
        rw [hsome]
        refine (hl.spread_parts_insert _ ht hchild hparts (endsMember_named hnamed)
          (wordEditAt_named t hnamed after) (fun inner hinner => ?_) he).sublist
            (hwords.append (.refl _))
        rw [emit_kept hkept] at hinner
        exact (hl.spread_body ht hk hc hbody
          (fun c hc => ih c (Tree.mem_inner_of_node hc hbodyIn)) text hinner).mono
            (Nat.le_refl _) (hl.row_of_child ht hparts).stop_le_room
    · exact hplain
  · exact hplain

end Constructor

/-! ## 8. All edits of a program -/

section Forms

variable (hl : Layout s root) {n t : Tree} {before following : List Tree} {e : Emission}
  (hn : n ∈ root.nodes) (hparts : n.children = before ++ t :: following)
include hl hn hparts

/-- What an export keeps, its own edits, and the text at its end. -/
theorem Layout.spread_exported (ih : ∀ d ∈ t.inner, SpreadsOut s root d) (text : String)
    {pre after : List Tree} {part : Tree} {inner : Emission} {tail : List Edit}
    (hk : treatment t.kind = .exportStatement)
    (hpart : keptPart? (.ofString s) t = some part) (hpartAt : t.children = pre ++ part :: after)
    (hinner : emit (.ofString s) after part = .ok inner)
    (htail : tail = [] ∨ ∃ text, tail = [.insertion t.stop text]) :
    Spread s (removals (.ofString s) root) t.start t.stop
      (⟨t.start, part.start, text⟩ :: (inner.edits ++ tail)) := by
  have ht := mem_nodes_of_parts hn hparts
  have hfrag : isFragment t = false := isFragment_eq_false (by rw [hk]; exact nofun)
  have hmem : part ∈ t.children := by
    rw [hpartAt]
    exact List.mem_append_right pre List.mem_cons_self
  have hp := hl.nested part (Tree.mem_nodes_of_child hmem ht)
  have hnest := hl.nested t ht
  have haround := hnest.around part hmem
  have hle := hp.start_le_stop
  have hplace : part.start ∈ Emission.heads (.ofString s) t := by
    simp [Emission.heads, hk, hpart]
  have hhead : Sits s (removals (.ofString s) root) ⟨t.start, part.start, text⟩ t.start
      part.start :=
    ⟨⟨hnest.start, hp.start, haround.1⟩,
      ⟨(hl.clear hn hparts hfrag).before,
        behind_of_apart hl.removable hp.start hp.start (Syntax.isBlankBetween_self hp.start)
          (hl.heads t ht part.start hplace)⟩,
      .inl ⟨Nat.le_refl _, Nat.le_refl _⟩⟩
  have hend : Spread s (removals (.ofString s) root) t.stop t.stop tail := by
    rcases htail with rfl | ⟨text, rfl⟩
    · exact .nil
    · have hplace : t.stop ∈ Emission.tails (.ofString s) t := by
        simp [Emission.tails, hk, hpart]
      exact .single (hl.sits_insertion hn hparts hfrag ht hplace text)
  have hown := ih part (Tree.mem_inner_of_child hmem) t ht pre after hpartAt inner hinner
  have hrow := hl.row_of_child ht hpartAt
  have hown := hown.mono (Nat.le_refl _) (Nat.le_trans hrow.reach_le_room hrow.tail.room_le)
  have hrest := hown.append hend (Nat.le_refl _) (by omega) (Nat.le_refl _)
  exact (Spread.single hhead).append hrest (Nat.le_refl _) haround.1 (by omega)

/-- The operand of a cast, and what goes behind it. -/
theorem Layout.spread_cast (ih : ∀ d ∈ t.inner, SpreadsOut s root d)
    {pre after : List Tree} {operand : Tree} {inner : Emission}
    (hk : treatment t.kind = .cast) (hop : t.children.find? Tree.isNamed = some operand)
    (hopAt : t.children = pre ++ operand :: after)
    (hinner : emit (.ofString s) after operand = .ok inner) :
    Spread s (removals (.ofString s) root) t.start t.stop
      (.removal operand.stop t.stop :: inner.edits) := by
  have ht := mem_nodes_of_parts hn hparts
  have hfrag : isFragment t = false := isFragment_eq_false (by rw [hk]; exact nofun)
  have hmem : operand ∈ t.children := List.mem_of_find?_eq_some hop
  have hp := hl.nested operand (Tree.mem_nodes_of_child hmem ht)
  have hnest := hl.nested t ht
  have haround := hnest.around operand hmem
  have hplace : operand.stop ∈ Emission.tails (.ofString s) t := by
    simp [Emission.tails, hk, hop]
  have htail : Sits s (removals (.ofString s) root) (.removal operand.stop t.stop) operand.stop
      t.stop :=
    ⟨⟨hp.stop, hnest.stop, haround.2⟩,
      ⟨before_of_apart hl.removable hp.stop (hl.tails t ht _ hplace),
        (hl.clear hn hparts hfrag).behind⟩, .inl ⟨Nat.le_refl _, Nat.le_refl _⟩⟩
  have hown := ih operand (Tree.mem_inner_of_child hmem) t ht pre after hopAt inner hinner
  have hreach : reach t.stop operand after = operand.stop := by
    have hplain := hl.operands t ht
    rw [hasPlainOperand, hk, hop, Option.any_some, Bool.not_eq_true'] at hplain
    rw [reach, hplain]
    rfl
  rw [hreach] at hown
  have hle := hp.start_le_stop
  have hboth := (hown.mono haround.1 (Nat.le_refl _)).append (Spread.single htail) (Nat.le_refl _)
    (by omega) haround.2
  exact hboth.perm (@List.perm_append_comm _ inner.edits [_])

end Forms

section Program

variable (hl : Layout s root) {t : Tree} {e : Emission}
include hl

/-- **The edits of every part are spread out** over it and the room behind it. -/
theorem Layout.spread_emit (t : Tree) : SpreadsOut s root t := by
  induction t using Tree.strongInduction with
  | step t ih =>
    intro n hn before following hparts e he
    have ht := mem_nodes_of_parts hn hparts
    have hrow := hl.row_of_child hn hparts
    have hreach : t.stop ≤ reach n.stop t following := by
      rw [reach]
      split
      · exact hrow.stop_le_room
      · exact Nat.le_refl _
    have hwhole (hfrag : isFragment t = false) (text : String) :
        Spread s (removals (.ofString s) root) t.start (reach n.stop t following)
          [⟨t.start, t.stop, text⟩] :=
      (Spread.single (hl.sits_whole hn hparts hfrag text)).mono (Nat.le_refl _) hreach
    obtain ⟨es, hform, hperm⟩ := emits_of_emit he
    refine Spread.perm ?_ hperm.symm
    cases hform with
    | @removed stop hstop =>
      have hr : (t.start, stop) ∈ removals (.ofString s) root :=
        mem_removals_iff.mpr ⟨n, hn, before, t, following, hparts, rfl, hstop⟩
      refine (Spread.single (sits_dropLines hl.removable hr)).mono (Nat.le_refl _) ?_
      rcases (removalEnd?_cases hstop).2 with ⟨rfl, _⟩ | ⟨rfl, hstretch⟩
      · exact hreach
      · rw [reach, if_pos hstretch]
        exact hrow.memberEnd_le_room
    | dropped hk => exact hwhole (isFragment_eq_false (by rw [hk]; exact nofun)) ""
    | word hk =>
      have hfrag : isFragment t = false := isFragment_eq_false (by rw [hk]; exact nofun)
      rw [reach, stretches, hk]
      exact hl.spread_dropWord hn hparts (by simp [isWordOf, hk]) hfrag
    | parameter hk hthis =>
      rw [reach, stretches, hk, if_pos hthis]
      exact hl.spread_dropParameter hn hparts hk hthis
    | replaced text hrep =>
      refine hwhole (isFragment_eq_false fun hk => ?_) text
      rw [isReplaced, hk] at hrep
      cases hrep
    | exported text hk hpart hpartAt hinner htail =>
      exact (hl.spread_exported hn hparts ih text hk hpart hpartAt hinner htail).mono
        (Nat.le_refl _) hreach
    | cast hk hop hopAt _ hinner =>
      exact (hl.spread_cast hn hparts ih hk hop hopAt hinner).mono (Nat.le_refl _) hreach
    | descended _ hinner =>
      exact (hl.spread_descended ht ih hinner).mono (Nat.le_refl _) hreach
    | nothing _ => exact .nil

/-- The edits of a program are spread out over it. -/
theorem Layout.spread_program (he : emitAll (.ofString s) root.children = .ok e) :
    Spread s (removals (.ofString s) root) root.start root.stop e.edits :=
  (hl.spread_parts (Tree.mem_nodes_self root) (fun c _ => hl.spread_emit c) he).sublist
    (List.sublist_append_right _ _)

theorem Layout.fits (he : emitAll (.ofString s) root.children = .ok e) :
    ∀ x ∈ e.edits, x.Fits s := by
  intro x hx
  obtain ⟨_, _, _, _, hsits⟩ := (hl.spread_program he).sits x hx
  exact hsits.fits

/-- The body of a script is the text with all edits performed at once. -/
theorem Layout.bytesOf_body (he : emitAll (.ofString s) root.children = .ok e) :
    bytesOf (Edit.applyTo (.ofString s) e.edits).toList = Edit.atOnce (.ofString s) e.edits :=
  Edit.bytesOf_applyTo (hl.fits he) (hl.spread_program he).apart

omit hl in
theorem ofTree_eq {src : Source} (he : emitAll src root.children = .ok e) :
    Script.ofTree src root = .ok (Script.header e ++ Edit.applyTo src e.edits) := by
  rw [Script.ofTree, he]
  rfl

/-- **No edit of a program is lost.** On a tree of a grammar the edits that emission makes lie
    apart, none of them is left out, and the body of the script is the text with all of them
    performed at once. -/
theorem Layout.performs_all (he : emitAll (.ofString s) root.children = .ok e) :
    e.edits.Pairwise Edit.Apart ∧ (Edit.kept e.edits).Perm e.edits ∧
      Script.ofTree (.ofString s) root =
        .ok (Script.header e ++ Edit.applyTo (.ofString s) e.edits) ∧
      bytesOf (Edit.applyTo (.ofString s) e.edits).toList = Edit.atOnce (.ofString s) e.edits := by
  have hapart := (hl.spread_program he).apart
  refine ⟨hapart, ?_, ofTree_eq he, hl.bytesOf_body he⟩
  rw [Edit.kept_eq_sort (fun x hx => (hl.fits he x hx).start_le_stop) hapart]
  exact Edit.sort_perm e.edits

end Program

/-- A class with the signature of an overload, and a cast that excludes null. -/
def sampleText : String := "class A \x7b\n  f?(): T;\n  x = (y as B)!;\n\x7d"

def sampleProgram : Tree := ((Tree.ofSource (.ofString sampleText)).toOption).getD default

/-- The lines of the signature go, and so do the mark behind the cast and the type in it. -/
def sampleEmission : Emission :=
  { edits := [.removal 10 21, .removal 35 36, .removal 29 34] }

theorem sampleProgram_layout : Layout sampleText sampleProgram := by decide +kernel

theorem emitAll_sampleProgram :
    emitAll (.ofString sampleText) sampleProgram.children = .ok sampleEmission := by
  have h : (emitAll (.ofString sampleText) sampleProgram.children).toOption =
      some sampleEmission := by decide +kernel
  cases he : emitAll (.ofString sampleText) sampleProgram.children with
  | error _ =>
    rw [he] at h
    cases h
  | ok e =>
    rw [he] at h
    exact congrArg Except.ok (Option.some.inj h)

/-- All three edits of the sample are performed. -/
theorem sampleProgram_performs_all :
    (Tree.ofSource (.ofString sampleText)).isOk = true ∧ Layout sampleText sampleProgram ∧
      emitAll (.ofString sampleText) sampleProgram.children = .ok sampleEmission ∧
      sampleEmission.edits.Pairwise Edit.Apart ∧
      (Edit.kept sampleEmission.edits).Perm sampleEmission.edits ∧
      Edit.applyTo (.ofString sampleText) sampleEmission.edits =
        "class A \x7b\n  x = (y);\n\x7d" := by
  obtain ⟨hapart, hperm, _⟩ :=
    Layout.performs_all sampleProgram_layout emitAll_sampleProgram
  exact ⟨by decide +kernel, sampleProgram_layout, emitAll_sampleProgram, hapart, hperm,
    by decide +kernel⟩

end ClassScript.Emission
