/-
  File:      ClassScript/Proofs/Emission/Bounds.lean
  Subject:   How far the edits of a part reach.

  An edit may take blanks and lines around its part with it, and the mark
  behind it, but no ink beyond: whatever ink stands before the part stays
  before the edit, and whatever ink stands behind the part and the marks that
  follow it stays behind. By induction over the tree this holds of all edits of
  a part. Nothing is asked of the text but that its tree is formed.

  * `UnmarkedAt`: no mark that may go with a part stands at a place;
  * `Bounded`: an edit stays clear of the ink around a part;
  * `bounded_emit`: so do all edits of a part.
-/
import ClassScript.Proofs.Emission.Soundness
import ClassScript.Proofs.Syntax.Program

namespace ClassScript.Emission

open Syntax (Source Tree IsBoundary IsInk Formed AllFormed Yields Any)

variable {s : String} {t c : Tree} {following before after : List Tree} {stop : Nat} {x : Edit}

/-! ## 1. Parts in their parents -/

/-- The parts of a tree follow one another. -/
theorem yields_parts (h : AllFormed s t) (hparts : t.children = before ++ c :: after) :
    Yields s Any t.start (before ++ c :: after) t.stop := by
  have hne : t.children ≠ [] := by simp [hparts]
  have hfollows := h.self.parts.resolve_left hne
  rw [hparts] at hfollows
  refine ⟨h.self.start, hfollows, fun d hd => h.child (hparts ▸ hd), fun _ _ => trivial⟩

/-- Behind a part stand those that follow it. -/
theorem yields_behind {i j : Nat} (h : Yields s Any i (before ++ c :: after) j) :
    i ≤ c.start ∧ Yields s Any c.stop after j := by
  induction before generalizing i with
  | nil =>
    have hc := (h.formed c List.mem_cons_self).self
    exact ⟨(h.follows.1).onward.le, hc.onward.boundary hc.start, h.follows.2,
      fun d hd => h.formed d (List.mem_cons_of_mem c hd), fun _ _ => trivial⟩
  | cons b before ih =>
    have hb := (h.formed b List.mem_cons_self).self
    have hrest : Yields s Any b.stop (before ++ c :: after) j :=
      ⟨hb.onward.boundary hb.start, h.follows.2,
        fun d hd => h.formed d (List.mem_cons_of_mem b hd), fun _ _ => trivial⟩
    obtain ⟨hle, hbehind⟩ := ih hrest
    have hgap := (h.follows.1).onward.le
    have hle' := hb.onward.le
    exact ⟨by omega, hbehind⟩

theorem start_le_of_yields {i j : Nat} {ts : List Tree} (h : Yields s Any i ts j) (hc : c ∈ ts) :
    i ≤ c.start ∧ c.stop ≤ j := by
  obtain ⟨before, after, rfl⟩ := List.append_of_mem hc
  obtain ⟨hle, hbehind⟩ := yields_behind h
  exact ⟨hle, hbehind.onward.le⟩

/-! ## 2. Marks around a place -/

/-- Of the parts `following`, those that do not stop before `p` start with one that starts there
    or before, and is no mark. -/
def UnmarkedAt (p : Nat) (following : List Tree) : Prop :=
  ∃ before rest, following = before ++ rest ∧ (∀ c ∈ before, c.stop ≤ p) ∧
    ∀ c ∈ rest.head?, c.start ≤ p ∧ endsMember c = false

theorem UnmarkedAt.of_stop_le {p : Nat} (h : ∀ c ∈ following, c.stop ≤ p) :
    UnmarkedAt p following :=
  ⟨following, [], (List.append_nil _).symm, h, nofun⟩

/-- A part that is no mark, and starts at a place or before. -/
theorem UnmarkedAt.of_yields {i j p : Nat} (h : Yields s Any i (before ++ c :: after) j)
    (hp : c.start ≤ p) (hc : endsMember c = false) : UnmarkedAt p (before ++ c :: after) := by
  refine ⟨before, c :: after, rfl, fun d hd => ?_, fun d hd => ?_⟩
  · obtain ⟨pre, post, rfl⟩ := List.append_of_mem hd
    rw [List.append_assoc, List.cons_append] at h
    exact Nat.le_trans (yields_behind (yields_behind h).2).1 hp
  · obtain rfl : c = d := by simpa using hd
    exact ⟨hp, hc⟩

theorem UnmarkedAt.start_le {p : Nat} (h : UnmarkedAt p (c :: after)) (hc : c.start ≤ c.stop) :
    c.start ≤ p := by
  obtain ⟨before, rest, heq, hbefore, hrest⟩ := h
  cases before with
  | nil =>
    obtain rfl : c :: after = rest := heq
    exact (hrest c rfl).1
  | cons b before =>
    obtain ⟨rfl, _⟩ := List.cons.inj heq
    exact Nat.le_trans hc (hbefore c List.mem_cons_self)

/-- A mark stops before the place, and so do the marks behind it. -/
theorem UnmarkedAt.of_mark {p : Nat} (h : UnmarkedAt p (c :: after)) (hc : endsMember c = true) :
    c.stop ≤ p ∧ UnmarkedAt p after := by
  obtain ⟨before, rest, heq, hbefore, hrest⟩ := h
  cases before with
  | nil =>
    obtain rfl : c :: after = rest := heq
    exact absurd hc (by simp [(hrest c rfl).2])
  | cons b before =>
    obtain ⟨rfl, rfl⟩ := List.cons.inj heq
    exact ⟨hbefore c List.mem_cons_self, before, rest, rfl,
      fun d hd => hbefore d (List.mem_cons_of_mem c hd), hrest⟩

/-! ## 3. Bounded edits -/

/-- An edit of the part `t` stays behind the ink before it, and before the ink behind it and the
    marks that follow. -/
structure Bounded (s : String) (following : List Tree) (t : Tree) (x : Edit) : Prop where
  fits : x.Fits s
  start : ∀ q, IsInk s q → q < t.start → q < x.start
  stop : ∀ p, IsInk s p → t.stop ≤ p → UnmarkedAt p following → x.stop ≤ p

/-- An edit in the range of its part. -/
theorem Bounded.of_within (hfits : x.Fits s) (hstart : t.start ≤ x.start)
    (hstop : x.stop ≤ t.stop) : Bounded s following t x :=
  ⟨hfits, fun _ _ hq => Nat.lt_of_lt_of_le hq hstart, fun _ _ hp _ => Nat.le_trans hstop hp⟩

/-- An edit of a part of its part. -/
theorem Bounded.of_child (ht : AllFormed s t) (hparts : t.children = before ++ c :: after)
    (h : Bounded s after c x) : Bounded s following t x := by
  obtain ⟨hle, hbehind⟩ := yields_behind (yields_parts ht hparts)
  have hstop := hbehind.onward.le
  refine ⟨h.fits, fun q hink hq => h.start q hink (by omega), fun p hink hp _ => ?_⟩
  exact h.stop p hink (by omega)
    (.of_stop_le fun d hd => Nat.le_trans (start_le_of_yields hbehind hd).2 hp)

/-- Lines that go with a part. -/
theorem bounded_dropLines {j : Nat} (ht : Formed s t) (hj : IsBoundary s j) (hle : t.start ≤ j)
    (hreach : ∀ p, t.stop ≤ p → UnmarkedAt p following → j ≤ p) :
    Bounded s following t (dropLines (.ofString s) t.start j) := by
  have hlines := Syntax.lineStart_le (.ofString s) t.start
  have hend := Syntax.le_lineEnd (.ofString s) j
  rcases dropLines_cases (.ofString s) t.start j with he | ⟨hblank, hblank', he⟩
  · rw [he]
    exact ⟨⟨ht.start, hj, hle⟩, fun _ _ => id, fun p _ => hreach p⟩
  · rw [he]
    refine ⟨⟨Syntax.isBoundary_lineStart s _, Syntax.isBoundary_lineEnd hj.le_size, ?_⟩, ?_, ?_⟩
    · change (Source.ofString s).lineStart t.start ≤ (Source.ofString s).lineEnd j
      omega
    · exact fun q hink hq => lt_lineStart_of_ink ht.start hq hink hblank
    · exact fun p hink hp hmark => lineEnd_le_of_ink hj (hreach p hp hmark) hink hblank'

theorem bounded_whole (ht : Formed s t) (text : String) :
    Bounded s following t ⟨t.start, t.stop, text⟩ :=
  .of_within ⟨ht.start, ht.onward.boundary ht.start, ht.onward.le⟩ (Nat.le_refl _) (Nat.le_refl _)

theorem bounded_drop (ht : Formed s t) : Bounded s following t (drop t) := bounded_whole ht ""

section Part

variable (ht : Formed s t) (hbehind : Yields s Any t.stop following stop)
include ht hbehind

/-- A member and the mark behind it stop before any ink behind them. -/
theorem memberEnd_spec : IsBoundary s (memberEnd t following) ∧ t.start ≤ memberEnd t following ∧
    ∀ p, t.stop ≤ p → UnmarkedAt p following → memberEnd t following ≤ p := by
  have hself : IsBoundary s t.stop := ht.onward.boundary ht.start
  have hle := ht.onward.le
  unfold memberEnd
  split
  · exact ⟨hself, hle, fun _ hp _ => hp⟩
  · rename_i next rest
    split
    · rename_i hmark
      have hnext := (hbehind.formed next List.mem_cons_self).self
      have hstart := (start_le_of_yields hbehind List.mem_cons_self).1
      have hstop := hnext.onward.le
      exact ⟨hnext.onward.boundary hnext.start, by omega, fun p _ h => (h.of_mark hmark).1⟩
    · exact ⟨hself, hle, fun _ hp _ => hp⟩

/-- A removal up to a part behind. -/
theorem bounded_removal {next : Tree} (hnext : next ∈ following)
    (hreach : ∀ p, UnmarkedAt p following → next.start ≤ p) :
    Bounded s following t (.removal t.start next.start) := by
  have hle := ht.onward.le
  have hstart := (start_le_of_yields hbehind hnext).1
  refine ⟨⟨ht.start, (hbehind.formed next hnext).self.start, ?_⟩, fun _ _ => id,
    fun p _ _ h => hreach p h⟩
  change t.start ≤ next.start
  omega

theorem bounded_dropWord : Bounded s following t (dropWord (.ofString s) t following) := by
  unfold dropWord
  split
  · exact bounded_drop ht
  · rename_i next rest
    split
    · have hnext := (hbehind.formed next List.mem_cons_self).self.onward.le
      exact bounded_removal ht hbehind List.mem_cons_self fun p h => h.start_le hnext
    · exact bounded_drop ht

theorem bounded_dropParameter : Bounded s following t (dropParameter t following) := by
  unfold dropParameter
  split
  · rename_i comma next rest
    split
    · rename_i hcomma
      have hmem : next ∈ comma :: next :: rest := List.mem_cons_of_mem _ List.mem_cons_self
      have hmark : endsMember comma = true := by rw [endsMember, hcomma]; rfl
      have hnext := (hbehind.formed next hmem).self.onward.le
      exact bounded_removal ht hbehind hmem fun p h => (h.of_mark hmark).2.start_le hnext
    · exact bounded_drop ht
  · exact bounded_drop ht

end Part

/-! ## 4. All edits of a part -/

/-- The body of a method starts with its brace, which is one byte. -/
theorem exists_brace_of_method (ht : AllFormed s t) (hk : treatment t.kind = .method) {body : Tree}
    (hbody : t.part? .body = some body) :
    ∃ brace rest, body.children = brace :: rest ∧ IsBoundary s brace.stop ∧
      brace.stop = body.start + 1 := by
  have hmem : body ∈ t.children := List.mem_of_find?_eq_some hbody
  obtain ⟨hfield, _⟩ := List.find?_eq_some_iff_append.mp hbody
  obtain ⟨brace, rest, hparts, hstart, hbrace⟩ : Syntax.StartsWith s "\x7b" body := by
    have hform := ht.self.form
    have hkind : t.kind = .methodDefinition := by
      revert hk
      cases t.kind <;> first | exact fun _ => rfl | exact nofun
    rw [Syntax.Form, hkind] at hform
    exact hform body hmem (eq_of_beq hfield)
  have hbraceMem : brace ∈ body.children := hparts ▸ List.mem_cons_self
  have hstands := hbrace.stands ((ht.child hmem).child hbraceMem).self
  refine ⟨brace, rest, hparts, hstands.stop, ?_⟩
  obtain ⟨_, _, _, _, hwidth⟩ := hstands
  rw [← hstart]
  exact hwidth.symm

/-- The place where a constructor assigns properties lies in it. -/
theorem bounded_initialization (ht : AllFormed s t) (hk : treatment t.kind = .method)
    (hx : x ∈ initialization (.ofString s) t) : Bounded s following t x := by
  rcases initialization_cases (.ofString s) t with hnone | ⟨body, text, hbody, hsome⟩
  · rw [hnone] at hx
    exact absurd hx List.not_mem_nil
  · rw [hsome] at hx
    obtain rfl := List.mem_singleton.mp hx
    obtain ⟨hfield, before, after, hparts, _⟩ := List.find?_eq_some_iff_append.mp hbody
    have hmem : body ∈ t.children := List.mem_of_find?_eq_some hbody
    have hformed := ht.child hmem
    have hinsertion {place : Nat} (hplace : IsBoundary s place) (hstart : body.start ≤ place)
        (hstop : place ≤ body.stop) : Bounded s after body (.insertion place text) :=
      .of_within ⟨hplace, hplace, Nat.le_refl _⟩ hstart hstop
    refine .of_child ht hparts ?_
    -- the body starts with its brace, so the place behind the brace lies in it
    have hbraceEnd : IsBoundary s (body.start + 1) ∧ body.start + 1 ≤ body.stop := by
      obtain ⟨brace, rest, hbraceParts, hbraceStop, hstop⟩ := exists_brace_of_method ht hk hbody
      have hyields : Yields s Any body.start ([] ++ brace :: rest) body.stop :=
        yields_parts hformed hbraceParts
      have hle := start_le_of_yields hyields List.mem_cons_self
      exact hstop ▸ ⟨hbraceStop, hle.2⟩
    unfold initializationPlace
    split
    · rename_i first others hnamed
      split
      · obtain ⟨pre, post, hfirst, _⟩ := exists_of_named hnamed
        have hyields := yields_parts hformed hfirst
        have hfirstMem : first ∈ pre ++ first :: post := by simp
        have hself := (hyields.formed first hfirstMem).self
        have hle := start_le_of_yields hyields hfirstMem
        exact hinsertion (hself.onward.boundary hself.start)
          (Nat.le_trans hle.1 hself.onward.le) hle.2
      · exact hinsertion hbraceEnd.1 (Nat.le_succ _) hbraceEnd.2
    · exact hinsertion hbraceEnd.1 (Nat.le_succ _) hbraceEnd.2

/-- The words a tree takes out from between its parts. -/
theorem bounded_wordEdits (ht : AllFormed s t) (hd : descends t = true)
    (hx : x ∈ wordEdits (.ofString s) t) : Bounded s following t x := by
  obtain ⟨before, c, after, hparts, _, hcases⟩ := exists_of_mem_wordEdits hd hx
  have hc := (ht.child (hparts ▸ List.mem_append_right before List.mem_cons_self)).self
  have hbehind := (yields_behind (yields_parts ht hparts)).2
  refine .of_child ht hparts ?_
  rcases hcases with rfl | rfl
  · exact bounded_drop hc
  · exact bounded_dropWord hc hbehind

/-- **All edits of a part are bounded.** -/
theorem bounded_emit (ht : AllFormed s t) {e : Emission}
    (hbehind : Yields s Any t.stop following stop) (he : emit (.ofString s) following t = .ok e)
    (hx : x ∈ e.edits) : Bounded s following t x := by
  induction t using Tree.induction generalizing following stop e x with
  | step t ih =>
    -- what is left of the parts is bounded by the induction hypothesis
    have hpart {before after : List Tree} {c : Tree} {inner : Emission}
        (hparts : t.children = before ++ c :: after)
        (hinner : emit (.ofString s) after c = .ok inner) (hx : x ∈ inner.edits) :
        Bounded s following t x := by
      have hc : c ∈ t.children := by simp [hparts]
      exact .of_child ht hparts (ih c hc (ht.child hc)
        (yields_behind (yields_parts ht hparts)).2 hinner hx)
    have hself := ht.self
    have hle := hself.onward.le
    have hstop := hself.onward.boundary hself.start
    obtain ⟨es, hform, hperm⟩ := emits_of_emit he
    rw [hperm.mem_iff] at hx
    cases hform with
    | @removed j hj =>
      obtain rfl := List.mem_singleton.mp hx
      rcases (removalEnd?_cases hj).2 with ⟨rfl, _⟩ | ⟨rfl, _⟩
      · exact bounded_dropLines hself hstop hle fun _ hp _ => hp
      · obtain ⟨hend, hstart, hreach⟩ := memberEnd_spec hself hbehind
        exact bounded_dropLines hself hend hstart hreach
    | dropped => exact List.mem_singleton.mp hx ▸ bounded_drop hself
    | word => exact List.mem_singleton.mp hx ▸ bounded_dropWord hself hbehind
    | parameter => exact List.mem_singleton.mp hx ▸ bounded_dropParameter hself hbehind
    | replaced text => exact List.mem_singleton.mp hx ▸ bounded_whole hself text
    | @exported text before after part inner tail hk hkept hparts hinner htail =>
      have hpartMem : part ∈ before ++ part :: after := by simp
      have hyields := yields_parts ht hparts
      have hpartSelf := (hyields.formed part hpartMem).self
      have hplace := start_le_of_yields hyields hpartMem
      rcases List.mem_cons.mp hx with rfl | hx
      · exact .of_within ⟨hself.start, hpartSelf.start, hplace.1⟩ (Nat.le_refl _)
          (Nat.le_trans hpartSelf.onward.le hplace.2)
      · rcases List.mem_append.mp hx with hx | hx
        · exact hpart hparts hinner hx
        · rcases htail with rfl | ⟨text, rfl⟩
          · exact absurd hx List.not_mem_nil
          · obtain rfl := List.mem_singleton.mp hx
            exact .of_within ⟨hstop, hstop, Nat.le_refl _⟩ hle (Nat.le_refl _)
    | @cast before after operand inner hk hop hparts hbefore hinner =>
      have hmem : operand ∈ before ++ operand :: after := by simp
      have hyields := yields_parts ht hparts
      have hoperand := (hyields.formed operand hmem).self
      have hplace := start_le_of_yields hyields hmem
      rcases List.mem_cons.mp hx with rfl | hx
      · exact .of_within ⟨hoperand.onward.boundary hoperand.start, hstop, hplace.2⟩
          (Nat.le_trans hplace.1 hoperand.onward.le) (Nat.le_refl _)
      · exact hpart hparts hinner hx
    | @descended inner hd hinner =>
      rcases List.mem_append.mp hx with hx | hx
      · exact bounded_wordEdits ht hd hx
      · rcases List.mem_append.mp hx with hx | hx
        · unfold insertions at hx
          split at hx
          · rename_i hk
            split at hx
            · exact bounded_initialization ht hk hx
            · exact absurd hx List.not_mem_nil
          · exact absurd hx List.not_mem_nil
        · obtain ⟨before, c, after, part, hparts, hemit, hx⟩ := exists_of_mem_emitAll hinner hx
          exact hpart hparts hemit hx
    | nothing => exact absurd hx List.not_mem_nil

end ClassScript.Emission
