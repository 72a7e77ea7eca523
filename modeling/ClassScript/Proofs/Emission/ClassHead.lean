/-
  File:      ClassScript/Proofs/Emission/ClassHead.lean
  Subject:   A class that stays keeps its head.

  Of a class go its types, its modifiers and some of its members, but never the
  word `class`, its name, or the brace of its body. No edit of the class takes
  them, and no edit of what stands before or behind the class reaches them,
  because the word and the brace are ink.

  * `IsHead`: the word, the name and the brace of a class;
  * `AroundHead`: an edit leaves the head as it is;
  * `exists_head`, `exists_head_of_program`: so do the edits of the class, and
    those of its program;
  * `IsHead.exists_of_applyTo`: the head is in the edited text.
-/
import ClassScript.Proofs.Emission.Bounds

namespace ClassScript.Emission

open Syntax (Source Tree Kind IsBoundary IsInk Formed AllFormed Yields Any IsToken IsComment
  ClassForm)

variable {s : String} {src : Source} {t c d : Tree} {following : List Tree} {stop : Nat} {x : Edit}
  {e : Emission}

/-! ## 1. Parts without edits -/

/-- A part that stays and has no parts has no edits. -/
theorem emit_leaf (hk : treatment t.kind = .kept) (hparts : t.children = []) :
    emit src following t = .ok {} := by
  rw [emit_kept hk, hparts, emitAll]

theorem emit_dropped (hk : treatment t.kind = .dropped) :
    emit src following t = .ok (ofEdit (drop t)) := by
  obtain ⟨kind, role, start, stop, parts⟩ := t
  dsimp only [Tree.kind] at hk
  rw [emit, hk]

theorem edits_of_token {text : String} {inner : Emission} (h : IsToken s text t)
    (he : emit src following t = .ok inner) : inner.edits = [] := by
  rw [emit_leaf (by rw [h.kind]; rfl) h.children] at he
  cases he
  rfl

theorem edits_of_comment {inner : Emission} (h : IsComment t)
    (he : emit src following t = .ok inner) : inner.edits = [] := by
  rw [emit_leaf (by rw [h.kind]; rfl) h.children] at he
  cases he
  rfl

/-- What stands before the word `class` has no edits, or cannot be emitted. -/
theorem edits_of_lead {inner : Emission} (h : Syntax.IsClassLead s t)
    (he : emit src following t = .ok inner) : inner.edits = [] := by
  rcases h.2 with hkind | htoken | hcomment
  · obtain ⟨kind, field, start, stop, parts⟩ := t
    obtain rfl : kind = .decorator := hkind
    cases he
  · exact edits_of_token htoken he
  · exact edits_of_comment hcomment he

/-- The edits of parts in two rows are those of the first row and those of the second. -/
theorem exists_of_mem_emitAll_append {ts us : List Tree} (h : emitAll src (ts ++ us) = .ok e)
    (hx : x ∈ e.edits) :
    (∃ before c after inner, ts = before ++ c :: after ∧ emit src (after ++ us) c = .ok inner ∧
      x ∈ inner.edits) ∨ ∃ inner, emitAll src us = .ok inner ∧ x ∈ inner.edits := by
  induction ts generalizing e with
  | nil => exact .inr ⟨e, h, hx⟩
  | cons c ts ih =>
    obtain ⟨first, rest, hfirst, hrest, hedits⟩ := emitAll_cons_ok h
    rcases List.mem_append.mp (hedits ▸ hx) with hx | hx
    · exact .inl ⟨[], c, ts, first, rfl, hfirst, hx⟩
    · rcases ih hrest hx with ⟨before, d, after, inner, rfl, hinner, hx⟩ | hx
      · exact .inl ⟨c :: before, d, after, inner, rfl, hinner, hx⟩
      · exact .inr hx

/-- Parts without edits do not matter. -/
theorem exists_of_mem_emitAll_silent {ts us : List Tree} (h : emitAll src (ts ++ us) = .ok e)
    (hx : x ∈ e.edits) (hsilent : ∀ c ∈ ts, ∀ following inner,
      emit src following c = .ok inner → inner.edits = []) :
    ∃ inner, emitAll src us = .ok inner ∧ x ∈ inner.edits := by
  rcases exists_of_mem_emitAll_append h hx with ⟨before, c, after, inner, rfl, hinner, hx⟩ | hx
  · rw [hsilent c (by simp) _ inner hinner] at hx
    exact absurd hx List.not_mem_nil
  · exact hx

/-- So it is with the word that is taken out of parts. -/
theorem exists_of_mem_eraseWord_append {text : String} {ts us : List Tree}
    (h : x ∈ eraseWord src text (ts ++ us)) :
    (∃ before c after, ts = before ++ c :: after ∧ x = dropWord src c (after ++ us)) ∨
      ∃ c ∈ us, c.kind = .token text := by
  induction ts with
  | nil =>
    obtain ⟨before, c, after, hparts, hfind, _⟩ := exists_of_eraseWord h
    exact .inr ⟨c, List.mem_of_find?_eq_some hfind, by simpa using List.find?_some hfind⟩
  | cons c ts ih =>
    rw [List.cons_append, eraseWord] at h
    split at h
    · exact .inl ⟨[], c, ts, rfl, List.mem_singleton.mp h⟩
    · rcases ih h with ⟨before, d, after, rfl, hx⟩ | hx
      · exact .inl ⟨c :: before, d, after, rfl, hx⟩
      · exact .inr hx

/-! ## 2. Behind a word or a mark -/

/-- A word or a mark that starts with no blank has ink at its start. -/
theorem ink_of_token {text : String} (h : IsToken s text t) (ht : Formed s t)
    (htext : (text.toList.head?.any fun c => !Text.isBlank c) = true) :
    IsInk s t.start ∧ t.start < t.stop := by
  have hstands := h.stands ht
  cases hchars : text.toList with
  | nil =>
    rw [hchars] at htext
    cases htext
  | cons c cs =>
    rw [hchars] at hstands htext
    have hpos := c.utf8Size_pos
    have hwidth : t.start + Syntax.width (c :: cs) = t.stop := by
      obtain ⟨_, _, _, _, hwidth⟩ := hstands
      exact hwidth
    rw [Syntax.width_cons] at hwidth
    exact ⟨hstands.ink (by simpa using htext), by omega⟩

/-- Where the first part is a word or a mark, all edits lie behind its start. -/
theorem lt_start_of_token {text : String} {first : Tree} {rest : List Tree} (ht : AllFormed s t)
    (hparts : t.children = first :: rest) (hfirst : IsToken s text first)
    (htext : (text.toList.head?.any fun c => !Text.isBlank c) = true)
    (he : emitAll (.ofString s) t.children = .ok e) (hx : x ∈ e.edits) : first.start < x.start := by
  have hyields : Yields s Any t.start ([] ++ first :: rest) t.stop := yields_parts ht hparts
  obtain ⟨hink, hlt⟩ := ink_of_token hfirst (hyields.formed first List.mem_cons_self).self htext
  rw [hparts] at he
  obtain ⟨head, tail, hhead, htail, hedits⟩ := emitAll_cons_ok he
  rw [hedits, edits_of_token hfirst hhead, List.nil_append] at hx
  obtain ⟨before, c, after, inner, rfl, hinner, hx⟩ := exists_of_mem_emitAll htail hx
  have hbehind := (yields_behind hyields).2
  obtain ⟨hle, hafter⟩ := yields_behind hbehind
  have hbounded := bounded_emit (hbehind.formed c (by simp)) hafter hinner hx
  exact hbounded.start first.start hink (by omega)

/-! ## 3. The head of a class -/

/-- `word`, `name` and `brace` are the word `class`, the name and the first brace of the class `d`.
    Only comments stand between the word and the name. -/
structure IsHead (s : String) (d word name brace : Tree) : Prop where
  isWord : IsToken s "class" word
  isName : d.part? .name = some name
  isBrace : IsToken s "\x7b" brace
  gap : ∃ before gap after, d.children = before ++ word :: (gap ++ name :: after) ∧
    ∀ c ∈ gap, IsComment c
  body : ∃ body ∈ d.children, body.kind = .classBody ∧ body.children.head? = some brace
  formed : Formed s word ∧ Formed s name ∧ Formed s brace
  order : d.start ≤ word.start ∧ word.stop ≤ name.start ∧ name.stop ≤ brace.start ∧
    brace.stop ≤ d.stop

/-- An edit lies before the word of a class, between its name and its brace, or behind it. -/
def AroundHead (word name brace : Tree) (x : Edit) : Prop :=
  x.stop ≤ word.start ∨ name.stop ≤ x.start ∧ x.stop ≤ brace.start ∨ brace.start < x.start

/-- A tree is a class. -/
def IsClass (t : Tree) : Prop :=
  t.kind = .classDecl ∨ t.kind = .abstractClassDecl ∨ t.kind = .classExpression

theorem IsClass.treatment {d : Tree} (h : IsClass d) :
    treatment d.kind = .kept ∨ treatment d.kind = .abstractClass := by
  rcases h with h | h | h <;> rw [h]
  · exact .inl rfl
  · exact .inr rfl
  · exact .inl rfl

/-- The edits of a class: those of its parts, and the word `abstract`. -/
theorem exists_of_emit_class (hclass : IsClass d) (he : emit src following d = .ok e) :
    ∃ inner, emitAll src d.children = .ok inner ∧
      ∀ x ∈ e.edits, x ∈ eraseWord src "abstract" d.children ∨ x ∈ inner.edits := by
  rcases hclass.treatment with hk | hk
  · rw [emit_kept hk] at he
    exact ⟨e, he, fun x => .inr⟩
  · obtain ⟨kind, role, start, stop, parts⟩ := d
    dsimp only [Tree.kind] at hk
    rw [emit, hk] at he
    obtain ⟨inner, hinner, rfl⟩ := exists_of_map_ok he
    exact ⟨inner, hinner, fun x hx => List.mem_append.mp hx⟩

/-! ## 4. The parts of a class -/

/-- The class `d` with its parts by name: what stands before the word `class`, the word, comments,
    the name, what stands before the body, the body with its first brace, comments. -/
structure ClassParts (s : String) (d : Tree) (lead : List Tree) (word : Tree) (gap : List Tree)
    (name : Tree) (middle : List Tree) (body brace : Tree) (more rest : List Tree) : Prop where
  formed : AllFormed s d
  parts : d.children = lead ++ word :: (gap ++ name :: (middle ++ body :: rest))
  lead : ∀ c ∈ lead, Syntax.IsClassLead s c
  word : IsToken s "class" word
  gap : ∀ c ∈ gap, IsComment c
  role : name.field = some .name
  name : name.kind = .other "type_identifier" ∧ name.children = []
  middle : ∀ c ∈ middle, Syntax.IsClassMiddle s c
  kind : body.kind = .classBody
  braced : body.children = brace :: more
  start : brace.start = body.start
  brace : IsToken s "\x7b" brace
  rest : ∀ c ∈ rest, IsComment c

/-- A class with a name has such parts. -/
theorem exists_classParts (hd : AllFormed s d) (hclass : IsClass d)
    (hname : (d.part? .name).isSome = true) :
    ∃ lead word gap name middle body brace more rest,
      ClassParts s d lead word gap name middle body brace more rest := by
  have hform : ClassForm s d := by
    have hform := hd.self.form
    unfold Syntax.Form at hform
    rcases hclass with hk | hk | hk <;> rw [hk] at hform <;> exact hform hname
  obtain @⟨lead, gap, middle, rest, word, name, body, hparts, -, hlead, hword, hgap, hfield, hleaf,
    hmiddle, ⟨hkind, brace, more, hmore, hstart, hbrace⟩, hrest⟩ := hform
  exact ⟨lead, word, gap, name, middle, body, brace, more, rest, hd, hparts, hlead, hword, hgap,
    hfield, hleaf, hmiddle, hkind, hmore, hstart, hbrace, hrest⟩

namespace ClassParts

variable {lead gap middle more rest : List Tree} {word name body brace : Tree}
  (h : ClassParts s d lead word gap name middle body brace more rest)
include h

/-- The parts of a class follow one another. -/
theorem order : d.start ≤ word.start ∧ word.stop ≤ name.start ∧ name.stop ≤ body.start ∧
    body.stop ≤ d.stop ∧ Yields s Any name.stop (middle ++ body :: rest) d.stop := by
  obtain ⟨hword, hbehind₁⟩ := yields_behind (yields_parts h.formed h.parts)
  obtain ⟨hname, hbehind₂⟩ := yields_behind hbehind₁
  obtain ⟨hbody, hbehind₃⟩ := yields_behind hbehind₂
  exact ⟨hword, hname, hbody, hbehind₃.onward.le, hbehind₂⟩

theorem formed_body : AllFormed s body := h.formed.child (by simp [h.parts])

theorem formed_brace : Formed s brace := (h.formed_body.child (by simp [h.braced])).self

theorem isHead : IsHead s d word name brace := by
  obtain ⟨hle₁, hle₂, hle₃, hle₄, -⟩ := h.order
  have hmem {c : Tree} (hc : c = word ∨ c = name ∨ c = body) : c ∈ d.children := by
    rcases hc with rfl | rfl | rfl <;> simp [h.parts]
  have hbrace : brace.stop ≤ body.stop := by
    have hyields : Yields s Any body.start ([] ++ brace :: more) body.stop :=
      yields_parts h.formed_body h.braced
    exact (yields_behind hyields).2.onward.le
  -- no part before the name has a role
  have hbare : ∀ c ∈ lead ++ word :: gap, c.field = none := by
    intro c hc
    have hcases : c ∈ lead ∨ c = word ∨ c ∈ gap := by simpa using hc
    rcases hcases with hc | rfl | hc
    · exact (h.lead c hc).1
    · exact h.word.field
    · exact (h.gap c hc).field
  exact
    { isWord := h.word
      isName := List.find?_eq_some_iff_append.mpr ⟨by simp [h.role], lead ++ word :: gap,
        middle ++ body :: rest, by simp [h.parts], fun c hc => by simp [hbare c hc]⟩
      isBrace := h.brace
      gap := ⟨lead, gap, _, h.parts, h.gap⟩
      body := ⟨body, hmem (by simp), h.kind, by rw [h.braced]; rfl⟩
      formed := ⟨(h.formed.child (hmem (by simp))).self, (h.formed.child (hmem (by simp))).self,
        h.formed_brace⟩
      order := ⟨hle₁, hle₂, h.start ▸ hle₃, Nat.le_trans hbrace hle₄⟩ }

/-- The edits between the name of a class and its body. -/
theorem edits_of_middle {before after : List Tree} {inner : Emission}
    (hc : middle = before ++ c :: after)
    (he : emit (.ofString s) (after ++ body :: rest) c = .ok inner) (hx : x ∈ inner.edits) :
    name.stop ≤ x.start ∧ x.stop ≤ body.start := by
  obtain ⟨-, -, -, -, hbehind⟩ := h.order
  have hink : IsInk s body.start := h.start ▸ (ink_of_token h.brace h.formed_brace (by decide)).1
  rw [hc, List.append_assoc, List.cons_append] at hbehind
  have hformed := hbehind.formed c (by simp)
  obtain ⟨hstart, hafter⟩ := yields_behind hbehind
  obtain ⟨hstop, -⟩ := yields_behind hafter
  rcases (h.middle c (by simp [hc])).2 with hcomment | htypes | ⟨hheritage, hclauses⟩
  · rw [edits_of_comment hcomment he] at hx
    exact absurd hx List.not_mem_nil
  · rw [emit_dropped (by rw [htypes]; rfl)] at he
    cases he
    obtain rfl := List.mem_singleton.mp hx
    exact ⟨hstart, hstop⟩
  · have hmark : endsMember body = false := by rw [endsMember, h.kind]; rfl
    refine ⟨?_, (bounded_emit hformed hafter he hx).stop body.start hink hstop
      (.of_yields hafter (Nat.le_refl _) hmark)⟩
    rw [emit_kept (by rw [hheritage]; rfl)] at he
    obtain ⟨pre, clause, post, part, hclauseAt, hpart, hx⟩ := exists_of_mem_emitAll he hx
    have hclauseMem : clause ∈ c.children := by simp [hclauseAt]
    have hle := (yields_behind (yields_parts hformed hclauseAt)).1
    rcases hclauses clause hclauseMem with hcomment | himplements | ⟨hextends, hword⟩
    · rw [edits_of_comment hcomment hpart] at hx
      exact absurd hx List.not_mem_nil
    · rw [emit_dropped (by rw [himplements]; rfl)] at hpart
      cases hpart
      obtain rfl := List.mem_singleton.mp hx
      exact Nat.le_trans hstart hle
    · obtain ⟨first, others, hfirstAt, hfirstStart, hfirst⟩ := hword
      rw [emit_kept (by rw [hextends]; rfl)] at hpart
      have hlt := lt_start_of_token (hformed.child hclauseMem) hfirstAt hfirst (by decide) hpart hx
      omega

/-- Up to its name, the parts of a class have no edits. -/
theorem edits_of_front {inner : Emission} (hc : c ∈ lead ++ word :: (gap ++ [name]))
    (he : emit src following c = .ok inner) : inner.edits = [] := by
  have hcases : c ∈ lead ∨ c = word ∨ c ∈ gap ∨ c = name := by simpa using hc
  rcases hcases with hc | rfl | hc | rfl
  · exact edits_of_lead (h.lead c hc) he
  · exact edits_of_token h.word he
  · exact edits_of_comment (h.gap c hc) he
  · rw [emit_leaf (by rw [h.name.1]; rfl) h.name.2] at he
    cases he
    rfl

/-- **The edits of the parts of a class** lie between its name and its brace, or behind it. -/
theorem edits_of_parts (he : emitAll (.ofString s) d.children = .ok e) (hx : x ∈ e.edits) :
    name.stop ≤ x.start ∧ x.stop ≤ brace.start ∨ brace.start < x.start := by
  have hnamed : d.children = (lead ++ word :: (gap ++ [name])) ++ (middle ++ body :: rest) := by
    simp [h.parts]
  rw [hnamed] at he
  obtain ⟨e₁, he₁, hx₁⟩ :=
    exists_of_mem_emitAll_silent he hx fun c hc following inner => h.edits_of_front hc
  rcases exists_of_mem_emitAll_append he₁ hx₁ with
    ⟨before, c, after, inner, hc, hinner, hx⟩ | ⟨e₂, he₂, hx₂⟩
  · rw [h.start]
    exact .inl (h.edits_of_middle hc hinner hx)
  · obtain ⟨inner, e₃, hinner, he₃, hedits⟩ := emitAll_cons_ok he₂
    rcases List.mem_append.mp (hedits ▸ hx₂) with hx | hx
    · rw [emit_kept (by rw [h.kind]; rfl)] at hinner
      exact .inr (lt_start_of_token h.formed_body h.braced h.brace (by decide) hinner hx)
    · have he₃ : emitAll (.ofString s) (rest ++ []) = .ok e₃ := by rwa [List.append_nil]
      obtain ⟨e₄, he₄, hx₄⟩ := exists_of_mem_emitAll_silent he₃ hx fun c hc _ _ hinner =>
        edits_of_comment (h.rest c hc) hinner
      cases he₄
      exact absurd hx₄ List.not_mem_nil

/-- Behind the word `class` stands no word `abstract`. -/
theorem kind_ne_abstract (hc : c ∈ gap ++ name :: (middle ++ body :: rest)) :
    c.kind ≠ .token "abstract" := by
  have hcases : c ∈ gap ∨ c = name ∨ c ∈ middle ∨ c = body ∨ c ∈ rest := by simpa using hc
  rcases hcases with hc | rfl | hc | rfl | hc
  · exact (h.gap c hc).kind ▸ nofun
  · exact h.name.1 ▸ nofun
  · rcases (h.middle c hc).2 with hcomment | hkind | ⟨hkind, -⟩
    · exact hcomment.kind ▸ nofun
    · exact hkind ▸ nofun
    · exact hkind ▸ nofun
  · exact h.kind ▸ nofun
  · exact (h.rest c hc).kind ▸ nofun

/-- The word `abstract` goes with the blanks up to the word `class` at most. -/
theorem stop_le_of_eraseWord (hx : x ∈ eraseWord (.ofString s) "abstract" d.children) :
    x.stop ≤ word.start := by
  have hyields := yields_parts h.formed h.parts
  rw [h.parts] at hx
  rcases exists_of_mem_eraseWord_append hx with ⟨before, c, after, rfl, rfl⟩ | ⟨c, hc, hword⟩
  · rw [List.append_assoc, List.cons_append] at hyields
    have hink := ink_of_token h.word (hyields.formed word (by simp)).self (by decide)
    have hmark : endsMember word = false := by rw [endsMember, h.word.kind]; rfl
    have hbehind := (yields_behind hyields).2
    exact (bounded_dropWord (hyields.formed c (by simp)).self hbehind).stop word.start hink.1
      (yields_behind hbehind).1 (.of_yields hbehind (Nat.le_refl _) hmark)
  · rcases List.mem_cons.mp hc with rfl | hc
    · rw [h.word.kind] at hword
      exact absurd (Kind.token.inj hword) (by decide)
    · exact absurd hword (h.kind_ne_abstract hc)

theorem aroundHead (hclass : IsClass d) (he : emit (.ofString s) following d = .ok e)
    (hx : x ∈ e.edits) : AroundHead word name brace x := by
  obtain ⟨inner, hinner, hcases⟩ := exists_of_emit_class hclass he
  rcases hcases x hx with hx | hx
  · exact .inl (h.stop_le_of_eraseWord hx)
  · exact .inr (h.edits_of_parts hinner hx)

end ClassParts

/-- **A class with a name has a head**, and all edits of the class lie around it. -/
theorem exists_head (hd : AllFormed s d) (hclass : IsClass d)
    (hname : (d.part? .name).isSome = true) : ∃ word name brace, IsHead s d word name brace ∧
      ∀ following e, emit (.ofString s) following d = .ok e →
        ∀ x ∈ e.edits, AroundHead word name brace x := by
  obtain ⟨_, word, _, name, _, _, brace, _, _, h⟩ := exists_classParts hd hclass hname
  exact ⟨word, name, brace, h.isHead, fun _ _ he _ hx => h.aroundHead hclass he hx⟩

/-! ## 5. The head of a statement's class -/

/-- The outermost statement `t` declares the class `d`: it is one itself, or exports it. -/
def DeclaresClass (t d : Tree) : Prop :=
  IsClass d ∧ (t.kind ≠ .exportStatement ∧ t = d ∨
    t.kind = .exportStatement ∧ (t.part? .declaration = some d ∨
      t.part? .declaration = none ∧ t.part? .value = some d))

theorem hasToken_eq_false {text : String} (h : ∀ c ∈ t.children, c.kind ≠ .token text) :
    t.hasToken text = false := by
  rw [Tree.hasToken, Tree.token?, Option.isSome_eq_false_iff, Option.isNone_iff_eq_none,
    List.find?_eq_none]
  exact fun c hc he => h c hc (by simpa using he)

/-- An exported class is what its export keeps, unless a decorator stands before it. -/
theorem exportForm_of_class (ht : AllFormed s t) (hk : t.kind = .exportStatement)
    (hd : t.part? .declaration = some d ∨ t.part? .declaration = none ∧ t.part? .value = some d) :
    (∃ decorator, exportForm t = .decorated decorator) ∨ exportForm t = .declaration d ∨
      exportForm t = .value d := by
  have hform : Syntax.ExportForm s t := by
    have hform := ht.self.form
    rwa [Syntax.Form, hk] at hform
  obtain @⟨_, _, _, _, _, _, _, _, hplain⟩ := hform
  have hexported : ∃ c ∈ t.children, Syntax.IsExported c := by
    rcases hd with hd | ⟨-, hd⟩
    · exact ⟨d, List.mem_of_find?_eq_some hd, .inl (by simpa using List.find?_some hd)⟩
    · exact ⟨d, List.mem_of_find?_eq_some hd, .inr (by simpa using List.find?_some hd)⟩
  have htype : (t.hasToken "type" || t.hasToken "namespace") = false := by
    rw [hasToken_eq_false fun c hc => (hplain hexported c hc).1,
      hasToken_eq_false fun c hc => (hplain hexported c hc).2]
    rfl
  unfold exportForm
  rw [if_neg (by simp [htype])]
  cases hdecorator : exportDecorator? t with
  | some decorator => exact .inl ⟨decorator, rfl⟩
  | none =>
    rcases hd with hd | ⟨hnone, hd⟩
    · exact .inr (.inl (by rw [hd]))
    · exact .inr (.inr (by rw [hnone, hd]))

/-- The edits of an exported class: those of the class, one before it and one behind it. -/
theorem exists_of_emit_export (ht : AllFormed s t) (hk : t.kind = .exportStatement)
    (hclass : IsClass d)
    (hd : t.part? .declaration = some d ∨ t.part? .declaration = none ∧ t.part? .value = some d)
    (he : emit (.ofString s) following t = .ok e) :
    ∃ before after inner, t.children = before ++ d :: after ∧
      emit (.ofString s) after d = .ok inner ∧
      ∀ x ∈ e.edits, x.stop = d.start ∨ x ∈ inner.edits ∨ x.start = t.stop := by
  have hkind : treatment t.kind = .exportStatement := by rw [hk]; rfl
  have hforms := exportForm_of_class ht hk hd
  have hstays : treatment d.kind ≠ .droppedStatement := by
    rcases hclass.treatment with h | h <;> rw [h] <;> exact nofun
  have hkept : exportForm t = .declaration d ∨ exportForm t = .value d := by
    refine hforms.resolve_left fun ⟨decorator, hdecorator⟩ => ?_
    rw [emit_export hk, hdecorator] at he
    cases he
  have hdrops : dropsExport (.ofString s) t = false := by
    rcases hkept with h | h <;> simp [dropsExport, h, hstays]
  have hpart : keptPart? (.ofString s) t = some d := by
    rcases hkept with h | h <;> simp [keptPart?, hdrops, h]
  obtain ⟨es, hemits, hperm⟩ := emits_of_emit he
  cases hemits with
  | removed h => simp [removalEnd?, hkind, hdrops] at h
  | replaced text h => rcases hkept with hf | hf <;> simp [isReplaced, hkind, hf] at h
  | nothing h => rcases hkept with hf | hf <;> simp [isBare, hkind, hf] at h
  | descended h => simp [descends, hkind] at h
  | exported text _ hsome hparts hinner htail =>
    obtain rfl := Option.some.inj (hpart.symm.trans hsome)
    refine ⟨_, _, _, hparts, hinner, fun x hx => ?_⟩
    rcases List.mem_cons.mp (hperm.mem_iff.mp hx) with rfl | hx
    · exact .inl rfl
    · rcases List.mem_append.mp hx with hx | hx
      · exact .inr (.inl hx)
      · rcases htail with rfl | ⟨text, rfl⟩
        · exact absurd hx List.not_mem_nil
        · exact .inr (.inr (List.mem_singleton.mp hx ▸ rfl))
  | dropped h | word h | parameter h | cast h => simp [hkind] at h

/-- All edits of a statement that declares a class lie around the head of the class. -/
theorem exists_head_of_statement (ht : AllFormed s t) (hdeclares : DeclaresClass t d)
    (hname : (d.part? .name).isSome = true) :
    ∃ word name brace, IsHead s d word name brace ∧ t.start ≤ word.start ∧ brace.stop ≤ t.stop ∧
      ∀ following e, emit (.ofString s) following t = .ok e →
        ∀ x ∈ e.edits, AroundHead word name brace x := by
  obtain ⟨hclass, ⟨-, rfl⟩ | ⟨hk, hd⟩⟩ := hdeclares
  · obtain ⟨word, name, brace, hhead, haround⟩ := exists_head ht hclass hname
    exact ⟨word, name, brace, hhead, hhead.order.1, hhead.order.2.2.2, haround⟩
  · have hmem : d ∈ t.children := by
      rcases hd with hd | ⟨-, hd⟩ <;> exact List.mem_of_find?_eq_some hd
    obtain ⟨pre, post, hparts⟩ := List.append_of_mem hmem
    have hplace := start_le_of_yields (yields_parts ht hparts) (by simp : d ∈ pre ++ d :: post)
    obtain ⟨word, name, brace, hhead, haround⟩ := exists_head (ht.child hmem) hclass hname
    have hlt := (ink_of_token hhead.isBrace hhead.formed.2.2 (by decide)).2
    obtain ⟨hword, -, -, hbrace⟩ := hhead.order
    refine ⟨word, name, brace, hhead, Nat.le_trans hplace.1 hword, Nat.le_trans hbrace hplace.2,
      fun following e he x hx => ?_⟩
    obtain ⟨_, _, inner, _, hinner, hcases⟩ := exists_of_emit_export ht hk hclass hd he
    rcases hcases x hx with hx | hx | hx
    · exact .inl (by omega)
    · exact haround _ inner hinner x hx
    · exact .inr (.inr (by omega))

/-- **All edits of a program lie around the head** of a class that an outermost statement
    declares. -/
theorem exists_head_of_program {root : Tree} {before after : List Tree} (hroot : AllFormed s root)
    (hparts : root.children = before ++ t :: after) (hdeclares : DeclaresClass t d)
    (hname : (d.part? .name).isSome = true) (he : emitAll (.ofString s) root.children = .ok e) :
    ∃ word name brace, IsHead s d word name brace ∧
      ∀ x ∈ e.edits, x.Fits s ∧ AroundHead word name brace x := by
  have hyields := yields_parts hroot hparts
  have ht := hyields.formed t (by simp)
  obtain ⟨word, name, brace, hhead, hstart, hstop, haround⟩ :=
    exists_head_of_statement ht hdeclares hname
  refine ⟨word, name, brace, hhead, fun x hx => ?_⟩
  obtain ⟨hword, -⟩ := ink_of_token hhead.isWord hhead.formed.1 (by decide)
  obtain ⟨hbrace, hlt⟩ := ink_of_token hhead.isBrace hhead.formed.2.2 (by decide)
  rw [hparts] at he
  rcases exists_of_mem_emitAll_append he hx with
    ⟨pre, c, post, inner, rfl, hinner, hx⟩ | ⟨rest, hrest, hx⟩
  · -- what stands before the statement keeps before the word
    rw [List.append_assoc, List.cons_append] at hyields
    have hbehind := (yields_behind hyields).2
    have hmark : endsMember t = false := by
      obtain ⟨hclass, ⟨-, rfl⟩ | ⟨hk, -⟩⟩ := hdeclares
      · rcases hclass with hk | hk | hk <;> rw [endsMember, hk] <;> rfl
      · rw [endsMember, hk]
        rfl
    have hbounded := bounded_emit (hyields.formed c (by simp)) hbehind hinner hx
    exact ⟨hbounded.fits, .inl (hbounded.stop word.start hword
      (Nat.le_trans (yields_behind hbehind).1 hstart) (.of_yields hbehind hstart hmark))⟩
  · obtain ⟨first, others, hfirst, hothers, hedits⟩ := emitAll_cons_ok hrest
    have hbehind := (yields_behind hyields).2
    rcases List.mem_append.mp (hedits ▸ hx) with hx | hx
    · exact ⟨(bounded_emit ht hbehind hfirst hx).fits, haround _ first hfirst x hx⟩
    · -- what stands behind the statement keeps behind the brace
      obtain ⟨pre, c, post, inner, rfl, hinner, hx⟩ := exists_of_mem_emitAll hothers hx
      obtain ⟨hle, hpost⟩ := yields_behind hbehind
      have hbounded := bounded_emit (hbehind.formed c (by simp)) hpost hinner hx
      exact ⟨hbounded.fits, .inr (.inr (hbounded.start brace.start hbrace (by omega)))⟩

/-! ## 6. The edited text -/

/-- What all edits skip is in the edited text, and the text behind it is edited further. -/
theorem exists_performFrom {a b cursor : Nat} {edits : List Edit} (ha : IsBoundary s a)
    (hb : IsBoundary s b) (hab : a ≤ b) (hcursor : IsBoundary s cursor) (hle : cursor ≤ a)
    (hskip : ∀ x ∈ edits, x.Fits s ∧ (x.stop ≤ a ∨ b ≤ x.start)) :
    ∃ before rest, (∀ x ∈ rest, x ∈ edits) ∧ Edit.performFrom (.ofString s) cursor edits =
      before ++ (Source.ofString s).text a b ++ Edit.performFrom (.ofString s) b rest := by
  induction edits generalizing cursor with
  | nil =>
    refine ⟨(Source.ofString s).text cursor a, [], fun _ => id, ?_⟩
    rw [Edit.performFrom, Edit.performFrom, String.append_assoc,
      ← Syntax.text_append ha hb Syntax.isBoundary_size hab hb.le_size,
      ← Syntax.text_append hcursor ha Syntax.isBoundary_size hle ha.le_size]
  | cons x xs ih =>
    obtain ⟨hfits, hcases⟩ := hskip x List.mem_cons_self
    rcases hcases with hstop | hstart
    · obtain ⟨before, rest, hrest, heq⟩ := ih hfits.stop hstop fun y hy =>
        hskip y (List.mem_cons_of_mem x hy)
      refine ⟨(Source.ofString s).text cursor x.start ++ x.text ++ before, rest,
        fun y hy => List.mem_cons_of_mem x (hrest y hy), ?_⟩
      rw [Edit.performFrom, heq]
      simp only [String.append_assoc]
    · refine ⟨(Source.ofString s).text cursor a, x :: xs, fun _ => id, ?_⟩
      rw [Edit.performFrom, Edit.performFrom,
        Syntax.text_append hcursor ha hfits.start hle (Nat.le_trans hab hstart),
        Syntax.text_append ha hb hfits.start hab hstart]
      simp only [String.append_assoc]

/-- **The edited text has the head** around which all edits lie: the word `class`, what stands
    between it and the name, the name, and then the brace. -/
theorem IsHead.exists_of_applyTo {word name brace : Tree} {edits : List Edit}
    (h : IsHead s d word name brace)
    (haround : ∀ x ∈ edits, x.Fits s ∧ AroundHead word name brace x) :
    ∃ before between rest, Edit.applyTo (.ofString s) edits =
      before ++ "class" ++ (Source.ofString s).text word.stop name.start ++
        name.text (.ofString s) ++ between ++ "\x7b" ++ rest := by
  obtain ⟨hword, hname, hbrace⟩ := h.formed
  obtain ⟨-, hgap, hmiddle, -⟩ := h.order
  have hwordStop := hword.onward.boundary hword.start
  have hnameStop := hname.onward.boundary hname.start
  have hle₁ := hword.onward.le
  have hle₂ := hname.onward.le
  have hbraceStop : brace.stop = brace.start + 1 := by
    obtain ⟨_, _, _, _, hwidth⟩ := h.isBrace.stands hbrace
    exact hwidth.symm
  have hkept {x : Edit} (hx : x ∈ Edit.kept edits) := haround x (Edit.mem_of_mem_kept hx)
  obtain ⟨before, behind, hbehind, hfirst⟩ := exists_performFrom hword.start hnameStop (by omega)
    Syntax.isBoundary_zero (Nat.zero_le _) fun x hx => ⟨(hkept hx).1, by
      rcases (hkept hx).2 with hx | hx | hx <;> omega⟩
  obtain ⟨between, last, -, hsecond⟩ := exists_performFrom hbrace.start
    (hbrace.onward.boundary hbrace.start) (by omega) hnameStop hmiddle fun x hx =>
      ⟨(hkept (hbehind x hx)).1, by rcases (hkept (hbehind x hx)).2 with hx | hx | hx <;> omega⟩
  refine ⟨before, between, Edit.performFrom (.ofString s) brace.stop last, ?_⟩
  rw [Edit.applyTo, hfirst, hsecond,
    Syntax.text_append hword.start hwordStop hnameStop hle₁ (by omega),
    Syntax.text_append hwordStop hname.start hnameStop hgap hle₂,
    show (Source.ofString s).text word.start word.stop = "class" from h.isWord.text,
    show (Source.ofString s).text brace.start brace.stop = "\x7b" from h.isBrace.text]
  simp only [String.append_assoc, Tree.text]

end ClassScript.Emission
