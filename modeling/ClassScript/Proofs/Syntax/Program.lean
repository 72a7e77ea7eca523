/-
  File:      ClassScript/Proofs/Syntax/Program.lean
  Subject:   The tree of a text is formed.

  The statements of a text follow one another from its start to its end. Then
  each comment is put into the smallest tree around it: between two parts stand
  only blanks and comments, so the comments there follow one another too, and
  no form is broken, as no part is taken away or moved.

  * `yields_comments`: the comments of a gap;
  * `AllFormed.withComments`: comments keep all trees formed;
  * `withComments_eq_self`: a tree without comments is as the grammar reads it;
  * `allFormed_ofSource`: the tree of a text;
  * `AllFormed.ordered`: formed trees are in order.
-/
import ClassScript.Proofs.Syntax.Grammar.Statements
import ClassScript.Proofs.Syntax.Order

namespace ClassScript.Syntax

variable {s : String} {src : Source} {i j : Nat}

/-! ## 1. Comments -/

/-- No comment starts with a blank. -/
theorem not_isSeparator_of_commentEnd {k : Nat} (h : commentEnd? src i = some k) :
    isSeparator (src.decode i).1 = false := by
  have hslash : src.byte i = 47 := by
    rw [commentEnd?] at h
    split at h
    · rename_i hline
      exact of_decide_eq_true (Bool.and_eq_true_iff.mp hline).1
    · split at h
      · rename_i hblock
        exact of_decide_eq_true (Bool.and_eq_true_iff.mp hblock).1
      · cases h
  rw [decode_of_byte hslash (by decide)]
  decide

/-- With fuel for each byte, the comments of a gap are all found, one after another. -/
theorem yields_commentsBetween {fuel : Nat} (hi : IsBoundary s i) (h : Gap (.ofString s) i j)
    (hfuel : j - i < fuel) :
    Yields s IsComment i ((commentsBetween (.ofString s) j fuel i).map fun c =>
      .node .comment none c.1 c.2 []) j := by
  induction h generalizing fuel with
  | nil i =>
    cases fuel with
    | zero => omega
    | succ fuel =>
      rw [commentsBetween, if_pos (Nat.le_refl i)]
      exact .nil hi
  | @blank i j hlt hblank rest ih =>
    obtain ⟨fuel, rfl⟩ : ∃ n, fuel = n + 1 := ⟨fuel - 1, by omega⟩
    have hpos := decode_pos (.ofString s) i
    have hle := rest.onward.le
    have hnone : commentEnd? (.ofString s) i = none :=
      Option.eq_none_iff_forall_not_mem.mpr fun k hk => by
        rw [not_isSeparator_of_commentEnd hk] at hblank
        cases hblank
    rw [commentsBetween, if_neg (by omega), hnone]
    have hblanks : Yields s IsComment i [] (i + ((Source.ofString s).decode i).2) :=
      (Yields.nil hi).gap (.blank hlt hblank (.nil _))
    exact hblanks.append (ih hblanks.stop (by omega))
  | @comment i j k hend rest ih =>
    obtain ⟨fuel, rfl⟩ : ∃ n, fuel = n + 1 := ⟨fuel - 1, by omega⟩
    have hlt := lt_commentEnd hend
    have hle := rest.onward.le
    rw [commentsBetween, if_neg (by omega), hend]
    have hcomment : Yields s IsComment i [.node .comment none i k []] k :=
      .leaf hi (.nil i) (onward_commentEnd hend) rfl ⟨rfl, rfl, rfl⟩
    exact hcomment.append (ih hcomment.stop (by omega))

/-- **The comments of a gap** follow one another from its start to its end. -/
theorem yields_comments (hi : IsBoundary s i) (h : Gap (.ofString s) i j) :
    Yields s IsComment i (commentTrees (.ofString s) i j) j :=
  yields_commentsBetween hi h (by omega)

theorem commentTrees_self (src : Source) (i : Nat) : commentTrees src i i = [] := by
  simp [commentTrees, commentsBetween]

/-! ## 2. Trees with their comments -/

@[simp] theorem kind_withComments (src : Source) (t : Tree) :
    (t.withComments src).kind = t.kind := by
  obtain ⟨_, _, _, _, _ | ⟨c, cs⟩⟩ := t
  · rw [Tree.withComments]
  · rw [Tree.withComments]
    rfl

@[simp] theorem field_withComments (src : Source) (t : Tree) :
    (t.withComments src).field = t.field := by
  obtain ⟨_, _, _, _, _ | ⟨c, cs⟩⟩ := t
  · rw [Tree.withComments]
  · rw [Tree.withComments]
    rfl

@[simp] theorem start_withComments (src : Source) (t : Tree) :
    (t.withComments src).start = t.start := by
  obtain ⟨_, _, _, _, _ | ⟨c, cs⟩⟩ := t
  · rw [Tree.withComments]
  · rw [Tree.withComments]
    rfl

@[simp] theorem stop_withComments (src : Source) (t : Tree) :
    (t.withComments src).stop = t.stop := by
  obtain ⟨_, _, _, _, _ | ⟨c, cs⟩⟩ := t
  · rw [Tree.withComments]
  · rw [Tree.withComments]
    rfl

theorem children_withComments {t : Tree} (h : t.children ≠ []) :
    (t.withComments src).children = partsWithComments src t.stop t.start t.children := by
  obtain ⟨kind, field, a, b, _ | ⟨c, cs⟩⟩ := t
  · exact absurd rfl h
  · rw [Tree.withComments]
    rfl

theorem partsWithComments_append (stop i : Nat) (ts us : List Tree) (u : Tree) :
    partsWithComments src stop i (ts ++ u :: us) =
      partsWithComments src u.start i ts ++
        u.withComments src :: partsWithComments src stop u.stop us := by
  induction ts generalizing i with
  | nil => rw [List.nil_append, partsWithComments, partsWithComments]
  | cons t ts ih => simp [partsWithComments, ih]

/-- What is true of comments and of the parts is true of the parts among comments. -/
theorem forall_partsWithComments {P : Tree → Prop} {stop : Nat} {ts : List Tree}
    (hcomment : ∀ c, IsComment c → P c) (hpart : ∀ t ∈ ts, P (t.withComments src)) :
    ∀ c ∈ partsWithComments src stop i ts, P c := by
  have htrees (a b : Nat) : ∀ c ∈ commentTrees src a b, P c := by
    intro c hc
    obtain ⟨_, _, rfl⟩ := List.mem_map.mp hc
    exact hcomment _ ⟨rfl, rfl, rfl⟩
  induction ts generalizing i with
  | nil => exact fun c hc => htrees i stop c (by rwa [partsWithComments] at hc)
  | cons t ts ih =>
    intro c hc
    rw [partsWithComments, List.mem_append, List.mem_cons] at hc
    rcases hc with hc | rfl | hc
    · exact htrees i _ c hc
    · exact hpart t List.mem_cons_self
    · exact ih (fun u hu => hpart u (List.mem_cons_of_mem t hu)) c hc

theorem withComments_of_leaf {t : Tree} (h : t.children = []) : t.withComments src = t := by
  obtain ⟨kind, field, a, b, cs⟩ := t
  obtain rfl : cs = [] := h
  rw [Tree.withComments]

theorem IsToken.withComments {text : String} {t : Tree} (h : IsToken s text t) :
    IsToken s text (t.withComments src) :=
  (withComments_of_leaf h.children).symm ▸ h

theorem IsComment.withComments {t : Tree} (h : IsComment t) : IsComment (t.withComments src) :=
  (withComments_of_leaf h.children).symm ▸ h

theorem IsQuiet.withComments {t : Tree} (h : IsQuiet t) : IsQuiet (t.withComments src) :=
  (withComments_of_leaf h.1).symm ▸ h

/-- What is true of comments and of the parts is true of the parts among comments. -/
theorem forall_children_withComments {P : Tree → Prop} {t : Tree}
    (hcomment : ∀ c, IsComment c → P c) (hpart : ∀ c ∈ t.children, P (c.withComments src)) :
    ∀ c ∈ (t.withComments src).children, P c := by
  cases hparts : t.children with
  | nil =>
    rw [withComments_of_leaf hparts, hparts]
    exact nofun
  | cons first rest =>
    rw [children_withComments (hparts ▸ List.cons_ne_nil _ _)]
    exact forall_partsWithComments hcomment hpart

/-- Where the first part starts the tree, no comment comes before it. -/
theorem children_withComments_of_start {t first : Tree} {rest : List Tree}
    (h : t.children = first :: rest) (hstart : first.start = t.start) :
    (t.withComments src).children =
      first.withComments src :: partsWithComments src t.stop first.stop rest := by
  rw [children_withComments (h ▸ List.cons_ne_nil _ _), h, partsWithComments, hstart,
    commentTrees_self, List.nil_append]

theorem head_withComments {t : Tree} (h : t.children.head?.map Tree.start = some t.start) :
    (t.withComments src).children.head?.map Tree.start = some (t.withComments src).start := by
  obtain ⟨first, hfirst, hstart⟩ := Option.map_eq_some_iff.mp h
  obtain ⟨rest, hparts⟩ := List.head?_eq_some_iff.mp hfirst
  rw [children_withComments_of_start hparts hstart]
  simpa using hstart

theorem StartsWith.withComments {text : String} {t : Tree} (h : StartsWith s text t) :
    StartsWith s text (t.withComments src) := by
  obtain ⟨first, rest, hparts, hstart, htoken⟩ := h
  exact ⟨_, _, children_withComments_of_start hparts hstart, by simpa using hstart,
    htoken.withComments⟩

/-! ## 3. Forms -/

theorem IsClassLead.withComments {t : Tree} (h : IsClassLead s t) :
    IsClassLead s (t.withComments src) := by
  obtain ⟨hfield, hcases⟩ := h
  refine ⟨by simpa using hfield, ?_⟩
  rcases hcases with hkind | htoken | hcomment
  · exact .inl (by simpa using hkind)
  · exact .inr (.inl htoken.withComments)
  · exact .inr (.inr hcomment.withComments)

theorem IsHeritagePart.withComments {t : Tree} (h : IsHeritagePart s t) :
    IsHeritagePart s (t.withComments src) := by
  rcases h with hcomment | hkind | ⟨hkind, hextends⟩
  · exact .inl hcomment.withComments
  · exact .inr (.inl (by simpa using hkind))
  · exact .inr (.inr ⟨by simpa using hkind, hextends.withComments⟩)

theorem IsClassMiddle.withComments {t : Tree} (h : IsClassMiddle s t) :
    IsClassMiddle s (t.withComments src) := by
  obtain ⟨hfield, hcases⟩ := h
  refine ⟨by simpa using hfield, ?_⟩
  rcases hcases with hcomment | hkind | ⟨hkind, hparts⟩
  · exact .inl hcomment.withComments
  · exact .inr (.inl (by simpa using hkind))
  · exact .inr (.inr ⟨by simpa using hkind, forall_children_withComments (fun _ => .inl)
      fun t ht => (hparts t ht).withComments⟩)

theorem ClassForm.withComments {n : Tree} (h : ClassForm s n) :
    ClassForm s (n.withComments src) := by
  obtain @⟨lead, gap, middle, rest, keyword, name, body, hparts, hstart, hlead, hkeyword, hgap,
    hfield, hleaf, hmiddle, hbody, hrest⟩ := h
  have hname : name.withComments src = name := withComments_of_leaf hleaf.2
  have hchildren : (n.withComments src).children =
      partsWithComments src keyword.start n.start lead ++ keyword.withComments src ::
        (partsWithComments src name.start keyword.stop gap ++ name ::
          (partsWithComments src body.start name.stop middle ++ body.withComments src ::
            partsWithComments src n.stop body.stop rest)) := by
    rw [children_withComments (by simp [hparts]), hparts, partsWithComments_append,
      partsWithComments_append, partsWithComments_append, hname]
  refine .intro hchildren (head_withComments hstart) ?_ hkeyword.withComments ?_ hfield hleaf ?_
    ⟨by simpa using hbody.1, hbody.2.withComments⟩ ?_
  · exact forall_partsWithComments (fun c hc => ⟨hc.field, .inr (.inr hc)⟩)
      fun t ht => (hlead t ht).withComments
  · exact forall_partsWithComments (fun _ => id) fun t ht => (hgap t ht).withComments
  · exact forall_partsWithComments (fun c hc => ⟨hc.field, .inl hc⟩)
      fun t ht => (hmiddle t ht).withComments
  · exact forall_partsWithComments (fun _ => id) fun t ht => (hrest t ht).withComments

theorem MethodForm.withComments {n : Tree} (h : MethodForm s n) :
    MethodForm s (n.withComments src) := by
  refine forall_children_withComments (fun c hc hbody => ?_) fun t ht hbody => ?_
  · exact absurd (hc.field.symm.trans hbody) nofun
  · exact (h t ht (by simpa using hbody)).withComments

theorem IsComment.not_exported {c : Tree} (h : IsComment c) : ¬IsExported c := by
  rintro (he | he) <;> exact absurd (he.symm.trans h.field) (Option.some_ne_none _)

theorem IsExportContent.withComments {lead rest : List Tree} {k l : Nat}
    (h : IsExportContent lead rest) :
    IsExportContent (partsWithComments src j i lead) (partsWithComments src l k rest) := by
  rcases h with hnames | ⟨before, part, after, rfl, hexported, hkind, hbeside⟩
  · have hcomment (c : Tree) (hc : IsComment c) : c.kind ≠ .decorator ∧ ¬IsExported c :=
      ⟨hc.kind ▸ nofun, hc.not_exported⟩
    have hpart : ∀ t ∈ lead ++ rest, (t.withComments src).kind ≠ .decorator ∧
        ¬IsExported (t.withComments src) := fun t ht => by
      simpa [IsExported] using hnames t ht
    refine .inl fun c hc => ?_
    rcases List.mem_append.mp hc with hc | hc
    · exact forall_partsWithComments hcomment
        (fun t ht => hpart t (List.mem_append_left _ ht)) c hc
    · exact forall_partsWithComments hcomment
        (fun t ht => hpart t (List.mem_append_right _ ht)) c hc
  · have hcomment (c : Tree) (hc : IsComment c) : IsQuiet c ∧ c.field = none :=
      ⟨hc.isQuiet, hc.field⟩
    have hquiet : ∀ t ∈ before ++ after, IsQuiet (t.withComments src) ∧
        (t.withComments src).field = none := fun t ht =>
      ⟨(hbeside t ht).1.withComments, by simpa using (hbeside t ht).2⟩
    rw [partsWithComments_append]
    refine .inr ⟨_, _, _, rfl, by simpa [IsExported] using hexported, by simpa using hkind,
      fun c hc => ?_⟩
    rcases List.mem_append.mp hc with hc | hc
    · exact forall_partsWithComments hcomment
        (fun t ht => hquiet t (List.mem_append_left _ ht)) c hc
    · exact forall_partsWithComments hcomment
        (fun t ht => hquiet t (List.mem_append_right _ ht)) c hc

theorem EnumForm.withComments {n : Tree} (h : EnumForm n) : EnumForm (n.withComments src) := by
  refine forall_children_withComments (fun c hc _ => hc.isQuiet) fun t ht hbody => ?_
  exact (h t ht (by simpa using hbody)).withComments

theorem ExportForm.withComments {n : Tree} (h : ExportForm s n) :
    ExportForm s (n.withComments src) := by
  obtain @⟨lead, rest, keyword, hparts, hstart, hcontent, hlead, hkeyword, hplain⟩ := h
  have hchildren : (n.withComments src).children =
      partsWithComments src keyword.start n.start lead ++ keyword.withComments src ::
        partsWithComments src n.stop keyword.stop rest := by
    rw [children_withComments (by simp [hparts]), hparts, partsWithComments_append]
  refine .intro hchildren (head_withComments hstart) hcontent.withComments ?_
    hkeyword.withComments ?_
  · exact forall_partsWithComments (fun c hc => .inr hc) fun t ht =>
      (hlead t ht).imp (fun h => by simpa using h) IsComment.withComments
  · rintro ⟨c, hc, hexported⟩
    by_cases hexists : ∃ t ∈ n.children, IsExported t
    · refine forall_children_withComments (fun t ht => ?_) fun t ht => ?_
      · rw [IsUnmarked, ht.kind]
        decide
      · simpa [IsUnmarked] using hplain hexists t ht
    · have hnone : ∀ t ∈ (n.withComments src).children, ¬IsExported t := by
        refine forall_children_withComments (fun t ht => ht.not_exported) fun t ht h =>
          hexists ⟨t, ht, ?_⟩
        simpa [IsExported] using h
      exact absurd hexported (hnone c hc)

/-- Parts stay among the parts of a tree with its comments. -/
theorem mem_children_withComments {c t : Tree} (h : c ∈ t.children) :
    c.withComments src ∈ (t.withComments src).children := by
  obtain ⟨before, after, hparts⟩ := List.append_of_mem h
  rw [children_withComments (List.ne_nil_of_mem h), hparts, partsWithComments_append]
  simp

/-- Without a comment, comments were put nowhere. -/
theorem withComments_eq_self {t : Tree}
    (h : ∀ n ∈ (t.withComments src).inner, n.kind ≠ .comment) : t.withComments src = t := by
  induction t using Tree.induction with
  | step t ih =>
    have hnone (a b : Nat) (hin : ∀ c ∈ commentTrees src a b, c.kind ≠ .comment) :
        commentTrees src a b = [] := by
      refine List.eq_nil_iff_forall_not_mem.mpr fun c hc => hin c hc ?_
      obtain ⟨_, _, rfl⟩ := List.mem_map.mp hc
      rfl
    have hparts (ts : List Tree) (hts : ∀ c ∈ ts, c ∈ t.children) (stop i : Nat)
        (hin : ∀ c ∈ partsWithComments src stop i ts,
          c.kind ≠ .comment ∧ ∀ n ∈ c.inner, n.kind ≠ .comment) :
        partsWithComments src stop i ts = ts := by
      induction ts generalizing i with
      | nil =>
        rw [partsWithComments] at hin ⊢
        exact hnone i stop fun c hc => (hin c hc).1
      | cons c cs ihcs =>
        rw [partsWithComments] at hin ⊢
        have hfirst := ih c (hts c List.mem_cons_self) (hin _ (by simp)).2
        rw [hnone i c.start fun d hd => (hin d (List.mem_append_left _ hd)).1, hfirst,
          ihcs (fun d hd => hts d (List.mem_cons_of_mem c hd)) c.stop fun d hd =>
            hin d (List.mem_append_right _ (List.mem_cons_of_mem _ hd))]
        rfl
    obtain ⟨kind, field, start, stop, _ | ⟨c, cs⟩⟩ := t
    · rw [Tree.withComments]
    · rw [Tree.withComments] at h ⊢
      rw [hparts (c :: cs) (fun _ => id) stop start fun d hd =>
        ⟨h d (Tree.mem_inner_of_child hd), fun n hn => h n (Tree.mem_nodesOfAll.mpr
          ⟨d, hd, Tree.nodes_eq d ▸ List.mem_cons_of_mem d hn⟩)⟩]

theorem ImportForm.withComments {n : Tree} (h : ImportForm s n) :
    ImportForm s (n.withComments src) := by
  refine ⟨?_, ?_, fun hnone => ?_⟩
  · refine h.source.imp ?_ ?_
    · exact fun ⟨c, hc, hkind⟩ => ⟨_, mem_children_withComments hc, by simpa using hkind⟩
    · exact fun ⟨c, hc, hfield⟩ => ⟨_, mem_children_withComments hc, by simpa using hfield⟩
  · rintro ⟨c, hc, hkind⟩
    by_cases hexists : ∃ d ∈ n.children, d.kind = .importClause
    · exact forall_children_withComments (fun d hd => hd.kind ▸ nofun)
        fun d hd => by simpa using h.apart hexists d hd
    · have hclause : ∀ d ∈ (n.withComments src).children, d.kind ≠ .importClause :=
        forall_children_withComments (fun d hd => hd.kind ▸ nofun)
          fun d hd => by simpa using fun hkind => hexists ⟨d, hd, hkind⟩
      exact absurd hkind (hclause c hc)
  · have hself := withComments_eq_self hnone
    rw [hself] at hnone ⊢
    exact h.parts hnone

theorem part?_of_withComments {t : Tree} {f : Field}
    (h : ((t.withComments src).part? f).isSome = true) : (t.part? f).isSome = true := by
  by_cases hnone : ∀ c ∈ t.children, c.field ≠ some f
  · have hafter : ∀ c ∈ (t.withComments src).children, c.field ≠ some f := by
      cases hparts : t.children with
      | nil => rwa [withComments_of_leaf hparts]
      | cons first rest =>
        rw [children_withComments (hparts ▸ List.cons_ne_nil _ _)]
        exact forall_partsWithComments (fun c hc he => absurd (hc.field.symm.trans he) nofun)
          fun u hu => by simpa using hnone u hu
    obtain ⟨c, hc, he⟩ := List.find?_isSome.mp h
    exact absurd (eq_of_beq he) (hafter c hc)
  · obtain ⟨c, hc⟩ := Classical.not_forall.mp hnone
    obtain ⟨hmem, he⟩ := Classical.not_imp.mp hc
    exact List.find?_isSome.mpr ⟨c, hmem, beq_iff_eq.mpr (Classical.not_not.mp he)⟩

/-- Comments break no form. -/
theorem Form.withComments {n : Tree} (h : Form s n) : Form s (n.withComments src) := by
  unfold Form at h ⊢
  rw [kind_withComments]
  revert h
  cases n.kind
  case classDecl | abstractClassDecl | classExpression =>
    exact fun h hname => (h (part?_of_withComments hname)).withComments
  case methodDefinition => exact MethodForm.withComments
  case exportStatement => exact ExportForm.withComments
  case enumDecl => exact EnumForm.withComments
  case importStatement => exact ImportForm.withComments
  all_goals exact fun _ => trivial

/-! ## 4. The tree of a text -/

/-- Formed parts in a row stay so among their comments. -/
theorem yields_partsWithComments {ts : List Tree} (hi : IsBoundary s i)
    (h : Follows (.ofString s) i ts j)
    (hts : ∀ t ∈ ts, AllFormed s t ∧ AllFormed s (t.withComments (.ofString s))) :
    Yields s Any i (partsWithComments (.ofString s) j i ts) j := by
  induction ts generalizing i with
  | nil =>
    rw [partsWithComments]
    exact (yields_comments hi h).any
  | cons t ts ih =>
    obtain ⟨hformed, hcomments⟩ := hts t List.mem_cons_self
    rw [partsWithComments]
    have hgap := (yields_comments hi h.1).any
    have hpart : Yields s Any t.start [t.withComments (.ofString s)] t.stop := by
      have hsingle := Yields.single (P := Any) hgap.stop
        (by rw [start_withComments]; exact .nil _) hcomments trivial
      rwa [stop_withComments] at hsingle
    have hrest := ih hpart.stop h.2 fun u hu => hts u (List.mem_cons_of_mem t hu)
    exact hgap.append (hpart.append hrest)

/-- **Comments keep all trees formed.** -/
theorem AllFormed.withComments {t : Tree} (h : AllFormed s t) :
    AllFormed s (t.withComments (.ofString s)) := by
  induction t using Tree.induction with
  | step t ih =>
    cases hparts : t.children with
    | nil => rwa [withComments_of_leaf hparts]
    | cons first rest =>
      have hne : t.children ≠ [] := hparts ▸ List.cons_ne_nil _ _
      have hyields := yields_partsWithComments h.self.start (h.self.parts.resolve_left hne)
        fun c hc => ⟨h.child hc, ih c hc (h.child hc)⟩
      refine .of_children ⟨?_, ?_, .inr ?_, h.self.form.withComments⟩ ?_
      · simpa using h.self.start
      · simpa using h.self.onward
      · rw [children_withComments hne]
        simpa using hyields.follows
      · rw [children_withComments hne]
        exact hyields.formed

/-- The line for the system stands at the start of a text. -/
theorem yields_scriptLine (s : String) : Yields s Any 0 (scriptLine (.ofString s))
    (((scriptLine (.ofString s)).getLast?.map Tree.stop).getD 0) := by
  unfold scriptLine
  dsimp only
  split
  · have hgap := gap_tokenStart (.ofString s) 0
    exact .leaf isBoundary_zero hgap (onward_lineBreak _ (hgap.onward.boundary isBoundary_zero)) rfl
      trivial
  · exact .nil isBoundary_zero

/-- Statements follow one another up to the end of a text. -/
theorem yields_statementsFrom {fuel : Nat} {ts : List Tree} (hi : IsBoundary s i)
    (h : statementsFrom (.ofString s) fuel i = .ok ts) :
    Yields s Any i ts (Source.ofString s).size := by
  induction fuel generalizing i ts with
  | zero => cases h
  | succ fuel ih =>
    rw [statementsFrom] at h
    split at h
    · rename_i hend
      cases h
      have hgap := gap_tokenStart (.ofString s) i
      have hsize := (hgap.onward.boundary hi).le_size
      rw [Nat.le_antisymm hsize hend] at hgap
      exact (Yields.nil hi).gap hgap
    · split at h
      · cases h
      · rename_i trees cursor hfound
        have hstatement := (sound_phrase (s := s) _ .statement).reads i hi _ _ _ _ rfl hfound
        cases hmore : statementsFrom (.ofString s) fuel cursor.place with
        | error => rw [hmore] at h; cases h
        | ok more =>
          rw [hmore] at h
          cases h
          exact hstatement.any.append (ih hstatement.stop hmore)

/-- **The tree of a text** and all trees in it are formed. -/
theorem allFormed_ofSource {t : Tree} (h : Tree.ofSource (.ofString s) = .ok t) :
    AllFormed s t := by
  unfold Tree.ofSource at h
  dsimp only at h
  split at h
  · rename_i trees hstatements
    cases h
    have hlead := yields_scriptLine s
    have hparts := hlead.append (yields_statementsFrom hlead.stop hstatements)
    exact AllFormed.withComments <| .of_children
      ⟨isBoundary_zero, hparts.onward, .inr hparts.follows, .of_free rfl⟩ hparts.formed
  · cases h

/-! ## 5. Trees of a text -/

/-- Trees that follow one another lie in order, from where they start to where they stop. -/
theorem Follows.inOrder {ts : List Tree} (h : Follows (.ofString s) i ts j)
    (hts : ∀ t ∈ ts, t.start ≤ t.stop) :
    i ≤ j ∧ (∀ t ∈ ts, i ≤ t.start ∧ t.stop ≤ j) ∧
      ts.Pairwise fun t u => t.stop ≤ u.start := by
  induction ts generalizing i with
  | nil => exact ⟨h.onward.le, nofun, .nil⟩
  | cons t ts ih =>
    have hgap := h.1.onward.le
    have ht := hts t List.mem_cons_self
    obtain ⟨hle, hin, hpairs⟩ := ih h.2 fun u hu => hts u (List.mem_cons_of_mem t hu)
    refine ⟨by omega, List.forall_mem_cons.mpr ⟨by omega, fun u hu => ?_⟩,
      List.pairwise_cons.mpr ⟨fun u hu => (hin u hu).1, hpairs⟩⟩
    have hu := hin u hu
    omega

/-- Formed trees are in order. -/
theorem AllFormed.ordered {t : Tree} (h : AllFormed s t) : Ordered t := by
  intro n hn
  have hself := h n hn
  rcases hself.parts with hnone | hfollows
  · exact ⟨hself.onward.le, by simp [hnone], by simp [hnone]⟩
  · have hparts := hfollows.inOrder fun c hc =>
      (h c (Tree.mem_nodes_of_child hc hn)).onward.le
    exact ⟨hself.onward.le, hparts.2.1, hparts.2.2⟩

/-- All trees in the tree of a text, if it has one. -/
def treesOf (s : String) : List Tree :=
  ((Tree.ofSource (.ofString s)).toOption.map Tree.nodes).getD []

/-- The tree of a text, with a default in case there is none. -/
def rootOf (s : String) : Tree := (Tree.ofSource (.ofString s)).toOption.getD default

theorem ofSource_rootOf (h : (Tree.ofSource (.ofString s)).isOk = true) :
    Tree.ofSource (.ofString s) = .ok (rootOf s) := by
  unfold rootOf
  cases hroot : Tree.ofSource (.ofString s) with
  | ok root => rfl
  | error _ => rw [hroot] at h; cases h

/-- What is found in a text, with a default in case there is nothing. -/
theorem eq_some_getD {α : Type} [Inhabited α] {o : Option α} (h : o.isSome = true) :
    o = some (o.getD default) :=
  (Option.getD_of_ne_none (Option.isSome_iff_ne_none.mp h) default).symm

theorem allFormed_of_mem_treesOf {t : Tree} (h : t ∈ treesOf s) : AllFormed s t := by
  unfold treesOf at h
  cases hroot : Tree.ofSource (.ofString s) with
  | error _ =>
    rw [hroot] at h
    exact absurd h List.not_mem_nil
  | ok root =>
    rw [hroot] at h
    exact fun n hn => allFormed_ofSource hroot n (Tree.mem_nodes_trans hn h)

end ClassScript.Syntax
