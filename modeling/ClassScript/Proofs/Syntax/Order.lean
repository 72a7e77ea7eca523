/-
  File:      ClassScript/Proofs/Syntax/Order.lean
  Subject:   Trees in the order of their text, and walks through them.

  The parts of a tree lie in it, and each of them ends before the next one
  starts. So a tree that is not empty is in one part of another tree only. A
  walk through a tree may leave parts out; the trees it meets are those that
  are in none of the parts left out, and of these the leaves stand in the
  order of the text.

  * `InOrder`, `Ordered`: one tree, and all trees in it, are in order;
  * `Ordered.pairwise_nodes`: all trees in a tree come in the order of the text;
  * `Tree.reached`: the trees on a walk that leaves parts out;
  * `Ordered.mem_reached_iff`: which trees these are;
  * `Ordered.pairwise_reached`: and in which order the leaves come.
-/
import Mathlib.Data.List.Pairwise
import ClassScript.Proofs.Syntax.Tree

namespace ClassScript.Syntax

variable {t c d n r : Tree}

/-! ## 1. Trees in order -/

/-- A tree lies around its parts, which follow one another. -/
structure InOrder (t : Tree) : Prop where
  start_le_stop : t.start ≤ t.stop
  around : ∀ c ∈ t.children, t.start ≤ c.start ∧ c.stop ≤ t.stop
  apart : t.children.Pairwise fun c d => c.stop ≤ d.start

instance (t : Tree) : Decidable (InOrder t) :=
  decidable_of_iff
    (t.start ≤ t.stop ∧ (∀ c ∈ t.children, t.start ≤ c.start ∧ c.stop ≤ t.stop) ∧
      t.children.Pairwise fun c d => c.stop ≤ d.start)
    ⟨fun ⟨h₁, h₂, h₃⟩ => ⟨h₁, h₂, h₃⟩, fun ⟨h₁, h₂, h₃⟩ => ⟨h₁, h₂, h₃⟩⟩

/-- A tree and all trees in it are in order. -/
def Ordered (t : Tree) : Prop := ∀ n ∈ t.nodes, InOrder n

instance (t : Tree) : Decidable (Ordered t) := inferInstanceAs (Decidable (∀ n ∈ t.nodes, InOrder n))

namespace Ordered

theorem self (h : Ordered t) : InOrder t := h t t.mem_nodes_self

theorem child (h : Ordered t) (hc : c ∈ t.children) : Ordered c := fun n hn =>
  h n (Tree.mem_nodes_trans hn (Tree.mem_nodes_of_child hc t.mem_nodes_self))

/-- All trees in a tree lie in its range. -/
theorem within (h : Ordered t) (hn : n ∈ t.nodes) :
    t.start ≤ n.start ∧ n.start ≤ n.stop ∧ n.stop ≤ t.stop := by
  induction t using Tree.induction with
  | step t ih =>
    rw [Tree.nodes_eq] at hn
    rcases List.mem_cons.mp hn with rfl | hn
    · exact ⟨Nat.le_refl _, h.self.start_le_stop, Nat.le_refl _⟩
    · obtain ⟨c, hc, hnc⟩ := Tree.mem_inner_iff.mp hn
      obtain ⟨hstart, hle, hstop⟩ := ih c hc (h.child hc) hnc
      have haround := h.self.around c hc
      exact ⟨by omega, hle, by omega⟩

/-- Different parts lie apart. -/
theorem apart_of_ne (h : Ordered t) (hc : c ∈ t.children) (hd : d ∈ t.children) (hne : c ≠ d) :
    c.stop ≤ d.start ∨ d.stop ≤ c.start := by
  have hpairs : t.children.Pairwise fun c d => c.stop ≤ d.start ∨ d.stop ≤ c.start :=
    h.self.apart.imp .inl
  have : Std.Symm fun c d : Tree => c.stop ≤ d.start ∨ d.stop ≤ c.start := ⟨fun _ _ => Or.symm⟩
  exact hpairs.forall hc hd hne

/-- A tree that is not empty is in one part only. -/
theorem eq_of_mem (h : Ordered t) (hc : c ∈ t.children) (hd : d ∈ t.children)
    (hrc : r ∈ c.nodes) (hrd : r ∈ d.nodes) (hr : r.start < r.stop) : c = d := by
  by_contra hne
  have hrc := (h.child hc).within hrc
  have hrd := (h.child hd).within hrd
  rcases h.apart_of_ne hc hd hne with hapart | hapart <;> omega

/-- Of two trees in a tree one is in the other, or they lie apart. -/
theorem mem_or_apart (h : Ordered t) (hn : n ∈ t.nodes) (hr : r ∈ t.nodes) :
    n ∈ r.nodes ∨ r ∈ n.nodes ∨ n.stop ≤ r.start ∨ r.stop ≤ n.start := by
  induction t using Tree.induction with
  | step t ih =>
    have hn' := hn
    have hr' := hr
    rw [Tree.nodes_eq] at hn' hr'
    rcases List.mem_cons.mp hn' with rfl | hn'
    · exact .inr (.inl hr)
    rcases List.mem_cons.mp hr' with rfl | hr'
    · exact .inl hn
    obtain ⟨c, hc, hnc⟩ := Tree.mem_inner_iff.mp hn'
    obtain ⟨d, hd, hrd⟩ := Tree.mem_inner_iff.mp hr'
    by_cases hcd : c = d
    · subst hcd
      exact ih c hc (h.child hc) hnc hrd
    · have hnc := (h.child hc).within hnc
      have hrd := (h.child hd).within hrd
      rcases h.apart_of_ne hc hd hcd with hapart | hapart
      · exact .inr (.inr (.inl (by omega)))
      · exact .inr (.inr (.inr (by omega)))

end Ordered

/-! ## 2. No tree is in itself -/

theorem sizeOf_lt_of_child (hc : c ∈ t.children) : sizeOf c < sizeOf t := by
  obtain ⟨kind, field, start, stop, parts⟩ := t
  have hlt : sizeOf c < sizeOf parts := List.sizeOf_lt_of_mem hc
  simp only [Tree.node.sizeOf_spec]
  omega

theorem sizeOf_le_of_mem_nodes (hn : n ∈ t.nodes) : sizeOf n ≤ sizeOf t := by
  induction t using Tree.induction with
  | step t ih =>
    rw [Tree.nodes_eq] at hn
    rcases List.mem_cons.mp hn with rfl | hn
    · exact Nat.le_refl _
    · obtain ⟨c, hc, hnc⟩ := Tree.mem_inner_iff.mp hn
      exact Nat.le_trans (ih c hc hnc) (Nat.le_of_lt (sizeOf_lt_of_child hc))

/-- A tree is in none of the parts of a tree in it. -/
theorem not_mem_part (hn : n ∈ t.nodes) (hc : c ∈ n.children) : t ∉ c.nodes := by
  intro ht
  have hle := sizeOf_le_of_mem_nodes ht
  have hlt := sizeOf_lt_of_child hc
  have hle' := sizeOf_le_of_mem_nodes hn
  omega

/-- **All trees of a tree in order** come in the order in which they start. -/
theorem Ordered.pairwise_nodes (h : Ordered t) :
    t.nodes.Pairwise fun a b => a.start ≤ b.start := by
  induction t using Tree.induction with
  | step t ih =>
    have hnodes (ts : List Tree) : Tree.nodesOfAll ts = ts.flatMap Tree.nodes := by
      induction ts with
      | nil => rfl
      | cons c cs ihcs => rw [Tree.nodesOfAll, ihcs, List.flatMap_cons]
    rw [Tree.nodes_eq, List.pairwise_cons]
    refine ⟨fun n hn => (h.within (Tree.nodes_eq t ▸ List.mem_cons_of_mem t hn)).1, ?_⟩
    rw [Tree.inner, hnodes, List.pairwise_flatMap]
    refine ⟨fun c hc => ih c hc (h.child hc), h.self.apart.imp_of_mem fun hc hd hcd a ha b hb => ?_⟩
    have hac := (h.child hc).within ha
    have hbd := (h.child hd).within hb
    omega

/-! ## 3. Walks -/

namespace Tree

mutual

/-- The trees on a walk through a tree, which leaves out the parts `c` of `n` with `skips n c`. -/
def reached (skips : Tree → Tree → Bool) : Tree → List Tree
  | .node kind field start stop parts =>
    .node kind field start stop parts ::
      reachedIn skips (.node kind field start stop parts) parts

/-- The trees on a walk through some parts of `n`. -/
def reachedIn (skips : Tree → Tree → Bool) (n : Tree) : List Tree → List Tree
  | [] => []
  | c :: cs => (if skips n c then [] else reached skips c) ++ reachedIn skips n cs

end

variable {skips : Tree → Tree → Bool} {p : Tree → Bool} {parts : List Tree}

theorem reached_eq (skips : Tree → Tree → Bool) (t : Tree) :
    t.reached skips = t :: reachedIn skips t t.children := by
  cases t
  rfl

/-- A walk through parts goes through one after the other that it does not leave out. -/
theorem reachedIn_eq (skips : Tree → Tree → Bool) (n : Tree) (parts : List Tree) :
    reachedIn skips n parts =
      (parts.filter fun c => !skips n c).flatMap (reached skips) := by
  induction parts with
  | nil => rfl
  | cons c cs ih =>
    rw [reachedIn, ih, List.filter_cons]
    cases skips n c <;> rfl

theorem mem_reachedIn_iff :
    r ∈ reachedIn skips n parts ↔ ∃ c ∈ parts, skips n c = false ∧ r ∈ c.reached skips := by
  simp [reachedIn_eq, and_assoc]

/-- Walks stay in the tree. -/
theorem mem_nodes_of_reached (h : r ∈ t.reached skips) : r ∈ t.nodes := by
  induction t using Tree.induction with
  | step t ih =>
    rw [reached_eq] at h
    rcases List.mem_cons.mp h with rfl | h
    · exact mem_nodes_self _
    · obtain ⟨c, hc, _, hr⟩ := mem_reachedIn_iff.mp h
      exact mem_nodes_trans (ih c hc hr) (mem_nodes_of_child hc (mem_nodes_self t))

/-- A leaf is all of its walk. -/
theorem reached_of_leaf (h : t.children = []) : t.reached skips = [t] := by
  rw [reached_eq, h, reachedIn]

/-- A walk meets what is in none of the parts it leaves out. -/
theorem mem_reached_of_outside (hr : r ∈ t.nodes)
    (hout : ∀ n ∈ t.nodes, ∀ c ∈ n.children, skips n c = true → r ∉ c.nodes) :
    r ∈ t.reached skips := by
  induction t using Tree.induction with
  | step t ih =>
    rw [reached_eq]
    rw [nodes_eq] at hr
    rcases List.mem_cons.mp hr with rfl | hr
    · exact List.mem_cons_self
    · obtain ⟨c, hc, hrc⟩ := mem_inner_iff.mp hr
      refine List.mem_cons_of_mem t (mem_reachedIn_iff.mpr ⟨c, hc, ?_, ?_⟩)
      · rw [← Bool.not_eq_true]
        exact fun hskip => hout t t.mem_nodes_self c hc hskip hrc
      · exact ih c hc hrc fun n hn =>
          hout n (mem_nodes_trans hn (mem_nodes_of_child hc t.mem_nodes_self))

end Tree

variable {skips : Tree → Tree → Bool} {p : Tree → Bool}

/-- In a tree in order, a walk meets nothing of what it leaves out that is not empty. -/
theorem Ordered.not_mem_of_reached (h : Ordered t) (hr : r.start < r.stop)
    (hmem : r ∈ t.reached skips) :
    ∀ n ∈ t.nodes, ∀ c ∈ n.children, skips n c = true → r ∉ c.nodes := by
  induction t using Tree.induction with
  | step t ih =>
    intro n hn c hc hskip hrc
    rw [Tree.reached_eq] at hmem
    rcases List.mem_cons.mp hmem with rfl | hmem
    · exact not_mem_part hn hc hrc
    · obtain ⟨d, hd, hmeet, hrd⟩ := Tree.mem_reachedIn_iff.mp hmem
      have hrd' := Tree.mem_nodes_of_reached hrd
      -- the part left out is one of `t`, or of a tree in one of its parts
      rw [Tree.nodes_eq] at hn
      rcases List.mem_cons.mp hn with rfl | hn
      · obtain rfl := h.eq_of_mem hc hd hrc hrd' hr
        rw [hskip] at hmeet
        cases hmeet
      · obtain ⟨d', hd', hnd⟩ := Tree.mem_inner_iff.mp hn
        have hrd'' : r ∈ d'.nodes := Tree.mem_nodes_trans hrc (Tree.mem_nodes_of_child hc hnd)
        obtain rfl := h.eq_of_mem hd' hd hrd'' hrd' hr
        exact ih d' hd (h.child hd) hrd n hnd c hc hskip hrc

/-- **A walk meets** the trees that are in none of the parts it leaves out. -/
theorem Ordered.mem_reached_iff (h : Ordered t) (hr : r.start < r.stop) :
    r ∈ t.reached skips ↔
      r ∈ t.nodes ∧ ∀ n ∈ t.nodes, ∀ c ∈ n.children, skips n c = true → r ∉ c.nodes :=
  ⟨fun hmem => ⟨Tree.mem_nodes_of_reached hmem, h.not_mem_of_reached hr hmem⟩,
    fun ⟨hmem, hout⟩ => Tree.mem_reached_of_outside hmem hout⟩

/-- **The leaves on a walk** stand in the order of the text. -/
theorem Ordered.pairwise_reached (h : Ordered t)
    (hleaf : ∀ n ∈ t.reached skips, p n = true → n.children = []) :
    ((t.reached skips).filter p).Pairwise fun a b => a.stop ≤ b.start := by
  induction t using Tree.induction with
  | step t ih =>
    rw [Tree.reached_eq] at hleaf ⊢
    rw [List.filter_cons]
    split
    · rename_i hp
      rw [hleaf t List.mem_cons_self hp, Tree.reachedIn]
      exact List.pairwise_singleton _ t
    · rw [Tree.reachedIn_eq, List.filter_flatMap, List.pairwise_flatMap]
      refine ⟨fun c hc => ?_, ?_⟩
      · -- the walk through a part is one of `t`, as this part is met
        obtain ⟨hc, hmeet⟩ := List.mem_filter.mp hc
        refine ih c hc (h.child hc) fun n hn hp => hleaf n (List.mem_cons_of_mem t ?_) hp
        exact Tree.mem_reachedIn_iff.mpr ⟨c, hc, by simpa using hmeet, hn⟩
      · refine (h.self.apart.filter _).imp_of_mem fun {c d} hc hd hcd a ha b hb => ?_
        have hac := (h.child (List.mem_filter.mp hc).1).within
          (Tree.mem_nodes_of_reached (List.mem_filter.mp ha).1)
        have hbd := (h.child (List.mem_filter.mp hd).1).within
          (Tree.mem_nodes_of_reached (List.mem_filter.mp hb).1)
        omega

end ClassScript.Syntax
