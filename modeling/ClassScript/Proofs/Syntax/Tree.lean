/-
  File:      ClassScript/Proofs/Syntax/Tree.lean
  Subject:   All the trees in a tree, and induction over them.

  * `Tree.nodes`, `Tree.inner`: a tree with all trees in it, and those alone;
  * `Tree.induction`: what holds of a tree if it holds of its children, holds
    of all trees;
  * `mem_nodes_of_child`, `mem_inner_of_child`: what is in a child is in the
    tree.
-/
import ClassScript.Syntax.Tree

namespace ClassScript.Syntax

namespace Tree

mutual

/-- A tree and all trees in it, each before its children. -/
def nodes : Tree → List Tree
  | .node kind role start stop parts => .node kind role start stop parts :: nodesOfAll parts

/-- Some trees and all trees in them. -/
def nodesOfAll : List Tree → List Tree
  | [] => []
  | c :: cs => nodes c ++ nodesOfAll cs

end

/-- All trees in a tree, without itself. -/
def inner (t : Tree) : List Tree := nodesOfAll t.children

theorem nodes_eq (t : Tree) : t.nodes = t :: t.inner := by
  cases t
  rfl

theorem mem_nodesOfAll {n : Tree} {ts : List Tree} :
    n ∈ nodesOfAll ts ↔ ∃ t ∈ ts, n ∈ t.nodes := by
  induction ts with
  | nil => simp [nodesOfAll]
  | cons c cs ih => simp [nodesOfAll, ih]

theorem mem_nodes_self (t : Tree) : t ∈ t.nodes := by
  rw [nodes_eq]
  exact List.mem_cons_self

theorem mem_inner_iff {n t : Tree} : n ∈ t.inner ↔ ∃ c ∈ t.children, n ∈ c.nodes := mem_nodesOfAll

theorem mem_inner_of_child {c t : Tree} (h : c ∈ t.children) : c ∈ t.inner :=
  mem_inner_iff.mpr ⟨c, h, mem_nodes_self c⟩

/-- What holds of a tree whenever it holds of its children, holds of all trees. -/
theorem induction {motive : Tree → Prop}
    (step : ∀ t : Tree, (∀ c ∈ t.children, motive c) → motive t) (t : Tree) : motive t := by
  refine @Tree.rec motive (fun ts => ∀ c ∈ ts, motive c) ?_ ?_ ?_ t
  · exact fun kind role start stop parts ih => step (.node kind role start stop parts) ih
  · exact fun c h => absurd h List.not_mem_nil
  · intro c cs hc hcs d hd
    rcases List.mem_cons.mp hd with rfl | hd
    · exact hc
    · exact hcs d hd

/-- A tree in a tree that is in a third is in it too. -/
theorem mem_nodes_trans {m n t : Tree} (hm : m ∈ n.nodes) (hn : n ∈ t.nodes) : m ∈ t.nodes := by
  induction t using induction with
  | step t ih =>
    rw [nodes_eq] at hn
    rcases List.mem_cons.mp hn with rfl | hn
    · exact hm
    · obtain ⟨c, hc, hnc⟩ := mem_inner_iff.mp hn
      rw [nodes_eq]
      exact List.mem_cons_of_mem t (mem_inner_iff.mpr ⟨c, hc, ih c hc hnc⟩)

/-- What holds of a tree whenever it holds of all trees in it, holds of all trees. -/
theorem strongInduction {motive : Tree → Prop}
    (step : ∀ t : Tree, (∀ d ∈ t.inner, motive d) → motive t) (t : Tree) : motive t := by
  have hall : ∀ d ∈ t.nodes, motive d := by
    induction t using induction with
    | step t ih =>
      have hinner : ∀ d ∈ t.inner, motive d := by
        intro d hd
        obtain ⟨c, hc, hdc⟩ := mem_inner_iff.mp hd
        exact ih c hc d hdc
      intro d hd
      rw [nodes_eq] at hd
      rcases List.mem_cons.mp hd with rfl | hd
      · exact step d hinner
      · exact hinner d hd
  exact hall t (mem_nodes_self t)

theorem mem_nodes_of_child {c n t : Tree} (hc : c ∈ n.children) (hn : n ∈ t.nodes) : c ∈ t.nodes :=
  mem_nodes_trans (by rw [nodes_eq]; exact List.mem_cons_of_mem n (mem_inner_of_child hc)) hn

theorem mem_inner_of_node {c n t : Tree} (hc : c ∈ n.children) (hn : n ∈ t.nodes) :
    c ∈ t.inner := by
  rw [nodes_eq] at hn
  rcases List.mem_cons.mp hn with rfl | hn
  · exact mem_inner_of_child hc
  · obtain ⟨d, hd, hnd⟩ := mem_inner_iff.mp hn
    exact mem_inner_iff.mpr ⟨d, hd, mem_nodes_of_child hc hnd⟩

end Tree
end ClassScript.Syntax
