import AccessRules.Proofs.Expr.Nodes
import Mathlib.Algebra.BigOperators.Group.List.Basic
import Mathlib.Algebra.Order.Ring.Nat

set_option autoImplicit false

/-! # Sums over the nodes of a tree

`total f` adds up what `f` gives for each occurrence of a node, by recursion on all that stands
directly below a node and without a walk. A walk over a body of the right shape comes to every
occurrence once, so a sum over the walk is the same. -/

namespace AccessRules

theorem sum_map_flatMap {α β : Type} (f : β → Nat) (g : α → List β) (as : List α) :
    ((as.flatMap g).map f).sum = (as.map fun a => ((g a).map f).sum).sum := by
  induction as with
  | nil => rfl
  | cons a as ih => simp [ih]

namespace Expr

/-- The sum of the numbers that the nodes of an expression are given. -/
def total (f : Expr → Nat) (e : Expr) : Nat :=
  f e + (e.children.attach.map fun c => total f c.1).sum
termination_by sizeOf e
decreasing_by exact sizeOf_lt_of_mem_children c.2

theorem total_eq (f : Expr → Nat) (e : Expr) :
    e.total f = f e + (e.children.map (total f)).sum := by
  rw [total, List.attach_map_val]

/-- A walk may stop above nodes that add nothing. -/
theorem sum_map_walk (f : Expr → Nat) {descend : Expr → Bool}
    (hcut : ∀ e, descend e = false → ∀ c ∈ e.children, c.total f = 0) {e : Expr}
    (h : ∀ m ∈ e.preorder, m.Paired) : ((e.walk descend).map f).sum = e.total f := by
  induction e using children_induction with
  | step e ih =>
      rw [walk_eq, List.map_cons, List.sum_cons, total_eq]
      by_cases hdescend : descend e = true
      · have hvisited : e.visited.map (fun c => ((c.walk descend).map f).sum)
            = e.visited.map (total f) := by
          refine List.map_congr_left fun c hc => ih c (mem_children_of_mem_visited hc) ?_
          exact fun m hm => h m (preorder_subset_of_mem_visited hc hm)
        rw [if_pos hdescend, sum_map_flatMap, hvisited,
          ((perm_visited (h e e.self_mem_preorder)).map (total f)).sum_nat]
      · have hnone : (e.children.map (total f)).sum = 0 := by
          refine List.sum_eq_zero (List.forall_mem_map.2 ?_)
          exact hcut e (eq_false_of_ne_true hdescend)
        rw [if_neg hdescend, hnone, List.map_nil, List.sum_nil]

end Expr

namespace Body

/-- The sum of the numbers that the nodes in a body are given. -/
def total (f : Expr → Nat) (b : Body) : Nat :=
  (b.tops.map (Expr.total f)).sum

/-- Where nothing lacks a partner, a sum over a walk is the sum over all nodes. -/
theorem sum_map_walk (f : Expr → Nat) {descend : Expr → Bool}
    (hcut : ∀ e, descend e = false → ∀ c ∈ e.children, c.total f = 0) {b : Body}
    (h : b.Paired) : ((b.walk descend).map f).sum = b.total f := by
  have htops : b.tops.map (fun e => ((e.walk descend).map f).sum) = b.tops.map (Expr.total f) :=
    List.map_congr_left fun e he => Expr.sum_map_walk f hcut fun m hm =>
      h m (hasNode_of_mem_reached (mem_reached.2 ⟨e, he, hm⟩))
  rw [walk, roots_eq, sum_map_flatMap, htops, total]

theorem sum_map_reached (f : Expr → Nat) {b : Body} (h : b.Paired) :
    (b.reached.map f).sum = b.total f := by
  rw [← nodes_eq]
  exact sum_map_walk f (fun _ htrue => absurd htrue Bool.noConfusion) h

end Body

end AccessRules
