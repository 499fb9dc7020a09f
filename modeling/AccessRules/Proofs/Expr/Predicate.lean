import AccessRules.Expr.Predicate
import AccessRules.Proofs.Expr.Children

set_option autoImplicit false

/-! # Properties of a value and of the predicate it denotes

Below the predicate that a value denotes stand the same expressions as below the value, some of them
turned into predicates as well. So a property of all nodes that does not depend on what a node is
taken for holds of both or of neither. -/

namespace AccessRules

theorem asPredicates_eq_map (es : List Expr) : asPredicates es = es.map Expr.asPredicate := by
  induction es with
  | nil => rfl
  | cons e es ih => rw [asPredicates, ih, List.map_cons]

theorem asPredicateCounts_eq_map (cases : List (Int64 × Expr)) :
    asPredicateCounts cases = cases.map fun c => (c.1, c.2.asPredicate) := by
  induction cases with
  | nil => rfl
  | cons c cases ih => rw [asPredicateCounts, ih, List.map_cons]

theorem asPredicateOptions_eq_map (cases : List (Literal × Expr)) :
    asPredicateOptions cases = cases.map fun c => (c.1, c.2.asPredicate) := by
  induction cases with
  | nil => rfl
  | cons c cases ih => rw [asPredicateOptions, ih, List.map_cons]

namespace Expr

theorem asPredicate_ifThenElse (conds branches : List Expr) (o : Option Expr) :
    (Expr.ifThenElse conds branches o).asPredicate
      = .ifThenElse conds (branches.map asPredicate) (o.map asPredicate) := by
  cases o with
  | none => rw [asPredicate, asPredicates_eq_map, Option.map_none]
  | some o => rw [asPredicate, asPredicates_eq_map, Option.map_some]

/-- The expressions below a value and below the predicate that it denotes. -/
theorem children_asPredicate (e : Expr) :
    ∃ front back, e.children = front ++ back ∧
      e.asPredicate.children = front ++ back.map asPredicate := by
  cases e with
  | paren e => exact ⟨[], [e], rfl, rfl⟩
  | ternary c y n => exact ⟨[c], [y, n], rfl, rfl⟩
  | ifThenElse conds branches o =>
      refine ⟨conds, branches ++ o.toList, by simp [children], ?_⟩
      rw [asPredicate_ifThenElse]
      cases o <;> simp [children]
  | perItem item cases d =>
      refine ⟨[], cases.map (·.2) ++ [d], rfl, ?_⟩
      simp [asPredicate, asPredicateCounts_eq_map, children, Function.comp_def]
  | perSetting setting cases d =>
      refine ⟨[], cases.map (·.2) ++ [d], rfl, ?_⟩
      simp [asPredicate, asPredicateOptions_eq_map, children, Function.comp_def]
  | call func args => exact ⟨args, [], (List.append_nil args).symm, (List.append_nil args).symm⟩
  | ref r => exact ⟨[], [], rfl, rfl⟩
  | setting name => exact ⟨[], [], rfl, rfl⟩
  | str text => exact ⟨[], [], rfl, rfl⟩
  | _ => exact ⟨_, [], (List.append_nil _).symm, by simp [asPredicate]⟩

variable {p : Expr → Prop}

theorem Every.asPredicate (hp : ∀ e, p e → p e.asPredicate) {e : Expr} (h : e.Every p) :
    e.asPredicate.Every p := by
  induction e using children_induction with
  | step e ih =>
      obtain ⟨front, back, hchildren, hpredicate⟩ := children_asPredicate e
      refine .node (hp e h.self) fun c hc => ?_
      rw [hpredicate, List.mem_append, List.mem_map] at hc
      rcases hc with hc | ⟨c, hc, rfl⟩
      · exact h.child (by simp [hchildren, hc])
      · have hmem : c ∈ e.children := by simp [hchildren, hc]
        exact ih c hmem (h.child hmem)

theorem Every.of_asPredicate (hp : ∀ e, p e.asPredicate → p e) {e : Expr}
    (h : e.asPredicate.Every p) : e.Every p := by
  induction e using children_induction with
  | step e ih =>
      obtain ⟨front, back, hchildren, hpredicate⟩ := children_asPredicate e
      refine .node (hp e h.self) fun c hc => ?_
      rw [hchildren, List.mem_append] at hc
      rcases hc with hc | hc
      · exact h.child (by simp [hpredicate, hc])
      · refine ih c (by simp [hchildren, hc]) (h.child ?_)
        rw [hpredicate]
        exact List.mem_append_right _ (List.mem_map_of_mem hc)

end Expr

end AccessRules
