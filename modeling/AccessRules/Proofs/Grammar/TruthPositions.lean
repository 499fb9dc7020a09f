import AccessRules.Proofs.Expr.Predicate
import AccessRules.Proofs.Grammar.Soundness

set_option autoImplicit false

/-! # Where a truth value is needed

In some positions of a tree an expression is taken for its truth: at the top of a requirement, as an
operand of a connective, as a condition, and wherever the value of such an expression comes from.
`Body.Tests` says which these are. What the grammar puts there is never a bare value: a reference, a
setting, a call or a string has been turned into the predicate that it denotes, at every depth. -/

namespace AccessRules

namespace Expr

/-- The node is a value that has another form where a truth value is needed. -/
def isBareValue : Expr → Bool
  | .ref _ | .setting _ | .call _ _ | .str _ => true
  | _ => false

/-- The children that are taken for their truth, wherever the node stands. -/
def tested : Expr → List Expr
  | .or l r => [l, r]
  | .and l r => [l, r]
  | .not e => [e]
  | .ternary c _ _ => [c]
  | .ifThenElse conds _ _ => conds
  | _ => []

/-- The children that the value of the node comes from. -/
def results : Expr → List Expr
  | .paren e => [e]
  | .ternary _ y n => [y, n]
  | .ifThenElse _ branches otherwise => branches ++ otherwise.toList
  | .perItem _ cases d => cases.map (·.2) ++ [d]
  | .perSetting _ cases d => cases.map (·.2) ++ [d]
  | _ => []

theorem mem_children_of_mem_results {c e : Expr} (h : c ∈ e.results) : c ∈ e.children := by
  cases e with
  | ifThenElse conds branches otherwise =>
      rw [children, List.append_assoc]
      exact List.mem_append_right _ h
  | ternary cond y n => exact List.mem_cons_of_mem _ h
  | paren e => exact h
  | perItem item cases d => exact h
  | perSetting setting cases d => exact h
  | _ => exact absurd h List.not_mem_nil

/-! ## The predicate that a value denotes -/

theorem isBareValue_asPredicate (e : Expr) : e.asPredicate.isBareValue = false := by
  cases e with
  | ifThenElse conds branches otherwise => cases otherwise <;> simp [asPredicate, isBareValue]
  | _ => simp [asPredicate, isBareValue]

theorem tested_asPredicate (e : Expr) : e.asPredicate.tested = e.tested := by
  cases e with
  | ifThenElse conds branches otherwise => rw [asPredicate_ifThenElse]; rfl
  | _ => simp [asPredicate, tested]

theorem results_asPredicate (e : Expr) : e.asPredicate.results = e.results.map asPredicate := by
  cases e with
  | ifThenElse conds branches otherwise =>
      rw [asPredicate_ifThenElse]
      cases otherwise <;> simp [results]
  | perItem item cases d =>
      simp [asPredicate, asPredicateCounts_eq_map, results, Function.comp_def]
  | perSetting setting cases d =>
      simp [asPredicate, asPredicateOptions_eq_map, results, Function.comp_def]
  | _ => simp [asPredicate, results]

/-- Wherever the value of the expression comes from, there stands no bare value. -/
inductive Predicative : Expr → Prop
  | node {e : Expr} (here : e.isBareValue = false) (results : ∀ c ∈ e.results, Predicative c) :
      Predicative e

theorem predicative_asPredicate (e : Expr) : e.asPredicate.Predicative := by
  induction e using children_induction with
  | step e ih =>
      refine .node (isBareValue_asPredicate e) ?_
      rw [results_asPredicate]
      exact List.forall_mem_map.2 fun c hc => ih c (mem_children_of_mem_results hc)

theorem Predicative.isBareValue {e : Expr} (h : e.Predicative) : e.isBareValue = false := by
  obtain ⟨here, -⟩ := h
  exact here

theorem Predicative.result {c e : Expr} (h : e.Predicative) (hc : c ∈ e.results) :
    c.Predicative := by
  obtain ⟨-, results⟩ := h
  exact results c hc

/-- Where a node of the expression tests a child, the child is a predicate. -/
def Settled (e : Expr) : Prop :=
  e.Every fun n => ∀ c ∈ n.tested, c.Predicative

theorem settled_of_no_test {e : Expr} (htested : e.tested = []) (h : ∀ c ∈ e.children, c.Settled) :
    e.Settled := by
  refine .node ?_ h
  rw [htested]
  exact List.forall_mem_nil _

theorem Settled.asPredicate {e : Expr} (h : e.Settled) : e.asPredicate.Settled :=
  Every.asPredicate (fun e he => by rwa [tested_asPredicate]) h

theorem Settled.negate {e : Expr} (h : e.Settled) : e.negate.Settled := by
  unfold Expr.negate
  split
  · exact settled_of_no_test rfl (List.forall_mem_nil _)
  · exact settled_of_no_test rfl (List.forall_mem_nil _)
  · exact settled_of_no_test rfl fun c hc => h.child hc
  · exact settled_of_no_test rfl (List.forall_mem_nil _)
  · exact .node (List.forall_mem_singleton.2 (predicative_asPredicate _))
      (List.forall_mem_singleton.2 h.asPredicate)

theorem settled_compared {l r : Expr} (hl : l.Settled) (hr : r.Settled) (op : CmpOp) :
    (Grammar.compared l op r).Settled := by
  have hboth : ∀ c ∈ [l, r], c.Settled := forall_mem_pair hl hr
  unfold Grammar.compared
  split
  · split
    · exact settled_of_no_test rfl (List.forall_mem_singleton.2 hl)
    · exact settled_of_no_test rfl (List.forall_mem_singleton.2 hl)
    · exact settled_of_no_test rfl (List.forall_mem_nil _)
    · exact settled_of_no_test rfl (List.forall_mem_nil _)
    · exact settled_of_no_test rfl (List.forall_mem_nil _)
    · refine settled_of_no_test rfl (List.forall_mem_singleton.2 ?_)
      exact settled_of_no_test rfl fun c hc => hr.child hc
    · exact settled_of_no_test rfl hboth
  · exact settled_of_no_test rfl hboth

/-- A connective whose operands have been turned into predicates. -/
theorem settled_connective {e l r : Expr} (htested : e.tested = [l.asPredicate, r.asPredicate])
    (hchildren : e.children = e.tested) (hl : l.Settled) (hr : r.Settled) : e.Settled := by
  refine .node ?_ ?_
  · rw [htested]
    exact forall_mem_pair (predicative_asPredicate l) (predicative_asPredicate r)
  · rw [hchildren, htested]
    exact forall_mem_pair hl.asPredicate hr.asPredicate

end Expr

/-! ## What the grammar gives -/

namespace Grammar

open AccessRules.Expr

variable {F : Prop} {L : Level} {e : Expr}

/-- What is read for its truth is a predicate. -/
theorem predicative_of_derives (h : Derives F L e) (hL : L = .whole .truth) : e.Predicative := by
  induction h with
  | truth _ _ => exact predicative_asPredicate _
  | ternary _ _ _ _ ihy ihn =>
      exact .node rfl (forall_mem_pair (ihy hL) (ihn hL))
  | _ => cases hL

theorem settled_of_derives (h : Derives F L e) : e.Settled := by
  induction h with
  | paren _ ih => exact settled_of_no_test rfl (List.forall_mem_singleton.2 ih)
  | call _ _ ih => exact settled_of_no_test rfl ih
  | ifThenElse _ hconds _ _ ihconds ihbranches ihotherwise =>
      refine .node ?_ ?_
      · exact List.forall_mem_map.2 fun arm harm => predicative_of_derives (hconds arm harm) rfl
      · rw [children, List.forall_mem_append, List.forall_mem_append]
        exact ⟨⟨List.forall_mem_map.2 ihconds, List.forall_mem_map.2 ihbranches⟩,
          fun o ho => ihotherwise o (Option.mem_toList.1 ho)⟩
  | perItem _ _ _ _ ihcases ihd =>
      exact settled_of_no_test rfl (List.forall_mem_append.2
        ⟨List.forall_mem_map.2 ihcases, List.forall_mem_singleton.2 ihd⟩)
  | perSetting _ _ _ _ _ ihcases ihd =>
      exact settled_of_no_test rfl (List.forall_mem_append.2
        ⟨List.forall_mem_map.2 ihcases, List.forall_mem_singleton.2 ihd⟩)
  | ofAtom _ ih => exact ih
  | product _ _ _ ihl ihr => exact settled_of_no_test rfl (forall_mem_pair ihl ihr)
  | ofProduct _ ih => exact ih
  | sum _ _ _ ihl ihr => exact settled_of_no_test rfl (forall_mem_pair ihl ihr)
  | ofSum _ ih => exact ih
  | compared _ op _ ihl ihr => exact settled_compared ihl ihr op
  | flagMatch _ mask ih => exact settled_of_no_test rfl (List.forall_mem_singleton.2 ih)
  | ofComparison _ ih => exact ih
  | negation _ ih => exact ih.negate
  | ofNegation _ ih => exact ih
  | conjunction _ _ ihl ihr => exact settled_connective rfl rfl ihl ihr
  | ofConjunction _ ih => exact ih
  | disjunction _ _ ihl ihr => exact settled_connective rfl rfl ihl ihr
  | value _ ih => exact ih
  | truth _ ih => exact ih.asPredicate
  | ternary _ _ _ ihc ihy ihn =>
      refine .node (List.forall_mem_singleton.2 (predicative_asPredicate _)) ?_
      exact List.forall_mem_cons.2 ⟨ihc.asPredicate, forall_mem_pair ihy ihn⟩
  | _ => exact settled_of_no_test rfl (List.forall_mem_nil _)

end Grammar

/-! ## Bodies -/

/-- The conditions that an action holds itself. -/
def Action.conditions : Action → List Expr
  | .cond conds _ _ => conds
  | _ => []

theorem Grammar.DerivesAction.conditions {F : Prop} {x : Extent} {a : Action}
    (h : DerivesAction F x a) : ∀ c ∈ a.conditions, Derives F (.whole .truth) c := by
  induction h with
  | cond _ hconds _ _ _ _ => exact List.forall_mem_map.2 hconds
  | single _ ih => exact ih
  | _ => exact List.forall_mem_nil _

namespace Body

/-- The expression stands in the body where a truth value is needed. -/
inductive Tests (b : Body) : Expr → Prop
  | root {e : Expr} (h : b = .requirement e) : Tests b e
  | condition {a : Action} {c : Expr} (ha : b.HasAction a) (hc : c ∈ a.conditions) : Tests b c
  | operand {n c : Expr} (hn : b.HasNode n) (hc : c ∈ n.tested) : Tests b c
  | result {n c : Expr} (hn : Tests b n) (hc : c ∈ n.results) : Tests b c

/-- Where the body itself, one of its actions or one of its nodes tests an expression, it is a
    predicate. -/
structure Settled (b : Body) : Prop where
  root : ∀ e, b = .requirement e → e.Predicative
  conditions : ∀ a, b.HasAction a → ∀ c ∈ a.conditions, c.Predicative
  nodes : ∀ n, b.HasNode n → ∀ c ∈ n.tested, c.Predicative

/-- From there on it is one wherever a truth value is needed. -/
theorem Settled.predicative {b : Body} (h : b.Settled) {n : Expr} (hn : b.Tests n) :
    n.Predicative := by
  induction hn with
  | root hroot => exact h.root _ hroot
  | condition ha hc => exact h.conditions _ ha _ hc
  | operand hn hc => exact h.nodes _ hn _ hc
  | result _ hc ih => exact ih.result hc

theorem settled_requirement {F : Prop} {e : Expr} (h : Grammar.Derives F (.whole .truth) e) :
    (Body.requirement e).Settled where
  root := by
    rintro _ ⟨⟩
    exact Grammar.predicative_of_derives h rfl
  conditions _ ha := ha.elim
  nodes := Expr.every_iff_forall_node.1 (Grammar.settled_of_derives h)

theorem settled_actions {F : Prop} {x : Grammar.Extent} {a : Action}
    (h : Grammar.DerivesAction F x a) : (Body.actions a).Settled where
  root _ hroot := by cases hroot
  conditions b hb c hc := by
    obtain ⟨y, hb⟩ := h.of_part hb
    exact Grammar.predicative_of_derives (hb.conditions c hc) rfl
  nodes := by
    rintro n ⟨b, hb, e, he, hn⟩
    obtain ⟨y, hb⟩ := h.of_part hb
    obtain ⟨L, he⟩ := hb.held e he
    exact Expr.every_iff_forall_node.1 (Grammar.settled_of_derives he) n hn

end Body

/-- In a tree from a text there stands no bare value where a truth value is needed. -/
theorem parsed_tests_no_bare_value (file text : String) :
    (∀ e, parseRequirement file text = .ok e →
      ∀ n, (Body.requirement e).Tests n → n.isBareValue = false) ∧
    (∀ a, parseActions file text = .ok a →
      ∀ n, (Body.actions a).Tests n → n.isBareValue = false) := by
  refine ⟨fun e h n hn => ?_, fun a h n hn => ?_⟩
  · have hsettled := Body.settled_requirement (derives_of_parseRequirement h)
    exact (hsettled.predicative hn).isBareValue
  · have hsettled := Body.settled_actions (derives_of_parseActions h)
    exact (hsettled.predicative hn).isBareValue

/-- A choice between two values, taken for its truth. -/
def lampChoice : Expr :=
  .and (.paren (.ternary (.argFlag ⟨"lit", none⟩ false) (.hasLiteralItem "Lamp")
    (.settingFlag "easy" false))) (.hasItem "Oil")

def lampRefill : Action :=
  .cond [.argFlag ⟨"lit", none⟩ false] [.alter ⟨"oil", none⟩ .sub (.int 1)] none

theorem lamp_tests_predicates :
    (parseRequirement "rules:lamp" "(^lit ? \"Lamp\" : easy) && Oil" = .ok lampChoice ∧
      (Body.requirement lampChoice).Tests (.hasLiteralItem "Lamp") ∧
      (Expr.hasLiteralItem "Lamp").isBareValue = false) ∧
    (parseActions "rules:refill" "IF (^lit) \x7b ^oil -= 1 \x7d" = .ok lampRefill ∧
      (Body.actions lampRefill).Tests (.argFlag ⟨"lit", none⟩ false) ∧
      (Expr.argFlag ⟨"lit", none⟩ false).isBareValue = false) := by
  have hchoice : parseRequirement "rules:lamp" "(^lit ? \"Lamp\" : easy) && Oil"
      = .ok lampChoice := rfl
  have hrefill : parseActions "rules:refill" "IF (^lit) \x7b ^oil -= 1 \x7d"
      = .ok lampRefill := rfl
  have hlamp : (Body.requirement lampChoice).Tests (.hasLiteralItem "Lamp") := by
    have hparen := Body.Tests.operand (b := .requirement lampChoice) .here List.mem_cons_self
    exact (hparen.result List.mem_cons_self).result List.mem_cons_self
  have hlit : (Body.actions lampRefill).Tests (.argFlag ⟨"lit", none⟩ false) :=
    .condition .here List.mem_cons_self
  exact ⟨⟨hchoice, hlamp, (parsed_tests_no_bare_value _ _).1 _ hchoice _ hlamp⟩,
    hrefill, hlit, (parsed_tests_no_bare_value _ _).2 _ hrefill _ hlit⟩

end AccessRules
