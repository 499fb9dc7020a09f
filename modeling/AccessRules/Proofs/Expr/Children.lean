import AccessRules.Expr.Basic
import Mathlib.Data.List.Basic

set_option autoImplicit false

/-! # Induction on expressions

An expression holds further ones in lists, in pairs and behind an option. `Expr.children` lists them
in one way for every kind of node, and `Expr.children_induction` is the induction that goes with it:
what holds of all children of a node carries over to the node. `Expr.Every` says that all nodes of
an expression have a property. -/

namespace AccessRules

namespace Expr

/-- The expressions directly below a node, from left to right. -/
def children : Expr → List Expr
  | .or l r => [l, r]
  | .and l r => [l, r]
  | .not e => [e]
  | .paren e => [e]
  | .invoke _ args _ => args
  | .ifThenElse conds branches otherwise => conds ++ branches ++ otherwise.toList
  | .ternary c y n => [c, y, n]
  | .numCompare l _ r => [l, r]
  | .strCompare l _ _ => [l]
  | .flagMatch e _ => [e]
  | .refEqCall _ _ e => [e]
  | .perItem _ cases d => cases.map (·.2) ++ [d]
  | .perSetting _ cases d => cases.map (·.2) ++ [d]
  | .binOp l _ r => [l, r]
  | .call _ args => args
  | _ => []

/-- Whether the node is of a kind that has no expressions below it. -/
def isLeaf : Expr → Bool
  | .or _ _ | .and _ _ | .not _ | .paren _ | .invoke _ _ _ | .ifThenElse _ _ _ | .ternary _ _ _
  | .numCompare _ _ _ | .strCompare _ _ _ | .flagMatch _ _ | .refEqCall _ _ _ | .perItem _ _ _
  | .perSetting _ _ _ | .binOp _ _ _ | .call _ _ => false
  | _ => true

theorem children_of_isLeaf {e : Expr} (h : e.isLeaf = true) : e.children = [] := by
  cases e with
  | or _ _ | and _ _ | not _ | paren _ | invoke _ _ _ | ifThenElse _ _ _ | ternary _ _ _
  | numCompare _ _ _ | strCompare _ _ _ | flagMatch _ _ | refEqCall _ _ _ | perItem _ _ _
  | perSetting _ _ _ | binOp _ _ _ | call _ _ => cases h
  | _ => rfl

/-- A case of a choice is smaller than the list it stands in. -/
theorem sizeOf_snd_lt_of_mem {κ : Type} [SizeOf κ] {cases : List (κ × Expr)} {e : Expr}
    (h : e ∈ cases.map (·.2)) : sizeOf e < sizeOf cases := by
  obtain ⟨⟨key, e⟩, hmem, rfl⟩ := List.mem_map.1 h
  have hlt := List.sizeOf_lt_of_mem hmem
  have hpair : sizeOf (key, e) = 1 + sizeOf key + sizeOf e := rfl
  show sizeOf e < sizeOf cases
  omega

theorem sizeOf_lt_of_mem_children {c e : Expr} (h : c ∈ e.children) : sizeOf c < sizeOf e := by
  cases e with
  | invoke func args negated =>
      have hlt : sizeOf c < sizeOf args := List.sizeOf_lt_of_mem h
      simp only [Expr.invoke.sizeOf_spec]
      omega
  | call func args =>
      have hlt : sizeOf c < sizeOf args := List.sizeOf_lt_of_mem h
      simp only [Expr.call.sizeOf_spec]
      omega
  | ifThenElse conds branches otherwise =>
      simp only [Expr.ifThenElse.sizeOf_spec]
      simp only [children, List.mem_append] at h
      rcases h with (h | h) | h
      · have hlt := List.sizeOf_lt_of_mem h
        omega
      · have hlt := List.sizeOf_lt_of_mem h
        omega
      · obtain rfl := Option.mem_toList.1 h
        simp only [Option.some.sizeOf_spec]
        omega
  | perItem item cases d =>
      simp only [Expr.perItem.sizeOf_spec]
      rcases List.mem_append.1 h with h | h
      · have hlt := sizeOf_snd_lt_of_mem h
        omega
      · obtain rfl := List.mem_singleton.1 h
        omega
  | perSetting setting cases d =>
      simp only [Expr.perSetting.sizeOf_spec]
      rcases List.mem_append.1 h with h | h
      · have hlt := sizeOf_snd_lt_of_mem h
        omega
      · obtain rfl := List.mem_singleton.1 h
        omega
  | _ => simp only [children, List.mem_cons, List.not_mem_nil, or_false] at h <;> grind

theorem forall_mem_pair {p : Expr → Prop} {l r : Expr} (hl : p l) (hr : p r) :
    ∀ c ∈ [l, r], p c :=
  List.forall_mem_cons.2 ⟨hl, List.forall_mem_singleton.2 hr⟩

theorem children_induction {P : Expr → Prop} (step : ∀ e, (∀ c ∈ e.children, P c) → P e)
    (e : Expr) : P e :=
  step e fun c _ => children_induction step c
termination_by sizeOf e
decreasing_by exact sizeOf_lt_of_mem_children ‹_›

/-! ## Properties of all nodes -/

/-- Every node of the expression has the property. -/
inductive Every (p : Expr → Prop) : Expr → Prop
  | node {e : Expr} (here : p e) (below : ∀ c ∈ e.children, Every p c) : Every p e

variable {p : Expr → Prop} {e c : Expr}

theorem Every.self (h : e.Every p) : p e := by
  obtain ⟨here, _⟩ := h
  exact here

theorem Every.child (h : e.Every p) (hc : c ∈ e.children) : c.Every p := by
  obtain ⟨_, below⟩ := h
  exact below c hc

end Expr

end AccessRules
