import AccessRules.Proofs.Expr.Total
import AccessRules.Typing

set_option autoImplicit false

/-! # The calls in a body

A call stands in a body as an action, or as a node of an expression that is taken for its truth or
for its value. `Body.HasCall` says which calls there are. `Body.callsInOrder` lists those that a
walk is to come to, the actions first, and `Body.callCount` counts all of them by recursion on the
body. Where no condition and no branch lacks a partner, the three go together. -/

namespace AccessRules

/-- The call that a node is, taken for its truth or for its value; other nodes are none. -/
def Expr.callsHere : Expr → List CallSite
  | .invoke func args _ => [⟨func, args⟩]
  | .call func args => [⟨func, args⟩]
  | _ => []

theorem Expr.toList_callSite? (e : Expr) : e.callSite?.toList = e.callsHere := by
  cases e <;> rfl

theorem Expr.mem_callsHere_iff {e : Expr} {func : String} {args : List Expr} :
    ⟨func, args⟩ ∈ e.callsHere ↔ e = .call func args ∨ ∃ negated, e = .invoke func args negated := by
  cases e <;> simp [callsHere, eq_comm]

/-- The call that an action is; other actions are none. -/
def Action.callsHere : Action → List CallSite
  | .call func args => [⟨func, args⟩]
  | _ => []

theorem Action.toList_callSite? (a : Action) : a.callSite?.toList = a.callsHere := by
  cases a <;> rfl

theorem Action.mem_callsHere_iff {a : Action} {func : String} {args : List Expr} :
    ⟨func, args⟩ ∈ a.callsHere ↔ a = .call func args := by
  cases a <;> simp [callsHere, eq_comm]

namespace Body

/-- The call is an action of the body, or a node of its expressions. -/
def HasCall (b : Body) (func : String) (args : List Expr) : Prop :=
  b.HasAction (.call func args) ∨ b.HasNode (.call func args) ∨
    ∃ negated, b.HasNode (.invoke func args negated)

/-- The calls of a body that a walk is to come to: first the actions that are calls, then the calls
    in expressions, each in pre-order. -/
def callsInOrder (b : Body) : List CallSite :=
  b.actionsInOrder.flatMap Action.callsHere ++ b.reached.flatMap Expr.callsHere

/-- How many calls with a property stand in a body, as actions or in expressions, at any depth. -/
def callCount (p : CallSite → Bool) (b : Body) : Nat :=
  (b.actionsInOrder.map fun a => a.callsHere.countP p).sum + b.total fun e => e.callsHere.countP p

theorem calls_eq (b : Body) : b.calls = b.callsInOrder := by
  rw [calls, actionNodes_eq, nodes_eq, List.filterMap_eq_flatMap_toList,
    List.filterMap_eq_flatMap_toList, funext Action.toList_callSite?, funext Expr.toList_callSite?,
    callsInOrder]

/-- Where nothing lacks a partner, no call is overlooked. -/
theorem mem_callsInOrder_iff {b : Body} (h : b.Paired) {func : String}
    {args : List Expr} : ⟨func, args⟩ ∈ b.callsInOrder ↔ b.HasCall func args := by
  simp only [callsInOrder, List.mem_append, List.mem_flatMap, mem_actionsInOrder_iff,
    mem_reached_iff h, Action.mem_callsHere_iff, Expr.mem_callsHere_iff, HasCall]
  constructor
  · rintro (⟨a, ha, rfl⟩ | ⟨e, he, rfl | ⟨negated, rfl⟩⟩)
    · exact Or.inl ha
    · exact Or.inr (Or.inl he)
    · exact Or.inr (Or.inr ⟨negated, he⟩)
  · rintro (ha | he | ⟨negated, he⟩)
    · exact Or.inl ⟨_, ha, rfl⟩
    · exact Or.inr ⟨_, he, Or.inl rfl⟩
    · exact Or.inr ⟨_, he, Or.inr ⟨negated, rfl⟩⟩

/-- Where nothing lacks a partner, every occurrence of a call is listed once. -/
theorem countP_callsInOrder (p : CallSite → Bool) {b : Body} (h : b.Paired) :
    b.callsInOrder.countP p = b.callCount p := by
  rw [callsInOrder, List.countP_append, List.countP_flatMap, List.countP_flatMap, callCount,
    ← sum_map_reached _ h]
  rfl

end Body

end AccessRules
