import AccessRules.Proofs.Compile
import AccessRules.Proofs.Context.OwnParam
import AccessRules.Proofs.Typing.Run

set_option autoImplicit false

/-! # What the check of shapes guarantees

Every pass relies on a contract about trees, wherever they come from: `Body.Contract`. The check
looks for breaches of it with a walk that leaves out what has no partner in a chain, but where it
finds nothing it has come to every node, so the parts of the contract that it looks at hold
throughout: `Body.Checked`. It looks at some names only. The contract needs the others as well,
`Body.RestNamed`, and `shape_check_exact` says that nothing else is missing. -/

namespace AccessRules

/-! ## The contract -/

/-- The node has the parts that its kind asks for. -/
def Expr.Assembled : Expr → Prop
  | .ifThenElse conds branches _ => conds ≠ [] ∧ conds.length = branches.length
  | .perItem _ cases _ => cases ≠ []
  | .perSetting _ cases _ => cases ≠ []
  | _ => True

/-- The action has the parts that its kind asks for. -/
def Action.Assembled : Action → Prop
  | .cond conds branches _ => conds ≠ [] ∧ conds.length = branches.length
  | .sequence steps => steps ≠ []
  | _ => True

/-- What every pass relies on: nodes and actions have their parts, and no function that is called
    and no reference is without a name. -/
structure Body.Contract (b : Body) : Prop where
  nodes : ∀ e, b.HasNode e → e.Assembled
  actions : ∀ a, b.HasAction a → a.Assembled
  functions : ∀ func args, b.HasCall func args → func ≠ ""
  references : ∀ name, b.Mentions name → name ≠ ""

/-! ## Names that are looked at -/

namespace Expr

/-- The names of a node that the check looks at: functions, and references that stand alone. -/
def checkedNames : Expr → List String
  | .invoke func _ _ => [func]
  | .call func _ => [func]
  | .ref r => [r.name]
  | .argFlag r _ => [r.name]
  | .hasArgItem r => [r.name]
  | _ => []

/-- The names of a node that it passes over: qualifiers, and references in comparisons, counts,
    sets and tests for a place. -/
def uncheckedNames : Expr → List String
  | .ref r => r.mentioned.tail
  | .argFlag r _ => r.mentioned.tail
  | .hasArgItem r => r.mentioned.tail
  | e => e.references.flatMap Reference.mentioned

/-- Together these are the functions and references of the node. -/
theorem mem_checkedNames_or_unchecked_iff {e : Expr} {name : String} :
    name ∈ e.checkedNames ∨ name ∈ e.uncheckedNames ↔
      (∃ args, ⟨name, args⟩ ∈ e.callsHere) ∨ ∃ r ∈ e.references, name ∈ r.mentioned := by
  have hnames : ∀ r : Reference, name = r.name ∨ name ∈ r.mentioned.tail ↔ name ∈ r.mentioned := by
    rintro ⟨own, _ | q | path⟩ <;> simp [Reference.mentioned]
  have hrefs : name ∈ e.references.flatMap Reference.mentioned ↔
      ∃ r ∈ e.references, name ∈ r.mentioned := List.mem_flatMap
  cases e with
  | ref r => simpa [uncheckedNames, checkedNames, callsHere, references] using hnames r
  | argFlag r negated => simpa [uncheckedNames, checkedNames, callsHere, references] using hnames r
  | hasArgItem r => simpa [uncheckedNames, checkedNames, callsHere, references] using hnames r
  | invoke func args negated =>
      simp [uncheckedNames, checkedNames, callsHere, references, eq_comm]
  | call func args =>
      simp [uncheckedNames, checkedNames, callsHere, references, eq_comm]
  | _ => simp [uncheckedNames, checkedNames, callsHere, hrefs]

theorem shapeFault?_eq_none_iff {e : Expr} :
    e.shapeFault? = none ↔ e.Assembled ∧ ∀ name ∈ e.checkedNames, name ≠ "" := by
  cases e <;> simp [shapeFault?, Assembled, checkedNames, chainFault?]

end Expr

theorem Action.shapeFault?_eq_none_iff {a : Action} : a.shapeFault? = none ↔ a.Assembled := by
  cases a <;> simp [shapeFault?, Assembled, chainFault?]

/-- The names of an action: the function that it calls, or those of its targets. The check passes
    over all of them. -/
def Action.names : Action → List String
  | .call func _ => [func]
  | a => a.assigned.flatMap Reference.mentioned

theorem Action.mem_names_iff {a : Action} {name : String} :
    name ∈ a.names ↔ (∃ args, a = .call name args) ∨ ∃ r ∈ a.assigned, name ∈ r.mentioned := by
  cases a <;> simp [names, assigned, eq_comm]

namespace Body

variable {b : Body}

/-- What the check looks at is as it should be. -/
structure Checked (b : Body) : Prop where
  nodes : ∀ e, b.HasNode e → e.Assembled
  actions : ∀ a, b.HasAction a → a.Assembled
  names : ∀ e, b.HasNode e → ∀ name ∈ e.checkedNames, name ≠ ""

/-- Names that the check does not look at are not missing. -/
structure RestNamed (b : Body) : Prop where
  nodes : ∀ e, b.HasNode e → ∀ name ∈ e.uncheckedNames, name ≠ ""
  actions : ∀ a, b.HasAction a → ∀ name ∈ a.names, name ≠ ""

/-- The check passes exactly if there is nothing to find, also where its walk might not go. -/
theorem misshapen?_eq_none_iff_checked : b.misshapen? = none ↔ b.Checked := by
  constructor
  · intro h
    -- a walk that meets no fault has left nothing out
    obtain ⟨hactions, hnodes⟩ := shapes h
    have hnode : ∀ e, b.HasNode e → e.Assembled ∧ ∀ name ∈ e.checkedNames, name ≠ "" :=
      fun e he => Expr.shapeFault?_eq_none_iff.1 (hnodes e he)
    refine ⟨fun e he => (hnode e he).1, fun a ha => ?_, fun e he => (hnode e he).2⟩
    exact Action.shapeFault?_eq_none_iff.1 (hactions a ha)
  · intro h
    refine misshapen?_eq_none_iff.2 ⟨fun a ha => ?_, fun e he => ?_⟩
    · exact Action.shapeFault?_eq_none_iff.2 (h.actions a ha)
    · have hnode := hasNode_of_mem_reached he
      exact Expr.shapeFault?_eq_none_iff.2 ⟨h.nodes e hnode, h.names e hnode⟩

/-- Every function that is called and every reference has its name in a node or in an action. -/
theorem hasCall_or_mentions_iff {name : String} :
    (∃ args, b.HasCall name args) ∨ b.Mentions name ↔
      (∃ e, b.HasNode e ∧ (name ∈ e.checkedNames ∨ name ∈ e.uncheckedNames)) ∨
        ∃ a, b.HasAction a ∧ name ∈ a.names := by
  simp only [Expr.mem_checkedNames_or_unchecked_iff, Action.mem_names_iff,
    Expr.mem_callsHere_iff, HasCall, Mentions]
  constructor
  · rintro (⟨args, ha | he | ⟨negated, he⟩⟩ | ⟨e, he, hr⟩ | ⟨a, ha, hr⟩)
    · exact .inr ⟨_, ha, .inl ⟨args, rfl⟩⟩
    · exact .inl ⟨_, he, .inl ⟨args, .inl rfl⟩⟩
    · exact .inl ⟨_, he, .inl ⟨args, .inr ⟨negated, rfl⟩⟩⟩
    · exact .inl ⟨e, he, .inr hr⟩
    · exact .inr ⟨a, ha, .inr hr⟩
  · rintro (⟨e, he, ⟨args, rfl | ⟨negated, rfl⟩⟩ | hr⟩ | ⟨a, ha, ⟨args, rfl⟩ | hr⟩)
    · exact .inl ⟨args, .inr (.inl he)⟩
    · exact .inl ⟨args, .inr (.inr ⟨negated, he⟩)⟩
    · exact .inr (.inl ⟨e, he, hr⟩)
    · exact .inl ⟨args, .inl ha⟩
    · exact .inr (.inr ⟨a, ha, hr⟩)

/-- The contract is what the check looks at, together with the names that it passes over. -/
theorem contract_iff : b.Contract ↔ b.Checked ∧ b.RestNamed := by
  constructor
  · intro h
    have hnamed : ∀ name, (∃ args, b.HasCall name args) ∨ b.Mentions name → name ≠ "" := by
      rintro name (⟨args, hcall⟩ | hmention)
      · exact h.functions name args hcall
      · exact h.references name hmention
    simp only [hasCall_or_mentions_iff] at hnamed
    exact ⟨⟨h.nodes, h.actions, fun e he name hname => hnamed name (.inl ⟨e, he, .inl hname⟩)⟩,
      fun e he name hname => hnamed name (.inl ⟨e, he, .inr hname⟩),
      fun a ha name hname => hnamed name (.inr ⟨a, ha, hname⟩)⟩
  · rintro ⟨hchecked, hrest⟩
    have hnamed : ∀ name, (∃ args, b.HasCall name args) ∨ b.Mentions name → name ≠ "" := by
      intro name hname
      rcases hasCall_or_mentions_iff.1 hname with ⟨e, he, hname | hname⟩ | ⟨a, ha, hname⟩
      · exact hchecked.names e he name hname
      · exact hrest.nodes e he name hname
      · exact hrest.actions a ha name hname
    exact ⟨hchecked.nodes, hchecked.actions, fun func args h => hnamed func (.inl ⟨args, h⟩),
      fun name h => hnamed name (.inr h)⟩

end Body

/-- The check passes exactly if it has nothing to find at any node or action, and the contract holds
    exactly if besides the names that it passes over are there. -/
theorem shape_check_exact (rule : String) (b : Body) :
    (b.defect? rule = none ↔ b.Checked) ∧
    (b.Contract ↔ b.defect? rule = none ∧ b.RestNamed) := by
  rw [Body.defect?_eq_none_iff, Body.misshapen?_eq_none_iff_checked]
  exact ⟨Iff.rfl, Body.contract_iff⟩

/-- An action that calls a function without a name passes. -/
theorem nameless_call_passes :
    ¬ ∀ (rule : String) (b : Body), b.defect? rule = none → b.Contract := by
  intro h
  have hcontract := h "rules:act" (.actions (.call "" [])) rfl
  exact hcontract.functions "" [] (.inl .here) rfl

end AccessRules
