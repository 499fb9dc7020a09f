import AccessRules.Proofs.Code.Texts

set_option autoImplicit false

/-! # What code cannot express

A rule has code unless something in its body cannot be expressed: an assignment to a qualified
reference, which is data, or a choice by a setting with a float among its cases. `Body.HasFault`
says which faults a body has, wherever they stand; `RendersUnless` carries them through the ways in
which code is put together. A rule without code is refused for one of its faults:
`code_refused_iff_fault`.

Only plain assignments are refused. An action that alters a qualified reference, or swaps it with
another one, writes to data too, and it does have code. -/

namespace AccessRules

/-! ## Faults of trees -/

namespace Expr

/-- The node itself is a choice by a setting that the fault is about. -/
def FaultItself (fault : RenderFault) : Expr → Prop
  | .perSetting subject cases _ =>
    ∃ x, Literal.float x ∈ cases.map (·.1) ∧ fault = .floatCase x subject
  | _ => False

/-- A node of the expression has the fault. -/
def HasFault (fault : RenderFault) (e : Expr) : Prop :=
  ∃ n : Expr, n.Node e ∧ n.FaultItself fault

theorem hasFault_iff {fault : RenderFault} {e : Expr} :
    e.HasFault fault ↔ e.FaultItself fault ∨ ∃ c ∈ e.children, c.HasFault fault := by
  constructor
  · rintro ⟨n, hn, hfault⟩
    cases hn with
    | here => exact Or.inl hfault
    | inside hc hn => exact Or.inr ⟨_, hc, n, hn, hfault⟩
  · rintro (hfault | ⟨c, hc, n, hn, hfault⟩)
    · exact ⟨e, .here, hfault⟩
    · exact ⟨n, .inside hc hn, hfault⟩

end Expr

namespace Action

/-- The action itself assigns to a qualified reference that the fault is about. -/
def FaultItself (fault : RenderFault) : Action → Prop
  | .set target _ => target.qualifier.isSome = true ∧ fault = .readOnly target
  | _ => False

/-- A part of the action has the fault, or an expression that a part holds. -/
def HasFault (fault : RenderFault) (a : Action) : Prop :=
  ∃ b : Action, b.Part a ∧ (b.FaultItself fault ∨ ∃ e ∈ b.held, e.HasFault fault)

theorem hasFault_iff {fault : RenderFault} {a : Action} :
    a.HasFault fault ↔ (a.FaultItself fault ∨ ∃ e ∈ a.held, e.HasFault fault) ∨
      ∃ b ∈ a.parts, b.HasFault fault := by
  constructor
  · rintro ⟨b, hb, hfault⟩
    cases hb with
    | here => exact Or.inl hfault
    | inside hc hb => exact Or.inr ⟨_, hc, b, hb, hfault⟩
  · rintro (hfault | ⟨c, hc, b, hb, hfault⟩)
    · exact ⟨a, .here, hfault⟩
    · exact ⟨b, .inside hc hb, hfault⟩

end Action

/-- An action or an expression somewhere in the body has the fault. -/
def Body.HasFault (fault : RenderFault) (b : Body) : Prop :=
  (∃ a, b.HasAction a ∧ a.FaultItself fault) ∨ ∃ n, b.HasNode n ∧ n.FaultItself fault

theorem Body.hasFault_requirement {fault : RenderFault} {e : Expr} :
    (Body.requirement e).HasFault fault ↔ e.HasFault fault := by
  simp [Body.HasFault, Expr.HasFault, HasAction, HasNode]

theorem Body.hasFault_actions {fault : RenderFault} {a : Action} :
    (Body.actions a).HasFault fault ↔ a.HasFault fault := by
  constructor
  · rintro (⟨b, hb, hfault⟩ | ⟨n, ⟨b, hb, e, he, hn⟩, hfault⟩)
    · exact ⟨b, hb, Or.inl hfault⟩
    · exact ⟨b, hb, Or.inr ⟨e, he, n, hn, hfault⟩⟩
  · rintro ⟨b, hb, hfault | ⟨e, he, n, hn, hfault⟩⟩
    · exact Or.inl ⟨b, hb, hfault⟩
    · exact Or.inr ⟨n, ⟨b, hb, e, he, hn⟩, hfault⟩

/-! ## Code unless there is a fault -/

/-- There is a result if there are no faults, and else one of the faults in its place. -/
def RendersUnless {α : Type} (P : RenderFault → Prop) : Except RenderFault α → Prop
  | .ok _ => ∀ fault, ¬ P fault
  | .error fault => P fault

namespace RendersUnless

variable {α β : Type} {P Q : RenderFault → Prop}

theorem ok (a : α) : RendersUnless (fun _ => False) (.ok a) :=
  fun _ => id

theorem of_iff {x : Except RenderFault α} (h : RendersUnless P x)
    (hPQ : ∀ fault, P fault ↔ Q fault) : RendersUnless Q x := by
  cases x with
  | ok a => exact fun fault hQ => h fault ((hPQ fault).2 hQ)
  | error fault => exact (hPQ fault).1 h

theorem bind {x : Except RenderFault α} {f : α → Except RenderFault β} (h : RendersUnless P x)
    (hf : ∀ a, RendersUnless Q (f a)) :
    RendersUnless (fun fault => P fault ∨ Q fault) (x >>= f) := by
  cases x with
  | error fault => exact Or.inl h
  | ok a =>
      have hQ := hf a
      show RendersUnless _ (f a)
      cases hfa : f a with
      | error fault =>
          rw [hfa] at hQ
          exact Or.inr hQ
      | ok b =>
          rw [hfa] at hQ
          rintro fault (hP | hQ')
          · exact h fault hP
          · exact hQ fault hQ'

/-- What only goes on to change the result. -/
theorem map {x : Except RenderFault α} (h : RendersUnless P x) (g : α → β) :
    RendersUnless P (x >>= fun a => .ok (g a)) :=
  (h.bind fun a => ok (g a)).of_iff (by simp)

/-- The faults of a result, once they are reported in another form. -/
theorem mapError {ε : Type} {x : Except RenderFault α} (h : RendersUnless P x)
    (report : RenderFault → ε) :
    (∃ a, x.mapError report = .ok a) ∧ (∀ fault, ¬ P fault) ∨
      ∃ fault, P fault ∧ x.mapError report = .error (report fault) := by
  cases x with
  | ok a => exact Or.inl ⟨⟨a, rfl⟩, h⟩
  | error fault => exact Or.inr ⟨fault, h, rfl⟩

end RendersUnless

section Lists

variable {ι κ : Type} {F : ι → Rendered} {P : ι → RenderFault → Prop} {xs : List ι}

theorem rendersUnless_allCode (h : ∀ x ∈ xs, RendersUnless (P x) (F x)) :
    RendersUnless (fun fault => ∃ x ∈ xs, P x fault) (allCode (xs.map F)) := by
  induction xs with
  | nil => exact (RendersUnless.ok []).of_iff (by simp)
  | cons x xs ih =>
      have hrest := ih fun y hy => h y (List.mem_cons_of_mem _ hy)
      exact ((h x (List.mem_cons_self ..)).bind fun a => hrest.map (a :: ·)).of_iff (by simp)

theorem rendersUnless_chainCode (xs : List ι) (ys : List κ) {G : κ → Rendered}
    {Q : κ → RenderFault → Prop} (hx : ∀ x ∈ xs, RendersUnless (P x) (F x))
    (hy : ∀ y ∈ ys, RendersUnless (Q y) (G y)) (hlength : xs.length = ys.length) :
    RendersUnless (fun fault => (∃ x ∈ xs, P x fault) ∨ ∃ y ∈ ys, Q y fault)
      (chainCode (xs.map F) (ys.map G)) := by
  have harm : ∀ arm ∈ xs.zip ys, RendersUnless (fun fault => P arm.1 fault ∨ Q arm.2 fault)
      (oneArm (F arm.1, G arm.2)) := by
    rintro ⟨x, y⟩ hmem
    obtain ⟨hxmem, hymem⟩ := List.of_mem_zip hmem
    exact (hx x hxmem).bind fun c => (hy y hymem).map fun b => "if " ++ c ++ " " ++ blockCode b
  simp only [chainCode, armCode_eq, List.zip_map, List.map_map]
  exact ((rendersUnless_allCode harm).map _).of_iff fun fault =>
    exists_arm_iff (P := (P · fault)) (Q := (Q · fault)) hlength

theorem rendersUnless_choiceCode {x : Rendered} {Q : RenderFault → Prop} (subject : String)
    (hcases : ∀ x ∈ xs, RendersUnless (P x) (F x)) (hdefault : RendersUnless Q x) :
    RendersUnless (fun fault => (∃ x ∈ xs, P x fault) ∨ Q fault)
      (choiceCode subject (xs.map F) x) :=
  (rendersUnless_allCode hcases).bind fun _ => (hdefault.map _).map _

end Lists

namespace CodeScope

variable (s : CodeScope)

/-- A case of a choice by a setting has a fault if it is a float, or if its code has one. -/
theorem rendersUnless_optionCode (setting : String) (lit : Literal) {P : RenderFault → Prop}
    {x : Rendered} (h : RendersUnless P x) :
    RendersUnless (fun fault => (∃ v, lit = .float v ∧ fault = .floatCase v setting) ∨ P fault)
      (s.optionCode setting lit x) := by
  cases lit with
  | float v => exact Or.inl ⟨v, rfl, rfl⟩
  | _ => exact (h.map _).of_iff (by simp)

theorem rendersUnless_leaf {e : Expr} (h : e.isLeaf = true) :
    RendersUnless (e.HasFault ·) (s.expr e) := by
  have hnone : ∀ fault, False ↔ e.HasFault fault := by
    intro fault
    rw [Expr.hasFault_iff, Expr.children_of_isLeaf h]
    cases e with
    | perSetting _ _ _ => cases h
    | _ => simp [Expr.FaultItself]
  refine RendersUnless.of_iff ?_ hnone
  cases e with
  | or _ _ | and _ _ | not _ | paren _ | invoke _ _ _ | ifThenElse _ _ _ | ternary _ _ _
  | numCompare _ _ _ | strCompare _ _ _ | flagMatch _ _ | refEqCall _ _ _ | perItem _ _ _
  | perSetting _ _ _ | binOp _ _ _ | call _ _ => cases h
  | _ => exact .ok _

/-- The code of an expression. -/
theorem rendersUnless_expr {e : Expr} (he : e.Every fun n => n.shapeFault? = none) :
    RendersUnless (e.HasFault ·) (s.expr e) := by
  induction e using Expr.children_induction with
  | step e ih =>
    have hchild : ∀ c ∈ e.children, RendersUnless (c.HasFault ·) (s.expr c) :=
      fun c hc => ih c hc (he.child hc)
    have hargs : ∀ args : List Expr, (∀ a ∈ args, a ∈ e.children) →
        RendersUnless (fun fault => ∃ a ∈ args, a.HasFault fault) (allCode (s.exprAll args)) := by
      intro args hmem
      rw [exprAll_eq_map]
      exact rendersUnless_allCode fun a ha => hchild a (hmem a ha)
    by_cases hleaf : e.isLeaf = true
    · exact s.rendersUnless_leaf hleaf
    -- a fault of the node itself, or of what is below it
    refine RendersUnless.of_iff ?_ fun fault => Expr.hasFault_iff.symm
    cases e with
    | or l r | and l r | numCompare l op r | binOp l op r =>
        have hl := hchild l (by simp [Expr.children])
        have hr := hchild r (by simp [Expr.children])
        refine (hl.bind fun a => hr.map _).of_iff fun fault => ?_
        simp [Expr.FaultItself, Expr.children]
    | not e | paren e | strCompare e op lit | flagMatch e mask | refEqCall r op e =>
        refine ((hchild e (by simp [Expr.children])).map _).of_iff fun fault => ?_
        simp [Expr.FaultItself, Expr.children]
    | invoke func args negated | call func args =>
        refine ((hargs args fun _ ha => ha).map _).of_iff fun fault => ?_
        simp [Expr.FaultItself, Expr.children]
    | ifThenElse conds branches otherwise =>
        have hlength : conds.length = branches.length := Expr.eq_of_chainFault? he.self
        have hchain := rendersUnless_chainCode conds branches
          (fun c hc => hchild c (by simp [Expr.children, hc]))
          (fun c hc => hchild c (by simp [Expr.children, hc])) hlength
        cases otherwise with
        | none =>
            simp only [CodeScope.expr, exprAll_eq_map]
            refine (hchain.map _).of_iff fun fault => ?_
            simp only [Expr.FaultItself, Expr.children, false_or]
            grind
        | some o =>
            simp only [CodeScope.expr, exprAll_eq_map]
            have ho := hchild o (by simp [Expr.children])
            refine (hchain.bind fun a => ho.map _).of_iff fun fault => ?_
            simp only [Expr.FaultItself, Expr.children, false_or]
            grind
    | ternary c y n =>
        have hchain := rendersUnless_chainCode [c] [y]
          (fun a ha => hchild a (by simp [Expr.children, List.mem_singleton.1 ha]))
          (fun a ha => hchild a (by simp [Expr.children, List.mem_singleton.1 ha])) rfl
        have hn := hchild n (by simp [Expr.children])
        refine (hchain.bind fun a => hn.map _).of_iff fun fault => ?_
        simp [Expr.FaultItself, Expr.children, or_assoc]
    | perItem item cases d =>
        simp only [CodeScope.expr, countCodes_eq_map]
        refine (rendersUnless_choiceCode _ (fun c hc => RendersUnless.map
          (hchild c.2 (List.mem_append_left _ (List.mem_map_of_mem hc))) _)
          (hchild d (by simp [Expr.children]))).of_iff fun fault => ?_
        simp only [Expr.FaultItself, Expr.children, false_or]
        grind
    | perSetting setting cases d =>
        simp only [CodeScope.expr, optionCodes_eq_map]
        refine (rendersUnless_choiceCode _ (fun c hc => s.rendersUnless_optionCode setting c.1
          (hchild c.2 (List.mem_append_left _ (List.mem_map_of_mem hc))))
          (hchild d (by simp [Expr.children]))).of_iff fun fault => ?_
        simp only [Expr.FaultItself, Expr.children]
        grind
    | _ => exact absurd rfl hleaf

/-- The code of an action. -/
theorem rendersUnless_action {a : Action}
    (hactions : ∀ b : Action, b.Part a → b.shapeFault? = none ∧
      ∀ e ∈ b.held, e.Every fun n => n.shapeFault? = none) :
    RendersUnless (a.HasFault ·) (s.action a) := by
  induction a using Action.parts_induction with
  | step a ih =>
    obtain ⟨⟨hshape, hheld⟩, hparts⟩ := Action.forall_part_iff.1 hactions
    have hpart : ∀ b ∈ a.parts, RendersUnless (b.HasFault ·) (s.action b) :=
      fun b hb => ih b hb (hparts b hb)
    have hexpr : ∀ e ∈ a.held, RendersUnless (e.HasFault ·) (s.expr e) :=
      fun e he => s.rendersUnless_expr (hheld e he)
    refine RendersUnless.of_iff ?_ fun fault => Action.hasFault_iff.symm
    cases a with
    | set target value =>
        have hvalue : RendersUnless (value.HasFault ·) (s.valueCode target value) := by
          have hcode := hexpr value (by simp [Action.held])
          cases value with
          | str t => exact hcode
          | _ => exact hcode
        simp only [CodeScope.action]
        by_cases hqualified : target.qualifier.isSome = true
        · rw [if_pos hqualified]
          exact Or.inl (Or.inl ⟨hqualified, rfl⟩)
        · rw [if_neg hqualified]
          refine (hvalue.map _).of_iff fun fault => ?_
          simp [Action.FaultItself, Action.held, Action.parts, hqualified]
    | alter target op delta =>
        refine ((hexpr delta (by simp [Action.held])).map _).of_iff fun fault => ?_
        simp [Action.FaultItself, Action.held, Action.parts]
    | swap first second =>
        refine (RendersUnless.ok _).of_iff fun fault => ?_
        simp [Action.FaultItself, Action.held, Action.parts]
    | cond conds branches otherwise =>
        have hlength : conds.length = branches.length := Expr.eq_of_chainFault? hshape
        have hchain := rendersUnless_chainCode conds branches
          (fun c hc => hexpr c (by simp [Action.held, hc]))
          (fun b hb => hpart b (by simp [Action.parts, hb])) hlength
        cases otherwise with
        | none =>
            simp only [CodeScope.action, exprAll_eq_map, actionAll_eq_map]
            refine hchain.of_iff fun fault => ?_
            simp [Action.FaultItself, Action.held, Action.parts]
        | some o =>
            simp only [CodeScope.action, exprAll_eq_map, actionAll_eq_map]
            have ho := hpart o (by simp [Action.parts])
            refine (hchain.bind fun c => ho.map _).of_iff fun fault => ?_
            simp only [Action.FaultItself, Action.held, Action.parts, false_or]
            grind
    | call func args =>
        simp only [CodeScope.action, exprAll_eq_map]
        refine ((rendersUnless_allCode fun e he => hexpr e he).map _).of_iff fun fault => ?_
        simp [Action.FaultItself, Action.held, Action.parts]
    | sequence steps =>
        simp only [CodeScope.action, actionAll_eq_map]
        refine ((rendersUnless_allCode fun b hb => hpart b hb).map _).of_iff fun fault => ?_
        simp [Action.FaultItself, Action.held, Action.parts]

/-- The code of a rule is refused for a fault of its body, and for nothing else. -/
theorem body_eq_ok_or_unrenderable (hshape : s.rule.body.misshapen? = none) :
    (∃ code, s.body = .ok code) ∧ (∀ fault, ¬ s.rule.body.HasFault fault) ∨
      ∃ fault, s.rule.body.HasFault fault ∧ s.body = .error (.unrenderable s.rule.name fault) := by
  obtain ⟨hactions, hnodes⟩ := Body.shapes hshape
  unfold CodeScope.body
  cases hbody : s.rule.body with
  | requirement e =>
      rw [hbody] at hnodes
      have hcode := s.rendersUnless_expr (Expr.every_iff_forall_node.2 hnodes)
      simp only [Body.hasFault_requirement]
      exact hcode.mapError _
  | actions a =>
      rw [hbody] at hactions hnodes
      have hcode := s.rendersUnless_action fun b hb => ⟨hactions b hb, fun e he =>
        Expr.every_iff_forall_node.2 fun m hm => hnodes m ⟨b, hb, e, he, hm⟩⟩
      simp only [Body.hasFault_actions]
      exact hcode.mapError _

end CodeScope

/-! ## Writing to data -/

namespace Body

/-- An action has a qualified target, which is data. -/
def WritesData (b : Body) : Prop :=
  ∃ a, b.HasAction a ∧ ∃ target ∈ a.assigned, target.qualifier.isSome = true

/-- A plain assignment has a qualified target. -/
def AssignsData (b : Body) : Prop :=
  ∃ target value, b.HasAction (.set target value) ∧ target.qualifier.isSome = true

/-- A qualified target is altered in place, or swapped with another one. -/
def AltersData (b : Body) : Prop :=
  (∃ target op delta, b.HasAction (.alter target op delta) ∧ target.qualifier.isSome = true) ∨
    ∃ first second, b.HasAction (.swap first second) ∧
      (first.qualifier.isSome = true ∨ second.qualifier.isSome = true)

/-- A choice by a setting has a float among its cases. -/
def HasFloatCase (b : Body) : Prop :=
  ∃ subject cases d, b.HasNode (.perSetting subject cases d) ∧
    ∃ x, Literal.float x ∈ cases.map (·.1)

theorem writesData_iff {b : Body} : b.WritesData ↔ b.AssignsData ∨ b.AltersData := by
  constructor
  · rintro ⟨a, ha, target, htarget, hqualified⟩
    cases a with
    | set t value =>
        obtain rfl := List.mem_singleton.1 htarget
        exact Or.inl ⟨target, value, ha, hqualified⟩
    | alter t op delta =>
        obtain rfl := List.mem_singleton.1 htarget
        exact Or.inr (Or.inl ⟨target, op, delta, ha, hqualified⟩)
    | swap first second =>
        refine Or.inr (Or.inr ⟨first, second, ha, ?_⟩)
        rcases List.mem_pair.1 htarget with rfl | rfl
        · exact Or.inl hqualified
        · exact Or.inr hqualified
    | _ => cases htarget
  · rintro (⟨target, value, ha, hqualified⟩ | ⟨target, op, delta, ha, hqualified⟩ |
      ⟨first, second, ha, hqualified | hqualified⟩)
    · exact ⟨_, ha, target, by simp [Action.assigned], hqualified⟩
    · exact ⟨_, ha, target, by simp [Action.assigned], hqualified⟩
    · exact ⟨_, ha, first, by simp [Action.assigned], hqualified⟩
    · exact ⟨_, ha, second, by simp [Action.assigned], hqualified⟩

theorem exists_hasFault_iff {b : Body} :
    (∃ fault, b.HasFault fault) ↔ b.AssignsData ∨ b.HasFloatCase := by
  constructor
  · rintro ⟨fault, ⟨a, ha, hfault⟩ | ⟨n, hn, hfault⟩⟩
    · cases a with
      | set target value => exact Or.inl ⟨target, value, ha, hfault.1⟩
      | _ => cases hfault
    · cases n with
      | perSetting subject cases d =>
          obtain ⟨x, hx, -⟩ := hfault
          exact Or.inr ⟨subject, cases, d, hn, x, hx⟩
      | _ => cases hfault
  · rintro (⟨target, value, ha, hqualified⟩ | ⟨subject, cases, d, hn, x, hx⟩)
    · exact ⟨.readOnly target, Or.inl ⟨_, ha, hqualified, rfl⟩⟩
    · exact ⟨.floatCase x subject, Or.inr ⟨_, hn, x, hx, rfl⟩⟩

end Body

/-- A well-shaped rule has code exactly if it assigns to no data and has no float case, and is
    refused for one of these faults otherwise. So it is refused for every way of writing to data
    exactly if it alters and swaps none, or is refused anyway. -/
theorem code_refused_iff_fault (s : CodeScope) (hshape : s.rule.body.misshapen? = none) :
    ((∃ code, s.body = .ok code) ↔ ¬ s.rule.body.AssignsData ∧ ¬ s.rule.body.HasFloatCase) ∧
    (∀ d, s.body = .error d →
      ∃ fault, s.rule.body.HasFault fault ∧ d = .unrenderable s.rule.name fault) ∧
    (((∃ code, s.body = .ok code) ↔ ¬ s.rule.body.WritesData ∧ ¬ s.rule.body.HasFloatCase) ↔
      ¬ s.rule.body.AltersData ∨ s.rule.body.AssignsData ∨ s.rule.body.HasFloatCase) := by
  have hok : (∃ code, s.body = .ok code) ↔
      ¬ s.rule.body.AssignsData ∧ ¬ s.rule.body.HasFloatCase := by
    rw [← not_or, ← Body.exists_hasFault_iff]
    rcases s.body_eq_ok_or_unrenderable hshape with ⟨hcode, hnone⟩ | ⟨fault, hfault, herror⟩
    · exact iff_of_true hcode (not_exists.2 hnone)
    · refine iff_of_false ?_ (not_not_intro ⟨fault, hfault⟩)
      rintro ⟨code, hcode⟩
      cases herror.symm.trans hcode
  refine ⟨hok, ?_, ?_⟩
  · intro d hd
    rcases s.body_eq_ok_or_unrenderable hshape with ⟨⟨code, hcode⟩, -⟩ | ⟨fault, hfault, herror⟩
    · cases hcode.symm.trans hd
    · exact ⟨fault, hfault, Except.error.inj (hd.symm.trans herror)⟩
  · rw [hok, Body.writesData_iff]
    tauto

/-! A tide that is written to at a spot: raised in place, set in a branch, swapped with a mark. -/

def edgeTide : Reference := ⟨"tide", some (.place "Cave > Pool > Edge")⟩

def raiseTide : Action := .alter edgeTide .add (.int 1)

def markTide : Action := .swap ⟨"mark", none⟩ edgeTide

/-- Raises the tide and then sets it, if it is deep. -/
def floodTide : Action :=
  .sequence [raiseTide, .cond [.setting "deep"] [.set edgeTide (.int 3)] none]

def tideScope (a : Action) : CodeScope where
  catalog := {}
  corpus := {}
  contexts := {}
  accessors := {}
  rule := { name := "rules:tide", body := .actions a }

theorem floodTide_assignsData : (tideScope floodTide).rule.body.AssignsData :=
  ⟨edgeTide, .int 3, .inside (List.mem_cons_of_mem _ (List.mem_cons_self ..))
    (.inside (List.mem_cons_self ..) .here), rfl⟩

/-- An assignment below a branch of a later step is found. -/
theorem floodTide_refused :
    (tideScope floodTide).rule.body.misshapen? = none ∧
    (¬ ∃ code, (tideScope floodTide).body = .ok code) ∧
    ((∃ code, (tideScope floodTide).body = .ok code) ↔
      ¬ (tideScope floodTide).rule.body.WritesData ∧
      ¬ (tideScope floodTide).rule.body.HasFloatCase) := by
  have hshape : (tideScope floodTide).rule.body.misshapen? = none := rfl
  obtain ⟨hok, -, hiff⟩ := code_refused_iff_fault (tideScope floodTide) hshape
  refine ⟨hshape, ?_, hiff.2 (Or.inr (Or.inl floodTide_assignsData))⟩
  rw [hok]
  exact fun hnone => hnone.1 floodTide_assignsData

/-- Data that is altered or swapped has code that writes to it. -/
theorem altered_data_not_refused :
    ¬ (∀ s : CodeScope, s.rule.body.misshapen? = none →
      ((∃ code, s.body = .ok code) ↔
        ¬ s.rule.body.WritesData ∧ ¬ s.rule.body.HasFloatCase)) ∧
    (∃ code, (tideScope raiseTide).body = .ok code) ∧ (tideScope raiseTide).rule.body.WritesData ∧
    (∃ code, (tideScope markTide).body = .ok code) ∧ (tideScope markTide).rule.body.WritesData := by
  have hraise : (tideScope raiseTide).rule.body.WritesData :=
    ⟨raiseTide, .here, edgeTide, List.mem_cons_self .., rfl⟩
  have hmark : (tideScope markTide).rule.body.WritesData :=
    ⟨markTide, .here, edgeTide, List.mem_cons_of_mem _ (List.mem_cons_self ..), rfl⟩
  refine ⟨?_, ⟨_, rfl⟩, hraise, ⟨_, rfl⟩, hmark⟩
  intro hrenders
  exact ((hrenders (tideScope raiseTide) rfl).1 ⟨_, rfl⟩).1 hraise

end AccessRules
