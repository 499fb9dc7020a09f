import AccessRules.Proofs.Code.Alike
import AccessRules.Proofs.Expr.Nodes
import Mathlib.Tactic.Tauto

set_option autoImplicit false

/-! # Where code shows the kind of a variable

A string that a variable is compared with, looked for in or assigned is written as the member of an
enumeration if the variable is one, and else between quotes. `Expr.Texts` and `Action.Texts` say
where code shows such a string of a variable. Two renderings that differ in the kind of the variable
alone are the same exactly if there is no such place: each of them has more quotes on one side, and
everything else is the same on both sides. -/

namespace AccessRules

/-! ## Strings of a variable -/

/-- The arguments that the code of a call shows. A rule takes none. -/
def Corpus.shownArgs (c : Corpus) (func : String) (args : List Expr) : List Expr :=
  match c.resolve func with
  | .rule _ => []
  | _ => args

namespace Expr

/-- The node itself compares the variable with a string or looks for it among strings. -/
def TextsItself (n : String) : Expr → Prop
  | .strCompare (.ref r) _ (.str _) => r.name = n
  | .refInSet r (.strs (_ :: _)) => r.name = n
  | _ => False

/-- The expressions directly below a node that its code shows. -/
def shown (c : Corpus) : Expr → List Expr
  | .invoke func args _ => c.shownArgs func args
  | .call func args => c.shownArgs func args
  | e => e.children

theorem shown_of_isLeaf (c : Corpus) {e : Expr} (h : e.isLeaf = true) : e.shown c = [] := by
  cases e with
  | invoke func args negated => cases h
  | call func args => cases h
  | _ => exact children_of_isLeaf h

/-- The code of the expression shows a string of the variable. -/
inductive Texts (c : Corpus) (n : String) : Expr → Prop
  | here {e : Expr} (h : e.TextsItself n) : Texts c n e
  | inside {child e : Expr} (hchild : child ∈ e.shown c) (h : Texts c n child) : Texts c n e

theorem texts_iff {c : Corpus} {n : String} {e : Expr} :
    e.Texts c n ↔ e.TextsItself n ∨ ∃ child ∈ e.shown c, child.Texts c n := by
  constructor
  · intro h
    cases h with
    | here h => exact Or.inl h
    | inside hchild h => exact Or.inr ⟨_, hchild, h⟩
  · rintro (h | ⟨child, hchild, h⟩)
    · exact .here h
    · exact .inside hchild h

end Expr

namespace Action

/-- The action assigns a string to the variable. -/
def TextsItself (n : String) : Action → Prop
  | .set target (.str _) => target.name = n
  | _ => False

/-- The expressions of an action that its code shows. -/
def shown (c : Corpus) : Action → List Expr
  | .call func args => c.shownArgs func args
  | a => a.held

/-- The code of the action shows a string of the variable. -/
inductive Texts (c : Corpus) (n : String) : Action → Prop
  | here {a : Action} (h : a.TextsItself n) : Texts c n a
  | expr {e : Expr} {a : Action} (he : e ∈ a.shown c) (h : e.Texts c n) : Texts c n a
  | inside {part a : Action} (hpart : part ∈ a.parts) (h : Texts c n part) : Texts c n a

theorem texts_iff {c : Corpus} {n : String} {a : Action} :
    a.Texts c n ↔ a.TextsItself n ∨ (∃ e ∈ a.shown c, e.Texts c n) ∨
      ∃ part ∈ a.parts, part.Texts c n := by
  constructor
  · intro h
    cases h with
    | here h => exact Or.inl h
    | expr he h => exact Or.inr (Or.inl ⟨_, he, h⟩)
    | inside hpart h => exact Or.inr (Or.inr ⟨_, hpart, h⟩)
  · rintro (h | ⟨e, he, h⟩ | ⟨part, hpart, h⟩)
    · exact .here h
    · exact .expr he h
    · exact .inside hpart h

end Action

/-- The code of the body shows a string of the variable. -/
def Body.Texts (c : Corpus) (n : String) : Body → Prop
  | .requirement e => e.Texts c n
  | .actions a => a.Texts c n

/-! ## Scopes that differ in one kind -/

namespace CodeScope

/-- The scopes differ in the kind of the variable at most; if the condition holds, its strings have
    more quotes in the second one. -/
structure AlikeBut (T : Prop) (n : String) (s s' : CodeScope) : Prop where
  rule : s'.rule = s.rule
  corpus : s'.corpus = s.corpus
  reference : ∀ r, s'.reference r = s.reference r
  assign : ∀ r value, s'.assign r value = s.assign r value
  settingEnum? : ∀ setting, s'.settingEnum? setting = s.settingEnum? setting
  enumOf? : ∀ r : Reference, r.name ≠ n → s'.enumOf? r = s.enumOf? r
  text : ∀ (r : Reference) t, r.name = n →
    Alike T (textCode (s.enumOf? r) t) (textCode (s'.enumOf? r) t)

theorem exprAll_eq_map (s : CodeScope) (es : List Expr) : s.exprAll es = es.map s.expr := by
  induction es with
  | nil => rfl
  | cons e es ih => rw [exprAll, ih, List.map_cons]

theorem countCodes_eq_map (s : CodeScope) (cases : List (Int64 × Expr)) :
    s.countCodes cases = cases.map fun c => caseCode (wordText c.1) (s.expr c.2) := by
  induction cases with
  | nil => rfl
  | cons c cases ih => rw [countCodes, ih, List.map_cons]

theorem optionCodes_eq_map (s : CodeScope) (setting : String) (cases : List (Literal × Expr)) :
    s.optionCodes setting cases = cases.map fun c => s.optionCode setting c.1 (s.expr c.2) := by
  induction cases with
  | nil => rfl
  | cons c cases ih => rw [optionCodes, ih, List.map_cons]

theorem actionAll_eq_map (s : CodeScope) (as : List Action) : s.actionAll as = as.map s.action := by
  induction as with
  | nil => rfl
  | cons a as ih => rw [actionAll, ih, List.map_cons]

theorem alike_assign (s : CodeScope) (r : Reference) {P : Prop} {a b : String}
    (h : Alike P a b) : Alike P (s.assign r a) (s.assign r b) := by
  unfold CodeScope.assign
  split
  · exact h.after _
  · exact (h.after _).before _

namespace AlikeBut

variable {T : Prop} {n : String} {s s' : CodeScope}

/-- A string of a reference, if the reference is to the variable. -/
theorem text_of_name (h : AlikeBut T n s s') (r : Reference) (t : String) :
    Alike (T ∧ r.name = n) (textCode (s.enumOf? r) t) (textCode (s'.enumOf? r) t) := by
  by_cases hname : r.name = n
  · exact (h.text r t hname).of_iff (by simp [hname])
  · rw [h.enumOf? r hname]
    exact .refl_of_not (fun hT => hname hT.2) _

theorem literal (h : AlikeBut T n s s') (l : Expr) (op : CmpOp) (lit : Literal) :
    Alike (T ∧ (Expr.strCompare l op lit).TextsItself n) (lit.code (s.comparedEnum? l))
      (lit.code (s'.comparedEnum? l)) := by
  cases lit with
  | str t =>
      cases l with
      | ref r => exact h.text_of_name r t
      | setting name =>
          simp only [comparedEnum?, h.settingEnum?]
          exact .refl_of_not And.right _
      | _ => exact .refl_of_not And.right _
  | _ => cases l <;> exact .refl_of_not And.right _

theorem texts (h : AlikeBut T n s s') (r : Reference) (ts : List String) :
    AlikeAll (T ∧ r.name = n ∧ ts ≠ []) (ts.map (textCode (s.enumOf? r)))
      (ts.map (textCode (s'.enumOf? r))) := by
  induction ts with
  | nil => exact .refl_of_not (fun hT => hT.2.2 rfl) _
  | cons t ts ih =>
      refine (AlikeAll.cons (h.text_of_name r t) ih).of_iff ?_
      simp only [ne_eq, reduceCtorEq, not_false_eq_true, and_true]
      tauto

theorem members (h : AlikeBut T n s s') (r : Reference) (members : Members) :
    AlikeAll (T ∧ (Expr.refInSet r members).TextsItself n) (memberCodes (s.enumOf? r) members)
      (memberCodes (s'.enumOf? r) members) := by
  cases members with
  | strs ts =>
      refine (h.texts r ts).of_iff ?_
      cases ts <;> simp [Expr.TextsItself]
  | _ => exact .refl_of_not And.right _

/-- The arguments of a call are shown unless a rule is called. -/
theorem callCode (h : AlikeBut T n s s') (func : String) {P : Expr → Prop} {args : List Expr}
    {as bs : List String} (hargs : AlikeAll (∃ e ∈ args, P e) as bs) :
    Alike (∃ e ∈ s.corpus.shownArgs func args, P e) (s.callCode func as) (s'.callCode func bs) := by
  unfold CodeScope.callCode Corpus.shownArgs
  rw [h.corpus]
  cases s.corpus.resolve func with
  | builtin b => exact ((hargs.intercalate _).after _).before _
  | rule r => exact .refl_of_not (by simp) _
  | helper _ | unknown =>
      have hall : AlikeAll (∃ e ∈ args, P e) ("ctx" :: "world" :: as) ("ctx" :: "world" :: bs) :=
        (AlikeAll.cons (.refl _) (AlikeAll.cons (.refl _) hargs)).of_iff (by simp)
      exact ((hall.intercalate _).after _).before _

theorem optionCode (h : AlikeBut T n s s') (setting : String) (lit : Literal) {P : Prop}
    {x y : Rendered} (hxy : Both (Alike P) x y) :
    Both (Alike P) (s.optionCode setting lit x) (s'.optionCode setting lit y) := by
  cases lit with
  | float v => exact .error _
  | _ =>
      simp only [CodeScope.optionCode, h.settingEnum?]
      exact both_caseCode _ hxy

/-! ## Expressions -/

/-- The code of an expression without others below it. -/
theorem leaf (h : AlikeBut T n s s') {e : Expr} (he : e.isLeaf = true) :
    Both (Alike (T ∧ e.TextsItself n)) (s.expr e) (s'.expr e) := by
  cases e with
  | refInSet r members =>
      simp only [CodeScope.expr, h.reference]
      exact .ok ((((h.members r members).intercalate _).after _).before _)
  | refEq r op rhs =>
      refine .same ?_ And.right
      cases rhs <;> simp only [CodeScope.expr, comparandCode, h.reference]
  | itemAtLeast item t =>
      refine .same ?_ And.right
      cases t <;> simp only [CodeScope.expr, thresholdCode, h.reference]
  | within p negated =>
      refine .same ?_ And.right
      cases p <;> simp only [CodeScope.expr, placeArgCode, h.reference]
  | or _ _ | and _ _ | not _ | paren _ | invoke _ _ _ | ifThenElse _ _ _ | ternary _ _ _
  | numCompare _ _ _ | strCompare _ _ _ | flagMatch _ _ | refEqCall _ _ _ | perItem _ _ _
  | perSetting _ _ _ | binOp _ _ _ | call _ _ => cases he
  | _ =>
      refine .same ?_ And.right
      simp only [CodeScope.expr, h.reference]

/-- The code of an expression. -/
theorem expr (h : AlikeBut T n s s') {e : Expr} (he : e.Every fun m => m.shapeFault? = none) :
    Both (Alike (T ∧ e.Texts s.corpus n)) (s.expr e) (s'.expr e) := by
  induction e using Expr.children_induction with
  | step e ih =>
    have hchild : ∀ c ∈ e.children,
        Both (Alike (T ∧ c.Texts s.corpus n)) (s.expr c) (s'.expr c) :=
      fun c hc => ih c hc (he.child hc)
    have hargs : ∀ args : List Expr, (∀ a ∈ args, a ∈ e.children) →
        Both (AlikeAll (∃ a ∈ args, T ∧ a.Texts s.corpus n)) (allCode (s.exprAll args))
          (allCode (s'.exprAll args)) := by
      intro args hmem
      simp only [exprAll_eq_map]
      exact both_allCode fun a ha => hchild a (hmem a ha)
    rw [Expr.texts_iff]
    -- a leaf shows a string itself or not at all
    by_cases hleaf : e.isLeaf = true
    · refine (h.leaf hleaf).of_iff ?_
      simp [Expr.shown_of_isLeaf s.corpus hleaf]
    cases e with
    | or l r | and l r =>
        simp only [CodeScope.expr]
        refine (hchild l (by simp [Expr.children])).bind fun a b hl => ?_
        refine (hchild r (by simp [Expr.children])).bind fun a' b' hr => .ok ?_
        refine (((((hl.after _).before _).append hr).before _)).of_iff ?_
        simp [Expr.TextsItself, Expr.shown, Expr.children, and_or_left]
    | not e | paren e =>
        simp only [CodeScope.expr]
        refine (hchild e (by simp [Expr.children])).bind fun a b hab => .ok ?_
        refine ((hab.after _).before _).of_iff ?_
        simp [Expr.TextsItself, Expr.shown, Expr.children]
    | invoke func args negated =>
        simp only [CodeScope.expr]
        refine (hargs args fun a ha => ha).bind fun as bs habs => .ok ?_
        refine ((h.callCode func habs).after _).of_iff ?_
        simp only [Expr.TextsItself, Expr.shown, false_or]
        grind
    | call func args =>
        simp only [CodeScope.expr]
        refine (hargs args fun a ha => ha).bind fun as bs habs => .ok ?_
        refine (h.callCode func habs).of_iff ?_
        simp only [Expr.TextsItself, Expr.shown, false_or]
        grind
    | ifThenElse conds branches otherwise =>
        -- code shows what has a partner, which in the right shape is everything
        have hlength : conds.length = branches.length := Expr.eq_of_chainFault? he.self
        have hchain := both_chainCode conds branches
          (fun c hc => hchild c (by simp [Expr.children, hc]))
          (fun c hc => hchild c (by simp [Expr.children, hc])) hlength
        cases otherwise with
        | none =>
            simp only [CodeScope.expr, exprAll_eq_map]
            refine hchain.bind fun a b hab => .ok ?_
            refine (hab.before _).of_iff ?_
            simp only [Expr.TextsItself, Expr.shown, Expr.children, false_or]
            grind
        | some o =>
            simp only [CodeScope.expr, exprAll_eq_map]
            refine hchain.bind fun a b hab => ?_
            refine (hchild o (by simp [Expr.children])).bind fun a' b' ho => .ok ?_
            refine (hab.append ho.elseCode).of_iff ?_
            simp only [Expr.TextsItself, Expr.shown, Expr.children, false_or]
            grind
    | ternary c y n =>
        have hchain := both_chainCode [c] [y]
          (fun a ha => hchild a (by simp [Expr.children, List.mem_singleton.1 ha]))
          (fun a ha => hchild a (by simp [Expr.children, List.mem_singleton.1 ha])) rfl
        simp only [CodeScope.expr]
        refine hchain.bind fun a b hab => ?_
        refine (hchild n (by simp [Expr.children])).bind fun a' b' hn => .ok ?_
        refine (hab.append hn.elseCode).of_iff ?_
        simp [Expr.TextsItself, Expr.shown, Expr.children, and_or_left, or_assoc]
    | numCompare l op r =>
        simp only [CodeScope.expr]
        refine (hchild l (by simp [Expr.children])).bind fun a b hl => ?_
        refine (hchild r (by simp [Expr.children])).bind fun a' b' hr => .ok ?_
        refine ((((hl.before _).before _).before _).append hr).of_iff ?_
        simp [Expr.TextsItself, Expr.shown, Expr.children, and_or_left]
    | strCompare l op lit =>
        simp only [CodeScope.expr]
        refine (hchild l (by simp [Expr.children])).bind fun a b hl => .ok ?_
        refine ((((hl.before _).before _).before _).append (h.literal l op lit)).of_iff ?_
        simp only [Expr.shown, Expr.children, List.mem_singleton, exists_eq_left, and_or_left]
        exact or_comm
    | flagMatch value mask =>
        simp only [CodeScope.expr]
        refine (hchild value (by simp [Expr.children])).bind fun a b hab => .ok ?_
        refine (((((hab.after _).before _).before _).before _).before _).of_iff ?_
        simp [Expr.TextsItself, Expr.shown, Expr.children]
    | refEqCall r op e =>
        simp only [CodeScope.expr, h.reference]
        refine (hchild e (by simp [Expr.children])).bind fun a b hab => .ok ?_
        refine (hab.after _).of_iff ?_
        simp [Expr.TextsItself, Expr.shown, Expr.children]
    | perItem item cases d =>
        simp only [CodeScope.expr, countCodes_eq_map]
        have hcases := both_choiceCode ("ctx.count(" ++ itemCode item ++ ")") cases
          (fun c hc => both_caseCode (wordText c.1)
            (hchild c.2 (List.mem_append_left _ (List.mem_map_of_mem hc))))
          (hchild d (by simp [Expr.children]))
        refine hcases.of_iff ?_
        simp only [Expr.TextsItself, Expr.shown, Expr.children, false_or]
        grind
    | perSetting setting cases d =>
        have hsubject : s'.choiceSubject setting (cases.map (·.1))
            = s.choiceSubject setting (cases.map (·.1)) := by
          simp only [choiceSubject, h.settingEnum?]
        simp only [CodeScope.expr, optionCodes_eq_map, hsubject]
        have hcases := both_choiceCode (s.choiceSubject setting (cases.map (·.1))) cases
          (fun c hc => h.optionCode setting c.1
            (hchild c.2 (List.mem_append_left _ (List.mem_map_of_mem hc))))
          (hchild d (by simp [Expr.children]))
        refine hcases.of_iff ?_
        simp only [Expr.TextsItself, Expr.shown, Expr.children, false_or]
        grind
    | binOp l op r =>
        simp only [CodeScope.expr]
        refine (hchild l (by simp [Expr.children])).bind fun a b hl => ?_
        refine (hchild r (by simp [Expr.children])).bind fun a' b' hr => .ok ?_
        refine ((((((hl.after _).before _).before _).before _).append hr).before _).of_iff ?_
        simp [Expr.TextsItself, Expr.shown, Expr.children, and_or_left]
    | _ => exact absurd rfl hleaf

/-! ## Actions -/

theorem valueCode (h : AlikeBut T n s s') (target : Reference) {value : Expr}
    (hvalue : value.Every fun m => m.shapeFault? = none) :
    Both (Alike (T ∧ ((Action.set target value).TextsItself n ∨ value.Texts s.corpus n)))
      (s.valueCode target value) (s'.valueCode target value) := by
  have hexpr := h.expr hvalue
  cases value with
  | str t =>
      refine .ok ((h.text_of_name target t).of_iff ?_)
      rw [Expr.texts_iff]
      simp [Action.TextsItself, Expr.TextsItself, Expr.shown, Expr.children]
  | _ => exact hexpr.of_iff (by simp [Action.TextsItself])

/-- The code of an action. -/
theorem action (h : AlikeBut T n s s') {a : Action}
    (hactions : ∀ b : Action, b.Part a → b.shapeFault? = none ∧
      ∀ e ∈ b.held, e.Every fun m => m.shapeFault? = none) :
    Both (Alike (T ∧ a.Texts s.corpus n)) (s.action a) (s'.action a) := by
  induction a using Action.parts_induction with
  | step a ih =>
    obtain ⟨⟨hshape, hheld⟩, hparts⟩ := Action.forall_part_iff.1 hactions
    have hpart : ∀ b ∈ a.parts, Both (Alike (T ∧ b.Texts s.corpus n)) (s.action b) (s'.action b) :=
      fun b hb => ih b hb (hparts b hb)
    have hexpr : ∀ e ∈ a.held, Both (Alike (T ∧ e.Texts s.corpus n)) (s.expr e) (s'.expr e) :=
      fun e he => h.expr (hheld e he)
    rw [Action.texts_iff]
    cases a with
    | set target value =>
        simp only [CodeScope.action]
        -- an assignment to a qualified reference has no code with either scope
        by_cases hqualified : target.qualifier.isSome = true
        · rw [if_pos hqualified, if_pos hqualified]
          exact .error _
        rw [if_neg hqualified, if_neg hqualified]
        have hvalue := h.valueCode target (hheld value (by simp [Action.held]))
        refine hvalue.bind fun a b hab => .ok ?_
        rw [h.assign]
        refine ((alike_assign s target hab).before _).of_iff ?_
        simp [Action.shown, Action.held, Action.parts]
    | alter target op delta =>
        simp only [CodeScope.action, h.reference, h.assign]
        refine (hexpr delta (by simp [Action.held])).bind fun a b hab => .ok ?_
        refine ((alike_assign s target (hab.after _)).before _).of_iff ?_
        simp [Action.TextsItself, Action.shown, Action.held, Action.parts]
    | swap first second =>
        simp only [CodeScope.action, h.reference, h.assign]
        refine .same rfl ?_
        simp [Action.TextsItself, Action.shown, Action.held, Action.parts]
    | cond conds branches otherwise =>
        have hlength : conds.length = branches.length := Expr.eq_of_chainFault? hshape
        have hchain := both_chainCode conds branches
          (fun c hc => hexpr c (by simp [Action.held, hc]))
          (fun b hb => hpart b (by simp [Action.parts, hb])) hlength
        cases otherwise with
        | none =>
            simp only [CodeScope.action, exprAll_eq_map, actionAll_eq_map]
            refine hchain.of_iff ?_
            simp only [Action.TextsItself, Action.shown, Action.held, Action.parts, false_or]
            grind
        | some o =>
            simp only [CodeScope.action, exprAll_eq_map, actionAll_eq_map]
            refine hchain.bind fun a b hab => ?_
            refine (hpart o (by simp [Action.parts])).bind fun a' b' ho => .ok ?_
            refine (hab.append ho.elseCode).of_iff ?_
            simp only [Action.TextsItself, Action.shown, Action.held, Action.parts, false_or]
            grind
    | call func args =>
        simp only [CodeScope.action, exprAll_eq_map]
        refine (both_allCode fun e he => hexpr e he).bind fun as bs habs => .ok ?_
        refine ((h.callCode func habs).before _).of_iff ?_
        simp only [Action.TextsItself, Action.shown, Action.held, Action.parts, false_or]
        grind
    | sequence steps =>
        simp only [CodeScope.action, actionAll_eq_map]
        refine (both_allCode fun b hb => hpart b hb).bind fun as bs habs => .ok ?_
        refine (habs.intercalate _).of_iff ?_
        simp only [Action.TextsItself, Action.shown, Action.held, Action.parts, false_or]
        grind

end AlikeBut

end CodeScope

/-! ## Rules -/

/-- The code of a rule is the same in both scopes, or has fewer quotes in the first one because it
    shows a string of the variable. -/
theorem CodeScope.AlikeBut.body {T : Prop} {n : String} {s s' : CodeScope}
    (h : AlikeBut T n s s') (hshape : s.rule.body.misshapen? = none) :
    Both (Alike (T ∧ s.rule.body.Texts s.corpus n)) s.body s'.body := by
  obtain ⟨hactions, hnodes⟩ := Body.shapes hshape
  unfold CodeScope.body
  rw [h.rule]
  cases hbody : s.rule.body with
  | requirement e =>
      rw [hbody] at hnodes
      exact (h.expr (Expr.every_iff_forall_node.2 hnodes)).mapError _
  | actions a =>
      rw [hbody] at hactions hnodes
      refine (h.action fun b hb => ⟨hactions b hb, fun e he => ?_⟩).mapError _
      exact Expr.every_iff_forall_node.2 fun m hm => hnodes m ⟨b, hb, e, he, hm⟩

end AccessRules
