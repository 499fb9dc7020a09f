import AccessRules.Proofs.Corpus
import AccessRules.Proofs.Reachability.Evaluation

set_option autoImplicit false

/-! # Rules that are not helpers

A call of a rule that is not a helper has an uncertain value, whatever the rule says, and so has a
call of an unknown function. So evaluation sees a corpus only through its helpers and their bodies,
`Corpus.SameHelpers`, and a rule that is not a helper can come or change without a difference to
the evaluation of the others. -/

namespace AccessRules

/-! ## Revisions of a corpus -/

namespace Corpus

/-- Two corpora have the same helpers, with the same bodies. -/
structure SameHelpers (c c' : Corpus) : Prop where
  helpers : c'.helpers = c.helpers
  bodies : ∀ s : Signature, c'.rules.find? s.ruleName = c.rules.find? s.ruleName

/-- A rule of this name outside of the namespace of helpers is new, or gets another body. -/
inductive Revised (c : Corpus) : (name : String) → (c' : Corpus) → Prop
  | added {r : Rule} {c' : Corpus} (hr : r.namespaceName ≠ Signature.helperNamespace)
      (h : c.addRule r = .ok c') : Revised c r.name c'
  | rewritten {r : Rule} (hr : r.namespaceName ≠ Signature.helperNamespace)
      (h : c.rules.find? r.name = some r) (body : Body) :
      Revised c r.name { c with rules := c.rules.insert r.name { r with body } }

theorem Revised.exists_insert {c c' : Corpus} {name : String} (h : c.Revised name c') :
    ∃ r : Rule, r.name = name ∧ r.namespaceName ≠ Signature.helperNamespace ∧
      c' = { c with rules := c.rules.insert name r } := by
  cases h with
  | added hr h => exact ⟨_, rfl, hr, (addRule_eq_ok_iff.1 h).2⟩
  | @rewritten r hr _ body => exact ⟨{ r with body }, rfl, hr, rfl⟩

theorem Revised.find?_of_ne {c c' : Corpus} {name other : String} (h : c.Revised name c')
    (hne : other ≠ name) : c'.rules.find? other = c.rules.find? other := by
  obtain ⟨r, -, -, rfl⟩ := h.exists_insert
  rw [NameMap.find?_insert, if_neg hne]

theorem Revised.sameHelpers {c c' : Corpus} {name : String} (h : c.Revised name c') :
    c.SameHelpers c' where
  helpers := by
    obtain ⟨r, -, -, rfl⟩ := h.exists_insert
    rfl
  bodies s := by
    refine h.find?_of_ne fun hname => ?_
    obtain ⟨r, rfl, hr, -⟩ := h.exists_insert
    apply hr
    rw [Rule.namespaceName, ← hname, Rule.splitName?_ruleName]
    rfl

end Corpus

/-! ## Evaluation -/

namespace Knowledge

variable {k : Knowledge} {c' : Corpus}

/-- The same knowledge with another corpus. -/
def withCorpus (k : Knowledge) (c : Corpus) : Knowledge :=
  { k with corpus := c }

@[simp] theorem corpus_withCorpus (k : Knowledge) (c : Corpus) : (k.withCorpus c).corpus = c :=
  rfl

/-- A call that is neither of a helper nor of a builtin function has no certain value. -/
theorem callFunction_eq (k : Knowledge) (f : Frame) (expand : Expand) (func : String)
    (args : List Pending) :
    k.callFunction f expand func args =
      match k.corpus.helpers.find? func, builtin? func with
      | some s, _ => expand s args
      | none, some b => callBuiltin f b.name args
      | none, none => fun _ => pure .uncertain := by
  unfold callFunction Corpus.resolve
  cases k.corpus.helpers.find? func with
  | some s => rfl
  | none =>
      cases builtin? func with
      | some b => rfl
      | none =>
          simp only
          cases k.corpus.rules.values.find? fun r => !r.isHelper && r.shortName == func <;> rfl

theorem callFunction_sameHelpers (h : k.corpus.SameHelpers c') :
    (k.withCorpus c').callFunction = k.callFunction := by
  funext f expand func args
  rw [callFunction_eq, callFunction_eq, corpus_withCorpus, h.helpers]

theorem eval_sameHelpers (h : k.corpus.SameHelpers c') (f : Frame) (expand : Expand) (e : Expr) :
    eval (k.withCorpus c') f expand e = eval k f expand e := by
  induction e using Expr.children_induction with
  | step e ih =>
    have hall : ∀ es : List Expr, es ⊆ e.children →
        es.map (eval (k.withCorpus c') f expand) = es.map (eval k f expand) :=
      fun es hes => List.map_congr_left fun c hc => ih c (hes hc)
    cases e with
    | or l r | and l r | numCompare l op r | binOp l op r =>
        simp only [eval, ih l (by simp [Expr.children]), ih r (by simp [Expr.children])]
    | not e | paren e | strCompare e op lit | flagMatch e mask =>
        simp only [eval, ih e (by simp [Expr.children])]
    | refEqCall r op e =>
        simp only [eval, ih e (by simp [Expr.children])]
        rfl
    | ternary c y n =>
        simp only [eval, ih c (by simp [Expr.children]), ih y (by simp [Expr.children]),
          ih n (by simp [Expr.children])]
    | invoke func args negated =>
        funext expect
        rw [eval_invoke, eval_invoke, hall args fun _ h => h, callFunction_sameHelpers h]
    | call func args =>
        rw [eval_call, eval_call, hall args fun _ h => h, callFunction_sameHelpers h]
    | ifThenElse conds branches otherwise =>
        have hotherwise : otherwise.map (eval (k.withCorpus c') f expand)
            = otherwise.map (eval k f expand) :=
          Option.map_congr fun c hc => ih c (by simp [Expr.children, hc])
        rw [eval_ifThenElse, eval_ifThenElse, hotherwise, hall conds (by simp [Expr.children]),
          hall branches (by simp [Expr.children])]
    | perItem item cases d =>
        rw [eval_perItem, eval_perItem, hall (cases.map (·.2) ++ [d]) fun _ h => h]
    | perSetting setting cases d =>
        rw [eval_perSetting, eval_perSetting, hall (cases.map (·.2) ++ [d]) fun _ h => h]
    | _ => rfl

/-- The bodies of helpers are the same, and are evaluated alike to every lesser depth. -/
theorem evalWithin_sameHelpers (h : k.corpus.SameHelpers c') (depth : Nat) :
    (k.withCorpus c').evalWithin depth = k.evalWithin depth := by
  induction depth with
  | zero =>
      funext f e
      exact eval_sameHelpers h f _ e
  | succ depth ih =>
      funext f e
      have hexpand : (k.withCorpus c').expandBy = k.expandBy := by
        funext evalBody spot s args expect
        simp only [expandBy, corpus_withCorpus, h.bodies]
      rw [evalWithin_succ, evalWithin_succ, ih, hexpand]
      exact eval_sameHelpers h f _ e

theorem evaluate_sameHelpers (h : k.corpus.SameHelpers c') (r : Rule) (spot : String) :
    (k.withCorpus c').evaluate r spot = k.evaluate r spot := by
  unfold evaluate evaluateExpr
  rw [evalWithin_sameHelpers h]

end Knowledge

/-- Rules other than helpers are opaque to evaluation. If one is added or gets another body, then
    all others stand in the corpus as before, and at every spot they have the same value or the same
    defect, with the same warnings. -/
theorem evaluate_of_revised (k : Knowledge) {name : String} {c' : Corpus}
    (h : k.corpus.Revised name c') :
    (∀ other ≠ name, c'.rules.find? other = k.corpus.rules.find? other) ∧
    ∀ (r : Rule) (spot : String),
      (k.withCorpus c').evaluate r spot = k.evaluate r spot :=
  ⟨fun _ hne => h.find?_of_ne hne, Knowledge.evaluate_sameHelpers h.sameHelpers⟩

/-- The ferry leaves by a helper, which calls for the weather, or in any weather. -/
def ferryRule : Rule where
  name := "harbor:ferry"
  body := .requirement (.or (.invoke "crossing" [] false) (.call "weather" []))

/-- Nothing is said about the weather. -/
def harbor : Knowledge where
  catalog := {}
  corpus :=
    { rules := (NameMap.insert ∅ "harbor:ferry" ferryRule).insert "helpers:crossing"
        { name := "helpers:crossing", body := .requirement (.not (.call "weather" [])) }
      helpers := NameMap.insert ∅ "crossing" { name := "crossing", params := [] } }
  contexts := ∅
  statics := {}

def weatherRule : Rule where
  name := "sky:weather"
  body := .requirement (.bool false)

def stormyCorpus : Corpus :=
  { harbor.corpus with rules := harbor.corpus.rules.insert "sky:weather" weatherRule }

/-- The unknown function becomes a rule, whose body is then replaced. -/
theorem evaluate_ferry :
    harbor.corpus.addRule weatherRule = .ok stormyCorpus ∧
    harbor.corpus.resolve "weather" = .unknown ∧
    stormyCorpus.resolve "weather" = .rule weatherRule ∧
    ∀ (body : Body) (spot : String),
      (harbor.withCorpus stormyCorpus).evaluate ferryRule spot = harbor.evaluate ferryRule spot ∧
      (harbor.withCorpus { stormyCorpus with
          rules := stormyCorpus.rules.insert "sky:weather" { weatherRule with body } }).evaluate
        ferryRule spot = harbor.evaluate ferryRule spot := by
  have hns : weatherRule.namespaceName ≠ Signature.helperNamespace := by decide
  refine ⟨rfl, rfl, rfl, fun body spot => ?_⟩
  have hadded := (evaluate_of_revised harbor (.added hns rfl)).2 ferryRule spot
  have hrewritten := (evaluate_of_revised (harbor.withCorpus stormyCorpus)
    (.rewritten hns rfl body)).2 ferryRule spot
  exact ⟨hadded, hrewritten.trans hadded⟩

end AccessRules
