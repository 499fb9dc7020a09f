import AccessRules.Proofs.Expr.Calls
import AccessRules.Proofs.Reachability.Evaluation

set_option autoImplicit false

/-! # Evaluations of the same outcome

Two evaluations of one expression, each with its own knowledge and frame, have the same outcome if
they agree at every node: on the values of leaves, on what a comparison with a call reads and
expects, and on calls with arguments of the same outcome. `NodeAlike` is what has to be known of one
node, and `same_eval` puts the nodes together. What is expected of an expression matters only by
the value that stands for none: `indifferent_eval`. Events are not compared. -/

namespace AccessRules

namespace Knowledge

variable {k k' : Knowledge} {f f' : Frame}

/-! ## Parts of evaluation -/

/-- Whatever is expected, the two have the same outcome. -/
def Same (p q : Pending) : Prop :=
  ∀ expect, (p expect).outcome = (q expect).outcome

theorem Same.test {p q : Pending} (h : Same p q) : (test p).outcome = (test q).outcome :=
  Report.outcome_map_congr _ (h .bool)

theorem outcome_evalArgs_congr {args args' : List Pending} (h : List.Forall₂ Same args args') :
    (evalArgs args).outcome = (evalArgs args').outcome := by
  induction h with
  | nil => rfl
  | cons ha _ ih =>
      refine Report.outcome_bind_congr (ha .unknown) fun v => ?_
      exact Report.outcome_bind_congr ih fun vs => rfl

/-- Calls of what is one function on both sides have the same outcome on arguments of the same
    outcome, if the helper that is called expands alike. -/
theorem same_callFunction {x x' : Expand} {func : String} {args args' : List Pending}
    (hfunc : k.corpus.resolve func = k'.corpus.resolve func) (h : List.Forall₂ Same args args')
    (hx : ∀ s, k.corpus.resolve func = .helper s → Same (x s args) (x' s args')) :
    Same (k.callFunction f x func args) (k'.callFunction f' x' func args') := by
  unfold callFunction
  rw [← hfunc]
  cases hs : k.corpus.resolve func with
  | builtin b =>
      intro expect
      rw [outcome_callBuiltin, outcome_callBuiltin, outcome_evalArgs_congr h]
  | helper s => exact hx s hs
  | rule r => exact fun _ => rfl
  | unknown => exact fun _ => rfl

theorem outcome_possible_congr {o o' : Pending} (ho : Same o o') (expect : Expect)
    {arms arms' : List (Pending × Pending)}
    (h : List.Forall₂ (fun a b => Same a.1 b.1 ∧ Same a.2 b.2) arms arms') :
    (possible o expect arms).outcome = (possible o' expect arms').outcome := by
  induction h with
  | nil => exact Report.outcome_bind_congr (ho expect) fun v => rfl
  | @cons arm arm' arms arms' harm _ ih =>
      obtain ⟨cond, branch⟩ := arm
      obtain ⟨cond', branch'⟩ := arm'
      obtain ⟨hcond, hbranch⟩ := harm
      refine Report.outcome_bind_congr hcond.test fun t => ?_
      split
      · exact ih
      · exact Report.outcome_bind_congr (hbranch expect) fun v => rfl
      · refine Report.outcome_bind_congr (hbranch expect) fun v => ?_
        exact Report.outcome_bind_congr ih fun vs => rfl

theorem same_chain {conds conds' branches branches' : List Pending} {o o' : Option Pending}
    (hconds : List.Forall₂ Same conds conds') (hbranches : List.Forall₂ Same branches branches')
    (ho : Option.Rel Same o o') :
    Same (chain f conds branches o) (chain f' conds' branches' o') := by
  intro expect
  have hlast : Same (o.getD (defaultFor f)) (o'.getD (defaultFor f')) := by
    cases ho with
    | some h => exact h
    | none =>
        intro expect
        exact (outcome_defaultFor f expect).trans (outcome_defaultFor f' expect).symm
  have hvalues := outcome_possible_congr hlast expect (forall₂_arms hconds hbranches)
  exact Report.outcome_bind_congr hvalues fun vs => rfl

theorem outcome_chooseAll_congr (expect : Expect) {es es' : List Pending}
    (h : List.Forall₂ Same es es') :
    (choose.all expect es).outcome = (choose.all expect es').outcome := by
  induction h with
  | nil => rfl
  | cons he _ ih =>
      refine Report.outcome_bind_congr (he expect) fun v => ?_
      exact Report.outcome_bind_congr ih fun vs => rfl

theorem outcome_bindParams_congr (params : List Param) {args args' : List Pending}
    (h : List.Forall₂ Same args args') :
    (bindParams params args).outcome = (bindParams params args').outcome := by
  have hgo : ∀ (params : List Param) (b : NameMap Value),
      (bindParams.go b (params.zip args)).outcome
        = (bindParams.go b (params.zip args')).outcome := by
    induction h with
    | nil => intro params b; rfl
    | cons ha _ ih =>
        intro params b
        cases params with
        | nil => rfl
        | cons p params => exact Report.outcome_bind_congr (ha .unknown) fun v => ih params _
  exact hgo params ∅

/-! ## Expectations -/

/-- Expectations with the same value for none lead to the same outcome. -/
def Indifferent (p : Pending) : Prop :=
  ∀ a b, defaultValue a = defaultValue b → (p a).outcome = (p b).outcome

theorem indifferent_callFunction {x : Expand} (hx : ∀ s args, Indifferent (x s args))
    (func : String) (args : List Pending) : Indifferent (k.callFunction f x func args) := by
  unfold callFunction
  cases k.corpus.resolve func with
  | builtin b =>
      intro expect expect' h
      have hvalue : builtinValue b.name expect = builtinValue b.name expect' := by
        funext values
        simp only [builtinValue, h]
      rw [outcome_callBuiltin, outcome_callBuiltin, hvalue]
  | helper s => exact hx s args
  | rule r => exact fun _ _ _ => rfl
  | unknown => exact fun _ _ _ => rfl

theorem indifferent_chain {branches : List Pending} {o : Option Pending} (conds : List Pending)
    (hbranches : ∀ b ∈ branches, Indifferent b) (ho : ∀ b ∈ o, Indifferent b) :
    Indifferent (chain f conds branches o) := by
  intro expect expect' h
  have hlast : Indifferent (o.getD (defaultFor f)) := by
    cases o with
    | some b => exact ho b rfl
    | none =>
        intro a b hab
        exact (outcome_defaultFor f a).trans ((congrArg _ hab).trans (outcome_defaultFor f b).symm)
  have hpossible : ∀ arms : List (Pending × Pending), (∀ arm ∈ arms, Indifferent arm.2) →
      (possible (o.getD (defaultFor f)) expect arms).outcome
        = (possible (o.getD (defaultFor f)) expect' arms).outcome := by
    intro arms harms
    induction arms with
    | nil => exact Report.outcome_bind_congr (hlast _ _ h) fun v => rfl
    | cons arm arms ih =>
        obtain ⟨cond, branch⟩ := arm
        have hbranch := harms _ (List.mem_cons_self ..) _ _ h
        have hrest := ih fun arm harm => harms arm (List.mem_cons_of_mem _ harm)
        refine Report.outcome_bind_congr rfl fun t => ?_
        split
        · exact hrest
        · exact Report.outcome_bind_congr hbranch fun v => rfl
        · exact Report.outcome_bind_congr hbranch fun v =>
            Report.outcome_bind_congr hrest fun vs => rfl
  refine Report.outcome_bind_congr (hpossible _ fun arm harm => ?_) fun vs => rfl
  exact hbranches arm.2 (List.of_mem_zip harm).2

theorem outcome_chooseAll_indifferent {es : List Pending} (hes : ∀ e ∈ es, Indifferent e)
    {a b : Expect} (h : defaultValue a = defaultValue b) :
    (choose.all a es).outcome = (choose.all b es).outcome := by
  induction es with
  | nil => rfl
  | cons e es ih =>
      refine Report.outcome_bind_congr (hes e (List.mem_cons_self ..) a b h) fun v => ?_
      have hrest := ih fun e he => hes e (List.mem_cons_of_mem _ he)
      exact Report.outcome_bind_congr hrest fun vs => rfl

theorem indifferent_eval {x : Expand} (hx : ∀ s args, Indifferent (x s args)) (e : Expr) :
    Indifferent (eval k f x e) := by
  induction e using Expr.children_induction with
  | step e ih =>
    have hmap : ∀ es : List Expr, (∀ c ∈ es, c ∈ e.children) →
        ∀ p ∈ es.map (eval k f x), Indifferent p := by
      intro es hes p hp
      obtain ⟨c, hc, rfl⟩ := List.mem_map.1 hp
      exact ih c (hes c hc)
    intro a b hab
    cases e with
    | paren e =>
        simp only [eval]
        exact ih e (by simp [Expr.children]) a b hab
    | invoke func args negated =>
        simp only [eval_invoke]
        exact Report.outcome_map_congr _ (indifferent_callFunction hx func _ a b hab)
    | ifThenElse conds branches otherwise =>
        simp only [eval_ifThenElse]
        refine indifferent_chain _ (hmap branches (by simp +contextual [Expr.children])) ?_ a b hab
        intro p hp
        obtain ⟨o, rfl, rfl⟩ := Option.map_eq_some_iff.1 hp
        exact ih o (by simp [Expr.children])
    | ternary c y n =>
        simp only [eval]
        refine indifferent_chain _ (hmap [y] (by simp [Expr.children])) ?_ a b hab
        intro p hp
        obtain rfl := Option.some.inj hp
        exact ih n (by simp [Expr.children])
    | perItem item cases d =>
        simp only [eval_perItem]
        exact Report.outcome_map_congr _ (outcome_chooseAll_indifferent (hmap _ fun c hc => hc) hab)
    | perSetting setting cases d =>
        simp only [eval_perSetting]
        exact Report.outcome_map_congr _ (outcome_chooseAll_indifferent (hmap _ fun c hc => hc) hab)
    | call func args =>
        simp only [eval_call]
        exact indifferent_callFunction hx func _ a b hab
    | _ => rfl

theorem indifferent_expandBy {evalBody : Frame → Expr → Pending}
    (hbody : ∀ f e, Indifferent (evalBody f e)) (spot : String) (s : Signature)
    (args : List Pending) : Indifferent (k.expandBy evalBody spot s args) := by
  intro a b hab
  unfold expandBy
  cases k.corpus.rules.find? s.ruleName with
  | none => rfl
  | some r =>
      refine Report.outcome_bind_congr rfl fun bindings => ?_
      cases r.body with
      | requirement body => exact hbody _ body a b hab
      | actions _ => rfl

theorem indifferent_evalWithin (k : Knowledge) (depth : Nat) (f : Frame) (e : Expr) :
    Indifferent (k.evalWithin depth f e) := by
  induction depth generalizing f e with
  | zero => exact indifferent_eval (fun _ _ _ _ _ => rfl) e
  | succ depth ih =>
      rw [evalWithin_succ]
      exact indifferent_eval (indifferent_expandBy ih f.spot) e

/-! ## Expressions -/

/-- What two evaluations have to agree on at a node. -/
structure NodeAlike (k k' : Knowledge) (f f' : Frame) (x x' : Expand) (e : Expr) : Prop where
  leaf : e.isLeaf = true → k.leafValue f e = k'.leafValue f' e
  equation : ∀ r op c, e = .refEqCall r op c → k.lookupValue f r = k'.lookupValue f' r ∧
    defaultValue (k.expectFor f r.name) = defaultValue (k'.expectFor f' r.name)
  call : ∀ call ∈ e.callsHere, ∀ ps ps', ps.length = call.args.length →
    List.Forall₂ Same ps ps' →
    Same (k.callFunction f x call.func ps) (k'.callFunction f' x' call.func ps')

theorem same_eval {x x' : Expand} {e : Expr} (hx : ∀ s args, Indifferent (x' s args))
    (h : e.Every (NodeAlike k k' f f' x x')) : Same (eval k f x e) (eval k' f' x' e) := by
  induction e using Expr.children_induction with
  | step e ih =>
    have hnode := h.self
    have hchild : ∀ c ∈ e.children, Same (eval k f x c) (eval k' f' x' c) :=
      fun c hc => ih c hc (h.child hc)
    have hmap : ∀ es : List Expr, (∀ c ∈ es, c ∈ e.children) →
        List.Forall₂ Same (es.map (eval k f x)) (es.map (eval k' f' x')) := by
      intro es hes
      simp only [List.forall₂_map_left_iff, List.forall₂_map_right_iff, List.forall₂_same]
      exact fun c hc => hchild c (hes c hc)
    by_cases hleaf : e.isLeaf = true
    · intro expect
      rw [outcome_eval_leaf k f x hleaf, outcome_eval_leaf k' f' x' hleaf, hnode.leaf hleaf]
    cases e with
    | or l r =>
        intro expect
        simp only [eval]
        refine Report.outcome_bind_congr (hchild l (by simp [Expr.children])).test fun a => ?_
        split
        · rfl
        · exact Report.outcome_bind_congr (hchild r (by simp [Expr.children])).test fun b => rfl
    | and l r =>
        intro expect
        simp only [eval]
        refine Report.outcome_bind_congr (hchild l (by simp [Expr.children])).test fun a => ?_
        split
        · rfl
        · exact Report.outcome_bind_congr (hchild r (by simp [Expr.children])).test fun b => rfl
    | not e =>
        intro expect
        simp only [eval]
        exact Report.outcome_bind_congr (hchild e (by simp [Expr.children])).test fun a => rfl
    | paren e =>
        simp only [eval]
        exact hchild e (by simp [Expr.children])
    | invoke func args negated =>
        intro expect
        have hcall := hnode.call ⟨func, args⟩ (List.mem_singleton.2 rfl) _ _ (List.length_map _)
          (hmap args fun c hc => hc)
        simp only [eval_invoke]
        exact Report.outcome_map_congr _ (hcall expect)
    | ifThenElse conds branches otherwise =>
        simp only [eval_ifThenElse]
        refine same_chain (hmap conds (by simp +contextual [Expr.children]))
          (hmap branches (by simp +contextual [Expr.children])) ?_
        cases otherwise with
        | none => exact .none
        | some o => exact .some (hchild o (by simp [Expr.children]))
    | ternary c y n =>
        simp only [eval]
        exact same_chain (hmap [c] (by simp [Expr.children])) (hmap [y] (by simp [Expr.children]))
          (.some (hchild n (by simp [Expr.children])))
    | numCompare l op r =>
        intro expect
        simp only [eval]
        refine Report.outcome_bind_congr (hchild l (by simp [Expr.children]) .int) fun a => ?_
        exact Report.outcome_bind_congr (hchild r (by simp [Expr.children]) .int) fun b => rfl
    | strCompare l op lit =>
        intro expect
        simp only [eval_strCompare]
        exact Report.outcome_bind_congr (hchild l (by simp [Expr.children]) _) fun a => rfl
    | flagMatch e mask =>
        intro expect
        simp only [eval_flagMatch]
        exact Report.outcome_bind_congr (hchild e (by simp [Expr.children]) .int) fun a => rfl
    | refEqCall r op e =>
        intro expect
        obtain ⟨hvalue, hexpect⟩ := hnode.equation r op e rfl
        have hlookup : (k.lookup f r).outcome = (k'.lookup f' r).outcome := by
          rw [outcome_lookup, outcome_lookup, hvalue]
        simp only [eval]
        refine Report.outcome_bind_congr hlookup fun a => ?_
        -- the two sides may expect different kinds, if the values for none are the same
        have hright := (hchild e (by simp [Expr.children]) _).trans
          (indifferent_eval (f := f') (k := k') hx e _ _ hexpect)
        exact Report.outcome_bind_congr hright fun b => rfl
    | perItem item cases d =>
        intro expect
        simp only [eval_perItem]
        exact Report.outcome_map_congr _ (outcome_chooseAll_congr expect (hmap _ fun c hc => hc))
    | perSetting setting cases d =>
        intro expect
        simp only [eval_perSetting]
        exact Report.outcome_map_congr _ (outcome_chooseAll_congr expect (hmap _ fun c hc => hc))
    | binOp l op r =>
        intro expect
        simp only [eval]
        refine Report.outcome_bind_congr (hchild l (by simp [Expr.children]) .int) fun a => ?_
        exact Report.outcome_bind_congr (hchild r (by simp [Expr.children]) .int) fun b => rfl
    | call func args =>
        simp only [eval_call]
        exact hnode.call ⟨func, args⟩ (List.mem_singleton.2 rfl) _ _ (List.length_map _)
          (hmap args fun c hc => hc)
    | _ => exact absurd rfl hleaf

/-- A helper expands alike if its body is evaluated alike with the bindings that come about. -/
theorem same_expandBy (hcorpus : k'.corpus = k.corpus) {evalBody evalBody' : Frame → Expr → Pending}
    {spot spot' : String} {s : Signature} {ps ps' : List Pending} (hps : List.Forall₂ Same ps ps')
    (hbody : ∀ r bindings body, k.corpus.rules.find? s.ruleName = some r →
      (bindParams s.params ps).outcome = .ok bindings → r.body = .requirement body →
      Same (evalBody ⟨r, spot, bindings⟩ body) (evalBody' ⟨r, spot', bindings⟩ body)) :
    Same (k.expandBy evalBody spot s ps) (k'.expandBy evalBody' spot' s ps') := by
  intro expect
  unfold expandBy
  rw [hcorpus]
  cases hr : k.corpus.rules.find? s.ruleName with
  | none => rfl
  | some r =>
      simp only [Report.outcome_bind, ← outcome_bindParams_congr s.params hps]
      cases hbindings : (bindParams s.params ps).outcome with
      | error d => rfl
      | ok bindings =>
          show Report.outcome _ = Report.outcome _
          cases hrequirement : r.body with
          | requirement body => exact hbody r bindings body hr hbindings hrequirement expect
          | actions _ => rfl

end Knowledge

end AccessRules
