import AccessRules.Proofs.Expr.Calls
import AccessRules.Proofs.Reachability.Evaluation

set_option autoImplicit false

/-! # What all evaluations have in common

Evaluation is put together from few kinds of work: nothing to do, one step after another, and two
warnings. A property that these have and hand on, `Report.Closed`, is one of every evaluation whose
helpers expand to work with the property. -/

namespace AccessRules

/-! ## Properties that parts hand on -/

/-- Doing nothing has the property, so do the warnings of evaluation, and what is done step by step
    has it if every step does. -/
structure Report.Closed (P : (α : Type) → Report α → Prop) : Prop where
  pure : ∀ {α : Type} (a : α), P α (Pure.pure a)
  bind : ∀ {α β : Type} {m : Report α} {f : α → Report β}, P α m → (∀ a, P β (f a)) →
    P β (m >>= f)
  warnDefault : ∀ rule, P Unit (.warn rule .unresolvedDefault)
  warnQualifier : ∀ rule ref spot, P Unit (.warn rule (.unresolvedQualifier ref spot))

theorem Report.Closed.map {P : (α : Type) → Report α → Prop} (hP : Report.Closed P) {α β : Type}
    {m : Report α} (hm : P α m) (g : α → β) : P β (g <$> m) :=
  hP.bind hm fun a => hP.pure (g a)

/-! ## Calls in an expression -/

namespace Corpus

variable {c : Corpus}

/-- One of the nodes calls the helper. -/
def NodesCall (c : Corpus) (nodes : List Expr) (s : Signature) : Prop :=
  ∃ e ∈ nodes, ∃ call ∈ e.callsHere, c.resolve call.func = .helper s

theorem NodesCall.mono {nodes nodes' : List Expr} {s : Signature} (h : c.NodesCall nodes s)
    (hsub : nodes ⊆ nodes') : c.NodesCall nodes' s := by
  obtain ⟨e, he, hcall⟩ := h
  exact ⟨e, hsub he, hcall⟩

end Corpus

/-! ## Evaluation -/

namespace Knowledge

/-- Whatever is expected, the evaluation has the property. -/
def Always (P : (α : Type) → Report α → Prop) (p : Pending) : Prop :=
  ∀ expect, P Value (p expect)

variable {P : (α : Type) → Report α → Prop} (hP : Report.Closed P) {k : Knowledge} {f : Frame}

include hP

theorem closed_test {p : Pending} (h : Always P p) : P Value (test p) :=
  hP.map (h .bool) Value.truth

theorem closed_lookup (r : Reference) : P Value (k.lookup f r) := by
  have hunresolved : P Value (lookup.unresolved f r) :=
    hP.bind (hP.warnQualifier _ _ _) fun _ => hP.pure _
  unfold lookup
  split
  · exact hP.pure _
  · split
    · exact hP.pure _
    · exact hP.pure _
    · split
      · split
        · exact hunresolved
        · exact hP.pure _
      · exact hunresolved

theorem closed_defaultFor : Always P (defaultFor f) := by
  intro expect
  unfold defaultFor
  split
  all_goals first
    | exact hP.pure _
    | exact hP.bind (hP.warnDefault _) fun _ => hP.pure _

theorem closed_evalArgs {args : List Pending} (h : ∀ a ∈ args, Always P a) :
    P (List Value) (evalArgs args) := by
  induction args with
  | nil => exact hP.pure _
  | cons a args ih =>
      rw [evalArgs]
      refine hP.bind (h a (List.mem_cons_self ..) .unknown) fun v => ?_
      exact hP.bind (ih fun b hb => h b (List.mem_cons_of_mem _ hb)) fun vs => hP.pure _

theorem closed_callBuiltin (name : String) {args : List Pending} (h : ∀ a ∈ args, Always P a) :
    Always P (callBuiltin f name args) := by
  intro expect
  refine hP.bind (closed_evalArgs hP h) fun values => ?_
  -- only the default may come with a warning
  by_cases hname : name = "default"
  · rw [if_pos hname]
    exact closed_defaultFor hP expect
  · rw [if_neg hname]
    repeat' split
    all_goals exact hP.pure _

theorem closed_callFunction {expand : Expand} {func : String} {args : List Pending}
    (hargs : ∀ a ∈ args, Always P a)
    (hx : ∀ s, k.corpus.resolve func = .helper s → Always P (expand s args)) :
    Always P (k.callFunction f expand func args) := by
  unfold callFunction
  cases hfunc : k.corpus.resolve func with
  | builtin b => exact closed_callBuiltin hP b.name hargs
  | helper s => exact hx s hfunc
  | rule r => exact fun _ => hP.pure _
  | unknown => exact fun _ => hP.pure _

theorem closed_possible {otherwise : Pending} (ho : Always P otherwise) (expect : Expect)
    {arms : List (Pending × Pending)} (harms : ∀ arm ∈ arms, Always P arm.1 ∧ Always P arm.2) :
    P (List Value) (possible otherwise expect arms) := by
  induction arms with
  | nil =>
      rw [possible]
      exact hP.bind (ho expect) fun v => hP.pure _
  | cons arm arms ih =>
      obtain ⟨cond, branch⟩ := arm
      obtain ⟨hcond, hbranch⟩ := harms (cond, branch) (List.mem_cons_self ..)
      have hrest := ih fun arm harm => harms arm (List.mem_cons_of_mem _ harm)
      rw [possible]
      refine hP.bind (closed_test hP hcond) fun t => ?_
      split
      · exact hrest
      · exact hP.bind (hbranch expect) fun v => hP.pure _
      · exact hP.bind (hbranch expect) fun v => hP.bind hrest fun vs => hP.pure _

theorem closed_chain {conds branches : List Pending} {otherwise : Option Pending}
    (harms : ∀ arm ∈ conds.zip branches, Always P arm.1 ∧ Always P arm.2)
    (ho : ∀ o, otherwise = some o → Always P o) :
    Always P (chain f conds branches otherwise) := by
  intro expect
  have hlast : Always P (otherwise.getD (defaultFor f)) := by
    cases otherwise with
    | none => exact closed_defaultFor hP
    | some o => exact ho o rfl
  rw [chain]
  exact hP.bind (closed_possible hP hlast expect harms) fun vs => hP.pure _

theorem closed_chooseAll (expect : Expect) {es : List Pending} (hes : ∀ e ∈ es, Always P e) :
    P (List Value) (choose.all expect es) := by
  induction es with
  | nil => exact hP.pure _
  | cons e es ih =>
      rw [choose.all]
      refine hP.bind (hes e (List.mem_cons_self ..) expect) fun v => ?_
      exact hP.bind (ih fun e he => hes e (List.mem_cons_of_mem _ he)) fun vs => hP.pure _

theorem closed_leaf {expand : Expand} {e : Expr} (h : e.isLeaf = true) :
    Always P (eval k f expand e) := by
  intro expect
  have hlookup : ∀ r, P Value (k.lookup f r) := closed_lookup hP
  cases e with
  | refEq r op rhs =>
      refine hP.bind (hlookup r) fun a => ?_
      cases rhs with
      | ref other => exact hP.bind (hlookup other) fun b => hP.pure _
      | _ => exact hP.pure _
  | argFlag r negated => exact hP.bind (hlookup r) fun a => hP.pure _
  | refInSet r members => exact hP.bind (hlookup r) fun a => hP.pure _
  | within p negated =>
      cases p with
      | literal path => exact hP.bind (hP.pure _) fun a => hP.pure _
      | ref r => exact hP.bind (hlookup r) fun a => hP.pure _
  | ref r => exact hlookup r
  | or _ _ | and _ _ | not _ | paren _ | invoke _ _ _ | ifThenElse _ _ _ | ternary _ _ _
  | numCompare _ _ _ | strCompare _ _ _ | flagMatch _ _ | refEqCall _ _ _ | perItem _ _ _
  | perSetting _ _ _ | binOp _ _ _ | call _ _ => cases h
  | _ => exact hP.pure _

/-- Evaluation of an expression has the property if the helpers that its nodes call expand to work
    that has it. -/
theorem closed_eval {expand : Expand} (e : Expr)
    (hx : ∀ s, k.corpus.NodesCall e.preorder s → ∀ args, (∀ a ∈ args, Always P a) →
      Always P (expand s args)) : Always P (eval k f expand e) := by
  induction e using Expr.children_induction with
  | step e ih =>
    by_cases hleaf : e.isLeaf = true
    · exact closed_leaf hP hleaf
    have hchild : ∀ c ∈ e.visited, Always P (eval k f expand c) := fun c hc =>
      ih c (Expr.mem_children_of_mem_visited hc) fun s hs =>
        hx s (hs.mono (Expr.preorder_subset_of_mem_visited hc))
    have hmap : ∀ es : List Expr, (∀ c ∈ es, c ∈ e.visited) →
        ∀ p ∈ es.map (eval k f expand), Always P p := by
      intro es hes p hp
      obtain ⟨c, hc, rfl⟩ := List.mem_map.1 hp
      exact hchild c (hes c hc)
    have hcallee : ∀ call ∈ e.callsHere, ∀ s, k.corpus.resolve call.func = .helper s →
        k.corpus.NodesCall e.preorder s :=
      fun call hcall s hs => ⟨e, e.self_mem_preorder, call, hcall, hs⟩
    cases e with
    | or l r =>
        intro expect
        rw [eval]
        refine hP.bind (closed_test hP (hchild l (List.mem_cons_self ..))) fun a => ?_
        split
        · exact hP.pure _
        · have hr := hchild r (by simp [Expr.visited, Expr.children])
          exact hP.bind (closed_test hP hr) fun b => hP.pure _
    | and l r =>
        intro expect
        rw [eval]
        refine hP.bind (closed_test hP (hchild l (List.mem_cons_self ..))) fun a => ?_
        split
        · exact hP.pure _
        · have hr := hchild r (by simp [Expr.visited, Expr.children])
          exact hP.bind (closed_test hP hr) fun b => hP.pure _
    | not e =>
        intro expect
        rw [eval]
        exact hP.bind (closed_test hP (hchild e (List.mem_cons_self ..))) fun a => hP.pure _
    | paren e => exact hchild e (List.mem_cons_self ..)
    | invoke func args negated =>
        intro expect
        have hargs := hmap args fun c hc => hc
        rw [eval_invoke]
        exact hP.map (closed_callFunction hP hargs (fun s hs =>
          hx s (hcallee ⟨func, args⟩ (List.mem_singleton.2 rfl) s hs) _ hargs) expect) _
    | ifThenElse conds branches otherwise =>
        rw [eval_ifThenElse]
        refine closed_chain hP (fun arm harm => ?_) fun o ho => ?_
        · rw [List.zip_map] at harm
          obtain ⟨⟨c, b⟩, hcb, rfl⟩ := List.mem_map.1 harm
          refine ⟨hchild c ?_, hchild b ?_⟩
          · exact List.mem_append_left _ (List.mem_flatMap.2 ⟨(c, b), hcb, by simp⟩)
          · exact List.mem_append_left _ (List.mem_flatMap.2 ⟨(c, b), hcb, by simp⟩)
        · obtain ⟨c, hc, rfl⟩ := Option.map_eq_some_iff.1 ho
          exact hchild c (List.mem_append_right _ (by simp [hc]))
    | ternary c y n =>
        rw [eval]
        refine closed_chain hP (fun arm harm => ?_) fun o ho => ?_
        · obtain rfl := List.mem_singleton.1 harm
          exact ⟨hchild c (by simp [Expr.visited, Expr.children]),
            hchild y (by simp [Expr.visited, Expr.children])⟩
        · obtain rfl := Option.some.inj ho
          exact hchild n (by simp [Expr.visited, Expr.children])
    | numCompare l op r =>
        intro expect
        rw [eval]
        refine hP.bind (hchild l (List.mem_cons_self ..) .int) fun a => ?_
        exact hP.bind (hchild r (by simp [Expr.visited, Expr.children]) .int) fun b => hP.pure _
    | strCompare l op lit =>
        intro expect
        rw [eval_strCompare]
        exact hP.bind (hchild l (List.mem_cons_self ..) _) fun a => hP.pure _
    | flagMatch e mask =>
        intro expect
        rw [eval_flagMatch]
        exact hP.bind (hchild e (List.mem_cons_self ..) _) fun a => hP.pure _
    | refEqCall r op e =>
        intro expect
        rw [eval]
        refine hP.bind (closed_lookup hP r) fun a => ?_
        exact hP.bind (hchild e (List.mem_cons_self ..) _) fun b => hP.pure _
    | perItem item cases d =>
        intro expect
        rw [eval_perItem]
        exact hP.map (closed_chooseAll hP expect (hmap _ fun c hc => hc)) _
    | perSetting setting cases d =>
        intro expect
        rw [eval_perSetting]
        exact hP.map (closed_chooseAll hP expect (hmap _ fun c hc => hc)) _
    | binOp l op r =>
        intro expect
        rw [eval]
        refine hP.bind (hchild l (List.mem_cons_self ..) .int) fun a => ?_
        exact hP.bind (hchild r (by simp [Expr.visited, Expr.children]) .int) fun b => hP.pure _
    | call func args =>
        have hargs := hmap args fun c hc => hc
        rw [eval_call]
        exact closed_callFunction hP hargs fun s hs =>
          hx s (hcallee ⟨func, args⟩ (List.mem_singleton.2 rfl) s hs) _ hargs
    | _ => exact absurd rfl hleaf

/-! ## Helpers -/

theorem closed_bindParams (params : List Param) {args : List Pending}
    (hargs : ∀ a ∈ args, Always P a) : P (NameMap Value) (bindParams params args) := by
  have hgo : ∀ (pairs : List (Param × Pending)) (bindings : NameMap Value),
      (∀ pair ∈ pairs, Always P pair.2) → P (NameMap Value) (bindParams.go bindings pairs) := by
    intro pairs
    induction pairs with
    | nil => intro bindings _; exact hP.pure _
    | cons pair pairs ih =>
        intro bindings hpairs
        obtain ⟨p, a⟩ := pair
        rw [bindParams.go]
        exact hP.bind (hpairs (p, a) (List.mem_cons_self ..) .unknown) fun v =>
          ih _ fun q hq => hpairs q (List.mem_cons_of_mem _ hq)
  exact hgo _ ∅ fun pair hpair => hargs pair.2 (List.of_mem_zip hpair).2

/-- If also work that is abandoned for endless helpers has the property, then every evaluation of
    a rule has it. -/
theorem closed_evaluate (k : Knowledge) (r : Rule) (spot : String)
    (habandon : ∀ rule helper, P Value (.abandon (.endlessHelpers rule helper))) :
    P Value (k.evaluate r spot) := by
  have hwithin : ∀ (depth : Nat) (f : Frame) (e : Expr), Always P (k.evalWithin depth f e) := by
    intro depth
    induction depth with
    | zero => exact fun f e => closed_eval hP e fun s _ args _ expect => habandon _ _
    | succ depth ih =>
        intro f e
        rw [evalWithin_succ]
        refine closed_eval hP e fun s _ args hargs expect => ?_
        unfold expandBy
        cases k.corpus.rules.find? s.ruleName with
        | none => exact hP.pure _
        | some r =>
            refine hP.bind (closed_bindParams hP s.params hargs) fun bindings => ?_
            cases r.body with
            | actions a => exact hP.pure _
            | requirement body => exact ih _ body expect
  unfold evaluate
  cases r.body with
  | actions a => exact hP.pure _
  | requirement e => exact hwithin _ _ e .bool

end Knowledge

end AccessRules
