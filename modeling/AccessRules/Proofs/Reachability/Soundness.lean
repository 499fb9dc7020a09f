import AccessRules.Proofs.Compile
import AccessRules.Proofs.Reachability.Completion
import AccessRules.Proofs.Reachability.Monotone
import AccessRules.Proofs.Reachability.StaticData

set_option autoImplicit false

/-! # Pruning is sound

A certain value of a rule is its value under every completion, so a rule that is pruned never holds:
`pruning_sound`. The proof follows the two evaluations side by side. At every point the
value with parts unknown approximates the one under a completion; where the former collects the
values of several branches, the latter takes one of them. -/

namespace AccessRules

/-- The second value is certain, and the same as the first unless that is uncertain. -/
def Value.Settles (a c : Value) : Prop :=
  a.Approx c ∧ c ≠ .uncertain

namespace Completing

theorem always_settle {a v : Value} (h : a.Approx v) : (settle v).Always a.Settles := by
  cases v with
  | uncertain =>
      -- an uncertain value is approximated by nothing but itself
      have ha : a = .uncertain := h.elim id id
      refine always_next.bind fun decision _ => always_pure ⟨Or.inl ha, decision.certain⟩
  | _ => exact always_pure ⟨h, nofun⟩

end Completing

namespace Report

open Completing

variable {α β γ δ : Type} {R : α → β → Prop} {S : γ → δ → Prop}

/-- Wherever `m` has a result, `n` has one under every completion, and the two are related. -/
def Covers (R : α → β → Prop) (m : Report α) (n : Completing β) : Prop :=
  ∀ a, m.outcome = .ok a → n.Always (R a)

theorem covers_of_outcome {m : Report α} {n : Completing β} {a : α} (hm : m.outcome = .ok a)
    (hn : n.Always (R a)) : m.Covers R n := by
  intro a' ha'
  obtain rfl := Except.ok.inj (hm.symm.trans ha')
  exact hn

theorem covers_pure {a : α} {b : β} (h : R a b) : Covers R (pure a) (pure b) :=
  covers_of_outcome rfl (always_pure h)

theorem Covers.bind {m : Report α} {n : Completing β} {f : α → Report γ} {g : β → Completing δ}
    (h : m.Covers R n) (hfg : ∀ a b, R a b → (f a).Covers S (g b)) :
    (m >>= f).Covers S (n >>= g) := by
  intro c hc
  obtain ⟨a, ha, hfa⟩ := bind_eq_ok_iff.1 hc
  exact (h a ha).bind fun b hab => hfg a b hab c hfa

theorem covers_bind_left {m : Report α} {f : α → Report γ} {n : Completing δ}
    (h : ∀ a, (f a).Covers S n) : (m >>= f).Covers S n := by
  intro c hc
  obtain ⟨a, _, hfa⟩ := bind_eq_ok_iff.1 hc
  exact h a c hfa

/-- The first work goes on alone; what it makes of its result stays related. -/
theorem Covers.bind_ensures {m : Report α} {n : Completing β} {f : α → Report γ}
    {T : γ → β → Prop} (h : m.Covers R n)
    (hf : ∀ a, (f a).Ensures fun c => ∀ b, R a b → T c b) : (m >>= f).Covers T n := by
  intro c hc
  obtain ⟨a, ha, hfa⟩ := bind_eq_ok_iff.1 hc
  exact (h a ha).imp (hf a c hfa)

theorem Covers.and_ensures {m : Report α} {n : Completing β} {P : α → Prop} (h : m.Covers R n)
    (hm : m.Ensures P) : m.Covers (fun a b => P a ∧ R a b) n :=
  fun a ha => (h a ha).imp fun _ hab => ⟨hm a ha, hab⟩

end Report

namespace Knowledge

open Completing

variable {k : Knowledge} {f f' : Frame}

/-! ## References and leaves

The frame under a completion may have values where the other one has none. -/

theorem always_completeRef (hf : f.Approx f') (r : Reference) :
    (k.completeRef f' r).Always (k.lookupValue f r).Settles := by
  have hsame : k.statics.Approx k.statics := fun _ _ => Value.approx_refl _
  obtain ⟨name, _ | q⟩ := r
  · exact always_settle (lookupName_approx hsame hf name)
  · unfold completeRef lookupValue
    rw [hf.rule]
    simp only
    cases f.rule.resolve? k.catalog name with
    | none => exact always_settle (Value.approx_refl _)
    | some path =>
        cases q with
        | place p => exact always_settle (Value.approx_refl _)
        | ref other =>
            refine (always_settle (lookupName_approx hsame hf other)).bind fun held hheld => ?_
            exact always_settle (lookupVia_approx hsame path hheld.1)

theorem always_completeComparand (hf : f.Approx f') (rhs : Comparand) :
    (k.completeComparand f' rhs).Always (k.comparandValue f rhs).Settles := by
  cases rhs with
  | ref other => exact always_completeRef hf other
  | _ => exact always_settle (Value.approx_refl .uncertain)

theorem always_completePlace (hf : f.Approx f') (p : PlaceArg) :
    (k.completePlace f' p).Always (k.placeArgValue f p).Settles := by
  cases p with
  | literal path => exact always_pure ⟨Value.approx_refl _, nofun⟩
  | ref r => exact always_completeRef hf r

theorem truth_ne_uncertain {v : Value} (h : v ≠ .uncertain) : v.truth ≠ .uncertain := by
  cases v with
  | uncertain => exact absurd rfl h
  | _ => nofun

theorem negateIf_ne_uncertain {v : Value} (h : v ≠ .uncertain) (negated : Bool) :
    v.negateIf negated ≠ .uncertain := by
  cases negated with
  | false => exact h
  | true =>
      cases v with
      | uncertain => exact absurd rfl h
      | _ => nofun

theorem settles_negateIf {a c : Value} (h : a.Settles c) (negated : Bool) :
    (a.negateIf negated).Settles (c.negateIf negated) :=
  ⟨h.1.negateIf negated, negateIf_ne_uncertain h.2 negated⟩

theorem settles_truth {a c : Value} (h : a.Settles c) : a.truth.Settles c.truth :=
  ⟨h.1.truth.approx, truth_ne_uncertain h.2⟩

theorem always_completeExpr_leaf (hf : f.Approx f')
    (expand : Signature → List Choosing → Choosing) {e : Expr} (h : e.isLeaf = true)
    (expect : Expect) :
    (completeExpr k f' expand e expect).Always (k.leafValue f e).Settles := by
  cases e with
  | bool _ | int _ | float _ | str _ | place _ =>
      exact always_pure ⟨Value.approx_refl _, nofun⟩
  | refEq r op rhs =>
      refine (always_completeRef hf r).bind fun a ha => ?_
      refine (always_completeComparand hf rhs).bind fun b hb => ?_
      exact always_settle (ha.1.compare op hb.1)
  | argFlag r negated =>
      refine (always_completeRef hf r).bind fun a ha => ?_
      exact always_pure (settles_negateIf (settles_truth ha) negated)
  | refInSet r members =>
      refine (always_completeRef hf r).bind fun a ha => ?_
      exact always_settle (isMember_approx members ha.1)
  | within p negated =>
      refine (always_completePlace hf p).bind fun a ha => ?_
      refine (always_settle (isWithin_approx hf.spot ha.1)).bind fun b hb => ?_
      exact always_pure (settles_negateIf hb negated)
  | ref r => exact always_completeRef hf r
  | const name => exact always_settle (Value.approx_refl _)
  | settingFlag _ _ | itemAtLeast _ _ | hasItem _ | hasLiteralItem _ | hasArgItem _ | setting _
  | items _ => exact always_settle (Value.approx_refl .uncertain)
  | _ => cases h

/-! ## What is evaluated -/

/-- Whatever is expected, `q` has a value under every completion where `p` has one, and it settles
    that of `p`. -/
def Covered (p : Pending) (q : Choosing) : Prop :=
  ∀ expect, (p expect).Covers Value.Settles (q expect)

theorem truthApprox_holds {a c : Value} (h : a.Settles c) :
    Value.TruthApprox a.truth (.bool c.holds) := by
  have hc : c.truth = .bool c.holds := by
    cases c with
    | uncertain => exact absurd rfl h.2
    | bool b => cases b <;> rfl
    | _ => simp [Value.truth, Value.truth?, Value.holds]
  rw [← hc]
  exact h.1.truth

theorem Covered.test {p : Pending} {q : Choosing} (h : Covered p q) :
    (test p).Covers (fun t b => Value.TruthApprox t (.bool b)) (holds q) := by
  intro t ht
  obtain ⟨a, ha, rfl⟩ := Report.map_eq_ok_iff.1 ht
  unfold holds
  rw [← bind_pure_comp]
  exact (h .bool a ha).bind fun c hc => always_pure (truthApprox_holds hc)

/-! ## Calls -/

theorem covers_evalArgs {args : List Pending} {args' : List Choosing}
    (h : List.Forall₂ Covered args args') :
    (evalArgs args).Covers (List.Forall₂ Value.Approx) (args'.mapM fun a => a .unknown) := by
  induction h with
  | nil => exact Report.covers_pure .nil
  | cons ha _ ih =>
      rw [List.mapM_cons]
      refine (ha .unknown).bind fun v c hvc => ih.bind fun vs cs hvs => ?_
      exact Report.covers_pure (.cons hvc.1 hvs)

theorem covered_callBuiltin (name : String) {args : List Pending} {args' : List Choosing}
    (h : List.Forall₂ Covered args args') :
    Covered (callBuiltin f name args) (fun expect => do
      let values ← args'.mapM fun a => a .unknown
      settle (builtinValue name expect values)) := by
  intro expect v hv
  rw [outcome_callBuiltin] at hv
  cases hargs : (evalArgs args).outcome with
  | error d =>
      rw [hargs] at hv
      cases hv
  | ok vs =>
      rw [hargs] at hv
      obtain rfl := Except.ok.inj hv
      refine (covers_evalArgs h vs hargs).bind fun cs hcs => ?_
      exact always_settle (builtinValue_approx name expect hcs)

/-- Helpers expand alike on arguments that are evaluated alike. -/
def CoveredExpand (x : Expand) (y : Signature → List Choosing → Choosing) : Prop :=
  ∀ s args args', (∀ a ∈ args, Plain a) → List.Forall₂ Covered args args' →
    Covered (x s args) (y s args')

theorem covered_callFunction {x : Expand} {y : Signature → List Choosing → Choosing}
    (hx : CoveredExpand x y) (func : String) {args : List Pending} {args' : List Choosing}
    (hplain : ∀ a ∈ args, Plain a) (h : List.Forall₂ Covered args args') :
    Covered (k.callFunction f x func args) (k.completeCall y func args') := by
  intro expect
  unfold callFunction completeCall
  cases k.corpus.resolve func with
  | builtin b => exact covered_callBuiltin b.name h expect
  | helper s => exact hx s args args' hplain h expect
  | rule r => exact Report.covers_of_outcome rfl (always_settle (Value.approx_refl _))
  | unknown => exact Report.covers_of_outcome rfl (always_settle (Value.approx_refl _))

/-! ## Conditionals -/

/-- The value settles one of several. -/
def SettlesOne (vs : List Value) (c : Value) : Prop :=
  ∃ v ∈ vs, v.Settles c

theorem SettlesOne.cons {vs : List Value} {c : Value} (v : Value) (h : SettlesOne vs c) :
    SettlesOne (v :: vs) c := by
  obtain ⟨u, hu, hc⟩ := h
  exact ⟨u, List.mem_cons_of_mem v hu, hc⟩

theorem settlesOne_head {v c : Value} (vs : List Value) (h : v.Settles c) :
    SettlesOne (v :: vs) c :=
  ⟨v, List.mem_cons_self .., h⟩

theorem settles_agreement {expect : Expect} {vs : List Value} {c : Value}
    (hplain : AllPlain expect vs) (h : SettlesOne vs c) : (Value.agreement vs).Settles c := by
  obtain ⟨v, hv, hc⟩ := h
  exact ⟨Value.agreement_approx hplain hv hc.1, hc.2⟩

theorem covers_possible {o : Pending} {o' : Choosing} (ho : Covered o o') (expect : Expect)
    {arms : List (Pending × Pending)} {arms' : List (Choosing × Choosing)}
    (h : List.Forall₂ (fun a b => Covered a.1 b.1 ∧ Covered a.2 b.2) arms arms') :
    (possible o expect arms).Covers SettlesOne (firstHolding o' expect arms') := by
  induction h with
  | nil =>
      exact (ho expect).bind_ensures fun v => Report.ensures_pure fun c hc => settlesOne_head [] hc
  | @cons arm arm' arms arms' harm _ ih =>
      obtain ⟨cond, branch⟩ := arm
      obtain ⟨cond', branch'⟩ := arm'
      obtain ⟨hcond, hbranch⟩ := harm
      refine hcond.test.bind fun t b ht => ?_
      cases ht with
      | known =>
          cases b with
          | false => exact ih
          | true =>
              exact (hbranch expect).bind_ensures fun v =>
                Report.ensures_pure fun c hc => settlesOne_head [] hc
      | settled =>
          -- one of the two directions that evaluation follows is taken
          cases b with
          | false =>
              refine Report.covers_bind_left fun v => ih.bind_ensures fun vs => ?_
              exact Report.ensures_pure fun c hc => hc.cons v
          | true =>
              refine (hbranch expect).bind_ensures fun v => ?_
              refine (Report.ensures_true _).bind fun vs _ => ?_
              exact Report.ensures_pure fun c hc => settlesOne_head vs hc

theorem covered_chain {conds branches : List Pending} {conds' branches' : List Choosing}
    {o : Option Pending} {o' : Option Choosing} (hconds : List.Forall₂ Covered conds conds')
    (hbranches : List.Forall₂ Covered branches branches') (ho : Option.Rel Covered o o')
    (hplain : ∀ b ∈ branches, Plain b) (hoplain : ∀ b, o = some b → Plain b) :
    Covered (chain f conds branches o) (completeChain conds' branches' o') := by
  intro expect v hv
  have hlast : Covered (o.getD (defaultFor f))
      (o'.getD fun expect => settle (defaultValue expect)) := by
    cases ho with
    | some h => exact h
    | none =>
        intro expect
        exact Report.covers_of_outcome (outcome_defaultFor f expect)
          (always_settle (Value.approx_refl _))
  obtain ⟨vs, hvs, hpure⟩ := Report.bind_eq_ok_iff.1 hv
  obtain rfl := Except.ok.inj hpure
  have hvalues := ensures_chain_values f hplain hoplain expect vs hvs
  have hone := covers_possible hlast expect (forall₂_arms hconds hbranches) vs hvs
  exact hone.imp fun c hc => settles_agreement hvalues hc

theorem always_of_mem_choices {expect : Expect} {es : List Pending} {es' : List Choosing}
    (h : List.Forall₂ Covered es es') {q : Choosing} (hq : q ∈ es') {vs : List Value}
    (hvs : (choose.all expect es).outcome = .ok vs) : (q expect).Always (SettlesOne vs) := by
  induction h generalizing vs with
  | nil => cases hq
  | @cons e e' es es' he _ ih =>
      obtain ⟨v, hv, hrest⟩ := Report.bind_eq_ok_iff.1 hvs
      obtain ⟨rest, hall, hpure⟩ := Report.bind_eq_ok_iff.1 hrest
      obtain rfl := Except.ok.inj hpure
      rcases List.mem_cons.1 hq with rfl | hmem
      · exact (he expect v hv).imp fun c hc => settlesOne_head rest hc
      · exact (ih hmem hall).imp fun c hc => hc.cons v

theorem covered_choice {es : List Pending} {cases' : List Choosing} {d' : Choosing}
    (h : List.Forall₂ Covered es (cases' ++ [d'])) (hplain : ∀ e ∈ es, Plain e) :
    Covered (fun expect => Value.agreement <$> choose.all expect es)
      (completeChoice cases' d') := by
  intro expect v hv
  obtain ⟨vs, hvs, rfl⟩ := Report.map_eq_ok_iff.1 hv
  have hvalues := ensures_chooseAll expect hplain vs hvs
  refine always_next.bind fun decision _ => ?_
  -- a number beyond the cases stands for the default
  have hmem : cases'[decision.branch]?.getD d' ∈ cases' ++ [d'] := by
    cases hcase : cases'[decision.branch]? with
    | none => simp
    | some q => exact List.mem_append_left _ (List.mem_of_getElem? hcase)
  exact (always_of_mem_choices h hmem hvs).imp fun c hc => settles_agreement hvalues hc

/-! ## Expressions -/

theorem settles_bool {a : Value} {b : Bool} (h : a.Approx (.bool b)) : a.Settles (.bool b) :=
  ⟨h, nofun⟩

theorem covers_or {a : Value} {s : Bool} {m : Report Value} {n : Completing Bool}
    (ha : Value.TruthApprox a (.bool s))
    (h : m.Covers (fun t b => Value.TruthApprox t (.bool b)) n) :
    (if a == .bool true then pure a else m >>= fun c => pure (a.or c)).Covers Value.Settles
      (if s then pure (.bool true) else n >>= fun b => pure (.bool b)) := by
  cases ha with
  | known =>
      cases s with
      | true => exact Report.covers_pure (settles_bool (Value.approx_refl _))
      | false =>
          refine h.bind fun c b hc => Report.covers_pure (settles_bool ?_)
          exact (Value.TruthApprox.known false).or_bool hc
  | settled =>
      cases s with
      | true =>
          -- the second operand is not looked at once the first is decided to be true
          refine Report.covers_bind_left fun c => Report.covers_pure (settles_bool ?_)
          exact Value.uncertain_or_approx c
      | false =>
          refine h.bind fun c b hc => Report.covers_pure (settles_bool ?_)
          exact (Value.TruthApprox.settled false).or_bool hc

theorem covers_and {a : Value} {s : Bool} {m : Report Value} {n : Completing Bool}
    (ha : Value.TruthApprox a (.bool s))
    (h : m.Covers (fun t b => Value.TruthApprox t (.bool b)) n) :
    (if a == .bool false then pure a else m >>= fun c => pure (a.and c)).Covers Value.Settles
      (if s then n >>= fun b => pure (.bool b) else pure (.bool false)) := by
  cases ha with
  | known =>
      cases s with
      | false => exact Report.covers_pure (settles_bool (Value.approx_refl _))
      | true =>
          refine h.bind fun c b hc => Report.covers_pure (settles_bool ?_)
          exact (Value.TruthApprox.known true).and_bool hc
  | settled =>
      cases s with
      | false =>
          refine Report.covers_bind_left fun c => Report.covers_pure (settles_bool ?_)
          exact Value.uncertain_and_approx c
      | true =>
          refine h.bind fun c b hc => Report.covers_pure (settles_bool ?_)
          exact (Value.TruthApprox.settled true).and_bool hc

theorem covered_completeExpr (hk : k.FloatFree) (hfree : f.FloatFree) (hf : f.Approx f')
    {x : Expand} {y : Signature → List Choosing → Choosing} (hxplain : PlainExpand x)
    (hx : CoveredExpand x y) (e : Expr) (he : e.FloatFree) :
    Covered (eval k f x e) (completeExpr k f' y e) := by
  induction e using Expr.children_induction with
  | step e ih =>
    have hchild : ∀ c ∈ e.children, Covered (eval k f x c) (completeExpr k f' y c) :=
      fun c hc => ih c hc (he.child hc)
    have hmap : ∀ es : List Expr, (∀ c ∈ es, c ∈ e.children) →
        List.Forall₂ Covered (es.map (eval k f x)) (es.map (completeExpr k f' y)) := by
      intro es hes
      rw [List.forall₂_map_left_iff, List.forall₂_map_right_iff, List.forall₂_same]
      exact fun c hc => hchild c (hes c hc)
    have hplain : ∀ es : List Expr, (∀ c ∈ es, c ∈ e.children) →
        ∀ p ∈ es.map (eval k f x), Plain p := by
      intro es hes p hp
      obtain ⟨c, hc, rfl⟩ := List.mem_map.1 hp
      exact plain_eval hk hfree hxplain c (he.child (hes c hc))
    by_cases hleaf : e.isLeaf = true
    · intro expect
      exact Report.covers_of_outcome (outcome_eval_leaf k f x hleaf expect)
        (always_completeExpr_leaf hf y hleaf expect)
    cases e with
    | or l r =>
        intro expect
        have hl := (hchild l (by simp [Expr.children])).test
        have hr := (hchild r (by simp [Expr.children])).test
        rw [eval, completeExpr]
        exact hl.bind fun a s has => covers_or has hr
    | and l r =>
        intro expect
        have hl := (hchild l (by simp [Expr.children])).test
        have hr := (hchild r (by simp [Expr.children])).test
        rw [eval, completeExpr]
        exact hl.bind fun a s has => covers_and has hr
    | not e =>
        intro expect
        have hoperand := (hchild e (by simp [Expr.children])).test
        rw [eval, completeExpr]
        refine hoperand.bind fun a s has => Report.covers_pure (settles_bool ?_)
        exact Value.Approx.map (f := Value.not) rfl has.approx
    | paren e =>
        rw [eval, completeExpr]
        exact hchild e (by simp [Expr.children])
    | invoke func args negated =>
        intro expect v hv
        have hcall : Covered (k.callFunction f x func (args.map (eval k f x)))
            (k.completeCall y func (args.map (completeExpr k f' y))) :=
          covered_callFunction hx func (hplain args fun c hc => hc) (hmap args fun c hc => hc)
        rw [eval_invoke] at hv
        obtain ⟨u, hu, rfl⟩ := Report.map_eq_ok_iff.1 hv
        rw [completeExpr, completeAll_eq_map]
        exact (hcall expect u hu).bind fun c hc => always_pure (settles_negateIf hc negated)
    | ifThenElse conds branches otherwise =>
        rw [eval_ifThenElse, completeExpr_ifThenElse]
        refine covered_chain (hmap conds fun c hc => by simp [Expr.children, hc])
          (hmap branches fun c hc => by simp [Expr.children, hc]) ?_
          (hplain branches fun c hc => by simp [Expr.children, hc]) ?_
        · cases otherwise with
          | none => exact .none
          | some o => exact .some (hchild o (by simp [Expr.children]))
        · intro b hb
          obtain ⟨o, rfl, rfl⟩ := Option.map_eq_some_iff.1 hb
          exact hplain [o] (by simp [Expr.children]) _ (by simp)
    | ternary c y n =>
        rw [eval, completeExpr]
        refine covered_chain (hmap [c] (by simp [Expr.children]))
          (hmap [y] (by simp [Expr.children])) (.some (hchild n (by simp [Expr.children])))
          (hplain [y] (by simp [Expr.children])) ?_
        intro b hb
        obtain rfl := Option.some.inj hb
        exact hplain [n] (by simp [Expr.children]) _ (by simp)
    | numCompare l op r =>
        intro expect
        have hl := hchild l (by simp [Expr.children]) .int
        have hr := hchild r (by simp [Expr.children]) .int
        rw [eval, completeExpr]
        refine hl.bind fun a c hac => hr.bind fun b d hbd => ?_
        exact Report.covers_of_outcome rfl (always_settle (hac.1.compare op hbd.1))
    | strCompare l op lit =>
        intro expect
        have hl := hchild l (by simp [Expr.children]) (expectLike lit)
        rw [eval_strCompare, completeExpr]
        refine hl.bind fun a c hac => ?_
        exact Report.covers_of_outcome rfl (always_settle (hac.1.compare op (Value.approx_refl _)))
    | flagMatch e mask =>
        intro expect
        have hvalue := hchild e (by simp [Expr.children]) .int
        rw [eval_flagMatch, completeExpr]
        refine hvalue.bind fun a c hac => ?_
        exact Report.covers_of_outcome rfl (always_settle (maskValue_approx mask hac.1))
    | refEqCall r op e =>
        intro expect
        have href := Report.covers_of_outcome (outcome_lookup k f r) (always_completeRef hf r)
        have hcall := hchild e (by simp [Expr.children]) (k.expectFor f r.name)
        have hexpect : k.expectFor f' r.name = k.expectFor f r.name := expectFor_eq hf.rule r.name
        rw [eval, completeExpr, hexpect]
        refine href.bind fun a c hac => hcall.bind fun b d hbd => ?_
        exact Report.covers_of_outcome rfl (always_settle (hac.1.compare op hbd.1))
    | perItem item cases d =>
        have hchoices := hmap _ fun c hc => hc
        rw [Expr.children, List.map_append, List.map_append] at hchoices
        rw [eval_perItem, completeExpr, completeCounts_eq_map, List.map_append]
        exact covered_choice hchoices (List.map_append ▸ hplain _ fun c hc => hc)
    | perSetting setting cases d =>
        have hchoices := hmap _ fun c hc => hc
        rw [Expr.children, List.map_append, List.map_append] at hchoices
        rw [eval_perSetting, completeExpr, completeOptions_eq_map, List.map_append]
        exact covered_choice hchoices (List.map_append ▸ hplain _ fun c hc => hc)
    | binOp l op r =>
        intro expect
        have hl := hchild l (by simp [Expr.children]) .int
        have hr := hchild r (by simp [Expr.children]) .int
        rw [eval, completeExpr]
        refine hl.bind fun a c hac => hr.bind fun b d hbd => ?_
        exact Report.covers_of_outcome rfl (always_settle (hac.1.arith op hbd.1))
    | call func args =>
        rw [eval_call, completeExpr, completeAll_eq_map]
        exact covered_callFunction hx func (hplain args fun c hc => hc) (hmap args fun c hc => hc)
    | _ => exact absurd rfl hleaf

/-! ## Rules -/

theorem covers_completeBindings (params : List Param) {args : List Pending}
    {args' : List Choosing} (h : List.Forall₂ Covered args args') :
    (bindParams params args).Covers BindingsApprox (completeBindings params args') := by
  unfold bindParams completeBindings
  have hgo : ∀ (params : List Param) (b b' : NameMap Value), BindingsApprox b b' →
      (bindParams.go b (params.zip args)).Covers BindingsApprox
        ((params.zip args').foldlM completeBinding b') := by
    induction h with
    | nil =>
        intro params b b' hb
        rw [List.zip_nil_right, List.zip_nil_right]
        exact Report.covers_pure hb
    | cons ha _ ih =>
        intro params b b' hb
        cases params with
        | nil => exact Report.covers_pure hb
        | cons p params =>
            rw [List.zip_cons_cons, List.zip_cons_cons, List.foldlM_cons, completeBinding,
              bind_assoc]
            refine (ha .unknown).bind fun v c hvc => ?_
            rw [pure_bind]
            exact ih params _ _ (hb.insert p.name hvc.1)
  exact hgo params ∅ ∅ fun name => by rw [NameMap.find?_empty]; exact .none

theorem coveredExpand_completeHelper (hk : k.FloatFree) {evalBody : Frame → Expr → Pending}
    {completeBody : Frame → Expr → Choosing}
    (hbody : ∀ (f f' : Frame) (e : Expr), f.FloatFree → f.Approx f' → e.FloatFree →
      Covered (evalBody f e) (completeBody f' e)) {spot spot' : String} (hspot : spot' = spot) :
    CoveredExpand (k.expandBy evalBody spot) (k.completeHelper completeBody spot') := by
  intro s args args' hplain hargs expect
  unfold expandBy completeHelper
  cases hrule : k.corpus.rules.find? s.ruleName with
  | none => exact Report.covers_of_outcome rfl (always_settle (Value.approx_refl _))
  | some r =>
      have hfree := hk.rules _ r hrule
      have hbindings := (covers_completeBindings s.params hargs).and_ensures
        (ensures_bindParams s.params hplain)
      refine hbindings.bind fun b b' hb => ?_
      cases hr : r.body with
      | actions a => exact Report.covers_of_outcome rfl (always_settle (Value.approx_refl _))
      | requirement body =>
          rw [hr] at hfree
          exact hbody ⟨r, spot, b⟩ ⟨r, spot', b'⟩ body hb.1 ⟨rfl, hspot, hb.2⟩ hfree expect

/-- A completion may expand helpers to any greater depth. -/
theorem covered_completeWithin (hk : k.FloatFree) (depth more : Nat) (f f' : Frame) (e : Expr)
    (hfree : f.FloatFree) (hf : f.Approx f') (he : e.FloatFree) :
    Covered (k.evalWithin depth f e) (k.completeWithin (depth + more) f' e) := by
  induction depth generalizing f f' e with
  | zero =>
      -- evaluation has no value where a helper is called, so what the completion does is the same
      have hplain : PlainExpand fun s _ _ => .abandon (.endlessHelpers f.rule.name s.name) := by
        intro s args _ expect v hv
        cases hv
      have habandoned : ∀ y, CoveredExpand
          (fun s _ _ => .abandon (.endlessHelpers f.rule.name s.name)) y := by
        intro y s args args' _ _ expect v hv
        cases hv
      cases more with
      | zero => exact covered_completeExpr hk hfree hf hplain (habandoned _) e he
      | succ more =>
          rw [Nat.zero_add]
          exact covered_completeExpr hk hfree hf hplain (habandoned _) e he
  | succ depth ih =>
      rw [evalWithin_succ, Nat.succ_add, completeWithin]
      refine covered_completeExpr hk hfree hf ?_ ?_ e he
      · exact plainExpand_expandBy hk (plain_evalWithin hk depth) f.spot
      · exact coveredExpand_completeHelper hk ih hf.spot

theorem covers_complete (hk : k.FloatFree) {r : Rule} (hr : r.body.FloatFree) (spot : String)
    {depth : Nat} (hdepth : maxHelperDepth ≤ depth) :
    (k.evaluate r spot).Covers Value.Settles (k.complete depth r spot) := by
  obtain ⟨more, rfl⟩ := Nat.exists_eq_add_of_le hdepth
  unfold evaluate complete
  cases hbody : r.body with
  | actions a => exact Report.covers_of_outcome rfl (always_settle (Value.approx_refl _))
  | requirement e =>
      rw [hbody] at hr
      exact covered_completeWithin hk maxHelperDepth more _ _ e (frame_floatFree_of_unbound r spot)
        (frame_approx_refl _) hr .bool

theorem complete_eq_of_certain (hk : k.FloatFree) {r : Rule} (hr : r.body.FloatFree)
    {spot : String} {v : Value} (hv : (k.evaluate r spot).outcome = .ok v)
    (hcertain : v ≠ .uncertain) (depth : Nat) (hdepth : maxHelperDepth ≤ depth) (c : Completion) :
    (k.complete depth r spot).run' c = .ok v := by
  obtain ⟨u, hrun, hu⟩ := (covers_complete hk hr spot hdepth v hv).run_eq c
  rw [hrun, hu.1.eq hcertain]

end Knowledge

/-! ## Pruning -/

/-- No float occurs in what a compilation reads of the catalog. -/
structure Catalog.FloatFree (c : Catalog) : Prop where
  consts : ∀ name j, c.consts.find? name = some j → j.FloatFree
  data : ∀ name j, c.data.find? name = some j → j.FloatFree
  spots : ∀ d ∈ c.spots, ∀ name j, d.2.data.find? name = some j → j.FloatFree

theorem StaticTable.notFloat_dataValue (c : Catalog) {j : Json} (h : j.FloatFree) :
    (dataValue c j).NotFloat := by
  cases j with
  | str s =>
      simp only [dataValue]
      split
      · exact Value.notFloat_place s
      · exact Value.notFloat_ofJson h
  | _ => exact Value.notFloat_ofJson h

theorem StaticTable.floatFree_ofCatalog {c : Catalog} (h : c.FloatFree) :
    (ofCatalog c).FloatFree := by
  intro spot name
  rw [lookup_ofCatalog]
  cases hoverride : c.override? spot name with
  | some j =>
      obtain ⟨d, hd, hfind⟩ := List.mem_filterMap.1 (List.mem_of_getLast? hoverride)
      split at hfind
      · exact notFloat_dataValue c (h.spots d hd name j hfind)
      · cases hfind
  | none =>
      cases hdata : c.data.find? name with
      | some j => exact notFloat_dataValue c (h.data name j hdata)
      | none => exact Value.notFloat_uncertain

/-- A certain value of a rule is its value under every completion. In particular a rule that is
    pruned is false under every completion. -/
theorem pruning_sound :
    (∀ (k : Knowledge) (r : Rule) (spot : String) (v : Value), k.FloatFree → r.body.FloatFree →
      (k.evaluate r spot).outcome = .ok v → v ≠ .uncertain →
      ∀ depth ≥ maxHelperDepth, ∀ c : Completion, (k.complete depth r spot).run' c = .ok v) ∧
    (∀ (w : Workspace) (o : CompileOptions) (comp : Compilation) (name : String) (out : RuleOutput),
      w.catalog.FloatFree → (∀ r ∈ w.corpus.rules.values, r.body.FloatFree) →
      (w.compile o).outcome = .ok comp → comp.rules.find? name = some out → out.pruned = true →
      ∃ r ∈ w.corpus.rules.values, ∃ spot, r.name = name ∧ r.spot = some spot ∧
        ∀ depth ≥ maxHelperDepth, ∀ c : Completion, ∃ v,
          (Knowledge.complete ⟨w, comp.contexts, .ofCatalog w.catalog⟩ depth r spot).run' c
            = .ok v ∧
          v.isFalse = true) := by
  refine ⟨fun k r spot v hk hr => Knowledge.complete_eq_of_certain hk hr, ?_⟩
  intro w o comp name out hcatalog hrules hcomp hout hpruned
  obtain ⟨r, hmem, hname, hcompile⟩ := Workspace.exists_rule_of_output hcomp hout
  obtain ⟨spot, v, hspot, hv, hfalse⟩ := Workspace.false_of_pruned hcompile hpruned
  have hk : Knowledge.FloatFree ⟨w, comp.contexts, .ofCatalog w.catalog⟩ :=
    ⟨hcatalog.consts, StaticTable.floatFree_ofCatalog hcatalog,
      fun name r hr => hrules r (NameMap.mem_values_of_find? hr)⟩
  have hcertain : v ≠ .uncertain := by
    rintro rfl
    cases hfalse
  refine ⟨r, hmem, spot, hname, hspot, fun depth hdepth c => ⟨v, ?_, hfalse⟩⟩
  exact Knowledge.complete_eq_of_certain hk (hrules r hmem) hv hcertain depth hdepth c

theorem shutGate_catalog_floatFree : shutGate.catalog.FloatFree := by
  refine ⟨nofun, ?_, ?_⟩
  · intro name j hj
    obtain ⟨_, rfl⟩ := Prod.mk.inj (List.mem_singleton.1 (NameMap.mem_of_find?_ofList hj))
    exact nofun
  · have hspots : shutGate.catalog.spots = [("Cave > Entry > Gate", {})] := rfl
    rw [hspots, List.forall_mem_singleton]
    exact nofun

theorem passGate_never_holds :
    (∀ depth ≥ maxHelperDepth, ∀ c : Completion,
      (Knowledge.complete ⟨shutGate, ∅, shutTable⟩ depth passGate "Cave > Entry > Gate").run' c
        = .ok (.bool false)) ∧
    ∃ comp out, (shutGate.compile {}).outcome = .ok comp ∧
      comp.rules.find? "rules:pass" = some out ∧ out.pruned = true ∧
      ∃ r ∈ shutGate.corpus.rules.values, ∃ spot, r.name = "rules:pass" ∧ r.spot = some spot ∧
        ∀ depth ≥ maxHelperDepth, ∀ c : Completion, ∃ v,
          (Knowledge.complete ⟨shutGate, comp.contexts, .ofCatalog shutGate.catalog⟩ depth r
            spot).run' c = .ok v ∧
          v.isFalse = true := by
  obtain ⟨comp, hcomp, out, hout, hpruned⟩ : ∃ comp, (shutGate.compile {}).outcome = .ok comp ∧
      ∃ out, comp.rules.find? "rules:pass" = some out ∧ out.pruned = true :=
    ⟨_, rfl, _, rfl, rfl⟩
  refine ⟨?_, comp, out, hcomp, hout, hpruned, ?_⟩
  · exact pruning_sound.1 _ _ _ _ shutGate_floatFree passGate_floatFree rfl nofun
  · exact pruning_sound.2 _ _ _ _ _ shutGate_catalog_floatFree shutGate_rules_floatFree hcomp hout
      hpruned

end AccessRules
