import AccessRules.Proofs.Collection.NameMap
import AccessRules.Proofs.Reachability.Approximation
import AccessRules.Proofs.Reachability.Evaluation

set_option autoImplicit false

/-! # Evaluation without floats

Where no float is written, in expressions, constants or static data, evaluation yields a float only
as the value that stands for none where a float is expected, and that is zero: `plain_evalWithin`.
So values that compare as equal are the same, and agreement of branches means what it says. -/

namespace AccessRules

/-! ## What is written -/

/-- The node itself writes no float that evaluation could meet. -/
def Expr.NoFloatHere : Expr → Prop
  | .float _ => False
  | .strCompare _ _ (.float _) => False
  | _ => True

/-- No float is written in the expression, the keys of choices apart. -/
def Expr.FloatFree (e : Expr) : Prop :=
  e.Every Expr.NoFloatHere

theorem Expr.FloatFree.child {e c : Expr} (h : e.FloatFree) (hc : c ∈ e.children) : c.FloatFree :=
  Every.child h hc

theorem Expr.floatFree_of_isLeaf {e : Expr} (hleaf : e.isLeaf = true) (h : e.NoFloatHere) :
    e.FloatFree := by
  refine .node h fun c hc => ?_
  rw [children_of_isLeaf hleaf] at hc
  cases hc

/-- No float is written in what evaluation may read of the body. -/
def Body.FloatFree : Body → Prop
  | .requirement e => e.FloatFree
  | .actions _ => True

/-- The structured value is a number only if it is one of 64 bits. -/
def Json.FloatFree (j : Json) : Prop :=
  ∀ n, j = .num n → n.word?.isSome

/-- No static datum is a float. -/
def StaticTable.FloatFree (t : StaticTable) : Prop :=
  ∀ spot name, (t.lookup spot name).NotFloat

theorem StaticTable.floatFree_empty : StaticTable.FloatFree {} := by
  intro spot name
  simp only [lookup, NameMap.find?_empty]
  exact Value.notFloat_uncertain

theorem StaticTable.FloatFree.setDefault {t : StaticTable} (h : t.FloatFree) (name : String)
    {v : Value} (hv : v.NotFloat) : (t.setDefault name v).FloatFree := by
  intro spot other
  have hother := h spot other
  simp only [lookup, StaticTable.setDefault, NameMap.find?_insert] at hother ⊢
  split
  · rename_i hown
    rw [hown] at hother
    exact hother
  · split
    · exact hv
    · rename_i hown _
      rw [hown] at hother
      exact hother

/-- No parameter is bound to a float. -/
def Frame.FloatFree (f : Frame) : Prop :=
  ∀ name v, f.bindings.find? name = some v → v.NotFloat

/-- No float occurs in what rules are evaluated with. -/
structure Knowledge.FloatFree (k : Knowledge) : Prop where
  consts : ∀ name j, k.catalog.consts.find? name = some j → j.FloatFree
  statics : k.statics.FloatFree
  rules : ∀ name r, k.corpus.rules.find? name = some r → r.body.FloatFree

theorem Value.notFloat_ofJson {j : Json} (h : j.FloatFree) : (Value.ofJson j).NotFloat := by
  cases j with
  | num n =>
      obtain ⟨w, hw⟩ := Option.isSome_iff_exists.1 (h n rfl)
      simp only [Value.ofJson, Literal.ofJson?, hw]
      nofun
  | str s =>
      simp only [Value.ofJson, Literal.ofJson?]
      split <;> nofun
  | _ => nofun

namespace Knowledge

/-! ## What is evaluated -/

/-- Whatever is expected, the expression yields a float only as zero where a float is expected. -/
def Plain (p : Pending) : Prop :=
  ∀ expect, (p expect).Ensures (Value.PlainFor expect)

theorem Plain.ensures_notFloat {p : Pending} (h : Plain p) (expect : Expect)
    (hexpect : expect ≠ .float) : (p expect).Ensures Value.NotFloat :=
  (h expect).imp fun _ hv => hv.notFloat hexpect

/-- An expression that never yields a float is plain. -/
theorem plain_of_notFloat {p : Pending} (h : ∀ expect, (p expect).Ensures Value.NotFloat) :
    Plain p :=
  fun expect => (h expect).imp fun _ hv => hv.plainFor

theorem ensures_test (p : Pending) : (test p).Ensures Value.NotFloat := by
  intro v hv
  obtain ⟨u, _, rfl⟩ := Report.map_eq_ok_iff.1 hv
  exact Value.notFloat_truth u

variable {k : Knowledge} {f : Frame}

theorem notFloat_lookupName (hk : k.FloatFree) (hf : f.FloatFree) (name : String) :
    (k.lookupName f name).NotFloat := by
  unfold lookupName
  cases hbound : f.bindings.find? name with
  | some v => exact hf name v hbound
  | none =>
      cases f.rule.resolve? k.catalog name with
      | none => exact Value.notFloat_uncertain
      | some path => exact hk.statics f.spot path

theorem notFloat_lookupVia (hk : k.FloatFree) (path : String) (v : Value) :
    (k.lookupVia path v).NotFloat := by
  unfold lookupVia
  split
  · split
    · exact Value.notFloat_uncertain
    · exact hk.statics _ path
  · exact Value.notFloat_uncertain

theorem notFloat_lookupValue (hk : k.FloatFree) (hf : f.FloatFree) (r : Reference) :
    (k.lookupValue f r).NotFloat := by
  obtain ⟨name, _ | q⟩ := r
  · exact notFloat_lookupName hk hf name
  · simp only [lookupValue]
    cases f.rule.resolve? k.catalog name with
    | none => exact Value.notFloat_uncertain
    | some path =>
        cases q with
        | place p => exact hk.statics p path
        | ref other => exact notFloat_lookupVia hk path _

/-! ## Calls -/

theorem plainFor_defaultValue (expect : Expect) : (defaultValue expect).PlainFor expect := by
  intro x hx
  cases expect with
  | float =>
      obtain rfl := Value.float.inj hx
      exact ⟨rfl, rfl⟩
  | enum default => cases default <;> cases hx
  | _ => cases hx

theorem notFloat_ancestorValue (kind : PlaceKind) (values : List Value) :
    (ancestorValue kind values).NotFloat := by
  unfold ancestorValue
  split
  · cases Place.ancestor? _ kind <;> nofun
  · nofun

theorem notFloat_extremum (pick : Int64 → Int64 → Int64) (values : List Value) :
    (extremum pick values).NotFloat := by
  unfold extremum
  split <;> nofun

theorem plainFor_builtinValue (name : String) (expect : Expect) (values : List Value) :
    (builtinValue name expect values).PlainFor expect := by
  unfold builtinValue
  split
  · exact plainFor_defaultValue expect
  · split
    · exact (notFloat_ancestorValue _ values).plainFor
    · split
      · exact (notFloat_ancestorValue _ values).plainFor
      · split
        · exact (notFloat_extremum _ values).plainFor
        · split
          · exact (notFloat_extremum _ values).plainFor
          · exact Value.notFloat_uncertain.plainFor

theorem plain_callBuiltin (f : Frame) (name : String) (args : List Pending) :
    Plain (callBuiltin f name args) := by
  intro expect v hv
  rw [outcome_callBuiltin] at hv
  cases hargs : (evalArgs args).outcome with
  | error d =>
      rw [hargs] at hv
      cases hv
  | ok values =>
      rw [hargs] at hv
      obtain rfl := Except.ok.inj hv
      exact plainFor_builtinValue name expect values

/-- Helpers give plain values for plain arguments. -/
def PlainExpand (expand : Expand) : Prop :=
  ∀ s args, (∀ a ∈ args, Plain a) → Plain (expand s args)

theorem plain_callFunction {expand : Expand} (hx : PlainExpand expand) (func : String)
    {args : List Pending} (hargs : ∀ a ∈ args, Plain a) :
    Plain (k.callFunction f expand func args) := by
  unfold callFunction
  cases k.corpus.resolve func with
  | builtin b => exact plain_callBuiltin f b.name args
  | helper s => exact hx s args hargs
  | rule r => exact fun _ => Report.ensures_pure Value.notFloat_uncertain.plainFor
  | unknown => exact fun _ => Report.ensures_pure Value.notFloat_uncertain.plainFor

/-! ## Conditionals -/

/-- All values in the list are plain. -/
abbrev AllPlain (expect : Expect) (vs : List Value) : Prop :=
  ∀ v ∈ vs, v.PlainFor expect

theorem allPlain_nil (expect : Expect) : AllPlain expect [] :=
  List.forall_mem_nil _

theorem allPlain_cons {expect : Expect} {v : Value} {vs : List Value} (hv : v.PlainFor expect)
    (hvs : AllPlain expect vs) : AllPlain expect (v :: vs) :=
  List.forall_mem_cons.2 ⟨hv, hvs⟩

theorem ensures_possible {otherwise : Pending} (ho : Plain otherwise) (expect : Expect)
    {arms : List (Pending × Pending)} (harms : ∀ arm ∈ arms, Plain arm.2) :
    (possible otherwise expect arms).Ensures (AllPlain expect) := by
  induction arms with
  | nil =>
      rw [possible]
      refine (ho expect).bind fun v hv => Report.ensures_pure ?_
      exact allPlain_cons hv (allPlain_nil expect)
  | cons arm arms ih =>
      obtain ⟨cond, branch⟩ := arm
      have hbranch : Plain branch := harms (cond, branch) (List.mem_cons_self ..)
      have hrest := ih fun arm harm => harms arm (List.mem_cons_of_mem _ harm)
      rw [possible]
      refine (Report.ensures_true _).bind fun t _ => ?_
      split
      · exact hrest
      · refine (hbranch expect).bind fun v hv => Report.ensures_pure ?_
        exact allPlain_cons hv (allPlain_nil expect)
      · refine (hbranch expect).bind fun v hv => hrest.bind fun vs hvs => Report.ensures_pure ?_
        exact allPlain_cons hv hvs

theorem plain_defaultFor (f : Frame) : Plain (defaultFor f) := by
  intro expect v hv
  rw [outcome_defaultFor] at hv
  obtain rfl := Except.ok.inj hv
  exact plainFor_defaultValue expect

/-- The values that a chain collects are plain. -/
theorem ensures_chain_values (f : Frame) {conds branches : List Pending}
    {otherwise : Option Pending} (hbranches : ∀ b ∈ branches, Plain b)
    (ho : ∀ o, otherwise = some o → Plain o) (expect : Expect) :
    (possible (otherwise.getD (defaultFor f)) expect (conds.zip branches)).Ensures
      (AllPlain expect) := by
  have hlast : Plain (otherwise.getD (defaultFor f)) := by
    cases otherwise with
    | none => exact plain_defaultFor f
    | some o => exact ho o rfl
  have harms : ∀ arm ∈ conds.zip branches, Plain arm.2 :=
    fun arm harm => hbranches arm.2 (List.of_mem_zip harm).2
  exact ensures_possible hlast expect harms

theorem plain_chain (f : Frame) {conds branches : List Pending} {otherwise : Option Pending}
    (hbranches : ∀ b ∈ branches, Plain b) (ho : ∀ o, otherwise = some o → Plain o) :
    Plain (chain f conds branches otherwise) := by
  intro expect
  rw [chain]
  exact (ensures_chain_values f hbranches ho expect).bind fun vs hvs =>
    Report.ensures_pure (Value.plainFor_agreement hvs)

theorem ensures_chooseAll (expect : Expect) {es : List Pending} (hes : ∀ e ∈ es, Plain e) :
    (choose.all expect es).Ensures (AllPlain expect) := by
  induction es with
  | nil => exact Report.ensures_pure (allPlain_nil expect)
  | cons e es ih =>
      rw [choose.all]
      refine (hes e (List.mem_cons_self ..) expect).bind fun v hv => ?_
      refine (ih fun e he => hes e (List.mem_cons_of_mem _ he)).bind fun vs hvs => ?_
      exact Report.ensures_pure (allPlain_cons hv hvs)

theorem plain_agreement_chooseAll {es : List Pending} (hes : ∀ e ∈ es, Plain e) :
    Plain fun expect => Value.agreement <$> choose.all expect es := by
  intro expect v hv
  obtain ⟨vs, hvs, rfl⟩ := Report.map_eq_ok_iff.1 hv
  exact Value.plainFor_agreement (ensures_chooseAll expect hes vs hvs)

/-! ## Expressions -/

theorem notFloat_negateIf {v : Value} (h : v.NotFloat) (negated : Bool) :
    (v.negateIf negated).NotFloat := by
  cases negated
  · exact h
  · exact Value.notFloat_not v

theorem notFloat_isMember (v : Value) (members : Members) : (isMember v members).NotFloat := by
  unfold isMember
  split <;> nofun

theorem notFloat_isWithin (f : Frame) (v : Value) : (isWithin f v).NotFloat := by
  unfold isWithin
  split <;> nofun

theorem notFloat_maskValue (mask : Int64) (v : Value) : (maskValue mask v).NotFloat := by
  unfold maskValue
  split <;> nofun

theorem notFloat_or {a b : Value} (ha : a.NotFloat) (hb : b.NotFloat) : (a.or b).NotFloat := by
  unfold Value.or
  split
  · exact ha
  · split
    · exact hb
    · split <;> nofun

theorem notFloat_and {a b : Value} (ha : a.NotFloat) (hb : b.NotFloat) : (a.and b).NotFloat := by
  unfold Value.and
  split
  · exact ha
  · split
    · exact hb
    · split <;> nofun

theorem notFloat_leafValue (hk : k.FloatFree) (hf : f.FloatFree) {e : Expr} (he : e.FloatFree) :
    (k.leafValue f e).NotFloat := by
  cases e with
  | refEq r op rhs => exact Value.notFloat_compare _ op _
  | argFlag r negated => exact notFloat_negateIf (Value.notFloat_truth _) negated
  | refInSet r members => exact notFloat_isMember _ members
  | within p negated => exact notFloat_negateIf (notFloat_isWithin f _) negated
  | float x => exact absurd he.self id
  | ref r => exact notFloat_lookupValue hk hf r
  | const name =>
      simp only [leafValue]
      cases hconst : k.catalog.consts.find? name with
      | none => exact Value.notFloat_uncertain
      | some j => exact Value.notFloat_ofJson (hk.consts name j hconst)
  | _ => nofun

theorem plain_eval (hk : k.FloatFree) (hf : f.FloatFree) {expand : Expand}
    (hx : PlainExpand expand) (e : Expr) (he : e.FloatFree) : Plain (eval k f expand e) := by
  induction e using Expr.children_induction with
  | step e ih =>
    have hchild : ∀ c ∈ e.children, Plain (eval k f expand c) :=
      fun c hc => ih c hc (he.child hc)
    have hmap : ∀ es : List Expr, (∀ c ∈ es, c ∈ e.children) →
        ∀ p ∈ es.map (eval k f expand), Plain p := by
      intro es hes p hp
      obtain ⟨c, hc, rfl⟩ := List.mem_map.1 hp
      exact hchild c (hes c hc)
    -- only branches and calls pass a value on as it is; all other nodes make one of their own
    by_cases hleaf : e.isLeaf = true
    · intro expect v hv
      rw [outcome_eval_leaf k f expand hleaf] at hv
      obtain rfl := Except.ok.inj hv
      exact (notFloat_leafValue hk hf he).plainFor
    cases e with
    | or l r =>
        refine plain_of_notFloat fun expect => ?_
        rw [eval]
        refine (ensures_test _).bind fun a ha => ?_
        split
        · exact Report.ensures_pure ha
        · exact (ensures_test _).bind fun b hb => Report.ensures_pure (notFloat_or ha hb)
    | and l r =>
        refine plain_of_notFloat fun expect => ?_
        rw [eval]
        refine (ensures_test _).bind fun a ha => ?_
        split
        · exact Report.ensures_pure ha
        · exact (ensures_test _).bind fun b hb => Report.ensures_pure (notFloat_and ha hb)
    | not e =>
        refine plain_of_notFloat fun expect => ?_
        rw [eval]
        exact (ensures_test _).bind fun a _ => Report.ensures_pure (Value.notFloat_not a)
    | paren e => exact hchild e (by simp [Expr.children])
    | invoke func args negated =>
        intro expect v hv
        rw [eval_invoke] at hv
        obtain ⟨u, hu, rfl⟩ := Report.map_eq_ok_iff.1 hv
        cases negated with
        | false => exact plain_callFunction hx func (hmap args fun c hc => hc) expect u hu
        | true => exact (Value.notFloat_not u).plainFor
    | ifThenElse conds branches otherwise =>
        rw [eval_ifThenElse]
        refine plain_chain f (hmap branches fun c hc => by simp [Expr.children, hc]) fun o ho => ?_
        obtain ⟨c, hc, rfl⟩ := Option.map_eq_some_iff.1 ho
        exact hchild c (by simp [Expr.children, hc])
    | ternary c y n =>
        rw [eval]
        refine plain_chain f (fun b hb => ?_) fun o ho => ?_
        · obtain rfl := List.mem_singleton.1 hb
          exact hchild y (by simp [Expr.children])
        · obtain rfl := Option.some.inj ho
          exact hchild n (by simp [Expr.children])
    | numCompare l op r =>
        refine plain_of_notFloat fun expect => ?_
        rw [eval]
        exact (Report.ensures_true _).bind fun a _ => (Report.ensures_true _).bind fun b _ =>
          Report.ensures_pure (Value.notFloat_compare a op b)
    | strCompare l op lit =>
        refine plain_of_notFloat fun expect => ?_
        rw [eval_strCompare]
        exact (Report.ensures_true _).bind fun a _ =>
          Report.ensures_pure (Value.notFloat_compare a op _)
    | flagMatch e mask =>
        refine plain_of_notFloat fun expect => ?_
        rw [eval_flagMatch]
        exact (Report.ensures_true _).bind fun a _ =>
          Report.ensures_pure (notFloat_maskValue mask a)
    | refEqCall r op e =>
        refine plain_of_notFloat fun expect => ?_
        rw [eval]
        exact (Report.ensures_true _).bind fun a _ => (Report.ensures_true _).bind fun b _ =>
          Report.ensures_pure (Value.notFloat_compare a op b)
    | perItem item cases d =>
        rw [eval_perItem]
        exact plain_agreement_chooseAll (hmap _ fun c hc => hc)
    | perSetting setting cases d =>
        rw [eval_perSetting]
        exact plain_agreement_chooseAll (hmap _ fun c hc => hc)
    | binOp l op r =>
        refine plain_of_notFloat fun expect => ?_
        rw [eval]
        have hint : Expect.int ≠ .float := by
          intro h
          cases h
        have hl := (hchild l (by simp [Expr.children])).ensures_notFloat .int hint
        have hr := (hchild r (by simp [Expr.children])).ensures_notFloat .int hint
        exact hl.bind fun a ha => hr.bind fun b hb =>
          Report.ensures_pure (Value.notFloat_arith ha hb op)
    | call func args =>
        rw [eval_call]
        exact plain_callFunction hx func (hmap args fun c hc => hc)
    | _ => exact absurd rfl hleaf

/-! ## Rules -/

theorem ensures_bindParams (params : List Param) {args : List Pending}
    (hargs : ∀ a ∈ args, Plain a) :
    (bindParams params args).Ensures fun bindings =>
      ∀ name v, bindings.find? name = some v → v.NotFloat := by
  have hgo : ∀ (pairs : List (Param × Pending)) (bindings : NameMap Value),
      (∀ pair ∈ pairs, Plain pair.2) →
      (∀ name v, bindings.find? name = some v → v.NotFloat) →
      (bindParams.go bindings pairs).Ensures fun bindings =>
        ∀ name v, bindings.find? name = some v → v.NotFloat := by
    intro pairs
    induction pairs with
    | nil => intro bindings _ hb; exact Report.ensures_pure hb
    | cons pair pairs ih =>
        intro bindings hpairs hb
        obtain ⟨p, a⟩ := pair
        -- nothing is expected of an argument, so it is no float at all
        have ha := (hpairs (p, a) (List.mem_cons_self ..)).ensures_notFloat .unknown nofun
        rw [bindParams.go]
        refine ha.bind fun v hv => ih _ (fun q hq => hpairs q (List.mem_cons_of_mem _ hq)) ?_
        intro name u hu
        rw [NameMap.find?_insert] at hu
        split at hu
        · obtain rfl := Option.some.inj hu
          exact hv
        · exact hb name u hu
  refine hgo _ ∅ (fun pair hpair => hargs pair.2 (List.of_mem_zip hpair).2) ?_
  intro name v hv
  rw [NameMap.find?_empty] at hv
  cases hv

theorem plainExpand_expandBy (hk : k.FloatFree) {evalBody : Frame → Expr → Pending}
    (hbody : ∀ (f : Frame) (e : Expr), f.FloatFree → e.FloatFree → Plain (evalBody f e))
    (spot : String) : PlainExpand (k.expandBy evalBody spot) := by
  intro s args hargs expect
  unfold expandBy
  cases hrule : k.corpus.rules.find? s.ruleName with
  | none => exact Report.ensures_pure Value.notFloat_uncertain.plainFor
  | some r =>
      have hfree := hk.rules _ r hrule
      refine (ensures_bindParams s.params hargs).bind fun bindings hb => ?_
      cases hr : r.body with
      | actions a => exact Report.ensures_pure Value.notFloat_uncertain.plainFor
      | requirement body =>
          rw [hr] at hfree
          exact hbody ⟨r, spot, bindings⟩ body hb hfree expect

/-- Without floats to begin with, evaluation yields none but the zero that stands for none. -/
theorem plain_evalWithin (hk : k.FloatFree) (depth : Nat) (f : Frame) (e : Expr)
    (hf : f.FloatFree) (he : e.FloatFree) : Plain (k.evalWithin depth f e) := by
  induction depth generalizing f e with
  | zero =>
      refine plain_eval hk hf ?_ e he
      intro s args _ expect v hv
      cases hv
  | succ depth ih =>
      rw [evalWithin_succ]
      exact plain_eval hk hf (plainExpand_expandBy hk ih f.spot) e he

end Knowledge

end AccessRules
