import AccessRules.Compile
import AccessRules.Proofs.Reachability.FloatFree

set_option autoImplicit false

/-! # More static data decides more

A static table that agrees with another wherever the other is certain can only settle what was
uncertain before: `Knowledge.evaluate_mono`. The two evaluations do not run in step. Where a
condition is uncertain to the first, all branches are evaluated; the second may take one of them.
What relates them is that each value the second collects is approximated by one that the first
collects.

Agreement of branches respects this only as long as equal values are the same, so no float may
occur; see `Knowledge.plain_evalWithin`. -/

namespace AccessRules

/-- Wherever the first table is certain, the second has the same value. -/
def StaticTable.Approx (t t' : StaticTable) : Prop :=
  ∀ spot name, (t.lookup spot name).Approx (t'.lookup spot name)

/-- A default for a name that had none adds to what is known. -/
theorem StaticTable.approx_setDefault {t : StaticTable} {name : String}
    (h : t.defaults.find? name = none) (v : Value) : t.Approx (t.setDefault name v) := by
  intro spot other
  simp only [lookup, setDefault, NameMap.find?_insert]
  cases t.spots.find? spot >>= fun data => data.find? other with
  | some own => exact Value.approx_refl _
  | none =>
      by_cases hsame : other = name
      · subst hsame
        simp [h]
      · simp [hsame]

/-- The same names are bound, to values of which the first approximate the second. -/
abbrev BindingsApprox (b b' : NameMap Value) : Prop :=
  ∀ name, Option.Rel Value.Approx (b.find? name) (b'.find? name)

theorem BindingsApprox.insert {b b' : NameMap Value} (h : BindingsApprox b b') (name : String)
    {v w : Value} (hvw : v.Approx w) : BindingsApprox (b.insert name v) (b'.insert name w) := by
  intro other
  rw [NameMap.find?_insert, NameMap.find?_insert]
  split
  · exact .some hvw
  · exact h other

/-- The same rule at the same spot, with bindings of which the first approximate the second. -/
structure Frame.Approx (f f' : Frame) : Prop where
  rule : f'.rule = f.rule
  spot : f'.spot = f.spot
  bindings : BindingsApprox f.bindings f'.bindings

namespace Knowledge

/-- The same knowledge with another static table. -/
def withStatics (k : Knowledge) (t : StaticTable) : Knowledge :=
  { k with statics := t }

variable {k : Knowledge} {t' : StaticTable} {f f' : Frame}

/-! ## References and leaves -/

theorem lookupName_approx (ht : k.statics.Approx t') (hf : f.Approx f') (name : String) :
    (k.lookupName f name).Approx ((k.withStatics t').lookupName f' name) := by
  unfold lookupName
  have hbound := hf.bindings name
  generalize f.bindings.find? name = bound at hbound
  generalize f'.bindings.find? name = bound' at hbound
  cases hbound with
  | some h => exact h
  | none =>
      rw [hf.rule, hf.spot]
      show Value.Approx _ ((f.rule.resolve? k.catalog name).elim .uncertain (t'.lookup f.spot))
      cases f.rule.resolve? k.catalog name with
      | none => exact Value.approx_refl _
      | some path => exact ht f.spot path

theorem lookupVia_approx (ht : k.statics.Approx t') (path : String) {q q' : Value}
    (h : q.Approx q') :
    (k.lookupVia path q).Approx ((k.withStatics t').lookupVia path q') := by
  rcases h with rfl | rfl
  · exact Value.uncertain_approx _
  · cases q with
    | place p =>
        simp only [lookupVia]
        split
        · exact Value.approx_refl _
        · exact ht p path
    | _ => exact Value.approx_refl _

theorem lookupValue_approx (ht : k.statics.Approx t') (hf : f.Approx f') (r : Reference) :
    (k.lookupValue f r).Approx ((k.withStatics t').lookupValue f' r) := by
  obtain ⟨name, _ | q⟩ := r
  · exact lookupName_approx ht hf name
  · have hresolve : f'.rule.resolve? (k.withStatics t').catalog name
        = f.rule.resolve? k.catalog name := by
      rw [hf.rule]
      rfl
    simp only [lookupValue, hresolve]
    cases f.rule.resolve? k.catalog name with
    | none => exact Value.approx_refl _
    | some path =>
        cases q with
        | place p => exact ht p path
        | ref other => exact lookupVia_approx ht path (lookupName_approx ht hf other)

theorem comparandValue_approx (ht : k.statics.Approx t') (hf : f.Approx f') (rhs : Comparand) :
    (k.comparandValue f rhs).Approx ((k.withStatics t').comparandValue f' rhs) := by
  cases rhs with
  | ref other => exact lookupValue_approx ht hf other
  | _ => exact Value.approx_refl _

theorem placeArgValue_approx (ht : k.statics.Approx t') (hf : f.Approx f') (p : PlaceArg) :
    (k.placeArgValue f p).Approx ((k.withStatics t').placeArgValue f' p) := by
  cases p with
  | literal path => exact Value.approx_refl _
  | ref r => exact lookupValue_approx ht hf r

theorem isWithin_approx (hspot : f'.spot = f.spot) {v v' : Value} (h : v.Approx v') :
    (isWithin f v).Approx (isWithin f' v') := by
  have hsame : isWithin f' = isWithin f := by
    funext u
    unfold isWithin
    rw [hspot]
  rw [hsame]
  exact h.map rfl

theorem isMember_approx (members : Members) {v v' : Value} (h : v.Approx v') :
    (isMember v members).Approx (isMember v' members) := by
  rcases h with rfl | rfl
  · exact Value.uncertain_approx _
  · exact Value.approx_refl _

theorem leafValue_approx (ht : k.statics.Approx t') (hf : f.Approx f') (e : Expr) :
    (k.leafValue f e).Approx ((k.withStatics t').leafValue f' e) := by
  cases e with
  | refEq r op rhs =>
      exact (lookupValue_approx ht hf r).compare op (comparandValue_approx ht hf rhs)
  | argFlag r negated => exact (lookupValue_approx ht hf r).truth.approx.negateIf negated
  | refInSet r members => exact isMember_approx members (lookupValue_approx ht hf r)
  | within p negated =>
      exact (isWithin_approx hf.spot (placeArgValue_approx ht hf p)).negateIf negated
  | ref r => exact lookupValue_approx ht hf r
  | _ => exact Value.approx_refl _

/-! ## What is evaluated -/

/-- Whatever is expected, `q` has a value where `p` has one, and that of `p` approximates it. -/
def Follows (p q : Pending) : Prop :=
  ∀ expect, (p expect).Refines Value.Approx (q expect)

theorem follows_of_outcome {p q : Pending} {v w : Expect → Value}
    (hp : ∀ expect, (p expect).outcome = .ok (v expect))
    (hq : ∀ expect, (q expect).outcome = .ok (w expect))
    (h : ∀ expect, (v expect).Approx (w expect)) : Follows p q :=
  fun expect => Report.refines_of_outcome (hp expect) (hq expect) (h expect)

theorem Follows.test {p q : Pending} (h : Follows p q) :
    (test p).Refines Value.TruthApprox (test q) :=
  (h .bool).map fun _ _ hab => hab.truth

theorem follows_lookup (ht : k.statics.Approx t') (hf : f.Approx f') (r : Reference) :
    (k.lookup f r).Refines Value.Approx ((k.withStatics t').lookup f' r) :=
  Report.refines_of_outcome (outcome_lookup k f r) (outcome_lookup _ f' r)
    (lookupValue_approx ht hf r)

/-! ## Calls -/

theorem refines_evalArgs {args args' : List Pending} (h : List.Forall₂ Follows args args') :
    (evalArgs args).Refines (List.Forall₂ Value.Approx) (evalArgs args') := by
  induction h with
  | nil => exact Report.refines_pure .nil
  | cons ha _ ih =>
      refine (ha .unknown).bind fun v w hvw => ih.bind fun vs ws hvs => ?_
      exact Report.refines_pure (.cons hvw hvs)

/-- Values that approximate others are the same, unless one of them is uncertain. -/
theorem uncertain_mem_or_eq {vs ws : List Value} (h : List.Forall₂ Value.Approx vs ws) :
    Value.uncertain ∈ vs ∨ vs = ws := by
  induction h with
  | nil => exact Or.inr rfl
  | @cons v w vs ws hvw _ ih =>
      rcases hvw with rfl | rfl
      · exact Or.inl (List.mem_cons_self ..)
      · rcases ih with hmem | rfl
        · exact Or.inl (List.mem_cons_of_mem _ hmem)
        · exact Or.inr rfl

theorem ancestorValue_of_uncertain_mem (kind : PlaceKind) {vs : List Value}
    (h : Value.uncertain ∈ vs) : ancestorValue kind vs = .uncertain := by
  unfold ancestorValue
  split
  · simp at h
  · rfl

theorem extremum_of_uncertain_mem (pick : Int64 → Int64 → Int64) {vs : List Value}
    (h : Value.uncertain ∈ vs) : extremum pick vs = .uncertain := by
  unfold extremum
  split
  · simp at h
  · rfl

theorem builtinValue_approx (name : String) (expect : Expect) {vs ws : List Value}
    (h : List.Forall₂ Value.Approx vs ws) :
    (builtinValue name expect vs).Approx (builtinValue name expect ws) := by
  rcases uncertain_mem_or_eq h with hmem | rfl
  · simp only [builtinValue, ancestorValue_of_uncertain_mem _ hmem,
      extremum_of_uncertain_mem _ hmem]
    split
    · exact Value.approx_refl _
    · -- apart from the value that stands for none, an uncertain argument makes the result uncertain
      simp
  · exact Value.approx_refl _

theorem follows_callBuiltin (name : String) {args args' : List Pending}
    (h : List.Forall₂ Follows args args') :
    Follows (callBuiltin f name args) (callBuiltin f' name args') := by
  intro expect v hv
  rw [outcome_callBuiltin] at hv ⊢
  cases hargs : (evalArgs args).outcome with
  | error d =>
      rw [hargs] at hv
      cases hv
  | ok vs =>
      rw [hargs] at hv
      obtain rfl := Except.ok.inj hv
      obtain ⟨ws, hws, hvs⟩ := refines_evalArgs h vs hargs
      rw [hws]
      exact ⟨_, rfl, builtinValue_approx name expect hvs⟩

/-- Helpers expand alike on arguments that are evaluated alike. -/
def FollowsExpand (x x' : Expand) : Prop :=
  ∀ s args args', (∀ a ∈ args, Plain a) → List.Forall₂ Follows args args' →
    Follows (x s args) (x' s args')

theorem follows_callFunction {x x' : Expand} (hx : FollowsExpand x x') (func : String)
    {args args' : List Pending} (hplain : ∀ a ∈ args, Plain a)
    (h : List.Forall₂ Follows args args') :
    Follows (k.callFunction f x func args)
      ((k.withStatics t').callFunction f' x' func args') := by
  have hcorpus : (k.withStatics t').corpus = k.corpus := rfl
  unfold callFunction
  rw [hcorpus]
  cases k.corpus.resolve func with
  | builtin b => exact follows_callBuiltin b.name h
  | helper s => exact hx s args args' hplain h
  | rule r => exact fun _ => Report.refines_pure (Value.approx_refl _)
  | unknown => exact fun _ => Report.refines_pure (Value.approx_refl _)

/-! ## Conditionals -/

/-- There is a value among the second ones, and each of them is approximated by one of the first. -/
def Narrows (vs ws : List Value) : Prop :=
  ws ≠ [] ∧ ∀ w ∈ ws, ∃ v ∈ vs, v.Approx w

theorem narrows_head {v w : Value} (vs : List Value) (h : v.Approx w) : Narrows (v :: vs) [w] := by
  simp [Narrows, h]

theorem Narrows.cons {v w : Value} {vs ws : List Value} (h : v.Approx w) (hs : Narrows vs ws) :
    Narrows (v :: vs) (w :: ws) := by
  refine ⟨List.cons_ne_nil _ _, fun u hu => ?_⟩
  rcases List.mem_cons.1 hu with rfl | hmem
  · exact ⟨v, List.mem_cons_self .., h⟩
  · obtain ⟨v', hv', happrox⟩ := hs.2 u hmem
    exact ⟨v', List.mem_cons_of_mem _ hv', happrox⟩

theorem Narrows.cons_left {vs ws : List Value} (v : Value) (h : Narrows vs ws) :
    Narrows (v :: vs) ws := by
  refine ⟨h.1, fun w hw => ?_⟩
  obtain ⟨v', hv', happrox⟩ := h.2 w hw
  exact ⟨v', List.mem_cons_of_mem _ hv', happrox⟩

theorem narrows_of_forall₂ {vs ws : List Value} (hne : ws ≠ [])
    (h : List.Forall₂ Value.Approx vs ws) : Narrows vs ws := by
  refine ⟨hne, ?_⟩
  clear hne
  induction h with
  | nil => simp
  | @cons v w vs ws hvw _ ih =>
      simp only [List.forall_mem_cons, List.exists_mem_cons_iff]
      exact ⟨Or.inl hvw, fun u hu => Or.inr (ih u hu)⟩

theorem refines_possible {o o' : Pending} (ho : Follows o o') (expect : Expect)
    {arms arms' : List (Pending × Pending)}
    (h : List.Forall₂ (fun a b => Follows a.1 b.1 ∧ Follows a.2 b.2) arms arms') :
    (possible o expect arms).Refines Narrows (possible o' expect arms') := by
  induction h with
  | nil =>
      refine (ho expect).bind fun v w hvw => ?_
      exact Report.refines_pure (narrows_head [] hvw)
  | @cons arm arm' arms arms' harm _ ih =>
      obtain ⟨cond, branch⟩ := arm
      obtain ⟨cond', branch'⟩ := arm'
      obtain ⟨hcond, hbranch⟩ := harm
      refine hcond.test.bind fun c c' hc => ?_
      cases hc with
      | unknown =>
          refine (hbranch expect).bind fun v w hvw => ih.bind fun vs ws hvs => ?_
          exact Report.refines_pure (hvs.cons hvw)
      | known t =>
          cases t with
          | false => exact ih
          | true =>
              refine (hbranch expect).bind fun v w hvw => ?_
              exact Report.refines_pure (narrows_head [] hvw)
      | settled t =>
          -- only the first evaluation goes on in both directions
          cases t with
          | false =>
              refine Report.refines_bind_left fun v => ih.bind_pure_left fun vs ws hvs => ?_
              exact hvs.cons_left v
          | true =>
              refine (hbranch expect).bind fun v w hvw => Report.refines_bind_left fun vs => ?_
              exact Report.refines_pure (narrows_head vs hvw)

theorem follows_defaultFor : Follows (defaultFor f) (defaultFor f') :=
  follows_of_outcome (outcome_defaultFor f) (outcome_defaultFor f') fun _ => Value.approx_refl _

theorem agreement_approx_of_narrows {expect : Expect} {vs ws : List Value}
    (hplain : AllPlain expect vs) (h : Narrows vs ws) :
    (Value.agreement vs).Approx (Value.agreement ws) :=
  Value.agreement_approx_agreement hplain h.1 h.2

theorem follows_chain {conds conds' branches branches' : List Pending} {o o' : Option Pending}
    (hconds : List.Forall₂ Follows conds conds')
    (hbranches : List.Forall₂ Follows branches branches') (ho : Option.Rel Follows o o')
    (hplain : ∀ b ∈ branches, Plain b) (hoplain : ∀ b, o = some b → Plain b) :
    Follows (chain f conds branches o) (chain f' conds' branches' o') := by
  intro expect
  have hlast : Follows (o.getD (defaultFor f)) (o'.getD (defaultFor f')) := by
    cases ho with
    | some h => exact h
    | none => exact follows_defaultFor
  have hvalues := refines_possible hlast expect (forall₂_arms hconds hbranches)
  refine (hvalues.and_ensures (ensures_chain_values f hplain hoplain expect)).bind ?_
  rintro vs ws ⟨hvs, hnarrows⟩
  exact Report.refines_pure (agreement_approx_of_narrows hvs hnarrows)

theorem refines_chooseAll (expect : Expect) {es es' : List Pending}
    (h : List.Forall₂ Follows es es') :
    (choose.all expect es).Refines (List.Forall₂ Value.Approx) (choose.all expect es') := by
  induction h with
  | nil => exact Report.refines_pure .nil
  | cons he _ ih =>
      refine (he expect).bind fun v w hvw => ih.bind fun vs ws hvs => ?_
      exact Report.refines_pure (.cons hvw hvs)

theorem follows_agreement_chooseAll {es es' : List Pending} (h : List.Forall₂ Follows es es')
    (hplain : ∀ e ∈ es, Plain e) :
    Follows (fun expect => Value.agreement <$> choose.all expect es)
      (fun expect => Value.agreement <$> choose.all expect es') := by
  intro expect
  refine ((refines_chooseAll expect h).and_ensures (ensures_chooseAll expect hplain)).map ?_
  rintro vs ws ⟨hvs, happrox⟩
  cases happrox with
  | nil => exact Value.approx_refl _
  | cons hvw hrest =>
      exact agreement_approx_of_narrows hvs
        (narrows_of_forall₂ (List.cons_ne_nil _ _) (.cons hvw hrest))

/-! ## Expressions -/

theorem expectFor_eq (hrule : f'.rule = f.rule) (name : String) :
    (k.withStatics t').expectFor f' name = k.expectFor f name := by
  unfold expectFor
  rw [hrule]
  rfl

theorem maskValue_approx (mask : Int64) {v w : Value} (h : v.Approx w) :
    (maskValue mask v).Approx (maskValue mask w) :=
  h.map rfl

/-- The second evaluation may stop at a true operand that is uncertain to the first; what the first
    makes of the other operand is then true or uncertain. -/
theorem refines_or {a b : Value} {m n : Report Value} (hab : Value.TruthApprox a b)
    (h : m.Refines Value.TruthApprox n) :
    (if a == .bool true then pure a else m >>= fun c => pure (a.or c)).Refines Value.Approx
      (if b == .bool true then pure b else n >>= fun d => pure (b.or d)) := by
  cases hab with
  | unknown => exact h.bind fun c d hcd => Report.refines_pure (Value.TruthApprox.unknown.or hcd)
  | known s =>
      cases s with
      | true => exact Report.refines_pure (Value.approx_refl _)
      | false =>
          exact h.bind fun c d hcd => Report.refines_pure ((Value.TruthApprox.known false).or hcd)
  | settled s =>
      cases s with
      | true =>
          exact Report.refines_bind_left fun c => Report.refines_pure (Value.uncertain_or_approx c)
      | false =>
          exact h.bind fun c d hcd => Report.refines_pure ((Value.TruthApprox.settled false).or hcd)

theorem refines_and {a b : Value} {m n : Report Value} (hab : Value.TruthApprox a b)
    (h : m.Refines Value.TruthApprox n) :
    (if a == .bool false then pure a else m >>= fun c => pure (a.and c)).Refines Value.Approx
      (if b == .bool false then pure b else n >>= fun d => pure (b.and d)) := by
  cases hab with
  | unknown => exact h.bind fun c d hcd => Report.refines_pure (Value.TruthApprox.unknown.and hcd)
  | known s =>
      cases s with
      | false => exact Report.refines_pure (Value.approx_refl _)
      | true =>
          exact h.bind fun c d hcd => Report.refines_pure ((Value.TruthApprox.known true).and hcd)
  | settled s =>
      cases s with
      | false =>
          exact Report.refines_bind_left fun c => Report.refines_pure (Value.uncertain_and_approx c)
      | true =>
          exact h.bind fun c d hcd => Report.refines_pure ((Value.TruthApprox.settled true).and hcd)

theorem follows_eval (hk : k.FloatFree) (ht : k.statics.Approx t') (hfree : f.FloatFree)
    (hf : f.Approx f') {x x' : Expand} (hxplain : PlainExpand x) (hx : FollowsExpand x x')
    (e : Expr) (he : e.FloatFree) :
    Follows (eval k f x e) (eval (k.withStatics t') f' x' e) := by
  induction e using Expr.children_induction with
  | step e ih =>
    have hchild : ∀ c ∈ e.children, Follows (eval k f x c) (eval (k.withStatics t') f' x' c) :=
      fun c hc => ih c hc (he.child hc)
    have hmap : ∀ es : List Expr, (∀ c ∈ es, c ∈ e.children) →
        List.Forall₂ Follows (es.map (eval k f x)) (es.map (eval (k.withStatics t') f' x')) := by
      intro es hes
      rw [List.forall₂_map_left_iff, List.forall₂_map_right_iff, List.forall₂_same]
      exact fun c hc => hchild c (hes c hc)
    have hplain : ∀ es : List Expr, (∀ c ∈ es, c ∈ e.children) →
        ∀ p ∈ es.map (eval k f x), Plain p := by
      intro es hes p hp
      obtain ⟨c, hc, rfl⟩ := List.mem_map.1 hp
      exact plain_eval hk hfree hxplain c (he.child (hes c hc))
    -- a leaf has its value from the table; all other nodes from their children
    by_cases hleaf : e.isLeaf = true
    · exact follows_of_outcome (outcome_eval_leaf k f x hleaf) (outcome_eval_leaf _ f' x' hleaf)
        fun _ => leafValue_approx ht hf e
    cases e with
    | or l r =>
        intro expect
        have hl := (hchild l (by simp [Expr.children])).test
        have hr := (hchild r (by simp [Expr.children])).test
        rw [eval, eval]
        exact hl.bind fun a b hab => refines_or hab hr
    | and l r =>
        intro expect
        have hl := (hchild l (by simp [Expr.children])).test
        have hr := (hchild r (by simp [Expr.children])).test
        rw [eval, eval]
        exact hl.bind fun a b hab => refines_and hab hr
    | not e =>
        intro expect
        have hoperand := (hchild e (by simp [Expr.children])).test
        rw [eval, eval]
        exact hoperand.bind fun a b hab => Report.refines_pure (hab.approx.map rfl)
    | paren e =>
        rw [eval, eval]
        exact hchild e (by simp [Expr.children])
    | invoke func args negated =>
        intro expect
        rw [eval_invoke, eval_invoke]
        have hcall : Follows (k.callFunction f x func (args.map (eval k f x)))
            ((k.withStatics t').callFunction f' x' func
              (args.map (eval (k.withStatics t') f' x'))) :=
          follows_callFunction hx func (hplain args fun c hc => hc) (hmap args fun c hc => hc)
        exact (hcall expect).map fun v w hvw => hvw.negateIf negated
    | ifThenElse conds branches otherwise =>
        rw [eval_ifThenElse, eval_ifThenElse]
        refine follows_chain (hmap conds fun c hc => by simp [Expr.children, hc])
          (hmap branches fun c hc => by simp [Expr.children, hc]) ?_
          (hplain branches fun c hc => by simp [Expr.children, hc]) ?_
        · cases otherwise with
          | none => exact .none
          | some o => exact .some (hchild o (by simp [Expr.children]))
        · intro b hb
          obtain ⟨o, rfl, rfl⟩ := Option.map_eq_some_iff.1 hb
          exact hplain [o] (by simp [Expr.children]) _ (by simp)
    | ternary c y n =>
        rw [eval, eval]
        refine follows_chain (hmap [c] (by simp [Expr.children]))
          (hmap [y] (by simp [Expr.children])) (.some (hchild n (by simp [Expr.children])))
          (hplain [y] (by simp [Expr.children])) ?_
        intro b hb
        obtain rfl := Option.some.inj hb
        exact hplain [n] (by simp [Expr.children]) _ (by simp)
    | numCompare l op r =>
        intro expect
        have hl := hchild l (by simp [Expr.children]) .int
        have hr := hchild r (by simp [Expr.children]) .int
        rw [eval, eval]
        exact hl.bind fun a b hab => hr.bind fun c d hcd => Report.refines_pure (hab.compare op hcd)
    | strCompare l op lit =>
        intro expect
        have hl := hchild l (by simp [Expr.children]) (expectLike lit)
        rw [eval_strCompare, eval_strCompare]
        exact hl.bind fun a b hab => Report.refines_pure (hab.compare op (Value.approx_refl _))
    | flagMatch e mask =>
        intro expect
        have hvalue := hchild e (by simp [Expr.children]) .int
        rw [eval_flagMatch, eval_flagMatch]
        exact hvalue.bind fun a b hab => Report.refines_pure (maskValue_approx mask hab)
    | refEqCall r op e =>
        intro expect
        have hcall := hchild e (by simp [Expr.children]) (k.expectFor f r.name)
        rw [eval, eval, expectFor_eq hf.rule]
        exact (follows_lookup ht hf r).bind fun a b hab => hcall.bind fun c d hcd =>
          Report.refines_pure (hab.compare op hcd)
    | perItem item cases d =>
        rw [eval_perItem, eval_perItem]
        exact follows_agreement_chooseAll (hmap _ fun c hc => hc) (hplain _ fun c hc => hc)
    | perSetting setting cases d =>
        rw [eval_perSetting, eval_perSetting]
        exact follows_agreement_chooseAll (hmap _ fun c hc => hc) (hplain _ fun c hc => hc)
    | binOp l op r =>
        intro expect
        have hl := hchild l (by simp [Expr.children]) .int
        have hr := hchild r (by simp [Expr.children]) .int
        rw [eval, eval]
        exact hl.bind fun a b hab => hr.bind fun c d hcd => Report.refines_pure (hab.arith op hcd)
    | call func args =>
        rw [eval_call, eval_call]
        exact follows_callFunction hx func (hplain args fun c hc => hc) (hmap args fun c hc => hc)
    | _ => exact absurd rfl hleaf

/-! ## Rules -/

theorem refines_bindParams (params : List Param) {args args' : List Pending}
    (h : List.Forall₂ Follows args args') :
    (bindParams params args).Refines BindingsApprox (bindParams params args') := by
  have hgo : ∀ (params : List Param) (b b' : NameMap Value), BindingsApprox b b' →
      (bindParams.go b (params.zip args)).Refines BindingsApprox
        (bindParams.go b' (params.zip args')) := by
    induction h with
    | nil =>
        intro params b b' hb
        rw [List.zip_nil_right]
        exact Report.refines_pure hb
    | cons ha _ ih =>
        intro params b b' hb
        cases params with
        | nil => exact Report.refines_pure hb
        | cons p params =>
            exact (ha .unknown).bind fun v w hvw => ih params _ _ (hb.insert p.name hvw)
  refine hgo params ∅ ∅ fun name => ?_
  rw [NameMap.find?_empty]
  exact .none

theorem followsExpand_expandBy (hk : k.FloatFree) {evalBody evalBody' : Frame → Expr → Pending}
    (hbody : ∀ (f f' : Frame) (e : Expr), f.FloatFree → f.Approx f' → e.FloatFree →
      Follows (evalBody f e) (evalBody' f' e)) {spot spot' : String} (hspot : spot' = spot) :
    FollowsExpand (k.expandBy evalBody spot) ((k.withStatics t').expandBy evalBody' spot') := by
  intro s args args' hplain hargs expect
  unfold expandBy
  have hcorpus : (k.withStatics t').corpus = k.corpus := rfl
  rw [hcorpus]
  cases hrule : k.corpus.rules.find? s.ruleName with
  | none => exact Report.refines_pure (Value.approx_refl _)
  | some r =>
      have hfree := hk.rules _ r hrule
      refine ((refines_bindParams s.params hargs).and_ensures
        (ensures_bindParams s.params hplain)).bind fun b b' hb => ?_
      cases hr : r.body with
      | actions a => exact Report.refines_pure (Value.approx_refl _)
      | requirement body =>
          rw [hr] at hfree
          exact hbody ⟨r, spot, b⟩ ⟨r, spot', b'⟩ body hb.1 ⟨rfl, hspot, hb.2⟩ hfree expect

theorem follows_evalWithin (hk : k.FloatFree) (ht : k.statics.Approx t') (depth : Nat)
    (f f' : Frame) (e : Expr) (hfree : f.FloatFree) (hf : f.Approx f') (he : e.FloatFree) :
    Follows (k.evalWithin depth f e) ((k.withStatics t').evalWithin depth f' e) := by
  induction depth generalizing f f' e with
  | zero =>
      -- with no depth left the first evaluation has no value where it calls a helper
      refine follows_eval hk ht hfree hf ?_ ?_ e he
      · intro s args _ expect v hv
        cases hv
      · intro s args args' _ _ expect v hv
        cases hv
  | succ depth ih =>
      rw [evalWithin_succ, evalWithin_succ]
      refine follows_eval hk ht hfree hf ?_ ?_ e he
      · exact plainExpand_expandBy hk (plain_evalWithin hk depth) f.spot
      · exact followsExpand_expandBy hk ih hf.spot

theorem frame_approx_refl (f : Frame) : f.Approx f := by
  refine ⟨rfl, rfl, fun name => ?_⟩
  cases f.bindings.find? name with
  | none => exact .none
  | some v => exact .some (Value.approx_refl v)

theorem frame_floatFree_of_unbound (r : Rule) (spot : String) :
    Frame.FloatFree { rule := r, spot } := by
  intro name v hv
  rw [NameMap.find?_empty] at hv
  cases hv

/-- A static table that knows more gives every rule a value where it had one, and the same value if
    that was certain. So it flips no answer, it prunes what was pruned, and it finds no endless
    helpers. -/
theorem evaluate_mono (hk : k.FloatFree) (ht : k.statics.Approx t') {r : Rule}
    (hr : r.body.FloatFree) (spot : String) {v : Value}
    (hv : (k.evaluate r spot).outcome = .ok v) :
    ∃ v', ((k.withStatics t').evaluate r spot).outcome = .ok v' ∧ (v = .uncertain ∨ v' = v) ∧
      ∀ o : CompileOptions, o.prunes (some v) = true → o.prunes (some v') = true := by
  have hfollows :
      (k.evaluate r spot).Refines Value.Approx ((k.withStatics t').evaluate r spot) := by
    unfold evaluate
    cases hbody : r.body with
    | actions a => exact Report.refines_pure (Value.approx_refl _)
    | requirement e =>
        rw [hbody] at hr
        exact follows_evalWithin hk ht maxHelperDepth _ _ e (frame_floatFree_of_unbound r spot)
          (frame_approx_refl _) hr .bool
  obtain ⟨v', hv', happrox⟩ := hfollows v hv
  refine ⟨v', hv', happrox.imp_right Eq.symm, fun o hprunes => ?_⟩
  rcases happrox with rfl | rfl
  · -- what is uncertain is not pruned
    simp [CompileOptions.prunes, Value.isFalse, Value.truth?] at hprunes
  · exact hprunes

end Knowledge

/-- Passing a gate: by a helper if it is lit, by the datum itself if not. -/
def passGate : Rule where
  name := "rules:pass"
  body := .requirement (.ternary (.argFlag { name := "lit" } false)
    (.invoke "pass" [.ref { name := "open" }] false) (.argFlag { name := "open" } false))
  spot := some "Cave > Entry > Gate"

/-- The body of the helper. -/
def passHelper : Rule where
  name := "helpers:pass"
  body := .requirement (.argFlag { name := "way" } false)

/-- A gate that is shut. Whether it is lit decides how that is found out. -/
def shutGate : Workspace where
  catalog :=
    { context := .ofList [("lit", { type := some "bool" })]
      data := .ofList [("open", .bool false)]
      regions := .ofList [("Cave", { areas := .ofList [("Entry", {
        spots := .ofList [("Gate", {})] })] })] }
  corpus :=
    { rules := .ofList [("helpers:pass", passHelper), ("rules:pass", passGate)]
      helpers := .ofList [("pass",
        { name := "pass", params := [{ name := "way", type := none }] })] }

/-- What static data holds of the gate. -/
def shutTable : StaticTable :=
  StaticTable.setDefault {} "open" (.bool false)

theorem passGate_floatFree : passGate.body.FloatFree := by
  refine .node trivial ?_
  simp only [Expr.children, List.forall_mem_cons]
  refine ⟨Expr.floatFree_of_isLeaf rfl trivial, .node trivial ?_,
    Expr.floatFree_of_isLeaf rfl trivial, List.forall_mem_nil _⟩
  simp only [Expr.children, List.forall_mem_singleton]
  exact Expr.floatFree_of_isLeaf rfl trivial

theorem shutGate_rules_floatFree : ∀ r ∈ shutGate.corpus.rules.values, r.body.FloatFree := by
  have hvalues : shutGate.corpus.rules.values = [passHelper, passGate] := rfl
  rw [hvalues]
  simp only [List.forall_mem_cons]
  exact ⟨Expr.floatFree_of_isLeaf rfl trivial, passGate_floatFree, List.forall_mem_nil _⟩

theorem shutGate_floatFree : Knowledge.FloatFree ⟨shutGate, ∅, shutTable⟩ :=
  ⟨nofun, StaticTable.floatFree_empty.setDefault "open" nofun,
    fun _ r hr => shutGate_rules_floatFree r (NameMap.mem_values_of_find? hr)⟩

theorem passGate_stays_shut :
    (Knowledge.evaluate ⟨shutGate, ∅, shutTable⟩ passGate "Cave > Entry > Gate").outcome
        = .ok (.bool false) ∧
      ∃ v', ((Knowledge.withStatics ⟨shutGate, ∅, shutTable⟩
          (shutTable.setDefault "lit" (.bool true))).evaluate passGate
            "Cave > Entry > Gate").outcome = .ok v' ∧
        (Value.bool false = .uncertain ∨ v' = .bool false) ∧
        ∀ o : CompileOptions, o.prunes (some (.bool false)) = true → o.prunes (some v') = true := by
  have hmore : shutTable.Approx (shutTable.setDefault "lit" (.bool true)) :=
    StaticTable.approx_setDefault (by decide) _
  exact ⟨rfl, Knowledge.evaluate_mono shutGate_floatFree hmore passGate_floatFree
    "Cave > Entry > Gate" rfl⟩

end AccessRules
