import AccessRules.Proofs.Expr.Predicate
import AccessRules.Proofs.Grammar.Derivation

set_option autoImplicit false

/-! # Trees without floats

The rules of the grammar say whether floats may stand in a tree. A tree that has none is derived by
the rules without them: `Grammar.Derives.of_floatless` and `Grammar.DerivesAction.of_floatless`. -/

namespace AccessRules

/-- The node itself holds no float. -/
def Expr.HoldsNoFloat : Expr → Prop
  | .float _ => False
  | .strCompare _ _ lit => lit.NoFloat
  | .perSetting _ cases _ => ∀ c ∈ cases, c.1.NoFloat
  | _ => True

/-- No float stands anywhere in the expression. -/
def Expr.Floatless (e : Expr) : Prop :=
  e.Every Expr.HoldsNoFloat

/-- No float stands anywhere in the action. -/
inductive Action.Floatless : Action → Prop
  | set {target : Reference} {value : Expr} (h : value.Floatless) : Floatless (.set target value)
  | alter {target : Reference} {op : ArithOp} {delta : Expr} (h : delta.Floatless) :
      Floatless (.alter target op delta)
  | swap {first second : Reference} : Floatless (.swap first second)
  | cond {conds : List Expr} {branches : List Action} {otherwise : Option Action}
      (hconds : ∀ c ∈ conds, c.Floatless) (hbranches : ∀ b ∈ branches, Floatless b)
      (hotherwise : ∀ b ∈ otherwise, Floatless b) : Floatless (.cond conds branches otherwise)
  | call {func : String} {args : List Expr} (hargs : ∀ a ∈ args, a.Floatless) :
      Floatless (.call func args)
  | sequence {steps : List Action} (hsteps : ∀ a ∈ steps, Floatless a) :
      Floatless (.sequence steps)

namespace Expr

theorem HoldsNoFloat.of_asPredicate {e : Expr} (h : e.asPredicate.HoldsNoFloat) :
    e.HoldsNoFloat := by
  cases e with
  | perSetting setting cases d =>
      rw [asPredicate, asPredicateOptions_eq_map] at h
      exact fun c hc => h (c.1, c.2.asPredicate) (List.mem_map_of_mem hc)
  | float x => exact h
  | strCompare l op lit => exact h
  | _ => trivial

theorem Floatless.of_asPredicate {e : Expr} (h : e.asPredicate.Floatless) : e.Floatless :=
  Every.of_asPredicate (fun _ => HoldsNoFloat.of_asPredicate) h

theorem Floatless.child {e c : Expr} (h : e.Floatless) (hc : c ∈ e.children) : c.Floatless :=
  Every.child h hc

theorem Floatless.of_negate {e : Expr} (h : e.negate.Floatless) : e.Floatless := by
  unfold negate at h
  split at h
  · exact .node trivial (by simp [children])
  · exact .node trivial (by simp [children])
  · exact .node trivial fun c hc => h.child hc
  · exact .node trivial (by simp [children])
  · exact (h.child (by simp [children])).of_asPredicate

theorem Floatless.of_compared {l r : Expr} {op : CmpOp} (h : (Grammar.compared l op r).Floatless) :
    l.Floatless ∧ r.Floatless := by
  unfold Grammar.compared at h
  split at h
  · split at h
    · exact ⟨h.child (by simp [children]), .node trivial (by simp [children])⟩
    · exact ⟨h.child (by simp [children]), .node trivial (by simp [children])⟩
    · exact ⟨.node trivial (by simp [children]), .node trivial (by simp [children])⟩
    · exact ⟨.node trivial (by simp [children]), .node trivial (by simp [children])⟩
    · exact ⟨.node trivial (by simp [children]), .node trivial (by simp [children])⟩
    · have hcall := h.child List.mem_cons_self
      exact ⟨.node trivial (by simp [children]), .node trivial fun c hc => hcall.child hc⟩
    · exact ⟨h.child (by simp [children]), h.child (by simp [children])⟩
  · exact ⟨h.child (by simp [children]), h.child (by simp [children])⟩

end Expr

namespace Grammar

/-- An expression without floats is derived without them. -/
theorem Derives.of_floatless {F : Prop} {L : Level} {e : Expr} (h : Derives F L e)
    (he : e.Floatless) : Derives False L e := by
  induction h with
  | bool b => exact .bool b
  | int n => exact .int n
  | float _ x => exact absurd he.self id
  | str s => exact .str s
  | place hpath => exact .place hpath
  | ref hr => exact .ref hr
  | const hname hconst => exact .const hname hconst
  | hasItem hname hconst hitem => exact .hasItem hname hconst hitem
  | setting hname hitem => exact .setting hname hitem
  | itemAtLeast hitem ht => exact .itemAtLeast hitem ht
  | hasArgItem hr => exact .hasArgItem hr
  | within hp => exact .within hp
  | items hnames hitems => exact .items hnames hitems
  | paren _ ih => exact .paren (ih (he.child (by simp [Expr.children])))
  | call hfunc _ ih => exact .call hfunc fun a ha => ih a ha (he.child ha)
  | ifThenElse hne _ _ _ ihconds ihbranches ihotherwise =>
      refine .ifThenElse hne (fun a ha => ihconds a ha (he.child ?_))
        (fun a ha => ihbranches a ha (he.child ?_)) fun o ho => ihotherwise o ho (he.child ?_)
      · simp only [Expr.children, List.mem_append]
        exact .inl (.inl (List.mem_map_of_mem ha))
      · simp only [Expr.children, List.mem_append]
        exact .inl (.inr (List.mem_map_of_mem ha))
      · simp only [Expr.children, List.mem_append]
        exact .inr (Option.mem_toList.2 ho)
  | perItem hname hitem _ _ ihcases ihd =>
      refine .perItem hname hitem (fun c hc => ihcases c hc (he.child ?_)) (ihd (he.child ?_))
      · exact List.mem_append_left _ (List.mem_map_of_mem hc)
      · simp [Expr.children]
  | perSetting hname hitem hkeys _ _ ihcases ihd =>
      have hself := he.self
      refine .perSetting hname hitem (fun c hc => ⟨(hkeys c hc).1, .inr (hself c hc)⟩)
        (fun c hc => ihcases c hc (he.child ?_)) (ihd (he.child ?_))
      · exact List.mem_append_left _ (List.mem_map_of_mem hc)
      · simp [Expr.children]
  | ofAtom _ ih => exact .ofAtom (ih he)
  | product _ hop _ ihl ihr =>
      exact .product (ihl (he.child (by simp [Expr.children]))) hop
        (ihr (he.child (by simp [Expr.children])))
  | ofProduct _ ih => exact .ofProduct (ih he)
  | sum _ hop _ ihl ihr =>
      exact .sum (ihl (he.child (by simp [Expr.children]))) hop
        (ihr (he.child (by simp [Expr.children])))
  | ofSum _ ih => exact .ofSum (ih he)
  | compared _ op _ ihl ihr =>
      obtain ⟨hl, hr⟩ := he.of_compared
      exact .compared (ihl hl) op (ihr hr)
  | flagMatch _ mask ih => exact .flagMatch (ih (he.child (by simp [Expr.children]))) mask
  | refInSet hr hms => exact .refInSet hr hms
  | ofComparison _ ih => exact .ofComparison (ih he)
  | negation _ ih => exact .negation (ih he.of_negate)
  | ofNegation _ ih => exact .ofNegation (ih he)
  | conjunction _ _ ihl ihr =>
      exact .conjunction (ihl (he.child (by simp [Expr.children])).of_asPredicate)
        (ihr (he.child (by simp [Expr.children])).of_asPredicate)
  | ofConjunction _ ih => exact .ofConjunction (ih he)
  | disjunction _ _ ihl ihr =>
      exact .disjunction (ihl (he.child (by simp [Expr.children])).of_asPredicate)
        (ihr (he.child (by simp [Expr.children])).of_asPredicate)
  | value _ ih => exact .value (ih he)
  | truth _ ih => exact .truth (ih he.of_asPredicate)
  | ternary _ _ _ ihc ihy ihn =>
      exact .ternary (ihc (he.child (by simp [Expr.children])).of_asPredicate)
        (ihy (he.child (by simp [Expr.children]))) (ihn (he.child (by simp [Expr.children])))

theorem DerivesAction.of_floatless {F : Prop} {x : Extent} {a : Action} (h : DerivesAction F x a)
    (ha : a.Floatless) : DerivesAction False x a := by
  induction h with
  | set ht hv =>
      cases ha with
      | set hvalue => exact .set ht (hv.of_floatless hvalue)
  | alter ht op hd =>
      cases ha with
      | alter hdelta => exact .alter ht op (hd.of_floatless hdelta)
  | swap hfirst hsecond => exact .swap hfirst hsecond
  | cond hne hconds _ _ ihbranches ihotherwise =>
      cases ha with
      | cond hcs hbs ho =>
          exact .cond hne (fun a ha => (hconds a ha).of_floatless (hcs _ (List.mem_map_of_mem ha)))
            (fun a ha => ihbranches a ha (hbs _ (List.mem_map_of_mem ha)))
            fun o hmem => ihotherwise o hmem (ho o hmem)
  | call hfunc hargs =>
      cases ha with
      | call hes => exact .call hfunc fun a ha => (hargs a ha).of_floatless (hes a ha)
  | single _ ih => exact .single (ih ha)
  | sequence hlen _ ih =>
      cases ha with
      | sequence hsteps => exact .sequence hlen fun a ha => ih a ha (hsteps a ha)

end Grammar

end AccessRules
