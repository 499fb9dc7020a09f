import AccessRules.Proofs.Expr.ActionOutline
import AccessRules.Proofs.Expr.Predicate
import AccessRules.Proofs.Grammar.Soundness

set_option autoImplicit false

/-! # The outline tells trees apart

What the grammar gives is legible, so among the trees that come from texts the outline is a faithful
picture: two of them have the same outline only if they are the same tree. -/

namespace AccessRules

namespace Expr

theorem Presentable.asPredicate {e : Expr} (h : e.Presentable) : e.asPredicate.Presentable := by
  cases e with
  | ifThenElse conds branches o =>
      rw [asPredicate_ifThenElse]
      exact ⟨h.1, h.2.trans (List.length_map _).symm⟩
  | perItem item cases d =>
      rw [Expr.asPredicate]
      exact h
  | perSetting name cases d =>
      rw [Expr.asPredicate, asPredicateOptions_eq_map]
      exact ⟨h.1, List.forall_mem_map.2 h.2⟩
  | paren inner => trivial
  | ternary c y n => trivial
  | str text => trivial
  | _ => exact h

theorem Legible.asPredicate {e : Expr} (h : e.Legible) : e.asPredicate.Legible :=
  Every.asPredicate (p := Presentable) (fun _ => Presentable.asPredicate) h

theorem Legible.negate {e : Expr} (h : e.Legible) : e.negate.Legible := by
  unfold Expr.negate
  split
  · exact .node h.self (by simp [children])
  · exact .node h.self (by simp [children])
  · exact .node h.self fun c hc => h.child hc
  · exact .node h.self (by simp [children])
  · exact .node trivial (List.forall_mem_singleton.2 h.asPredicate)

theorem legible_pair {e l r : Expr} (he : e.Presentable) (hchildren : e.children = [l, r])
    (hl : l.Legible) (hr : r.Legible) : e.Legible :=
  .node he (by rw [hchildren]; exact forall_mem_pair hl hr)

theorem legible_compared {l r : Expr} (hl : l.Legible) (hr : r.Legible) (op : CmpOp) :
    (Grammar.compared l op r).Legible := by
  unfold Grammar.compared
  split
  · split
    · exact .node trivial (List.forall_mem_singleton.2 hl)
    · exact .node hr.self (List.forall_mem_singleton.2 hl)
    · exact .node ⟨hl.self, hr.self⟩ (List.forall_mem_nil _)
    · exact .node ⟨hl.self, hr.self⟩ (List.forall_mem_nil _)
    · exact .node ⟨hl.self, hr.self⟩ (List.forall_mem_nil _)
    · refine .node ⟨hl.self, _, _, rfl⟩ (List.forall_mem_singleton.2 ?_)
      exact .node hr.self fun c hc => hr.child hc
    · exact legible_pair trivial rfl hl hr
  · exact legible_pair trivial rfl hl hr

end Expr

namespace Grammar

theorem legible_of_derives {F : Prop} {L : Level} {e : Expr} (h : Derives F L e) : e.Legible := by
  induction h with
  | bool b => exact .node trivial (List.forall_mem_nil _)
  | int n => exact .node trivial (List.forall_mem_nil _)
  | float _ x => exact .node trivial (List.forall_mem_nil _)
  | str s => exact .node trivial (List.forall_mem_nil _)
  | place hpath => exact .node hpath (List.forall_mem_nil _)
  | ref hr => exact .node hr (List.forall_mem_nil _)
  | const hname _ => exact .node hname (List.forall_mem_nil _)
  | hasItem hname _ _ => exact .node hname (List.forall_mem_nil _)
  | setting hname _ => exact .node hname (List.forall_mem_nil _)
  | itemAtLeast hitem ht => exact .node ⟨hitem, ht⟩ (List.forall_mem_nil _)
  | hasArgItem hr => exact .node hr (List.forall_mem_nil _)
  | within hp => exact .node hp (List.forall_mem_nil _)
  | items hnames _ => exact .node hnames (List.forall_mem_nil _)
  | paren _ ih => exact .node trivial (List.forall_mem_singleton.2 ih)
  | call hfunc _ ih => exact .node hfunc ih
  | ifThenElse hne _ _ _ ihconds ihbranches ihotherwise =>
      refine .node ⟨by simpa using hne, by simp⟩ ?_
      rw [Expr.children, List.forall_mem_append, List.forall_mem_append]
      exact ⟨⟨List.forall_mem_map.2 ihconds, List.forall_mem_map.2 ihbranches⟩,
        fun o ho => ihotherwise o (Option.mem_toList.1 ho)⟩
  | perItem hname _ _ _ ihcases ihd =>
      exact .node hname (List.forall_mem_append.2
        ⟨List.forall_mem_map.2 ihcases, List.forall_mem_singleton.2 ihd⟩)
  | perSetting hname _ hkeys _ _ ihcases ihd =>
      exact .node ⟨hname, fun c hc => (hkeys c hc).1⟩ (List.forall_mem_append.2
        ⟨List.forall_mem_map.2 ihcases, List.forall_mem_singleton.2 ihd⟩)
  | ofAtom _ ih => exact ih
  | product _ _ _ ihl ihr => exact Expr.legible_pair trivial rfl ihl ihr
  | ofProduct _ ih => exact ih
  | sum _ _ _ ihl ihr => exact Expr.legible_pair trivial rfl ihl ihr
  | ofSum _ ih => exact ih
  | compared _ op _ ihl ihr => exact Expr.legible_compared ihl ihr op
  | flagMatch _ mask ih => exact .node trivial (List.forall_mem_singleton.2 ih)
  | refInSet hr hms => exact .node ⟨hr, hms⟩ (List.forall_mem_nil _)
  | ofComparison _ ih => exact ih
  | negation _ ih => exact ih.negate
  | ofNegation _ ih => exact ih
  | conjunction _ _ ihl ihr => exact Expr.legible_pair trivial rfl ihl.asPredicate ihr.asPredicate
  | ofConjunction _ ih => exact ih
  | disjunction _ _ ihl ihr => exact Expr.legible_pair trivial rfl ihl.asPredicate ihr.asPredicate
  | value _ ih => exact ih
  | truth _ ih => exact ih.asPredicate
  | ternary _ _ _ ihc ihy ihn =>
      exact .node trivial (List.forall_mem_cons.2 ⟨ihc.asPredicate,
        List.forall_mem_cons.2 ⟨ihy, List.forall_mem_singleton.2 ihn⟩⟩)

theorem legible_of_derivesAction {F : Prop} {x : Extent} {a : Action} (h : DerivesAction F x a) :
    a.Legible := by
  induction h with
  | set ht hv => exact .set ht (legible_of_derives hv)
  | alter ht op hd => exact .alter ht (legible_of_derives hd)
  | swap hfirst hsecond => exact .swap hfirst hsecond
  | cond hne hconds _ _ ihbranches ihotherwise =>
      exact .cond (by simpa using hne) (by simp)
        (List.forall_mem_map.2 fun a ha => legible_of_derives (hconds a ha))
        (List.forall_mem_map.2 ihbranches) ihotherwise
  | call hfunc hargs => exact .call hfunc fun a ha => legible_of_derives (hargs a ha)
  | single _ ih => exact ih
  | sequence _ _ ih => exact .sequence ih

end Grammar

/-- Two texts have the same outline exactly if they stand for the same tree. Floats count as the
    same if they have the same sign and magnitude. -/
theorem outline_eq_iff_of_parse (file text file' text' : String) :
    (∀ e e', parseRequirement file text = .ok e → parseRequirement file' text' = .ok e' →
      (e.outline = e'.outline ↔ e = e')) ∧
    (∀ a a', parseActions file text = .ok a → parseActions file' text' = .ok a' →
      (a.outline = a'.outline ↔ a = a')) := by
  constructor
  · intro e e' he he'
    have hlegible := Grammar.legible_of_derives (derives_of_parseRequirement he)
    have hlegible' := Grammar.legible_of_derives (derives_of_parseRequirement he')
    exact ⟨Expr.outline_injective hlegible hlegible', congrArg Expr.outline⟩
  · intro a a' ha ha'
    have hlegible := Grammar.legible_of_derivesAction (derives_of_parseActions ha)
    have hlegible' := Grammar.legible_of_derivesAction (derives_of_parseActions ha')
    exact ⟨Action.outline_injective hlegible hlegible', congrArg Action.outline⟩

/-- A negation that reaches over the first of two conditions only. -/
def tightNegation : Expr :=
  .and (.argFlag ⟨"x", some (.place "A > B")⟩ true) (.itemAtLeast "Bomb" (.count 2))

/-- A negation that reaches over both conditions. -/
def wideNegation : Expr :=
  .not (.paren
    (.and (.argFlag ⟨"x", some (.place "A > B")⟩ false) (.itemAtLeast "Bomb" (.count 2))))

/-- A call with one argument that has a comma in it. -/
def commaCall : Action :=
  .sequence [.alter ⟨"charge", none⟩ .sub (.int 1), .call "f" [.str "a, b"]]

/-- A call with two arguments. -/
def pairCall : Action :=
  .sequence [.alter ⟨"charge", none⟩ .sub (.int 1), .call "f" [.str "a", .str "b"]]

set_option maxRecDepth 4000 in
theorem close_trees_outlined :
    (parseRequirement "gate" "!^x@'A > B' && Bomb\x7b2\x7d" = .ok tightNegation ∧
      parseRequirement "gate" "!(^x@'A > B' && Bomb\x7b2\x7d)" = .ok wideNegation ∧
      (tightNegation.outline = wideNegation.outline ↔ tightNegation = wideNegation)) ∧
    (parseActions "gate" "^charge -= 1; $f(\"a, b\")" = .ok commaCall ∧
      parseActions "gate" "^charge -= 1; $f(\"a\", \"b\")" = .ok pairCall ∧
      (commaCall.outline = pairCall.outline ↔ commaCall = pairCall)) := by
  have htight : parseRequirement "gate" "!^x@'A > B' && Bomb\x7b2\x7d" = .ok tightNegation := rfl
  have hwide : parseRequirement "gate" "!(^x@'A > B' && Bomb\x7b2\x7d)" = .ok wideNegation := rfl
  have hcomma : parseActions "gate" "^charge -= 1; $f(\"a, b\")" = .ok commaCall := rfl
  have hpair : parseActions "gate" "^charge -= 1; $f(\"a\", \"b\")" = .ok pairCall := rfl
  exact ⟨⟨htight, hwide, (outline_eq_iff_of_parse _ _ _ _).1 _ _ htight hwide⟩,
    hcomma, hpair, (outline_eq_iff_of_parse _ _ _ _).2 _ _ hcomma hpair⟩

end AccessRules
