import AccessRules.Proofs.Expr.Children
import AccessRules.Proofs.Report
import AccessRules.Reachability.Evaluate
import Mathlib.Data.List.Forall2

set_option autoImplicit false

/-! # The shape of evaluation

Equations about the evaluator that later proofs use in place of its definition: lists of expressions
are evaluated one by one, a chain of conditions has one form with and without a last branch, what a
builtin function gives depends on the values of its arguments alone, and a helper is expanded by the
evaluation of its body to a lesser depth. -/

namespace AccessRules

namespace Knowledge

variable (k : Knowledge) (f : Frame) (expand : Expand)

/-! ## Lists of expressions -/

theorem evalAll_eq_map (es : List Expr) : evalAll k f expand es = es.map (eval k f expand) := by
  induction es with
  | nil => rfl
  | cons e es ih => rw [evalAll, ih, List.map_cons]

theorem evalCounts_eq_map (cases : List (Int64 × Expr)) :
    evalCounts k f expand cases = (cases.map (·.2)).map (eval k f expand) := by
  induction cases with
  | nil => rfl
  | cons c cases ih =>
      obtain ⟨n, e⟩ := c
      rw [evalCounts, ih, List.map_cons, List.map_cons]

theorem evalOptions_eq_map (cases : List (Literal × Expr)) :
    evalOptions k f expand cases = (cases.map (·.2)).map (eval k f expand) := by
  induction cases with
  | nil => rfl
  | cons c cases ih =>
      obtain ⟨lit, e⟩ := c
      rw [evalOptions, ih, List.map_cons, List.map_cons]

theorem eval_ifThenElse (conds branches : List Expr) (otherwise : Option Expr) :
    eval k f expand (.ifThenElse conds branches otherwise)
      = chain f (conds.map (eval k f expand)) (branches.map (eval k f expand))
          (otherwise.map (eval k f expand)) := by
  cases otherwise <;> simp [eval, evalAll_eq_map]

/-- The cases of a choice and its default are evaluated alike. -/
theorem eval_perItem (item : String) (cases : List (Int64 × Expr)) (d : Expr) :
    eval k f expand (.perItem item cases d)
      = fun expect => Value.agreement <$>
          choose.all expect ((cases.map (·.2) ++ [d]).map (eval k f expand)) := by
  rw [eval, evalCounts_eq_map, List.map_append]
  rfl

theorem eval_perSetting (setting : String) (cases : List (Literal × Expr)) (d : Expr) :
    eval k f expand (.perSetting setting cases d)
      = fun expect => Value.agreement <$>
          choose.all expect ((cases.map (·.2) ++ [d]).map (eval k f expand)) := by
  rw [eval, evalOptions_eq_map, List.map_append]
  rfl

theorem eval_invoke (func : String) (args : List Expr) (negated : Bool) (expect : Expect) :
    eval k f expand (.invoke func args negated) expect
      = Value.negateIf negated <$>
          k.callFunction f expand func (args.map (eval k f expand)) expect := by
  rw [eval, evalAll_eq_map]
  rfl

theorem eval_call (func : String) (args : List Expr) :
    eval k f expand (.call func args)
      = k.callFunction f expand func (args.map (eval k f expand)) := by
  rw [eval, evalAll_eq_map]

/-- The arms of two chains correspond if their conditions and their branches do. -/
theorem forall₂_arms {α β : Type} {R : α → β → Prop} {conds branches : List α}
    {conds' branches' : List β} (hconds : List.Forall₂ R conds conds')
    (hbranches : List.Forall₂ R branches branches') :
    List.Forall₂ (fun a b => R a.1 b.1 ∧ R a.2 b.2) (conds.zip branches)
      (conds'.zip branches') := by
  induction hconds generalizing branches branches' with
  | nil => exact .nil
  | cons hc _ ih =>
      cases hbranches with
      | nil => exact .nil
      | cons hb hbs => exact .cons ⟨hc, hb⟩ (ih hbs)

/-! ## References -/

/-- The value of a path at the place that a qualifier holds. -/
def lookupVia (path : String) : Value → Value
  | .place p => if p = "" then .uncertain else k.statics.lookup p path
  | _ => .uncertain

/-- The value of a reference. -/
def lookupValue (r : Reference) : Value :=
  match r.qualifier with
  | none => k.lookupName f r.name
  | some q =>
    match f.rule.resolve? k.catalog r.name, q with
    | none, _ => .uncertain
    | some path, .place p => k.statics.lookup p path
    | some path, .ref name => k.lookupVia path (k.lookupName f name)

theorem outcome_lookup (r : Reference) : (k.lookup f r).outcome = .ok (k.lookupValue f r) := by
  obtain ⟨name, _ | q⟩ := r
  · rfl
  · simp only [lookup, lookupValue]
    cases f.rule.resolve? k.catalog name with
    | none => rfl
    | some path =>
        cases q with
        | place p => rfl
        | ref other =>
            simp only
            cases k.lookupName f other with
            | place p =>
                simp only [lookupVia]
                split <;> rfl
            | _ => rfl

/-! ## Leaves -/

/-- The value that a reference is compared with; items and settings are uncertain. -/
def comparandValue : Comparand → Value
  | .ref other => k.lookupValue f other
  | _ => .uncertain

/-- The value of the place in a test for being within it. -/
def placeArgValue : PlaceArg → Value
  | .literal path => .place path
  | .ref r => k.lookupValue f r

/-- The value of a leaf. What depends on the state of the game is uncertain. -/
def leafValue : Expr → Value
  | .bool b => .bool b
  | .refEq r op rhs => (k.lookupValue f r).compare op (k.comparandValue f rhs)
  | .argFlag r negated => (k.lookupValue f r).truth.negateIf negated
  | .refInSet r members => isMember (k.lookupValue f r) members
  | .within p negated => (isWithin f (k.placeArgValue f p)).negateIf negated
  | .int n => .int n
  | .float x => .float x
  | .str s => .str s
  | .place p => .place p
  | .ref r => k.lookupValue f r
  | .const name => (k.catalog.consts.find? name).elim .uncertain Value.ofJson
  | _ => .uncertain

theorem outcome_eval_leaf {e : Expr} (h : e.isLeaf = true) (expect : Expect) :
    (eval k f expand e expect).outcome = .ok (k.leafValue f e) := by
  cases e with
  | refEq r op rhs =>
      rw [eval, Report.outcome_bind, outcome_lookup]
      cases rhs with
      | ref other =>
          simp only [Except.bind, Report.outcome_bind, outcome_lookup]
          rfl
      | _ => rfl
  | argFlag r negated =>
      rw [eval, Report.outcome_bind, outcome_lookup]
      rfl
  | refInSet r members =>
      rw [eval, Report.outcome_bind, outcome_lookup]
      rfl
  | within p negated =>
      cases p with
      | literal path => rfl
      | ref r =>
          simp only [eval, Report.outcome_bind, outcome_lookup]
          rfl
  | ref r => rw [eval, outcome_lookup]; rfl
  | or _ _ | and _ _ | not _ | paren _ | invoke _ _ _ | ifThenElse _ _ _ | ternary _ _ _
  | numCompare _ _ _ | strCompare _ _ _ | flagMatch _ _ | refEqCall _ _ _ | perItem _ _ _
  | perSetting _ _ _ | binOp _ _ _ | call _ _ => cases h
  | _ => rfl

/-! ## Comparison with a literal -/

/-- What is expected of a value compared with a literal. -/
def expectLike : Literal → Expect
  | .place _ => .place
  | _ => .enum none

theorem eval_strCompare (l : Expr) (op : CmpOp) (lit : Literal) (expect : Expect) :
    eval k f expand (.strCompare l op lit) expect
      = (eval k f expand l (expectLike lit) >>= fun a => pure (a.compare op (.ofLiteral lit))) := by
  cases lit <;> rfl

/-- Whether the bits of a mask are set in a value. -/
def maskValue (mask : Int64) : Value → Value
  | .int n => .bool (hasBits n mask)
  | _ => .uncertain

theorem eval_flagMatch (e : Expr) (mask : Int64) (expect : Expect) :
    eval k f expand (.flagMatch e mask) expect
      = (eval k f expand e .int >>= fun a => pure (maskValue mask a)) := by
  simp only [eval]
  congr 1
  funext a
  cases a <;> rfl

/-! ## Builtin functions -/

/-- The value that stands for none where a value is expected, if there is one. -/
def defaultValue : Expect → Value
  | .bool => .bool false
  | .int => .int 0
  | .float => .float 0
  | .place => .place ""
  | .enum (some s) => .str s
  | _ => .uncertain

theorem outcome_defaultFor (expect : Expect) :
    (defaultFor f expect).outcome = .ok (defaultValue expect) := by
  cases expect with
  | enum default => cases default <;> rfl
  | _ => rfl

/-- The greater or the lesser of two integers. -/
def extremum (pick : Int64 → Int64 → Int64) : List Value → Value
  | [.int a, .int b] => .int (pick a b)
  | _ => .uncertain

/-- The value of a builtin function for the values of its arguments. -/
def builtinValue (name : String) (expect : Expect) (values : List Value) : Value :=
  if name = "default" then defaultValue expect
  else if name = "get_region" then ancestorValue .region values
  else if name = "get_area" then ancestorValue .area values
  else if name = "max" then extremum (fun a b => if a < b then b else a) values
  else if name = "min" then extremum (fun a b => if b < a then b else a) values
  else .uncertain

theorem outcome_callBuiltin (name : String) (args : List Pending) (expect : Expect) :
    (callBuiltin f name args expect).outcome
      = (evalArgs args).outcome.map (builtinValue name expect) := by
  rw [callBuiltin, Report.outcome_bind]
  cases (evalArgs args).outcome with
  | error d => rfl
  | ok values =>
      show _ = Except.ok (builtinValue name expect values)
      unfold builtinValue
      simp only [Except.bind]
      split
      · exact outcome_defaultFor f expect
      · split
        · rfl
        · split
          · rfl
          · split
            · split
              · rfl
              · rename_i hne
                rw [extremum.eq_2 _ _ hne]
                rfl
            · split
              · split
                · rfl
                · rename_i hne
                  rw [extremum.eq_2 _ _ hne]
                  rfl
              · rfl

/-! ## Helpers -/

/-- How helpers expand at a spot, given how their bodies are evaluated. -/
def expandBy (evalBody : Frame → Expr → Pending) (spot : String) : Expand := fun s args expect =>
  match k.corpus.rules.find? s.ruleName with
  | none => pure .uncertain
  | some r => do
    let bindings ← bindParams s.params args
    match r.body with
    | .requirement body => evalBody ⟨r, spot, bindings⟩ body expect
    | .actions _ => return .uncertain

theorem evalWithin_succ (depth : Nat) (e : Expr) :
    k.evalWithin (depth + 1) f e = eval k f (k.expandBy (k.evalWithin depth) f.spot) e :=
  rfl

end Knowledge

end AccessRules
