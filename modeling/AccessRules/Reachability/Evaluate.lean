import AccessRules.Context.Uses
import AccessRules.Reachability.Statics
import AccessRules.Report

set_option autoImplicit false

/-! # Reachability

`Knowledge.evaluate` gives the value of a rule at a spot as far as static data determines it. Items,
settings and live context are uncertain, so a rule that comes out false can never hold there.

Calls of helpers are expanded, to a limited depth; other rules are not. Where a condition is
uncertain every branch that may be taken is evaluated, and the result is certain only if they agree.
-/

namespace AccessRules

/-- What is known when rules are evaluated. -/
structure Knowledge extends Workspace where
  contexts : ContextTable
  statics : StaticTable

/-- The kind of value that the surroundings of an expression expect. -/
inductive Expect where
  | bool | int | float | place
  /-- A string, with the one that stands for none. -/
  | enum (default : Option String)
  | unknown

/-- A rule under evaluation: where, and with which parameters bound. -/
structure Frame where
  rule : Rule
  spot : String
  bindings : NameMap Value := ∅

/-- An expression ready to be evaluated for what its surroundings expect. -/
abbrev Pending := Expect → Report Value

/-- Expansion of a helper with arguments. -/
abbrev Expand := Signature → List Pending → Pending

namespace Knowledge

/-! ## References -/

/-- The value of an unqualified reference: a binding, or static data at the spot. -/
def lookupName (k : Knowledge) (f : Frame) (name : String) : Value :=
  match f.bindings.find? name with
  | some v => v
  | none => (f.rule.resolve? k.catalog name).elim .uncertain (k.statics.lookup f.spot)

/-- The value of a reference. A qualified one is read at the place of its qualifier, if that is
    known to be one. -/
def lookup (k : Knowledge) (f : Frame) (r : Reference) : Report Value :=
  match r.qualifier with
  | none => pure (k.lookupName f r.name)
  | some q =>
    match f.rule.resolve? k.catalog r.name, q with
    | none, _ => pure .uncertain
    | some path, .place p => pure (k.statics.lookup p path)
    | some path, .ref name =>
      match k.lookupName f name with
      | .place p =>
        if p = "" then unresolved else pure (k.statics.lookup p path)
      | _ => unresolved
where
  unresolved : Report Value := do
    .warn f.rule.name (.unresolvedQualifier r f.spot)
    return .uncertain

/-- What is expected of a value compared with a reference. -/
def expectFor (k : Knowledge) (f : Frame) (name : String) : Expect :=
  match f.rule.resolve? k.catalog name >>= k.contexts.find? with
  | none => .unknown
  | some v =>
    match v.kind with
    | some .bool => .bool
    | some .int => .int
    | some .float => .float
    | some (.place _) => .place
    | some (.enum _) => .enum (match v.default with | some (.str s) => some s | _ => none)
    | none => .unknown

/-- The value that stands for none where a value is expected. -/
def defaultFor (f : Frame) : Pending
  | .bool => pure (.bool false)
  | .int => pure (.int 0)
  | .float => pure (.float 0)
  | .place => pure (.place "")
  | .enum (some s) => pure (.str s)
  | _ => do
    .warn f.rule.name .unresolvedDefault
    return .uncertain

/-! ## Calls -/

/-- The ancestor of a place, as a value. -/
def ancestorValue (kind : PlaceKind) : List Value → Value
  | [.place p] => (Place.ancestor? p kind).elim .uncertain .place
  | _ => .uncertain

/-- The values of arguments in order. -/
def evalArgs : List Pending → Report (List Value)
  | [] => pure []
  | a :: as => do
    let v ← a .unknown
    let vs ← evalArgs as
    return v :: vs

/-- The result of a builtin function. -/
def callBuiltin (f : Frame) (name : String) (args : List Pending) : Pending := fun expect => do
  let values ← evalArgs args
  if name = "default" then defaultFor f expect
  else if name = "get_region" then return ancestorValue .region values
  else if name = "get_area" then return ancestorValue .area values
  else if name = "max" then
    match values with
    | [.int a, .int b] => return .int (if a < b then b else a)
    | _ => return .uncertain
  else if name = "min" then
    match values with
    | [.int a, .int b] => return .int (if b < a then b else a)
    | _ => return .uncertain
  else return .uncertain

/-- The result of a call. Rules are not expanded. -/
def callFunction (k : Knowledge) (f : Frame) (expand : Expand) (func : String)
    (args : List Pending) : Pending :=
  match k.corpus.resolve func with
  | .builtin b => callBuiltin f b.name args
  | .helper s => expand s args
  | .rule _ => fun _ => pure .uncertain
  | .unknown => fun _ => pure .uncertain

/-! ## Conditionals -/

/-- The truth of an expression. -/
def test (e : Pending) : Report Value :=
  Value.truth <$> e .bool

/-- The values of the branches of a chain that may be taken, up to one that must be. -/
def possible (otherwise : Pending) (expect : Expect) :
    List (Pending × Pending) → Report (List Value)
  | [] => do return [← otherwise expect]
  | (cond, branch) :: arms => do
    match ← test cond with
    | .bool false => possible otherwise expect arms
    | .bool true => return [← branch expect]
    | _ =>
      let v ← branch expect
      let vs ← possible otherwise expect arms
      return v :: vs

/-- The value of a chain of conditions. Without a last branch the value that stands for none is
    taken. -/
def chain (f : Frame) (conds branches : List Pending) (otherwise : Option Pending) : Pending :=
  fun expect => do
    let values ← possible (otherwise.getD (defaultFor f)) expect (conds.zip branches)
    return Value.agreement values

/-- The value of a choice whose subject is not known. -/
def choose (cases : List Pending) (default : Pending) : Pending := fun expect =>
  Value.agreement <$> all expect (cases ++ [default])
where
  all (expect : Expect) : List Pending → Report (List Value)
    | [] => pure []
    | e :: es => do
      let v ← e expect
      let vs ← all expect es
      return v :: vs

/-! ## Expressions -/

/-- Whether a value is among the members of a set. -/
def isMember (v : Value) (members : Members) : Value :=
  match v, members with
  | .str s, .strs texts => .bool (texts.contains s)
  | .place p, .places paths => .bool (paths.contains p)
  | _, _ => .uncertain

/-- Whether the spot lies within a place. -/
def isWithin (f : Frame) : Value → Value
  | .place p => .bool (Place.contains p f.spot)
  | _ => .uncertain

mutual

/-- The value of an expression, given how helpers expand. -/
def eval (k : Knowledge) (f : Frame) (expand : Expand) : Expr → Pending
  | .or l r => fun _ => do
    let a ← test (eval k f expand l)
    if a == .bool true then return a
    return a.or (← test (eval k f expand r))
  | .and l r => fun _ => do
    let a ← test (eval k f expand l)
    if a == .bool false then return a
    return a.and (← test (eval k f expand r))
  | .not e => fun _ => do return (← test (eval k f expand e)).not
  | .bool b => fun _ => pure (.bool b)
  | .paren e => eval k f expand e
  | .invoke func args negated => fun expect => do
    return (← k.callFunction f expand func (evalAll k f expand args) expect).negateIf negated
  | .ifThenElse conds branches none =>
    chain f (evalAll k f expand conds) (evalAll k f expand branches) none
  | .ifThenElse conds branches (some o) =>
    chain f (evalAll k f expand conds) (evalAll k f expand branches) (some (eval k f expand o))
  | .ternary c y n => chain f [eval k f expand c] [eval k f expand y] (some (eval k f expand n))
  | .numCompare l op r => fun _ => do
    let a ← eval k f expand l .int
    let b ← eval k f expand r .int
    return a.compare op b
  | .strCompare l op lit => fun _ => do
    let a ← eval k f expand l (match lit with | .place _ => .place | _ => .enum none)
    return a.compare op (.ofLiteral lit)
  | .flagMatch e mask => fun _ => do
    match ← eval k f expand e .int with
    | .int n => return .bool (hasBits n mask)
    | _ => return .uncertain
  | .refEq r op rhs => fun _ => do
    let a ← k.lookup f r
    match rhs with
    | .ref other => return a.compare op (← k.lookup f other)
    | _ => return a.compare op .uncertain
  | .refEqCall r op e => fun _ => do
    let a ← k.lookup f r
    return a.compare op (← eval k f expand e (k.expectFor f r.name))
  | .settingFlag _ _ => fun _ => pure .uncertain
  | .argFlag r negated => fun _ => do return (← k.lookup f r).truth.negateIf negated
  | .itemAtLeast _ _ => fun _ => pure .uncertain
  | .hasItem _ => fun _ => pure .uncertain
  | .hasLiteralItem _ => fun _ => pure .uncertain
  | .hasArgItem _ => fun _ => pure .uncertain
  | .refInSet r members => fun _ => do return isMember (← k.lookup f r) members
  | .within p negated => fun _ => do
    let place ← match p with
      | .literal path => pure (.place path)
      | .ref r => k.lookup f r
    return (isWithin f place).negateIf negated
  | .perItem _ cases d => choose (evalCounts k f expand cases) (eval k f expand d)
  | .perSetting _ cases d => choose (evalOptions k f expand cases) (eval k f expand d)
  | .int n => fun _ => pure (.int n)
  | .float x => fun _ => pure (.float x)
  | .str s => fun _ => pure (.str s)
  | .place p => fun _ => pure (.place p)
  | .ref r => fun _ => k.lookup f r
  | .setting _ => fun _ => pure .uncertain
  | .const name => fun _ => pure ((k.catalog.consts.find? name).elim .uncertain Value.ofJson)
  | .binOp l op r => fun _ => do
    let a ← eval k f expand l .int
    let b ← eval k f expand r .int
    return a.arith op b
  | .call func args => k.callFunction f expand func (evalAll k f expand args)
  | .items _ => fun _ => pure .uncertain

def evalAll (k : Knowledge) (f : Frame) (expand : Expand) : List Expr → List Pending
  | [] => []
  | e :: es => eval k f expand e :: evalAll k f expand es

def evalCounts (k : Knowledge) (f : Frame) (expand : Expand) : List (Int64 × Expr) → List Pending
  | [] => []
  | (_, e) :: cases => eval k f expand e :: evalCounts k f expand cases

def evalOptions (k : Knowledge) (f : Frame) (expand : Expand) : List (Literal × Expr) → List Pending
  | [] => []
  | (_, e) :: cases => eval k f expand e :: evalOptions k f expand cases

end

/-! ## Rules -/

/-- The bindings of parameters to the values of arguments; what has no partner is left out. -/
def bindParams (params : List Param) (args : List Pending) : Report (NameMap Value) :=
  go ∅ (params.zip args)
where
  go (bindings : NameMap Value) : List (Param × Pending) → Report (NameMap Value)
    | [] => pure bindings
    | (p, a) :: rest => do
      let v ← a .unknown
      go (bindings.insert p.name v) rest

/-- The value of an expression in a frame, with helpers expanded up to a depth. -/
def evalWithin (k : Knowledge) : (depth : Nat) → Frame → Expr → Pending
  | 0, f, e => eval k f (fun s _ _ => .abandon (.endlessHelpers f.rule.name s.name)) e
  | depth + 1, f, e => eval k f (fun s args expect =>
    match k.corpus.rules.find? s.ruleName with
    | none => pure .uncertain
    | some r => do
      let bindings ← bindParams s.params args
      match r.body with
      | .requirement body => evalWithin k depth ⟨r, f.spot, bindings⟩ body expect
      | .actions _ => return .uncertain) e

/-- The value of an expression as a part of a rule at a spot. -/
def evaluateExpr (k : Knowledge) (r : Rule) (spot : String) (e : Expr) : Report Value :=
  k.evalWithin maxHelperDepth { rule := r, spot } e .bool

/-- The value of a rule at a spot. Action bodies have none. -/
def evaluate (k : Knowledge) (r : Rule) (spot : String) : Report Value :=
  match r.body with
  | .requirement e => k.evaluateExpr r spot e
  | .actions _ => pure .uncertain

end Knowledge

end AccessRules
