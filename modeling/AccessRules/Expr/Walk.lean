import AccessRules.Expr.Basic

set_option autoImplicit false

/-! # Walking over trees

`Expr.walk` lists the nodes of an expression in pre-order, children from left to right. Below a node
it goes on only where `descend` allows it. In a chain of conditions a condition comes before its
branch, and what has no partner is not visited. `Action.walk` lists action nodes in the same way,
and `Body.walk` the expressions of a whole body. -/

namespace AccessRules

/-- A node before the nodes below it, which are left out where `descend` says so. -/
def visit (descend : Expr → Bool) (e : Expr) (below : List Expr) : List Expr :=
  e :: if descend e then below else []

mutual

/-- The nodes of an expression in pre-order, down to those that `descend` refuses. -/
def Expr.walk (descend : Expr → Bool) : Expr → List Expr
  | .or l r => visit descend (.or l r) (l.walk descend ++ r.walk descend)
  | .and l r => visit descend (.and l r) (l.walk descend ++ r.walk descend)
  | .not e => visit descend (.not e) (e.walk descend)
  | .paren e => visit descend (.paren e) (e.walk descend)
  | .invoke f args n => visit descend (.invoke f args n) (walkAll descend args).flatten
  | .ifThenElse conds branches none =>
    visit descend (.ifThenElse conds branches none)
      (List.zipWith (· ++ ·) (walkAll descend conds) (walkAll descend branches)).flatten
  | .ifThenElse conds branches (some o) =>
    visit descend (.ifThenElse conds branches (some o))
      ((List.zipWith (· ++ ·) (walkAll descend conds) (walkAll descend branches)).flatten
        ++ o.walk descend)
  | .ternary c y n =>
    visit descend (.ternary c y n) (c.walk descend ++ y.walk descend ++ n.walk descend)
  | .numCompare l op r => visit descend (.numCompare l op r) (l.walk descend ++ r.walk descend)
  | .strCompare l op lit => visit descend (.strCompare l op lit) (l.walk descend)
  | .flagMatch v mask => visit descend (.flagMatch v mask) (v.walk descend)
  | .refEqCall r op e => visit descend (.refEqCall r op e) (e.walk descend)
  | .perItem item cases d =>
    visit descend (.perItem item cases d) ((walkCounts descend cases).flatten ++ d.walk descend)
  | .perSetting setting cases d =>
    visit descend (.perSetting setting cases d)
      ((walkOptions descend cases).flatten ++ d.walk descend)
  | .binOp l op r => visit descend (.binOp l op r) (l.walk descend ++ r.walk descend)
  | .call f args => visit descend (.call f args) (walkAll descend args).flatten
  | .bool b => [.bool b]
  | .refEq r op rhs => [.refEq r op rhs]
  | .settingFlag s n => [.settingFlag s n]
  | .argFlag r n => [.argFlag r n]
  | .itemAtLeast item t => [.itemAtLeast item t]
  | .hasItem item => [.hasItem item]
  | .hasLiteralItem s => [.hasLiteralItem s]
  | .hasArgItem r => [.hasArgItem r]
  | .refInSet r ms => [.refInSet r ms]
  | .within p n => [.within p n]
  | .int n => [.int n]
  | .float x => [.float x]
  | .str s => [.str s]
  | .place p => [.place p]
  | .ref r => [.ref r]
  | .setting s => [.setting s]
  | .const c => [.const c]
  | .items names => [.items names]

/-- One list of nodes for each expression. -/
def walkAll (descend : Expr → Bool) : List Expr → List (List Expr)
  | [] => []
  | e :: es => e.walk descend :: walkAll descend es

/-- One list of nodes for each case of a choice by an item. -/
def walkCounts (descend : Expr → Bool) : List (Int64 × Expr) → List (List Expr)
  | [] => []
  | (_, e) :: cases => e.walk descend :: walkCounts descend cases

/-- One list of nodes for each case of a choice by a setting. -/
def walkOptions (descend : Expr → Bool) : List (Literal × Expr) → List (List Expr)
  | [] => []
  | (_, e) :: cases => e.walk descend :: walkOptions descend cases

end

mutual

/-- The nodes of an action in pre-order. -/
def Action.walk : Action → List Action
  | .cond conds branches none => .cond conds branches none :: (walkSteps branches).flatten
  | .cond conds branches (some o) =>
    .cond conds branches (some o) :: ((walkSteps branches).flatten ++ o.walk)
  | .sequence steps => .sequence steps :: (walkSteps steps).flatten
  | .set target value => [.set target value]
  | .alter target op delta => [.alter target op delta]
  | .swap first second => [.swap first second]
  | .call func args => [.call func args]

/-- One list of nodes for each action. -/
def walkSteps : List Action → List (List Action)
  | [] => []
  | a :: as => a.walk :: walkSteps as

end

namespace Body

/-- The action nodes of a body; a requirement has none. -/
def actionNodes : Body → List Action
  | .requirement _ => []
  | .actions a => a.walk

/-- The expressions that stand at the top of a body or are held by its actions. -/
def roots : Body → List Expr
  | .requirement e => [e]
  | .actions a => a.walk.flatMap Action.exprs

/-- The expression nodes of a body, down to those that `descend` refuses. -/
def walk (descend : Expr → Bool) (b : Body) : List Expr :=
  b.roots.flatMap (Expr.walk descend)

/-- All expression nodes of a body. -/
def nodes (b : Body) : List Expr :=
  b.walk fun _ => true

end Body

end AccessRules
