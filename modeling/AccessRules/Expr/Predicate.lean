import AccessRules.Expr.Basic

set_option autoImplicit false

/-! # Values taken for their truth

A tree is read before it is known whether it stands for a value or for a truth value. `asPredicate`
turns a value into the predicate that it denotes where a truth value is needed, and `negate` into
the opposite one: a reference or a setting becomes a flag, a call is taken for its truth, and a
string names an item. Both reach through parentheses and into the branches of conditionals. -/

namespace AccessRules

mutual

/-- The predicate that an expression denotes where a truth value is needed. -/
def Expr.asPredicate : Expr → Expr
  | .ref r => .argFlag r false
  | .setting name => .settingFlag name false
  | .call func args => .invoke func args false
  | .str text => .hasLiteralItem text
  | .paren inner => .paren inner.asPredicate
  | .ternary cond yes no => .ternary cond yes.asPredicate no.asPredicate
  | .ifThenElse conds branches none => .ifThenElse conds (asPredicates branches) none
  | .ifThenElse conds branches (some o) =>
    .ifThenElse conds (asPredicates branches) (some o.asPredicate)
  | .perItem item cases d => .perItem item (asPredicateCounts cases) d.asPredicate
  | .perSetting setting cases d => .perSetting setting (asPredicateOptions cases) d.asPredicate
  | e => e

def asPredicates : List Expr → List Expr
  | [] => []
  | e :: es => e.asPredicate :: asPredicates es

def asPredicateCounts : List (Int64 × Expr) → List (Int64 × Expr)
  | [] => []
  | (n, e) :: cases => (n, e.asPredicate) :: asPredicateCounts cases

def asPredicateOptions : List (Literal × Expr) → List (Literal × Expr)
  | [] => []
  | (lit, e) :: cases => (lit, e.asPredicate) :: asPredicateOptions cases

end

/-- The negation of the predicate that an expression denotes. Forms with a mark of their own for it
    take that mark. -/
def Expr.negate : Expr → Expr
  | .ref r => .argFlag r true
  | .setting name => .settingFlag name true
  | .call func args => .invoke func args true
  | .within p false => .within p true
  | e => .not e.asPredicate

end AccessRules
