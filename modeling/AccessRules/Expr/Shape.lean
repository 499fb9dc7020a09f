import AccessRules.Expr.Walk

set_option autoImplicit false

/-! # The shape that every pass relies on

Conditional chains pair each condition with a branch and have at least one, choices have a case,
sequences are not empty, and called functions and plain references have names. `Body.misshapen?`
gives the first node that breaks this: action nodes come before expression nodes, each in
pre-order. -/

namespace AccessRules

/-- What is wrong with a node. -/
inductive ShapeFault where
  /-- A chain without conditions, or with another number of branches. -/
  | unpaired (conds branches : Nat)
  | emptyFunction
  | emptyReference
  | noCases
  | emptySequence
  deriving DecidableEq

def ShapeFault.message : ShapeFault → String
  | .unpaired conds branches =>
    toString conds ++ " conditions for " ++ toString branches ++ " branches"
  | .emptyFunction => "empty function name"
  | .emptyReference => "empty reference"
  | .noCases => "no cases"
  | .emptySequence => "empty sequence"

/-- The fault of a chain with these numbers of conditions and branches. -/
def chainFault? (conds branches : Nat) : Option ShapeFault :=
  if conds = 0 || conds != branches then some (.unpaired conds branches) else none

/-- The fault of a node itself, its children apart. -/
def Expr.shapeFault? : Expr → Option ShapeFault
  | .ifThenElse conds branches _ => chainFault? conds.length branches.length
  | .invoke func _ _ => if func = "" then some .emptyFunction else none
  | .call func _ => if func = "" then some .emptyFunction else none
  | .ref r => if r.name = "" then some .emptyReference else none
  | .argFlag r _ => if r.name = "" then some .emptyReference else none
  | .hasArgItem r => if r.name = "" then some .emptyReference else none
  | .perItem _ cases _ => if cases.isEmpty then some .noCases else none
  | .perSetting _ cases _ => if cases.isEmpty then some .noCases else none
  | _ => none

/-- The fault of an action itself, its parts apart. -/
def Action.shapeFault? : Action → Option ShapeFault
  | .cond conds branches _ => chainFault? conds.length branches.length
  | .sequence steps => if steps.isEmpty then some .emptySequence else none
  | _ => none

/-- The kind of the first node with a fault, and the fault. -/
def Body.misshapen? (b : Body) : Option (String × ShapeFault) :=
  (b.actionNodes.findSome? fun a => a.shapeFault?.map (a.kind, ·))
    <|> b.nodes.findSome? fun e => e.shapeFault?.map (e.kind, ·)

end AccessRules
