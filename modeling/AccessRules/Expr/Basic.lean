import AccessRules.Number.FloatText
import AccessRules.Text.Quoted

set_option autoImplicit false

/-! # Rule expressions and actions

The trees of the rule language. An `Expr` is a requirement or a value, an `Action` is a statement
of an action body, and a `Body` is either. One type serves requirements and values alike: the
position of a node decides which of the two it is taken for. -/

namespace AccessRules

/-! ## Operators and literals -/

inductive CmpOp where
  | lt | le | eq | ge | gt | ne
  deriving DecidableEq

def CmpOp.text : CmpOp → String
  | .lt => "<"
  | .le => "<="
  | .eq => "=="
  | .ge => ">="
  | .gt => ">"
  | .ne => "!="

/-- Whether the operator tests for equality or inequality. -/
def CmpOp.isEquality : CmpOp → Bool
  | .eq => true
  | .ne => true
  | _ => false

inductive ArithOp where
  | add | sub | mul | div
  deriving DecidableEq

def ArithOp.text : ArithOp → String
  | .add => "+"
  | .sub => "-"
  | .mul => "*"
  | .div => "/"

/-- A scalar as written in a rule or in a catalog. -/
inductive Literal where
  | bool (b : Bool)
  | int (n : Int64)
  | float (x : Float)
  | str (s : String)
  | place (path : String)

/-- A path between single quotes. -/
def placeText (path : String) : String :=
  "'" ++ path ++ "'"

def Literal.text : Literal → String
  | .bool b => if b then "TRUE" else "FALSE"
  | .int n => wordText n
  | .float x => Decimal.exactText x
  | .str s => Text.quoted s
  | .place p => placeText p

/-! ## References -/

/-- The place at which the data of a qualified reference is read: a place held by another
    reference, or a place literal. -/
inductive Qualifier where
  | ref (name : String)
  | place (path : String)
  deriving DecidableEq

/-- A reference `^name`, possibly qualified with `@`. -/
structure Reference where
  name : String
  qualifier : Option Qualifier := none
  deriving DecidableEq

/-- The names that a reference mentions: its own and that of its qualifier. -/
def Reference.names (r : Reference) : List String :=
  match r.qualifier with
  | some (.ref q) => [r.name, q]
  | _ => [r.name]

def Reference.text (r : Reference) : String :=
  match r.qualifier with
  | none => "^" ++ r.name
  | some (.ref q) => "^" ++ r.name ++ "@^" ++ q
  | some (.place p) => "^" ++ r.name ++ "@" ++ placeText p

/-! ## Expressions -/

/-- What a reference is tested for equality with, calls apart. -/
inductive Comparand where
  | item (name : String)
  | setting (name : String)
  | ref (r : Reference)
  deriving DecidableEq

/-- The quantity in a count of items. -/
inductive Threshold where
  | count (n : Int64)
  | setting (name : String)
  | ref (r : Reference)
  deriving DecidableEq

/-- The members of a set. -/
inductive Members where
  | items (names : List String)
  | strs (texts : List String)
  | places (paths : List String)
  deriving DecidableEq

/-- The place in a test for being within it. -/
inductive PlaceArg where
  | ref (r : Reference)
  | literal (path : String)
  deriving DecidableEq

inductive Expr where
  | or (lhs rhs : Expr)
  | and (lhs rhs : Expr)
  | not (operand : Expr)
  | bool (value : Bool)
  | paren (inner : Expr)
  /-- A call taken for its truth. -/
  | invoke (func : String) (args : List Expr) (negated : Bool)
  /-- A chain of conditions, each with a branch. -/
  | ifThenElse (conds branches : List Expr) (otherwise : Option Expr)
  | ternary (cond yes no : Expr)
  | numCompare (lhs : Expr) (op : CmpOp) (rhs : Expr)
  | strCompare (lhs : Expr) (op : CmpOp) (rhs : Literal)
  /-- Whether all bits of a mask are set. -/
  | flagMatch (value : Expr) (mask : Int64)
  | refEq (ref : Reference) (op : CmpOp) (rhs : Comparand)
  /-- Equality of a reference with the result of a call. -/
  | refEqCall (ref : Reference) (op : CmpOp) (call : Expr)
  | settingFlag (name : String) (negated : Bool)
  | argFlag (ref : Reference) (negated : Bool)
  | itemAtLeast (item : String) (threshold : Threshold)
  | hasItem (item : String)
  /-- Possession of an item named by a string. -/
  | hasLiteralItem (text : String)
  /-- Possession of an item held by a reference. -/
  | hasArgItem (ref : Reference)
  | refInSet (ref : Reference) (members : Members)
  /-- Whether the spot lies within a place. -/
  | within (place : PlaceArg) (negated : Bool)
  /-- A choice by the number of an item held. -/
  | perItem (item : String) (cases : List (Int64 × Expr)) (default : Expr)
  /-- A choice by the value of a setting. -/
  | perSetting (setting : String) (cases : List (Literal × Expr)) (default : Expr)
  | int (value : Int64)
  | float (value : Float)
  | str (value : String)
  | place (path : String)
  | ref (r : Reference)
  | setting (name : String)
  | const (name : String)
  | binOp (lhs : Expr) (op : ArithOp) (rhs : Expr)
  /-- A call taken for its value. -/
  | call (func : String) (args : List Expr)
  | items (names : List String)

/-- The name of the kind of a node. -/
def Expr.kind : Expr → String
  | .or _ _ => "Or"
  | .and _ _ => "And"
  | .not _ => "Not"
  | .bool true => "True"
  | .bool false => "False"
  | .paren _ => "Paren"
  | .invoke _ _ _ => "Invoke"
  | .ifThenElse _ _ _ => "IfThenElse"
  | .ternary _ _ _ => "Ternary"
  | .numCompare _ _ _ => "NumCompare"
  | .strCompare _ _ _ => "StrCompare"
  | .flagMatch _ _ => "FlagMatch"
  | .refEq _ _ _ => "RefEq"
  | .refEqCall _ _ _ => "RefEq"
  | .settingFlag _ _ => "SettingFlag"
  | .argFlag _ _ => "ArgFlag"
  | .itemAtLeast _ _ => "ItemAtLeast"
  | .hasItem _ => "HasItem"
  | .hasLiteralItem _ => "HasLiteralItem"
  | .hasArgItem _ => "HasArgItem"
  | .refInSet _ _ => "RefInSet"
  | .within _ _ => "PlaceMembership"
  | .perItem _ _ _ => "PerItemSwitch"
  | .perSetting _ _ _ => "PerSettingSwitch"
  | .int _ => "Int"
  | .float _ => "Float"
  | .str _ => "Str"
  | .place _ => "Place"
  | .ref _ => "Ref"
  | .setting _ => "Setting"
  | .const _ => "Const"
  | .binOp _ _ _ => "BinOp"
  | .call _ _ => "Call"
  | .items _ => "Items"

/-- The literal that an expression consists of, if it does. -/
def Expr.literal? : Expr → Option Literal
  | .bool b => some (.bool b)
  | .int n => some (.int n)
  | .float x => some (.float x)
  | .str s => some (.str s)
  | .place p => some (.place p)
  | _ => none

/-- The names of the references that a node mentions itself, its children apart. -/
def Expr.refNames : Expr → List String
  | .ref r => r.names
  | .argFlag r _ => r.names
  | .hasArgItem r => r.names
  | .refInSet r _ => r.names
  | .refEq r _ (.ref other) => r.names ++ other.names
  | .refEq r _ _ => r.names
  | .refEqCall r _ _ => r.names
  | .within (.ref r) _ => r.names
  | .itemAtLeast _ (.ref r) => r.names
  | _ => []

/-! ## Actions -/

inductive Action where
  | set (target : Reference) (value : Expr)
  | alter (target : Reference) (op : ArithOp) (delta : Expr)
  | swap (first second : Reference)
  | cond (conds : List Expr) (branches : List Action) (otherwise : Option Action)
  | call (func : String) (args : List Expr)
  | sequence (steps : List Action)

/-- The name of the kind of an action. -/
def Action.kind : Action → String
  | .set _ _ => "Set"
  | .alter _ _ _ => "Alter"
  | .swap _ _ => "Swap"
  | .cond _ _ _ => "CondAction"
  | .call _ _ => "HelperCall"
  | .sequence _ => "Sequence"

/-- The expressions that an action holds itself. -/
def Action.exprs : Action → List Expr
  | .set _ value => [value]
  | .alter _ _ delta => [delta]
  | .swap _ _ => []
  | .cond conds _ _ => conds
  | .call _ args => args
  | .sequence _ => []

/-- The references that an action assigns to. -/
def Action.targets : Action → List Reference
  | .set target _ => [target]
  | .alter target _ _ => [target]
  | .swap first second => [first, second]
  | _ => []

/-- What a rule consists of: a requirement, or an action body. -/
inductive Body where
  | requirement (e : Expr)
  | actions (a : Action)

end AccessRules
