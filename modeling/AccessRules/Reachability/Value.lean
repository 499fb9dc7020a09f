import AccessRules.Context.Kind

set_option autoImplicit false

/-! # Values in part unknown

The value of an expression as far as static data determines it: a truth value, a scalar, or
uncertain. The connectives are those of three-valued logic on the truth of their operands: a certain
answer never depends on an uncertain operand. -/

namespace AccessRules

inductive Value where
  | bool (b : Bool)
  | uncertain
  | int (n : Int64)
  | float (x : Float)
  | str (s : String)
  /-- The place with a path; the empty path is no place. -/
  | place (path : String)
  deriving BEq

/-- Whether a comparison holds. -/
def CmpOp.holds {α : Type} [LT α] [LE α] [DecidableLT α] [DecidableLE α] [BEq α] (op : CmpOp)
    (a b : α) : Bool :=
  match op with
  | .lt => a < b
  | .le => a ≤ b
  | .eq => a == b
  | .ge => b ≤ a
  | .gt => b < a
  | .ne => a != b

/-- The result of arithmetic on words, if it exists and fits; quotients are cut towards zero. -/
def ArithOp.onWords? (op : ArithOp) (a b : Int64) : Option Int64 :=
  match op with
  | .add => word? (a.toInt + b.toInt)
  | .sub => word? (a.toInt - b.toInt)
  | .mul => word? (a.toInt * b.toInt)
  | .div => if b = 0 then none else word? (a.toInt.tdiv b.toInt)

def ArithOp.onFloats (op : ArithOp) (a b : Float) : Float :=
  match op with
  | .add => a + b
  | .sub => a - b
  | .mul => a * b
  | .div => a / b

namespace Value

instance : Inhabited Value := ⟨.uncertain⟩

def text : Value → String
  | .bool b => if b then "True" else "False"
  | .uncertain => "Uncertain"
  | .int n => wordText n
  | .float x => Decimal.exactText x
  | .str s => Text.quoted s
  | .place p => placeText p

def ofLiteral : Literal → Value
  | .bool b => .bool b
  | .int n => .int n
  | .float x => .float x
  | .str s => .str s
  | .place p => .place p

/-- The value of a constant or a datum. Only scalars have one. -/
def ofJson (j : Json) : Value :=
  ((Literal.ofJson? j).map ofLiteral).getD .uncertain

/-! ## Truth -/

/-- Whether the value counts as true, where that is known. Zero and empty texts do not. -/
def truth? : Value → Option Bool
  | .bool b => some b
  | .uncertain => none
  | .int n => some (n != 0)
  | .float x => some (x != 0)
  | .str s => some (s != "")
  | .place p => some (p != "")

/-- The truth value with the same truth. -/
def truth (v : Value) : Value :=
  v.truth?.elim .uncertain .bool

/-- Conjunction. A true operand gives back the other one as it is. -/
def and (a b : Value) : Value :=
  if b == .bool true then a
  else if a == .bool true then b
  else match a.truth?, b.truth? with
    | some false, _ => .bool false
    | _, some false => .bool false
    | some true, some true => .bool true
    | _, _ => .uncertain

/-- Disjunction. A false operand gives back the other one as it is. -/
def or (a b : Value) : Value :=
  if b == .bool false then a
  else if a == .bool false then b
  else match a.truth?, b.truth? with
    | some true, _ => .bool true
    | _, some true => .bool true
    | some false, some false => .bool false
    | _, _ => .uncertain

/-- Negation, of the truth of the operand. -/
def not (v : Value) : Value :=
  v.truth?.elim .uncertain fun b => .bool !b

/-- The negation if `negated`, else the value as it is. -/
def negateIf (negated : Bool) (v : Value) : Value :=
  if negated then v.not else v

def isFalse (v : Value) : Bool :=
  v.truth? == some false

def isUncertain : Value → Bool
  | .uncertain => true
  | _ => false

/-! ## Comparison and arithmetic -/

/-- The value as a float, if it is a number. -/
def number? : Value → Option Float
  | .int n => some n.toFloat
  | .float x => some x
  | _ => none

/-- The text of a string or a place. -/
def text? : Value → Option String
  | .str s => some s
  | .place p => some p
  | _ => none

/-- Equality or inequality of two texts or truth values; other comparisons of them are
    undecided. -/
def equality {α : Type} [BEq α] (op : CmpOp) (a b : α) : Value :=
  match op with
  | .eq => .bool (a == b)
  | .ne => .bool (a != b)
  | _ => .uncertain

/-- Comparison. Texts compare with texts, and numbers with numbers; all else is undecided. -/
def compare (a : Value) (op : CmpOp) (b : Value) : Value :=
  match a, b with
  | .int m, .int n => .bool (op.holds m n)
  | .bool p, .bool q => equality op p q
  | a, b =>
    match a.text?, b.text? with
    | some s, some t => equality op s t
    | _, _ =>
      match a.number?, b.number? with
      | some x, some y => .bool (op.holds x y)
      | _, _ => .uncertain

/-- Arithmetic. Two integers give an integer or nothing; a float among two numbers gives a float. -/
def arith (a : Value) (op : ArithOp) (b : Value) : Value :=
  match a, b with
  | .int m, .int n => (op.onWords? m n).elim .uncertain .int
  | a, b =>
    match a.number?, b.number? with
    | some x, some y => .float (op.onFloats x y)
    | _, _ => .uncertain

/-! ## Agreement -/

/-- The value that all of several possible values share, if they do. -/
def agreement : List Value → Value
  | [] => .uncertain
  | v :: vs => if vs.all fun u => v == u then v else .uncertain

end Value

end AccessRules
