import AccessRules.Expr.Predicate
import AccessRules.Grammar.Parse

set_option autoImplicit false

/-! # The grammar of requirements

From the loosest to the tightest binding: the ternary, `||`, `&&`, negation, one comparison, sums,
products, and atoms. A reader that needs whole expressions inside gets one as its first argument;
`Grammar.expr` ties the knot. -/

namespace AccessRules.Grammar

open Parse

/-- Whether an expression is read for its truth or for its value. -/
inductive Position where
  | truth | value
  deriving DecidableEq

/-- Readers for the expressions inside another one. -/
abbrev Inner := Position → Parse Expr

/-! ## Names -/

def startsUpper (name : String) : Bool :=
  name.toList.head?.any Char.isUpper

/-- Names of constants: at least two characters, all upper-case letters, digits or underscores, the
    first one a letter. -/
def isConstName (name : String) : Bool :=
  2 ≤ name.length && startsUpper name
    && name.toList.all fun c => c.isUpper || c.isDigit || c = '_'

/-- Names of items start with an upper-case letter. -/
def isItemName (name : String) : Bool :=
  startsUpper name

/-! ## References, literals and sets -/

/-- A reference `^name`, `^name@^other` or `^name@'Place'`. -/
def reference : Parse Reference := do
  expect "^" "before reference name"
  let name ← ident
  if (← word) = "@" then
    advance
    if (← kind) = .place then return ⟨name, some (.place (← place))⟩
    expect "^" "or place literal after `@`"
    return ⟨name, some (.ref (← ident))⟩
  return ⟨name, none⟩

/-- The current token, which is a number: an integer if it has that form and fits. -/
def number : Parse Literal := do
  let t ← current
  match readWord? t.text.toList with
  | some n =>
    advance
    return .int n
  | none =>
    match Decimal.readFloat? t.text with
    | some x =>
      advance
      return .float x
    | none => failAt t .badNumber

/-- The value that selects a case of a choice by a setting. -/
def caseLiteral : Parse Literal := do
  let t ← current
  match t.kind with
  | .number => number
  | .string => return .str (← string)
  | .place => return .place (← place)
  | .ident =>
    if t.text = "TRUE" then
      advance
      return .bool true
    else if t.text = "FALSE" then
      advance
      return .bool false
    else fail (.expecting .caseLiteral)
  | _ => fail (.expecting .caseLiteral)

/-- The quantity of a count: a number, a reference or a setting. -/
def threshold : Parse Threshold := do
  let t ← current
  match t.kind with
  | .number => return .count (← int)
  | .ident =>
    let name ← ident
    if isItemName name then fail (.notSetting name)
    return .setting name
  | .symbol => if t.text = "^" then return .ref (← reference) else fail (.expecting .threshold)
  | _ => fail (.expecting .threshold)

/-- An item of a list. -/
def listedItem : Parse String := do
  let name ← ident
  if !isItemName name then fail (.notItem name)
  return name

/-- A list of items in brackets. -/
def itemList : Parse (List String) := do
  expect "[" "to start item list"
  let items ← listUntil "]" "list" listedItem
  advance
  return items

/-- A member of a set. -/
inductive Member where
  | item (name : String)
  | str (text : String)
  | place (path : String)

def member : Parse Member := do
  match ← kind with
  | .string => return .str (← string)
  | .place => return .place (← place)
  | .ident => return .item (← ident)
  | _ => fail (.expecting .setMember)

/-- The set of members of one sort; without members it is a set of items. -/
def Member.gather? (members : List Member) : Option Members :=
  let items := members.filterMap fun | .item name => some name | _ => none
  let strs := members.filterMap fun | .str text => some text | _ => none
  let places := members.filterMap fun | .place path => some path | _ => none
  match items, strs, places with
  | items, [], [] => some (.items items)
  | [], strs, [] => some (.strs strs)
  | [], [], places => some (.places places)
  | _, _, _ => none

/-- A set in brackets. -/
def set : Parse Members := do
  expect "[" "to start set"
  let members ← listUntil "]" "set" member
  advance
  match Member.gather? members with
  | some set => return set
  | none => fail .mixedSet

/-! ## Calls and conditionals -/

/-- The arguments of a call in parentheses; a call may go without. -/
def args (inner : Inner) : Parse (List Expr) := do
  if (← word) = "(" then
    advance
    let es ← listUntil ")" "argument list" (inner .value)
    advance
    return es
  return []

/-- A condition in parentheses and a branch in braces. -/
def arm {α : Type} (inner : Inner) (branch : Parse α) : Parse (Expr × α) := do
  expect "(" "after IF"
  let cond ← inner .truth
  expect ")" "after condition"
  expect "\x7b" "to start branch"
  let b ← branch
  expect "\x7d" "to end branch"
  return (cond, b)

/-- The arms of a conditional after its first `IF`, and the last `ELSE` branch. -/
def conditional {α : Type} (inner : Inner) (branch : Parse α) :
    Parse (List (Expr × α) × Option α) :=
  iterate (fun arms => do
    let a ← arm inner branch
    let arms := arms ++ [a]
    if (← word) ≠ "ELSE" then return .done (arms, none)
    advance
    if (← word) = "IF" then
      advance
      return .again arms
    expect "\x7b" "to start ELSE branch"
    let otherwise ← branch
    expect "\x7d" "to end ELSE branch"
    return .done (arms, some otherwise)) []

/-- A case of a choice: its key, or nothing for the default, and what it gives. -/
def choiceCase {κ : Type} (inner : Inner) (key : Parse κ) : Parse (Option κ × Expr) := do
  if (← word) = "_" then
    advance
    expect "=>" "after `_`"
    return (none, ← inner .value)
  let k ← key
  expect "=>" "after case"
  return (some k, ← inner .value)

/-- The cases of a choice in braces, and its default, of which the last one counts. -/
def choiceCases {κ : Type} (inner : Inner) (key : Parse κ) :
    Parse (List (κ × Expr) × Expr) := do
  expect "\x7b" "to start PER cases"
  let cases ← listUntil "\x7d" "PER cases" (choiceCase inner key)
  match (cases.filter (·.1.isNone)).getLast? with
  | none => fail .noDefault
  | some (_, default) =>
    advance
    return (cases.filterMap fun (k, e) => k.map (·, e), default)

/-- A choice after its `PER`. -/
def choice (inner : Inner) : Parse Expr := do
  let subject ← ident
  if isItemName subject then
    let (cases, default) ← choiceCases inner int
    return .perItem subject cases default
  else
    let (cases, default) ← choiceCases inner caseLiteral
    return .perSetting subject cases default

/-! ## Atoms -/

/-- What a plain name stands for; the name of an item may be followed by a count in braces. -/
def named : Parse Expr := do
  let name ← ident
  if isConstName name then return .const name
  else if isItemName name then
    if (← word) = "\x7b" then
      advance
      let t ← threshold
      expect "\x7d" "after count"
      return .itemAtLeast name t
    else return .hasItem name
  else return .setting name

/-- An atom that starts with a word. The token after the word must be readable. -/
def wordAtom (inner : Inner) : Parse Expr := do
  let next ← following
  let w ← word
  if w = "TRUE" then
    advance
    return .bool true
  else if w = "FALSE" then
    advance
    return .bool false
  else if w = "IF" then
    advance
    let (arms, otherwise) ← conditional inner (inner .value)
    return .ifThenElse (arms.map (·.1)) (arms.map (·.2)) otherwise
  else if w = "PER" then
    advance
    choice inner
  else if w = "WITHIN" then
    advance
    if (← kind) = .place then return .within (.literal (← place)) false
    return .within (.ref (← reference)) false
  else if w = "Count" && next.text = "(" then
    advance
    expect "(" "after Count"
    let item ← ident
    expect ")" "after item"
    expect ">=" "after Count(..)"
    return .itemAtLeast item (← threshold)
  else if w = "Has" && next.text = "(" then
    advance
    expect "(" "after Has"
    let r ← reference
    expect ")" "after reference"
    return .hasArgItem r
  else named

/-- An atom that starts with a symbol. -/
def symbolAtom (inner : Inner) : Parse Expr := do
  let w ← word
  if w = "(" then
    advance
    let e ← inner .value
    expect ")" "to close parenthesis"
    return .paren e
  else if w = "^" then return .ref (← reference)
  else if w = "$" then
    advance
    let func ← ident
    return .call func (← args inner)
  else if w = "[" then return .items (← itemList)
  else fail (.expecting .expression)

def ofLiteral : Literal → Expr
  | .bool b => .bool b
  | .int n => .int n
  | .float x => .float x
  | .str s => .str s
  | .place p => .place p

def atom (inner : Inner) : Parse Expr := do
  match ← kind with
  | .number => return ofLiteral (← number)
  | .string => return .str (← string)
  | .place => return .place (← place)
  | .ident => wordAtom inner
  | .symbol => symbolAtom inner
  | .eof => fail (.expecting .expression)

/-! ## Operators -/

def product? : String → Option (Expr → Expr → Expr)
  | "*" => some fun l r => .binOp l .mul r
  | "/" => some fun l r => .binOp l .div r
  | _ => none

def sum? : String → Option (Expr → Expr → Expr)
  | "+" => some fun l r => .binOp l .add r
  | "-" => some fun l r => .binOp l .sub r
  | _ => none

def comparison? : String → Option CmpOp
  | "==" => some .eq
  | "!=" => some .ne
  | "<" => some .lt
  | "<=" => some .le
  | ">" => some .gt
  | ">=" => some .ge
  | _ => none

def conjunction? : String → Option (Expr → Expr → Expr)
  | "&&" => some fun l r => .and l.asPredicate r.asPredicate
  | _ => none

def disjunction? : String → Option (Expr → Expr → Expr)
  | "||" => some fun l r => .or l.asPredicate r.asPredicate
  | _ => none

def term (inner : Inner) : Parse Expr :=
  leftAssociative product? (atom inner)

def arith (inner : Inner) : Parse Expr :=
  leftAssociative sum? (term inner)

/-- The node for a comparison. Equality with a string or a place, and equality of a reference with
    an item, a setting, a reference or a call, have nodes of their own. -/
def compared (lhs : Expr) (op : CmpOp) (rhs : Expr) : Expr :=
  if op.isEquality then
    match lhs, rhs with
    | lhs, .str s => .strCompare lhs op (.str s)
    | lhs, .place p => .strCompare lhs op (.place p)
    | .ref r, .hasItem item => .refEq r op (.item item)
    | .ref r, .setting name => .refEq r op (.setting name)
    | .ref r, .ref other => .refEq r op (.ref other)
    | .ref r, .call func args => .refEqCall r op (.invoke func args false)
    | lhs, rhs => .numCompare lhs op rhs
  else .numCompare lhs op rhs

/-- At most one comparison, test of bits or membership in a set. -/
def comparison (inner : Inner) : Parse Expr := do
  let lhs ← arith inner
  let w ← word
  match comparison? w with
  | some op =>
    advance
    return compared lhs op (← arith inner)
  | none =>
    if w = "&" then
      advance
      return .flagMatch lhs (← int)
    else if w = "IN" then
      match lhs with
      | .ref r =>
        advance
        return .refInSet r (← set)
      | _ => fail .inWithoutReference
    else return lhs

/-- Any number of negations before a comparison. -/
def negated (inner : Inner) : Parse Expr := do
  let count ← iterate (fun count => do
    let w ← word
    if w = "NOT" || w = "!" then
      advance
      return .again (count + 1)
    return .done count) 0
  return Nat.repeat Expr.negate count (← comparison inner)

def conjunction (inner : Inner) : Parse Expr :=
  leftAssociative conjunction? (negated inner)

def disjunction (inner : Inner) : Parse Expr :=
  leftAssociative disjunction? (conjunction inner)

/-- An expression whose parts are read by `inner`. -/
def exprWith (inner : Inner) (position : Position) : Parse Expr := do
  let e ← disjunction inner
  if (← word) = "?" then
    advance
    let yes ← inner position
    expect ":" "in ternary expression"
    let no ← inner position
    return .ternary e.asPredicate yes no
  match position with
  | .truth => return e.asPredicate
  | .value => return e

/-- An expression. -/
def expr : Position → Parse Expr :=
  nested exprWith

/-- A requirement that takes up the whole text. -/
def requirement : Parse Expr := do
  let e ← expr .truth
  expectEnd
  return e

end AccessRules.Grammar

namespace AccessRules

/-- The requirement that a text stands for. -/
def parseRequirement (file text : String) : Except ParseError Expr :=
  Source.parse ⟨file, text⟩ Grammar.requirement

end AccessRules
