import AccessRules.Grammar.Requirement

set_option autoImplicit false

/-! # The grammar of action bodies

Actions divided by semicolons: assignments, swaps, conditionals with blocks of actions, and calls.
-/

namespace AccessRules.Grammar

open Parse

/-- The operator of an assignment: none for a plain one. -/
def assignment? : String → Option (Option ArithOp)
  | "=" => some none
  | "+=" => some (some .add)
  | "-=" => some (some .sub)
  | "*=" => some (some .mul)
  | "/=" => some (some .div)
  | _ => none

def assignment : Parse Action := do
  let target ← reference
  match assignment? (← word) with
  | none => fail (.expecting .assignment)
  | some op =>
    advance
    let value ← expr .value
    match op with
    | none => return .set target value
    | some op => return .alter target op value

/-- The operands of a swap. -/
def swapped : Parse Action := do
  expect "(" "after SWAP"
  let first ← reference
  expect "," "between SWAP operands"
  let second ← reference
  expect ")" "after SWAP operands"
  return .swap first second

/-- An action whose blocks are read by `block`. -/
def action (block : Parse Action) : Parse Action := do
  let w ← word
  if w = "^" then assignment
  else if w = "SWAP" then
    advance
    swapped
  else if w = "IF" then
    advance
    let (arms, otherwise) ← conditional expr block
    return .cond (arms.map (·.1)) (arms.map (·.2)) otherwise
  else if w = "$" then
    advance
    let func ← ident
    return .call func (← args expr)
  else fail (.expecting .action)

/-- Actions divided by semicolons, up to the end of the block or of the text. -/
def actionList (block : Parse Action) : Parse (List Action) :=
  iterate (fun steps => do
    if (← kind) = .eof || (← word) = "\x7d" then return .done steps
    let a ← action block
    if (← word) = ";" then
      advance
      return .again (steps ++ [a])
    return .done (steps ++ [a])) []

/-- A block whose inner blocks are read by `block`: one action, or a sequence. -/
def blockWith (block : Unit → Parse Action) (_ : Unit) : Parse Action := do
  match ← actionList (block ()) with
  | [] => fail (.expecting .action)
  | [a] => return a
  | steps => return .sequence steps

/-- A block of actions. -/
def block : Parse Action :=
  nested blockWith ()

/-- An action body that takes up the whole text. -/
def actionBody : Parse Action := do
  let a ← block
  expectEnd
  return a

end AccessRules.Grammar

namespace AccessRules

/-- The action body that a text stands for. -/
def parseActions (file text : String) : Except ParseError Action :=
  Source.parse ⟨file, text⟩ Grammar.actionBody

end AccessRules
