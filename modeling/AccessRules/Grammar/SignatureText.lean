import AccessRules.Grammar.Parse
import AccessRules.Signature

set_option autoImplicit false

/-! # The grammar of signatures

A signature is written `$name` or `$name(^a, ^b: Spot)`. -/

namespace AccessRules.Grammar

open Parse

def param : Parse Param := do
  expect "^" "before parameter name"
  let name ← ident
  if (← word) = ":" then
    advance
    let t ← current
    let typeName ← ident
    match ArgType.ofName? typeName with
    | some type => return ⟨name, some type⟩
    | none => failAt t (.unknownType typeName)
  return ⟨name, none⟩

/-- A signature that takes up the whole text. -/
def signature : Parse Signature := do
  expect "$" "before helper name"
  let name ← ident
  let params ← if (← word) = "(" then do
      advance
      let params ← listUntil ")" "parameter list" param
      advance
      pure params
    else pure []
  expectEnd
  return ⟨name, params⟩

end AccessRules.Grammar

namespace AccessRules

/-- The signature that a text stands for. -/
def parseSignature (text : String) : Except ParseError Signature :=
  Source.parse ⟨"<signature>", text⟩ Grammar.signature

end AccessRules
