import AccessRules.Json.Document
import AccessRules.Json.Scalar

set_option autoImplicit false

/-! # Dialects of structured values

A structured value is written in JSON, or in a YAML document that keeps to the forms of JSON. The
two share their grammar and differ in what they make of it. `Dialect` tells them apart, and its
functions hold the decisions on limits, numbers and strings. -/

namespace AccessRules

inductive Dialect where
  | json
  | yaml
  deriving DecidableEq

namespace Dialect

/-- Arrays and objects nest at most this deep. -/
def maxDepth : Dialect → Nat
  | .json => 127
  | .yaml => 128

/-- Whether a record may be written as an array of its first fields, and an alternative as an
    object with one member. -/
def hasShortForms : Dialect → Bool
  | .json => true
  | .yaml => false

/-- Whether a scalar without quotes may stand for the text it is written with. -/
def hasPlainTexts : Dialect → Bool
  | .json => false
  | .yaml => true

/-- The nearest float to a number. One that is too large for a float is a text. -/
def nearestValue (text : String) : Json :=
  match Decimal.readFloat? text with
  | some x => if x.isFinite then .num (.float x) else .str text
  | none => .str text

/-- What a number stands for in a document: an integer if it fits into 64 bits, nothing if it is an
    integer that fits into 128 bits only, and else the nearest float. -/
def documentNumber? (form : NumberForm) : Option Json :=
  match form.integer? with
  | some n =>
    if -9223372036854775808 ≤ n && n < 18446744073709551616 then some (.num (.int n))
    else if -(Nat.pow 2 127 : Int) ≤ n && n < (Nat.pow 2 128 : Int) then none
    else some (nearestValue form.text)
  | none => some (nearestValue form.text)

/-- What a number stands for, if anything. -/
def number? (d : Dialect) (form : NumberForm) : Option Json :=
  match d with
  | .json => form.value?.map .num
  | .yaml => documentNumber? form

/-- Whether the inside of a string is in the right form. A document has no surrogates, not even in
    pairs. -/
def admits (d : Dialect) (inside : List Char) : Bool :=
  match d with
  | .json => true
  | .yaml => JsonString.surrogateFree inside

/-- The text that the inside of a string stands for, if any. -/
def text? (d : Dialect) (inside : List Char) : Option String :=
  let written := match d with
    | .json => inside
    | .yaml => Document.fold inside
  match JsonString.decode written with
  | .ok s => some s
  | .error _ => none

/-- Whether a quoted text and the blanks after it can be the name of a member. -/
def isKey (d : Dialect) (inside blanks : List Char) : Bool :=
  match d with
  | .json => true
  | .yaml => Document.isKey inside blanks

end Dialect

end AccessRules
