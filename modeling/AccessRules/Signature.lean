import AccessRules.Place

set_option autoImplicit false

/-! # Helper signatures

A helper is a named rule with parameters. A parameter may declare the type of its arguments. -/

namespace AccessRules

/-- The type of an argument or a parameter. -/
inductive ArgType where
  | bool | int | float | str | item | items
  | place (kind : PlaceKind)
  deriving DecidableEq

namespace ArgType

/-- The type that a declaration names. -/
def ofName? (name : String) : Option ArgType :=
  if name = "Bool" || name = "bool" then some .bool
  else if name = "Int" || name = "int" then some .int
  else if name = "Float" || name = "float" then some .float
  else if name = "Str" || name = "str" || name = "String" then some .str
  else if name = "Item" then some .item
  else if name = "Items" then some .items
  else if name = "Region" || name = "RegionId" then some (.place .region)
  else if name = "Area" || name = "AreaId" then some (.place .area)
  else if name = "Spot" || name = "SpotId" then some (.place .spot)
  else if name = "Location" || name = "Action" then some (.place .leaf)
  else none

def name : ArgType → String
  | .bool => "Bool"
  | .int => "Int"
  | .float => "Float"
  | .str => "Str"
  | .item => "Item"
  | .items => "Items"
  | .place kind => kind.name

/-- What is said of a name that names no type. -/
def unknownText (name : String) : String :=
  "unknown argument type `" ++ name ++ "`"

def placeKind? : ArgType → Option PlaceKind
  | .place kind => some kind
  | _ => none

end ArgType

structure Param where
  name : String
  type : Option ArgType
  deriving DecidableEq

structure Signature where
  name : String
  params : List Param
  deriving DecidableEq

namespace Signature

/-- The namespace of the rules that are the bodies of helpers. -/
def helperNamespace : String := "helpers"

/-- The name of the rule that is the body of the helper. -/
def ruleName (s : Signature) : String :=
  helperNamespace ++ ":" ++ s.name

/-- The position of the first parameter with a name. -/
def paramIndex? (s : Signature) (name : String) : Option Nat :=
  s.params.findIdx? fun p => p.name = name

def hasParam (s : Signature) (name : String) : Bool :=
  (s.paramIndex? name).isSome

end Signature

end AccessRules
