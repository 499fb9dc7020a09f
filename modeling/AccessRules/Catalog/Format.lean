import AccessRules.Catalog.Basic
import AccessRules.Json.Decode

set_option autoImplicit false

/-! # The written form of catalogs

`Catalog.parse?` reads a catalog from its text, and `Catalog.toJson` gives its structured value, in
which absent options are left out. -/

namespace AccessRules

open Written

namespace SettingType

def name : SettingType → String
  | .bool => "bool"
  | .int => "int"
  | .float => "float"
  | .enum => "enum"
  | .str => "str"

def ofName? (name : String) : Option SettingType :=
  [SettingType.bool, .int, .float, .enum, .str].find? fun t => t.name == name

end SettingType

def SettingDecl.ofWritten? (d : Dialect) (w : Written) : Option SettingDecl := do
  let fields ← w.fields? d ["type", "max", "options", "default"]
  let type ← fields.lookup "type" >>= alternative? d >>= SettingType.ofName?
  return {
    type
    max := ← optional? fields "max" Written.word?
    options := ← optional? fields "options" (list? (text? d))
    default := ← optional? fields "default" value? }

def ContextDecl.ofWritten? (d : Dialect) (w : Written) : Option ContextDecl := do
  let fields ← w.fields? d ["type", "default", "min", "max"]
  return {
    type := ← optional? fields "type" (text? d)
    default := ← optional? fields "default" value?
    min := ← optional? fields "min" Written.word?
    max := ← optional? fields "max" Written.word? }

def Spot.ofWritten? (d : Dialect) (w : Written) : Option Spot := do
  let fields ← w.fields? d ["data", "actions", "locations"]
  return {
    data := ← field? fields "data" (map? value?) ∅
    actions := ← field? fields "actions" (list? (text? d)) []
    locations := ← field? fields "locations" (list? (text? d)) [] }

def Area.ofWritten? (d : Dialect) (w : Written) : Option Area := do
  let fields ← w.fields? d ["spots"]
  return { spots := ← field? fields "spots" (map? (Spot.ofWritten? d)) ∅ }

def Region.ofWritten? (d : Dialect) (w : Written) : Option Region := do
  let fields ← w.fields? d ["areas"]
  return { areas := ← field? fields "areas" (map? (Area.ofWritten? d)) ∅ }

namespace Catalog

def ofWritten? (d : Dialect) (w : Written) : Option Catalog := do
  let fields ← w.fields? d ["items", "settings", "context", "consts", "data", "regions"]
  return {
    items := NameSet.ofList (← field? fields "items" (list? (text? d)) [])
    settings := ← field? fields "settings" (map? (SettingDecl.ofWritten? d)) ∅
    context := ← field? fields "context" (roster? (ContextDecl.ofWritten? d)) ∅
    consts := ← field? fields "consts" (map? value?) ∅
    data := ← field? fields "data" (map? value?) ∅
    regions := ← field? fields "regions" (map? (Region.ofWritten? d)) ∅ }

/-- The catalog that a text holds. -/
def parse? (d : Dialect) (s : String) : Option Catalog :=
  Written.parse? d s >>= ofWritten? d

end Catalog

/-! ## Writing -/

/-- A member that is left out if there is no value. -/
def memberOf {α : Type} (name : String) (encode : α → Json) : Option α → List (String × Json)
  | some a => [(name, encode a)]
  | none => []

def wordJson (n : Int64) : Json :=
  .num (.int n.toInt)

def textsJson (texts : List String) : Json :=
  .arr (texts.map .str)

def mapJson {α : Type} (encode : α → Json) (m : NameMap α) : Json :=
  .obj (m.entries.map fun (k, v) => (k, encode v))

def SettingDecl.toJson (d : SettingDecl) : Json :=
  .obj ([("type", .str d.type.name)] ++ memberOf "max" wordJson d.max
    ++ memberOf "options" textsJson d.options ++ memberOf "default" id d.default)

def ContextDecl.toJson (d : ContextDecl) : Json :=
  .obj (memberOf "type" .str d.type ++ memberOf "default" id d.default
    ++ memberOf "min" wordJson d.min ++ memberOf "max" wordJson d.max)

def Spot.toJson (s : Spot) : Json :=
  .obj [("data", mapJson id s.data), ("actions", textsJson s.actions),
    ("locations", textsJson s.locations)]

def Area.toJson (a : Area) : Json :=
  .obj [("spots", mapJson Spot.toJson a.spots)]

def Region.toJson (r : Region) : Json :=
  .obj [("areas", mapJson Area.toJson r.areas)]

def Catalog.toJson (c : Catalog) : Json :=
  .obj [("items", textsJson (NameSet.toList c.items)),
    ("settings", mapJson SettingDecl.toJson c.settings),
    ("context", .obj (c.context.entries.map fun (k, v) => (k, v.toJson))),
    ("consts", mapJson id c.consts), ("data", mapJson id c.data),
    ("regions", mapJson Region.toJson c.regions)]

end AccessRules
