import AccessRules.Catalog.Basic
import AccessRules.Reachability.Value

set_option autoImplicit false

/-! # Static data

What static data holds at each spot: a default, unless the spot has a value of its own. Anything
that is not static data is uncertain everywhere. -/

namespace AccessRules

structure StaticTable where
  defaults : NameMap Value := ∅
  spots : NameMap (NameMap Value) := ∅

namespace StaticTable

def setDefault (t : StaticTable) (name : String) (v : Value) : StaticTable :=
  { t with defaults := t.defaults.insert name v }

/-- The table with a value for one spot. -/
def set (t : StaticTable) (spot name : String) (v : Value) : StaticTable :=
  { t with spots := t.spots.alter spot fun data => (data.getD ∅).insert name v }

def isStatic (t : StaticTable) (name : String) : Bool :=
  t.defaults.contains name

/-- The value of a name at a spot. -/
def lookup (t : StaticTable) (spot name : String) : Value :=
  match t.spots.find? spot >>= fun data => data.find? name with
  | some v => v
  | none => (t.defaults.find? name).getD .uncertain

/-- The value of a datum. A string that names a declared place is that place. -/
def dataValue (c : Catalog) : Json → Value
  | .str s => if (c.locationKind? s).isSome then .place s else Value.ofJson (.str s)
  | j => Value.ofJson j

/-- The static data of a catalog. -/
def ofCatalog (c : Catalog) : StaticTable :=
  let defaults := c.data.entries.foldl
    (fun (t : StaticTable) (name, j) => t.setDefault name (dataValue c j)) {}
  c.spots.foldl (fun t (path, spot) =>
    spot.data.entries.foldl (fun t (name, j) => t.set path name (dataValue c j)) t) defaults

end StaticTable

end AccessRules
