import AccessRules.Collection.NameMap
import AccessRules.Collection.Roster
import AccessRules.Json.Basic
import AccessRules.Place

set_option autoImplicit false

/-! # Catalogs

A catalog declares what rules may speak of: items, settings, context variables, constants, static
data with its global defaults, and the tree of places. Static data may be overridden at a spot. -/

namespace AccessRules

inductive SettingType where
  | bool | int | float | enum | str
  deriving DecidableEq

structure SettingDecl where
  type : SettingType
  /-- The largest value, for settings that are used as a count. -/
  max : Option Int64 := none
  /-- The values that the setting may have, if they are limited. -/
  options : Option (List String) := none
  default : Option Json := none

structure ContextDecl where
  type : Option String := none
  default : Option Json := none
  min : Option Int64 := none
  max : Option Int64 := none

structure Spot where
  /-- What replaces the global defaults of static data here. -/
  data : NameMap Json := ∅
  actions : List String := []
  locations : List String := []

structure Area where
  spots : NameMap Spot := ∅

structure Region where
  areas : NameMap Area := ∅

structure Catalog where
  items : NameSet := ∅
  settings : NameMap SettingDecl := ∅
  /-- Context variables in the order of their declaration. -/
  context : Roster ContextDecl := ∅
  consts : NameMap Json := ∅
  data : NameMap Json := ∅
  regions : NameMap Region := ∅

namespace Catalog

/-- Whether there is a tree of places to check paths against. -/
def hasPlaces (c : Catalog) : Bool :=
  !c.regions.isEmpty

/-- Whether a name stands for static data. -/
def isStatic (c : Catalog) (name : String) : Bool :=
  c.data.contains name

def area? (c : Catalog) (region area : String) : Option Area :=
  c.regions.find? region >>= fun r => r.areas.find? area

def spotAt? (c : Catalog) (region area spot : String) : Option Spot :=
  c.area? region area >>= fun a => a.spots.find? spot

/-- The kind of the declared place that a path names, if it names one. -/
def locationKind? (c : Catalog) (path : String) : Option PlaceKind :=
  match Place.segments path with
  | [r] => (c.regions.find? r).map fun _ => .region
  | [r, a] => (c.area? r a).map fun _ => .area
  | [r, a, s] => (c.spotAt? r a s).map fun _ => .spot
  | [r, a, s, leaf] => (c.spotAt? r a s).bind fun spot =>
    if (spot.actions ++ spot.locations).contains leaf then some .leaf else none
  | _ => none

/-- The declared spot that a path names, if it names one. -/
def spot? (c : Catalog) (path : String) : Option Spot :=
  match Place.segments path with
  | [r, a, s] => c.spotAt? r a s
  | _ => none

/-- Every declared spot with its path, in the order of the names on the path. -/
def spots (c : Catalog) : List (String × Spot) :=
  c.regions.entries.flatMap fun (r, region) =>
    region.areas.entries.flatMap fun (a, area) =>
      area.spots.entries.map fun (s, spot) => (Place.join [r, a, s], spot)

end Catalog

end AccessRules
