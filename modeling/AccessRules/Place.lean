import AccessRules.Text.Blank

set_option autoImplicit false

/-! # Places

Places form a tree of regions, areas and spots, with actions and locations as leaves below the
spots. A path names a place by the segments on the way to it, divided by `>`; blanks around a
segment do not count. -/

namespace AccessRules

inductive PlaceKind where
  | region | area | spot | leaf
  deriving DecidableEq

namespace PlaceKind

def name : PlaceKind → String
  | .region => "Region"
  | .area => "Area"
  | .spot => "Spot"
  | .leaf => "Leaf"

/-- The name inside a sentence. -/
def word : PlaceKind → String
  | .region => "region"
  | .area => "area"
  | .spot => "spot"
  | .leaf => "leaf"

/-- The number of separators in the path of a place of this kind. -/
def separators : PlaceKind → Nat
  | .region => 0
  | .area => 1
  | .spot => 2
  | .leaf => 3

/-- The name of the type of identifiers in generated code. -/
def idType : PlaceKind → String
  | .region => "RegionId"
  | .area => "AreaId"
  | .spot => "SpotId"
  | .leaf => "LocationId"

def all : List PlaceKind := [.region, .area, .spot, .leaf]

end PlaceKind

namespace Place

/-- The character between the segments of a path. -/
def separator : Char := '>'

/-- The segments of a path, without the blanks around them. -/
def segments (path : String) : List String :=
  (Text.pieces separator path.toList).map fun piece => String.ofList (Text.trim piece)

def separators (path : String) : Nat :=
  path.toList.count separator

/-- The kind of place that a path of this depth can name. -/
def kind? (path : String) : Option PlaceKind :=
  match separators path with
  | 0 => some .region
  | 1 => some .area
  | 2 => some .spot
  | 3 => some .leaf
  | _ => none

/-- The path of segments, in its usual spelling. -/
def join (segments : List String) : String :=
  " > ".intercalate segments

/-- The place of a kind on the way to a path, if the path is that deep and has no empty segment. -/
def ancestor? (path : String) (kind : PlaceKind) : Option String :=
  let segs := segments path
  let depth := kind.separators + 1
  if segs.length < depth || segs.contains "" then none else some (join (segs.take depth))

/-- Whether `inner` is `outer` or lies within it. -/
def contains (outer inner : String) : Bool :=
  (segments outer).isPrefixOf (segments inner)

/-- The path as an identifier: `A > B c` becomes `A__B_c`. -/
def identifier (path : String) : String :=
  "__".intercalate ((segments path).map Text.identifierSafe)

/-- What is wrong with a path that should name a place of a kind. -/
inductive PathFault where
  | depth (path : String) (expected : PlaceKind) (found : Nat)
  | emptySegment (path : String)
  deriving DecidableEq

def PathFault.message : PathFault → String
  | .depth path expected found =>
    "'" ++ path ++ "' is not a valid " ++ expected.word ++ " path: expected "
      ++ toString expected.separators ++ " `>` separators, found " ++ toString found
  | .emptySegment path => "'" ++ path ++ "' has an empty path segment"

/-- The fault of a path as the path of a place of a kind. -/
def pathFault? (path : String) (expected : PlaceKind) : Option PathFault :=
  if separators path ≠ expected.separators then some (.depth path expected (separators path))
  else if (segments path).contains "" then some (.emptySegment path)
  else none

end Place

end AccessRules
