import AccessRules.Context.Uses

set_option autoImplicit false

/-! # Places that rules name

The spot of a rule has to be the path of a spot, and place literals have to name declared places if
any are declared. Each unknown path is reported once for a rule, in order. -/

namespace AccessRules

/-- The place literal that qualifies a reference. -/
def Reference.placePaths (r : Reference) : List String :=
  match r.qualifier with
  | some (.place p) => [p]
  | _ => []

/-- The paths of the place literals in a node itself, its children apart. -/
def Expr.placePaths : Expr → List String
  | .place p => [p]
  | .strCompare _ _ (.place p) => [p]
  | .refInSet _ (.places paths) => paths
  | .within (.literal p) _ => [p]
  | .refEq r _ _ => r.placePaths
  | .refEqCall r _ _ => r.placePaths
  | .ref r => r.placePaths
  | _ => []

namespace Workspace

/-- The paths in a rule that name no declared place. -/
def unknownPlaces (w : Workspace) (r : Rule) : List String :=
  if w.catalog.hasPlaces then
    (NameSet.toList (NameSet.ofList (r.body.nodes.flatMap Expr.placePaths))).filter fun path =>
      (w.catalog.locationKind? path).isNone
  else []

/-- What is to be said about the places of a rule. -/
def placeProblems (w : Workspace) (r : Rule) : List Problem :=
  let fault := r.spot.bind fun spot => Place.pathFault? spot .spot
  fault.toList.map .invalidSpot ++ (w.unknownPlaces r).map .unknownPlace

/-- What is to be said about the places of all rules. -/
def checkPlaces (w : Workspace) : List Event :=
  w.corpus.rules.values.flatMap fun r => (w.placeProblems r).map (Event.problem r.name)

end Workspace

end AccessRules
