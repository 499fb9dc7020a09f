import AccessRules.Expr.Basic
import AccessRules.Json.Basic
import AccessRules.Place

set_option autoImplicit false

/-! # Kinds of context variables

What a context variable may hold. An enumeration is named after its variable. -/

namespace AccessRules

/-- The name with every run of ASCII letters and digits capitalised and all else left out:
    `flags.last_mode` becomes `FlagsLastMode`. -/
def enumName (name : String) : String :=
  String.ofList (go true name.toList)
where
  go : (atStart : Bool) → List Char → List Char
    | _, [] => []
    | atStart, c :: cs =>
      if c.isAlphanum then (if atStart then c.toUpper else c) :: go false cs else go true cs

inductive ContextKind where
  | bool | int | float
  /-- A closed set of strings, under the name of its enumeration. -/
  | enum (name : String)
  | place (kind : PlaceKind)
  deriving DecidableEq

namespace ContextKind

/-- The kind that a declaration gives to a variable. -/
def ofDecl? (type var : String) : Option ContextKind :=
  match type with
  | "bool" => some .bool
  | "int" => some .int
  | "float" => some .float
  | "enum" => some (.enum (enumName var))
  | "region" => some (.place .region)
  | "area" => some (.place .area)
  | "spot" => some (.place .spot)
  | _ => none

/-- The kind that a variable shows by a literal. -/
def ofLiteral? (lit : Literal) (var : String) : Option ContextKind :=
  match lit with
  | .bool _ => some .bool
  | .int _ => some .int
  | .float _ => some .float
  | .str _ => some (.enum (enumName var))
  | .place p => (Place.kind? p).map .place

/-- Whether a variable of the kind can hold a value seen as `other`. -/
def accepts (kind other : ContextKind) : Bool :=
  kind = other || (kind = .float && other = .int)

def text : ContextKind → String
  | .bool => "bool"
  | .int => "int"
  | .float => "float"
  | .enum name => "enum " ++ name
  | .place kind => kind.name

end ContextKind

/-- Whether a text is divided like a path. -/
def looksLikePlace (s : String) : Bool :=
  s.toList.contains Place.separator

/-- The literal that a structured value stands for. A string divided like a path is a place. -/
def Literal.ofJson? : Json → Option Literal
  | .bool b => some (.bool b)
  | .num n => match n.word? with
    | some w => some (.int w)
    | none => some (.float n.toFloat)
  | .str s => some (if looksLikePlace s then .place s else .str s)
  | _ => none

end AccessRules
