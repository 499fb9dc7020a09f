import AccessRules.Code.Accessors
import AccessRules.Context.Uses

set_option autoImplicit false

/-! # Names in generated code

Generated code is Rust over a player state `ctx` and settings `world`. A `CodeScope` says what the
names of a rule stand for there: items, settings and places have identifiers of their own,
parameters of a helper are variables, static data is a function of a place, and context variables
have accessors. -/

namespace AccessRules

/-- The identifier of an item. -/
def itemCode (item : String) : String :=
  "Item::" ++ Text.identifierSafe item

/-- The identifier of a place. A path that is too deep counts as the path of a leaf. -/
def placeCode (path : String) : String :=
  ((Place.kind? path).getD .leaf).idType ++ "::" ++ Place.identifier path

/-- The field of a setting. -/
def settingCode (setting : String) : String :=
  "world." ++ Text.identifierSafe setting

def boolCode (b : Bool) : String :=
  if b then "true" else "false"

/-- A string, or the member of an enumeration that it names. -/
def textCode (enumType : Option String) (s : String) : String :=
  match enumType with
  | some type => "enums::" ++ type ++ "::" ++ enumName s
  | none => Text.quoted s

/-- A literal where strings belong to an enumeration, or to none. -/
def Literal.code (enumType : Option String) : Literal → String
  | .bool b => boolCode b
  | .int n => wordText n
  | .float x => Decimal.exactText x
  | .str s => textCode enumType s
  | .place p => placeCode p

/-- What the names of a rule stand for in generated code. -/
structure CodeScope extends Workspace where
  contexts : ContextTable
  accessors : AccessorTable
  rule : Rule

namespace CodeScope

def isParam (s : CodeScope) (name : String) : Bool :=
  s.corpus.isParam s.rule name

/-- The path of a context variable or datum; a name that stands for nothing is its own path. -/
def path (s : CodeScope) (name : String) : String :=
  (s.rule.resolve? s.catalog name).getD name

/-- Code that reads a datum at a place. -/
def dataCode (path place : String) : String :=
  "data::" ++ Text.identifierSafe path ++ "(" ++ place ++ ")"

/-- Code that reads what a name stands for. Static data is read at the position of the player. -/
def get (s : CodeScope) (name : String) : String :=
  if s.isParam name then name
  else if s.catalog.isStatic (s.path name) then
    dataCode (s.path name) (s.accessors.getter "position")
  else s.accessors.getter (s.path name)

/-- Code that reads what a reference stands for. -/
def reference (s : CodeScope) (r : Reference) : String :=
  match r.qualifier with
  | none => s.get r.name
  | some (.place p) => dataCode (s.path r.name) (placeCode p)
  | some (.ref q) => dataCode (s.path r.name) (s.get q)

/-- Code that assigns a value to what a reference stands for. -/
def assign (s : CodeScope) (r : Reference) (value : String) : String :=
  if s.isParam r.name then r.name ++ " = " ++ value
  else s.accessors.setter (s.path r.name) value

/-- The enumeration that the values of a reference belong to. -/
def enumOf? (s : CodeScope) (r : Reference) : Option String :=
  match s.contexts.kind? (s.path r.name) with
  | some (.enum name) => some name
  | _ => none

/-- The enumeration that the values of a setting belong to. -/
def settingEnum? (s : CodeScope) (setting : String) : Option String :=
  match s.catalog.settings.find? setting with
  | some decl => if decl.type = .enum then some (enumName setting) else none
  | none => none

/-- The enumeration that an expression compared with a string belongs to. -/
def comparedEnum? (s : CodeScope) : Expr → Option String
  | .ref r => s.enumOf? r
  | .setting name => s.settingEnum? name
  | _ => none

/-- Code for a call with arguments. Rules take none; builtin functions see the player state only if
    they need it. -/
def callCode (s : CodeScope) (func : String) (args : List String) : String :=
  match s.corpus.resolve func with
  | .builtin b =>
    b.target ++ "(" ++ (if b.threadsState then "ctx, " else "") ++ ", ".intercalate args ++ ")"
  | .rule r => "rule__" ++ Text.identifierSafe r.shortName ++ "(ctx, world)"
  | _ =>
    let args := "ctx" :: "world" :: args
    "helper__" ++ Text.identifierSafe func ++ "(" ++ ", ".intercalate args ++ ")"

end CodeScope

end AccessRules
