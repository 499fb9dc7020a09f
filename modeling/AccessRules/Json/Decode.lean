import AccessRules.Collection.Roster
import AccessRules.Json.Reader

set_option autoImplicit false

/-! # Records from what is written

Readers for the parts of a record. A record is written as an object, in which no known field is
repeated and unknown ones do not matter, not even if they stand for no value. Where the dialect has
short forms, it may also be an array of its first fields in order. -/

namespace AccessRules.Written

def text? (d : Dialect) : Written → Option String
  | .str s => some s
  | .plain text _ => if d.hasPlainTexts then some text else none
  | _ => none

def bool? : Written → Option Bool
  | .plain _ (some (.bool b)) => some b
  | _ => none

def word? : Written → Option Int64
  | .plain _ (some (.num n)) => n.word?
  | _ => none

def nat? : Written → Option Nat
  | .plain _ (some (.num (.int n))) => if 0 ≤ n then some n.toNat else none
  | _ => none

def isNull : Written → Bool
  | .plain _ (some .null) => true
  | _ => false

/-- The name of an alternative: alone, or in short form as the only member of an object that holds
    nothing. -/
def alternative? (d : Dialect) : Written → Option String
  | .obj [(s, w)] => if d.hasShortForms && w.isNull then some s else none
  | w => w.text? d

def list? {α : Type} (element : Written → Option α) : Written → Option (List α)
  | .arr elements => elements.mapM element
  | _ => none

def pairs? {α : Type} (value : Written → Option α) : Written → Option (List (String × α))
  | .obj members => members.mapM fun (k, v) => (value v).map (k, ·)
  | _ => none

/-- A map; of a repeated name the last value counts. -/
def map? {α : Type} (value : Written → Option α) (w : Written) : Option (NameMap α) :=
  (pairs? value w).map NameMap.ofList

/-- A map in the order of its first mentions; of a repeated name the last value counts. -/
def roster? {α : Type} (value : Written → Option α) (w : Written) : Option (Roster α) :=
  (pairs? value w).map Roster.ofList

/-- The fields of a record with these names. -/
def fields? (d : Dialect) (names : List String) : Written → Option (List (String × Written))
  | .obj members =>
    let known := members.filter fun (k, _) => names.contains k
    if names.all fun name => (known.filter fun (k, _) => k == name).length ≤ 1 then some known
    else none
  | .arr elements =>
    if d.hasShortForms && elements.length ≤ names.length then some (names.zip elements) else none
  | _ => none

/-- A field that may be left out. -/
def field? {α : Type} (fields : List (String × Written)) (name : String)
    (value : Written → Option α) (default : α) : Option α :=
  match fields.lookup name with
  | some w => value w
  | none => some default

/-- A field that may be left out or be `null`. -/
def optional? {α : Type} (fields : List (String × Written)) (name : String)
    (value : Written → Option α) : Option (Option α) :=
  match fields.lookup name with
  | some w => if w.isNull then some none else (value w).map some
  | none => some none

end AccessRules.Written
