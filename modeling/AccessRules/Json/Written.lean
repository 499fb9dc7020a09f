import AccessRules.Collection.NameMap
import AccessRules.Json.Basic

set_option autoImplicit false

/-! # Structured values as they are written

`Written` is what a text holds before anything is asked of it. The members of an object stay as
they were written, repetitions included, so that a reader can tell a repeated field from a single
one. A part in the right form that stands for no value does no harm as long as nobody asks for it.
`Written.value?` gives the value that is meant. -/

namespace AccessRules

inductive Written where
  /-- A scalar without quotes: its characters, and what it stands for, if anything. -/
  | plain (text : String) (value : Option Json)
  | str (s : String)
  | arr (elements : List Written)
  | obj (members : List (String × Written))
  /-- A string with half of a surrogate pair, an object with such a name, or an array or object that
      is nested too deep. -/
  | unreadable

namespace Written

instance : Inhabited Written := ⟨.unreadable⟩

mutual

/-- The value that is meant, if every part stands for one: each object in name order and each name
    once, with the last of its values. -/
def value? : Written → Option Json
  | .plain _ v => v
  | .str s => some (.str s)
  | .arr elements => (values? elements).map .arr
  | .obj members => (memberValues? members).map fun ms => .obj (NameMap.ofList ms).entries
  | .unreadable => none

def values? : List Written → Option (List Json)
  | [] => some []
  | w :: ws => do
    let v ← w.value?
    let vs ← values? ws
    some (v :: vs)

def memberValues? : List (String × Written) → Option (List (String × Json))
  | [] => some []
  | (k, w) :: ms => do
    let v ← w.value?
    let vs ← memberValues? ms
    some ((k, v) :: vs)

end

end Written

end AccessRules
