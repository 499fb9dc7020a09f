import AccessRules.Number.Word

set_option autoImplicit false

/-! # Structured values

`Json` is the data format of catalogs and of the layout. Integers are kept apart from floats, and
the members of an object have an order. -/

namespace AccessRules

/-- A number: an integer of at most 64 bits with or without a sign, or else a float. -/
inductive JsonNumber where
  | int (n : Int)
  | float (x : Float)

/-- The number as a word, if it is an integer and fits. -/
def JsonNumber.word? : JsonNumber → Option Int64
  | .int n => AccessRules.word? n
  | .float _ => none

/-- The number as a float. -/
def JsonNumber.toFloat : JsonNumber → Float
  | .int n => Float.ofInt n
  | .float x => x

inductive Json where
  | null
  | bool (b : Bool)
  | num (n : JsonNumber)
  | str (s : String)
  | arr (elements : List Json)
  | obj (members : List (String × Json))

instance : Inhabited Json := ⟨.null⟩

end AccessRules
