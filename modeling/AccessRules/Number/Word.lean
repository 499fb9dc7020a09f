set_option autoImplicit false

/-! # Integers of 64 bits

Integer literals, bounds and counts are words of 64 bits. Arithmetic on them is carried out over
the unbounded integers and has a result only if that result fits, so it never wraps. -/

namespace AccessRules

/-- Whether an integer fits into a word. -/
def FitsWord (n : Int) : Prop :=
  -9223372036854775808 ≤ n ∧ n ≤ 9223372036854775807

instance (n : Int) : Decidable (FitsWord n) :=
  inferInstanceAs (Decidable (_ ∧ _))

/-- The integer as a word, if it fits. -/
def word? (n : Int) : Option Int64 :=
  if FitsWord n then some (Int64.ofInt n) else none

/-- A word in decimal. -/
def wordText (n : Int64) : String :=
  toString n.toInt

/-- The value of a digit, for the digits of the alphabet up to `f`. -/
def digitValue (c : Char) : Nat :=
  if c.isDigit then c.toNat - '0'.toNat
  else if 'a' ≤ c then c.toNat - 'a'.toNat + 10
  else c.toNat - 'A'.toNat + 10

/-- The number that a list of digits denotes in a base. -/
def digitsValue (base : Nat) (digits : List Char) : Nat :=
  digits.foldl (fun n c => n * base + digitValue c) 0

/-- An optional minus sign and decimal digits, read as a word. -/
def readWord? (cs : List Char) : Option Int64 :=
  let (negative, digits) := match cs with
    | '-' :: ds => (true, ds)
    | ds => (false, ds)
  if digits.isEmpty || !digits.all Char.isDigit then none
  else
    let n : Int := digitsValue 10 digits
    word? (if negative then -n else n)

/-- Bitwise conjunction of `value` and `mask` gives back `mask`. -/
def hasBits (value mask : Int64) : Bool :=
  value &&& mask == mask

end AccessRules
