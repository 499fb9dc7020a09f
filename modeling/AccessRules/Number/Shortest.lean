set_option autoImplicit false

/-! # The shortest decimal of a float

A finite float that is not zero is `m · 2 ^ q`. The reals that round to it form an interval around
it, with its ends if `m` is even. `shortest` gives the point of that interval on the coarsest grid
of multiples of a power of ten, and of two such points the one nearer to the float. -/

namespace AccessRules.Decimal

/-- A positive binary number `mantissa · 2 ^ exponent`; `narrow` says that the next smaller number
    is only half as far away as the next larger one. -/
structure Binary where
  mantissa : Nat
  exponent : Int
  narrow : Bool

/-- A decimal number `digits · 10 ^ exponent`. -/
structure Scaled where
  digits : Nat
  exponent : Int
  deriving DecidableEq, Inhabited

/-- The magnitude of a finite float from its bits. -/
def Binary.ofBits (bits : Nat) : Binary :=
  let biased : Nat := bits / Nat.pow 2 52 % Nat.pow 2 11
  let fraction : Nat := bits % Nat.pow 2 52
  if biased = 0 then ⟨fraction, -1074, false⟩
  else ⟨fraction + Nat.pow 2 52, (biased : Int) - 1075, fraction == 0 && biased > 1⟩

/-- The point of the grid of multiples of `10 ^ k` that stands for `b`, if one rounds to it.
    Everything is measured in quarters of `2 ^ b.exponent`, brought to a common denominator. -/
def Binary.onGrid? (b : Binary) (k : Int) : Option Scaled :=
  let shift := b.exponent - 2
  let up := Nat.pow 2 shift.toNat * Nat.pow 10 (-k).toNat
  let value := 4 * b.mantissa * up
  let low := (4 * b.mantissa - (if b.narrow then 1 else 2)) * up
  let high := (4 * b.mantissa + 2) * up
  let unit := Nat.pow 2 (-shift).toNat * Nat.pow 10 k.toNat
  let closed := b.mantissa % 2 == 0
  let inside (p : Nat) : Bool :=
    if closed then low ≤ p * unit && p * unit ≤ high
    else low < p * unit && p * unit < high
  let p := value / unit
  match p != 0 && inside p, inside (p + 1) with
  | true, true => some ⟨if 2 * value < (2 * p + 1) * unit then p else p + 1, k⟩
  | true, false => some ⟨p, k⟩
  | false, true => some ⟨p + 1, k⟩
  | false, false => none

/-- The shortest decimal that rounds to `b`; an exact tie goes to the larger. -/
def Binary.shortest (b : Binary) : Scaled :=
  ((List.range 640).findSome? fun i : Nat => b.onGrid? (309 - (i : Int))).getD ⟨0, 0⟩

end AccessRules.Decimal
