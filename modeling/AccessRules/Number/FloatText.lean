import AccessRules.Number.Shortest
import AccessRules.Number.Word

set_option autoImplicit false

/-! # Floats as text

Floats are written with the fewest digits that read back as the same float. The two layouts in use
differ in one respect: `exactLayout` keeps a fraction and changes to an exponent for very large and
very small numbers, so that its texts are always recognisable as floats, while `plainLayout` is
positional throughout and drops an empty fraction. -/

namespace AccessRules.Decimal

/-- How the digits of a float are laid out. -/
structure Layout where
  /-- The positions of the decimal point, counted from the first digit, that are written without
      an exponent. -/
  positional : Int → Bool
  /-- Whether an integral number is written with `.0`. -/
  keepsFraction : Bool

/-- Positional from `0.0001` up to `10 ^ 16`, and with `.0` after an integral number. -/
def exactLayout : Layout := ⟨fun point => -3 ≤ point && point ≤ 16, true⟩

/-- Positional throughout, without an empty fraction. -/
def plainLayout : Layout := ⟨fun _ => true, false⟩

/-- A decimal written without an exponent, its point standing `point` places after the first
    digit. -/
def positionalText (keepsFraction : Bool) (digits : List Char) (point : Int) : List Char :=
  let zeros (n : Int) : List Char := List.replicate n.toNat '0'
  if point ≤ 0 then ['0', '.'] ++ zeros (-point) ++ digits
  else if point < digits.length then digits.take point.toNat ++ '.' :: digits.drop point.toNat
  else digits ++ zeros (point - digits.length) ++ (if keepsFraction then ['.', '0'] else [])

/-- A decimal with one digit before the point and an exponent. -/
def exponentText (digits : List Char) (point : Int) : List Char :=
  let exponent := (toString (point - 1)).toList
  match digits with
  | [d] => d :: 'e' :: exponent
  | d :: ds => d :: '.' :: ds ++ 'e' :: exponent
  | [] => []

/-- A positive decimal in a layout. -/
def Scaled.text (layout : Layout) (s : Scaled) : List Char :=
  let digits := Nat.toDigits 10 s.digits
  let point := digits.length + s.exponent
  if layout.positional point then positionalText layout.keepsFraction digits point
  else exponentText digits point

/-- A float in a layout. -/
def floatText (layout : Layout) (x : Float) : String :=
  let bits := x.toBits.toNat
  let magnitude := bits % Nat.pow 2 63
  let sign := if bits < Nat.pow 2 63 then "" else "-"
  if x.isNaN then "NaN"
  else if x.isInf then sign ++ "inf"
  else if magnitude = 0 then sign ++ (if layout.keepsFraction then "0.0" else "0")
  else sign ++ String.ofList ((Binary.ofBits magnitude).shortest.text layout)

/-- The text of a float in rules, code and messages. -/
def exactText (x : Float) : String :=
  floatText exactLayout x

/-- The text of a float among the options of a setting. -/
def plainText (x : Float) : String :=
  floatText plainLayout x

/-! ## Reading -/

/-- The float nearest to `digits · 10 ^ exponent`. Beyond the range of floats the answer is
    infinite or zero, whatever the exponent. -/
def nearestFloat (digits : Nat) (exponent : Int) : Float :=
  let size := (Nat.toDigits 10 digits).length + exponent
  if digits = 0 || size < -330 then 0
  else if 310 < size then 1 / 0
  else Float.ofScientific digits (exponent < 0) exponent.natAbs

/-- The digits of the exponent part: a mark, an optional sign and at least one digit. No mark
    means zero. -/
def readExponent? : List Char → Option Int
  | [] => some 0
  | mark :: rest =>
    let (negative, digits) := match rest with
      | '-' :: ds => (true, ds)
      | '+' :: ds => (false, ds)
      | ds => (false, ds)
    if (mark = 'e' || mark = 'E') && !digits.isEmpty && digits.all Char.isDigit then
      let n : Int := digitsValue 10 digits
      some (if negative then -n else n)
    else none

/-- A decimal without a sign: digits with an optional point somewhere among them, at least one
    digit in all, and an optional exponent. -/
def readMagnitude? (cs : List Char) : Option Float := do
  let (whole, rest) := cs.span Char.isDigit
  let (fraction, rest) := match rest with
    | '.' :: ds => ds.span Char.isDigit
    | ds => ([], ds)
  if whole.isEmpty && fraction.isEmpty then none
  else
    let exponent ← readExponent? rest
    some (nearestFloat (digitsValue 10 (whole ++ fraction)) (exponent - fraction.length))

/-- A float from its text: an optional sign, then a decimal or one of the words for infinity and
    for an undefined value, in any case of letters. -/
def readFloat? (s : String) : Option Float :=
  let (negative, cs) := match s.toList with
    | '-' :: cs => (true, cs)
    | '+' :: cs => (false, cs)
    | cs => (false, cs)
  let word := String.ofList (cs.map Char.toLower)
  let magnitude :=
    if word = "inf" || word = "infinity" then some (1 / 0)
    else if word = "nan" then some (0 / 0)
    else readMagnitude? cs
  magnitude.map fun x => if negative then -x else x

end AccessRules.Decimal
