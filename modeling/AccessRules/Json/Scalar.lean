import AccessRules.Json.Basic
import AccessRules.Number.FloatText

set_option autoImplicit false

/-! # Numbers and strings of structured values

The two scalar forms with a grammar of their own. The readers take the rest of a text and give
what they find with what follows it, or the reason why there is nothing. Form and value are apart:
`NumberForm.read` and `JsonString.inside?` find where a scalar ends, and a scalar in the right form
may still stand for no value.

A number with at most twenty digits and neither fraction nor exponent is exact. Any other number
keeps as many leading digits as fit into 64 bits and is scaled by one multiplication or division
with a power of ten, so its last bits are those of that computation. -/

namespace AccessRules

/-- Why a text is not a number. -/
inductive NumberFault where
  /-- The text ends where a digit is needed. -/
  | unfinished
  /-- Something else stands where a digit is needed, or a digit follows a leading zero. -/
  | invalid
  /-- The number is too large for a float. -/
  | outOfRange
  deriving DecidableEq

/-- Why a text is not the inside of a string. Columns count the bytes read, with the opening
    quote. -/
inductive StringFault where
  | unterminated
  | control
  | badEscape
  /-- A surrogate stands alone, or is followed by another code unit that is not its partner. -/
  | loneSurrogate (column : Nat)
  /-- A high surrogate is not followed by an escaped code unit. -/
  | cutSurrogate (column : Nat)
  deriving DecidableEq

namespace JsonNumber

/-- Append digits to a number as long as it fits into 64 bits, and give the digits left over. -/
def absorb (significand : Nat) : List Char → Nat × List Char
  | [] => (significand, [])
  | d :: ds =>
    let next := significand * 10 + digitValue d
    if next < Nat.pow 2 64 then absorb next ds else (significand, d :: ds)

/-- Divide by a power of ten, in steps that are powers of ten among the floats. -/
def scaleDown : (steps : Nat) → Float → Nat → Float
  | 0, _, _ => 0
  | steps + 1, x, e =>
    if e ≤ 308 then x / Decimal.nearestFloat 1 e
    else if x == 0 then x
    else scaleDown steps (x / Decimal.nearestFloat 1 308) (e - 308)

/-- `significand · 10 ^ exponent` by one scaling of the significand, unless it is too large for a
    float. -/
def scaled? (significand : Nat) (exponent : Int) : Option Float :=
  let x := significand.toUInt64.toFloat
  if exponent < 0 then some (scaleDown 3 x exponent.natAbs)
  else if exponent ≤ 308 then
    let y := x * Decimal.nearestFloat 1 exponent
    if y.isInf then none else some y
  else if x == 0 then some x
  else none

end JsonNumber

/-- An exponent as it is written: its mark, perhaps a sign, and digits. -/
structure ExponentForm where
  mark : Char
  sign : Option Char
  digits : List Char

namespace ExponentForm

def value (e : ExponentForm) : Int :=
  let n : Int := digitsValue 10 e.digits
  if e.sign = some '-' then -n else n

def text (e : ExponentForm) : List Char :=
  e.mark :: e.sign.toList ++ e.digits

end ExponentForm

/-- The parts of a number as it is written. -/
structure NumberForm where
  negative : Bool
  whole : List Char
  fraction : Option (List Char)
  exponent : Option ExponentForm

namespace NumberForm

/-- At least one digit, then the digits and what follows them. -/
def readDigits (cs : List Char) : Except NumberFault (List Char × List Char) :=
  match cs with
  | [] => .error .unfinished
  | c :: _ => if c.isDigit then .ok (cs.span Char.isDigit) else .error .invalid

/-- The digits before the point: a single zero, or digits that do not start with one. -/
def readWhole (cs : List Char) : Except NumberFault (List Char × List Char) :=
  match cs with
  | '0' :: d :: rest => if d.isDigit then .error .invalid else .ok (['0'], d :: rest)
  | _ => readDigits cs

/-- The fraction, if a point comes next. -/
def readFraction (cs : List Char) : Except NumberFault (Option (List Char) × List Char) :=
  match cs with
  | '.' :: rest => (readDigits rest).map fun (ds, rest) => (some ds, rest)
  | rest => .ok (none, rest)

/-- The exponent, if its mark comes next. -/
def readExponent (cs : List Char) : Except NumberFault (Option ExponentForm × List Char) :=
  match cs with
  | mark :: rest =>
    if mark = 'e' || mark = 'E' then
      let (sign, rest) := match rest with
        | '-' :: rest => (some '-', rest)
        | '+' :: rest => (some '+', rest)
        | rest => (none, rest)
      (readDigits rest).map fun (digits, rest) => (some ⟨mark, sign, digits⟩, rest)
    else .ok (none, cs)
  | [] => .ok (none, [])

/-- The number at the start of a text, and what follows it. -/
def read (cs : List Char) : Except NumberFault (NumberForm × List Char) := do
  let (negative, cs) := match cs with
    | '-' :: rest => (true, rest)
    | rest => (false, rest)
  let (whole, cs) ← readWhole cs
  let (fraction, cs) ← readFraction cs
  let (exponent, cs) ← readExponent cs
  return (⟨negative, whole, fraction, exponent⟩, cs)

/-- The characters of the number. -/
def text (f : NumberForm) : String :=
  String.ofList ((if f.negative then ['-'] else []) ++ f.whole
    ++ (f.fraction.map ('.' :: ·)).getD [] ++ (f.exponent.map ExponentForm.text).getD [])

/-- The exact value of a number without fraction and exponent. -/
def integer? (f : NumberForm) : Option Int :=
  let n : Int := digitsValue 10 f.whole
  if f.fraction.isNone && f.exponent.isNone then some (if f.negative then -n else n) else none

/-- The number that is meant, unless it is too large for a float. -/
def value? (f : NumberForm) : Option JsonNumber := do
  let (significand, beyond) := JsonNumber.absorb 0 f.whole
  if f.fraction.isNone && f.exponent.isNone && beyond.isEmpty
      && (!f.negative || (0 < significand && significand ≤ Nat.pow 2 63)) then
    let n : Int := significand
    return .int (if f.negative then -n else n)
  let decimals := f.fraction.getD []
  let (significand, ignored) := JsonNumber.absorb significand decimals
  let places : Int := decimals.length - ignored.length
  let exponent := (f.exponent.map ExponentForm.value).getD 0
  let x ← JsonNumber.scaled? significand (beyond.length - places + exponent)
  return .float (if f.negative then -x else x)

end NumberForm

/-- The value of the number at the start of a text, and what follows it. -/
def JsonNumber.read (cs : List Char) : Except NumberFault (JsonNumber × List Char) := do
  let (form, rest) ← NumberForm.read cs
  match form.value? with
  | some n => return (n, rest)
  | none => .error .outOfRange

namespace StringFault

/-- The wording of the faults that survive in a string whose escapes have the right form. -/
def message : StringFault → String
  | .unterminated => "EOF while parsing a string"
  | .control => "control character found while parsing a string"
  | .badEscape => "invalid escape"
  | .loneSurrogate column =>
    "lone leading surrogate in hex escape at line 1 column " ++ toString column
  | .cutSurrogate column => "unexpected end of hex escape at line 1 column " ++ toString column

end StringFault

namespace JsonString

def isHexDigit (c : Char) : Bool :=
  c.isDigit || ('a' ≤ c && c ≤ 'f') || ('A' ≤ c && c ≤ 'F')

/-- The character that a one-letter escape stands for. -/
def simpleEscape? : Char → Option Char
  | '"' => some '"'
  | '\\' => some '\\'
  | '/' => some '/'
  | 'b' => some '\x08'
  | 'f' => some '\x0c'
  | 'n' => some '\n'
  | 'r' => some '\r'
  | 't' => some '\t'
  | _ => none

/-- The code unit of four hexadecimal digits. -/
def codeUnit? (a b c d : Char) : Option Nat :=
  if [a, b, c, d].all isHexDigit then some (digitsValue 16 [a, b, c, d]) else none

def isHighSurrogate (n : Nat) : Bool := 0xD800 ≤ n && n ≤ 0xDBFF

def isLowSurrogate (n : Nat) : Bool := 0xDC00 ≤ n && n ≤ 0xDFFF

/-- The character of a pair of surrogates. -/
def pairedChar (high low : Nat) : Char :=
  Char.ofNat (0x10000 + (high - 0xD800) * 0x400 + (low - 0xDC00))

/-- Put a character in front of what the rest of a string holds. -/
def push (c : Char) :
    Except StringFault (List Char × List Char) → Except StringFault (List Char × List Char)
  | .ok (cs, rest) => .ok (c :: cs, rest)
  | .error fault => .error fault

/-- The rest of a string after `count` bytes of it: the characters up to the closing quote, and
    what follows that quote. -/
def read (count : Nat) : List Char → Except StringFault (List Char × List Char)
  | [] => .error .unterminated
  | '"' :: rest => .ok ([], rest)
  | '\\' :: 'u' :: a :: b :: c :: d :: rest =>
    match codeUnit? a b c d with
    | none => .error .badEscape
    | some n =>
      if isLowSurrogate n then .error (.loneSurrogate (count + 6))
      else if isHighSurrogate n then
        match rest with
        | '\\' :: 'u' :: a' :: b' :: c' :: d' :: rest' =>
          match codeUnit? a' b' c' d' with
          | none => .error .badEscape
          | some n' =>
            if isLowSurrogate n' then push (pairedChar n n') (read (count + 12) rest')
            else .error (.loneSurrogate (count + 12))
        | '\\' :: _ => .error (.cutSurrogate (count + 8))
        | _ => .error (.cutSurrogate (count + 7))
      else push (Char.ofNat n) (read (count + 6) rest)
  | '\\' :: c :: rest =>
    match simpleEscape? c with
    | some c' => push c' (read (count + 2) rest)
    | none => .error .badEscape
  | ['\\'] => .error .unterminated
  | c :: rest =>
    if c.toNat < 0x20 then .error .control
    else push c (read (count + c.utf8Size) rest)

def isSurrogate (n : Nat) : Bool := isHighSurrogate n || isLowSurrogate n

/-- Whether no escape in the inside of a string stands for a surrogate. -/
def surrogateFree : List Char → Bool
  | '\\' :: 'u' :: a :: b :: c :: d :: rest =>
    !(codeUnit? a b c d).any isSurrogate && surrogateFree rest
  | '\\' :: _ :: rest => surrogateFree rest
  | _ :: rest => surrogateFree rest
  | [] => true

/-- Put characters in front of the inside of a string. -/
def prepend (cs : List Char) : Option (List Char × List Char) → Option (List Char × List Char)
  | some (inside, rest) => some (cs ++ inside, rest)
  | none => none

/-- The inside of a string as it is written, after its opening quote, and what follows its closing
    quote. No control character may stand in it, and every escape must have the right form;
    surrogates need not be paired. -/
def inside? : List Char → Option (List Char × List Char)
  | [] => none
  | '"' :: rest => some ([], rest)
  | '\\' :: 'u' :: a :: b :: c :: d :: rest =>
    if [a, b, c, d].all isHexDigit then prepend ['\\', 'u', a, b, c, d] (inside? rest) else none
  | '\\' :: c :: rest =>
    if (simpleEscape? c).isSome then prepend ['\\', c] (inside? rest) else none
  | ['\\'] => none
  | c :: rest => if c.toNat < 0x20 then none else prepend [c] (inside? rest)

/-- The text that stands between the two quotes of a string, with its escapes resolved. -/
def decode (inside : List Char) : Except StringFault String :=
  (read 1 (inside ++ ['"'])).map fun (cs, _) => String.ofList cs

end JsonString

end AccessRules
