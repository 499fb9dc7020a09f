import AccessRules.Json.Basic
import AccessRules.Number.FloatText

set_option autoImplicit false

/-! # Writing structured values

`Json.compact` writes a value on one line without blanks, `Json.pretty` one element or member to a
line, indented by two blanks a level. -/

namespace AccessRules.Json

/-- How a character is written inside a string: the quote, the backslash and the controls are
    escaped, all else stands for itself. -/
def escapeChar (c : Char) : List Char :=
  if c = '"' then ['\\', '"']
  else if c = '\\' then ['\\', '\\']
  else if c = '\n' then ['\\', 'n']
  else if c = '\r' then ['\\', 'r']
  else if c = '\t' then ['\\', 't']
  else if c = '\x08' then ['\\', 'b']
  else if c = '\x0c' then ['\\', 'f']
  else if c.toNat < 0x20 then
    let digits := Nat.toDigits 16 c.toNat
    ['\\', 'u'] ++ List.replicate (4 - digits.length) '0' ++ digits
  else [c]

/-- A text as a string with its quotes. -/
def stringText (s : String) : String :=
  String.ofList ('"' :: s.toList.flatMap escapeChar ++ ['"'])

/-- A number. A float outside the finite range has no written form and becomes `null`. -/
def numberText : JsonNumber → String
  | .int n => toString n
  | .float x => if x.isFinite then Decimal.exactText x else "null"

/-- The text of a value without elements or members. -/
def scalarText : Json → String
  | .null => "null"
  | .bool b => if b then "true" else "false"
  | .num n => numberText n
  | .str s => stringText s
  | .arr _ => "[]"
  | .obj _ => "\x7b\x7d"

mutual

/-- The value on one line. -/
def compact : Json → String
  | .arr elements => "[" ++ ",".intercalate (compactAll elements) ++ "]"
  | .obj members => "\x7b" ++ ",".intercalate (compactMembers members) ++ "\x7d"
  | v => scalarText v

def compactAll : List Json → List String
  | [] => []
  | v :: vs => v.compact :: compactAll vs

def compactMembers : List (String × Json) → List String
  | [] => []
  | (k, v) :: ms => (stringText k ++ ":" ++ v.compact) :: compactMembers ms

end

/-- A line break and the indentation of a level. -/
def newline (level : Nat) : String :=
  String.ofList ('\n' :: List.replicate (2 * level) ' ')

/-- Items between brackets, one to a line; nothing between the brackets if there are none. -/
def bracketed (level : Nat) (opening closing : String) (items : List String) : String :=
  if items.isEmpty then opening ++ closing
  else opening ++ newline (level + 1) ++ ("," ++ newline (level + 1)).intercalate items
    ++ newline level ++ closing

mutual

/-- The value with one element or member to a line, at a level of indentation. -/
def prettyAt (level : Nat) : Json → String
  | .arr elements => bracketed level "[" "]" (prettyAll (level + 1) elements)
  | .obj members => bracketed level "\x7b" "\x7d" (prettyMembers (level + 1) members)
  | v => scalarText v

def prettyAll (level : Nat) : List Json → List String
  | [] => []
  | v :: vs => v.prettyAt level :: prettyAll level vs

def prettyMembers (level : Nat) : List (String × Json) → List String
  | [] => []
  | (k, v) :: ms => (stringText k ++ ": " ++ v.prettyAt level) :: prettyMembers level ms

end

/-- The value with one element or member to a line. -/
def pretty (v : Json) : String :=
  v.prettyAt 0

end AccessRules.Json
