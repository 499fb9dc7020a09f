import AccessRules.Source
import AccessRules.Token.Basic

set_option autoImplicit false

/-! # From text to tokens

`Cursor.next` skips blanks and comments and gives the next token, and `Source.tokens` repeats it to
the end of the text. The end is reached when the characters run out or at a NUL character.

A tab counts four columns, and a comment none. Inside a place literal columns count characters,
elsewhere they count bytes. -/

namespace AccessRules

/-- A point of a text: what is still to be read, and where that starts. -/
structure Cursor where
  rest : List Char
  offset : Nat
  line : Nat
  col : Nat

namespace Cursor

/-- The number of bytes that characters take. -/
def byteCount (cs : List Char) : Nat :=
  cs.foldr (fun c n => c.utf8Size + n) 0

/-- The character that ends a text. -/
def nul : Char := '\x00'

/-! ## Blanks and comments -/

/-- Skip blanks and comments, starting inside a comment or not. A carriage return is a blank only
    right before a line feed. -/
def skipFrom (offset line col : Nat) : (inComment : Bool) → List Char → Except LexFault Cursor
  | _, [] => .ok ⟨[], offset, line, col⟩
  | inComment, c :: cs =>
    if c = '\n' then skipFrom (offset + 1) (line + 1) 1 false cs
    else if c = nul then .ok ⟨c :: cs, offset, line, col⟩
    else if inComment then skipFrom (offset + c.utf8Size) line col true cs
    else if c = ' ' then skipFrom (offset + 1) line (col + 1) false cs
    else if c = '\t' then skipFrom (offset + 1) line (col + 4) false cs
    else if c = '#' then skipFrom (offset + 1) line col true cs
    else if c = '\r' then
      match cs with
      | '\n' :: _ => skipFrom (offset + 1) line col false cs
      | _ => .error ⟨line, col, .loneReturn⟩
    else .ok ⟨c :: cs, offset, line, col⟩

/-- The cursor at the next character that is neither blank nor in a comment. -/
def skip (c : Cursor) : Except LexFault Cursor :=
  skipFrom c.offset c.line c.col false c.rest

/-! ## Symbols and identifiers -/

def doubleSymbols : List (List Char) :=
  ["&&", "||", "==", "=>", "!=", "<=", ">=", "+=", "-=", "*=", "/="].map String.toList

def singleSymbols : List Char :=
  "\x7b\x7d[](),;?:^$@&=!<>+-*/".toList

/-- The symbol at the start of a text; two characters that form a symbol go together. -/
def symbol? (cs : List Char) : Option (List Char) :=
  if doubleSymbols.contains (cs.take 2) then some (cs.take 2)
  else match cs with
    | c :: _ => if singleSymbols.contains c then some [c] else none
    | [] => none

def isIdentStart (c : Char) : Bool :=
  c.isAlpha || c = '_'

def isIdentChar (c : Char) : Bool :=
  c.isAlphanum || c = '_'

/-- The token made of the first characters of the rest, and the cursor after it. -/
def take (c : Cursor) (kind : TokenKind) (taken : List Char) : Token × Cursor :=
  let bytes := byteCount taken
  (⟨kind, String.ofList taken, c.line, c.col, c.offset, c.offset + bytes⟩,
    ⟨c.rest.drop taken.length, c.offset + bytes, c.line, c.col + bytes⟩)

/-! ## Numbers -/

/-- The digits after the first character of a number: none after a zero. -/
def wholePart : List Char → List Char
  | '0' :: _ => ['0']
  | c :: cs => c :: cs.takeWhile Char.isDigit
  | [] => []

/-- A point and digits, if a digit follows the point. -/
def fractionPart : List Char → List Char
  | '.' :: cs => if (cs.head?.any Char.isDigit) then '.' :: cs.takeWhile Char.isDigit else []
  | _ => []

/-- The exponent mark, an optional sign, and digits, of which there may be none. -/
def exponentPart : List Char → List Char
  | mark :: cs =>
    if mark = 'e' || mark = 'E' then
      match cs with
      | '+' :: ds => mark :: '+' :: ds.takeWhile Char.isDigit
      | '-' :: ds => mark :: '-' :: ds.takeWhile Char.isDigit
      | ds => mark :: ds.takeWhile Char.isDigit
    else []
  | [] => []

/-- The characters at the start of a text that are read as one number. -/
def numberText (cs : List Char) : List Char :=
  let whole := wholePart cs
  let fraction := fractionPart (cs.drop whole.length)
  let exponent := exponentPart (cs.drop (whole.length + fraction.length))
  whole ++ fraction ++ exponent

/-- A character that must not follow a number. -/
def extendsNumber (c : Char) : Bool :=
  c = '.' || isIdentChar c

/-- The number at the cursor. -/
def readNumber (c : Cursor) : Except LexFault (Token × Cursor) :=
  let taken := numberText c.rest
  let (token, next) := c.take .number taken
  if next.rest.head?.any extendsNumber then .error ⟨next.line, next.col, .badNumber⟩
  else match JsonNumber.read taken with
    | .ok _ => .ok (token, next)
    | .error fault => .error ⟨c.line, c.col, .unreadableNumber fault taken.length⟩

/-! ## Places and strings -/

/-- The place literal at the cursor, which stands at its opening quote. -/
def readPlace (c : Cursor) : Except LexFault (Token × Cursor) :=
  let text := (c.rest.drop 1).takeWhile fun x => x != '\'' && x != nul && x != '\n'
  match c.rest.drop (text.length + 1) with
  | '\'' :: rest =>
    let bytes := byteCount text
    .ok (⟨.place, String.ofList text, c.line, c.col + 1, c.offset + 1, c.offset + 1 + bytes⟩,
      ⟨rest, c.offset + 2 + bytes, c.line, c.col + 2 + text.length⟩)
  | _ => .error ⟨c.line, c.col, .unclosedPlace⟩

/-- Put characters in front of the inside of a string. -/
def prepend (cs : List Char) :
    Except (Nat × LexCause) (List Char × List Char) →
    Except (Nat × LexCause) (List Char × List Char)
  | .ok (inside, rest) => .ok (cs ++ inside, rest)
  | .error fault => .error fault

/-- The inside of a string as it is written, and what follows its closing quote. `opened` is the
    column of the opening quote and `col` that of the next character; a fault comes with its
    column. -/
def stringInside (opened col : Nat) :
    List Char → Except (Nat × LexCause) (List Char × List Char)
  | [] => .error (opened, .unclosedString)
  | '"' :: rest => .ok ([], rest)
  | '\\' :: 'u' :: a :: b :: c :: d :: rest =>
    let valid := [a, b, c, d].takeWhile JsonString.isHexDigit
    if valid.length < 4 then .error (col + 2 + valid.length, .badHexEscape)
    else prepend ['\\', 'u', a, b, c, d] (stringInside opened (col + 6) rest)
  | '\\' :: 'u' :: rest =>
    .error (col + 2 + (rest.takeWhile JsonString.isHexDigit).length, .badHexEscape)
  | '\\' :: c :: rest =>
    if (JsonString.simpleEscape? c).isSome then
      prepend ['\\', c] (stringInside opened (col + 2) rest)
    else .error (col, .badEscape)
  | ['\\'] => .error (col, .badEscape)
  | c :: rest =>
    if c = nul then .error (opened, .unclosedString)
    else if c.toNat < 0x20 then .error (col, .controlInString)
    else prepend [c] (stringInside opened (col + c.utf8Size) rest)

/-- The string at the cursor, which stands at its opening quote. -/
def readString (c : Cursor) : Except LexFault (Token × Cursor) :=
  match stringInside c.col (c.col + 1) (c.rest.drop 1) with
  | .error (col, cause) => .error ⟨c.line, col, cause⟩
  | .ok (inside, rest) =>
    match JsonString.decode inside with
    | .error fault => .error ⟨c.line, c.col, .unreadableString fault⟩
    | .ok _ =>
      let bytes := byteCount inside
      .ok (⟨.string, String.ofList inside, c.line, c.col + 1, c.offset + 1, c.offset + 1 + bytes⟩,
        ⟨rest, c.offset + 2 + bytes, c.line, c.col + 2 + bytes⟩)

/-! ## The next token -/

/-- Whether a number starts here: a digit, or a minus sign right before one. -/
def startsNumber : List Char → Bool
  | '-' :: d :: _ => d.isDigit
  | d :: _ => d.isDigit
  | [] => false

/-- The token at the cursor, which stands at no blank. -/
def readToken (c : Cursor) : Except LexFault (Token × Cursor) :=
  let ended : Token := ⟨.eof, "", c.line, c.col, c.offset, c.offset⟩
  match c.rest with
  | [] => .ok (ended, c)
  | first :: _ =>
    if first = nul then .ok (ended, c)
    else if startsNumber c.rest then c.readNumber
    else match symbol? c.rest with
      | some taken => .ok (c.take .symbol taken)
      | none =>
        if first = '|' then .error ⟨c.line, c.col, .loneBar⟩
        else if first = '"' then c.readString
        else if first = '\'' then c.readPlace
        else if isIdentStart first then .ok (c.take .ident (c.rest.takeWhile isIdentChar))
        else .error ⟨c.line, c.col, .strayCharacter⟩

/-- The next token, and the cursor after it. -/
def next (c : Cursor) : Except LexFault (Token × Cursor) :=
  c.skip >>= readToken

/-- The tokens from the cursor on. Each one takes at least one character, so `bound` need only
    exceed the number of characters left. -/
def tokens : (bound : Nat) → Cursor → Tokens
  | 0, c => .eof ⟨.eof, "", c.line, c.col, c.offset, c.offset⟩
  | bound + 1, c =>
    match c.next with
    | .error fault => .fault fault
    | .ok (token, after) =>
      if token.kind = .eof then .eof token else .cons token (tokens bound after)

end Cursor

namespace Source

/-- The cursor at the start of the text. -/
def start (s : Source) : Cursor :=
  ⟨s.text.toList, 0, 1, 1⟩

/-- The tokens of the text. -/
def tokens (s : Source) : Tokens :=
  s.start.tokens (s.text.length + 1)

end Source

end AccessRules
