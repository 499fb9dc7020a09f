import AccessRules.Json.Scalar
import AccessRules.Text.Quoted

set_option autoImplicit false

/-! # Tokens

The words of the rule language, with their place in the source. Offsets count the bytes of the
UTF-8 form; lines and columns count from one. -/

namespace AccessRules

inductive TokenKind where
  | symbol
  /-- A text in double quotes. -/
  | string
  /-- A place path in single quotes. -/
  | place
  | number
  | ident
  | eof
  deriving DecidableEq

/-- A token: its text, which for strings and places is the part between the quotes, the place
    where that text starts, and the offsets of its two ends. -/
structure Token where
  kind : TokenKind
  text : String
  line : Nat
  col : Nat
  start : Nat
  stop : Nat
  deriving DecidableEq

/-- Why a text has no next token. -/
inductive LexCause where
  | loneReturn
  | loneBar
  | strayCharacter
  | badNumber
  /-- A number of the given length in the right form that has no value. -/
  | unreadableNumber (fault : NumberFault) (length : Nat)
  | unclosedPlace
  | unclosedString
  | badHexEscape
  | badEscape
  | controlInString
  /-- A string in the right form that has no value. -/
  | unreadableString (fault : StringFault)
  deriving DecidableEq

namespace LexCause

/-- What is said about the place of the fault. -/
def message : LexCause → String
  | .loneReturn => "\\r must be followed by \\n"
  | .loneBar => "expecting `||`"
  | .strayCharacter => "invalid character"
  | .badNumber => "invalid number"
  | .unreadableNumber _ _ => "invalid number. serde_json cannot parse number:"
  | .unclosedPlace => "unmatched '"
  | .unclosedString => "unmatched \""
  | .badHexEscape => "invalid hex escape sequence"
  | .badEscape => "invalid escape sequence"
  | .controlInString => "invalid character in string"
  | .unreadableString _ => "serde_json cannot parse string:"

/-- What is added after the message when a literal has the right form but no value. -/
def detail : LexCause → String
  | .unreadableNumber .outOfRange _ => " out of range"
  | .unreadableNumber .invalid _ => " invalid number"
  | .unreadableNumber .unfinished length =>
    " EOF while parsing a value at line 1 column " ++ toString length
  | .unreadableString fault => " " ++ fault.message
  | _ => ""

end LexCause

/-- A cause with the place where it was found. -/
structure LexFault where
  line : Nat
  col : Nat
  cause : LexCause
  deriving DecidableEq

namespace Token

/-- The start of a text that takes exactly the given number of bytes, if there is one. -/
def takeBytes? : Nat → List Char → Option (List Char)
  | 0, _ => some []
  | _ + 1, [] => none
  | n + 1, c :: cs =>
    if c.utf8Size ≤ n + 1 then (takeBytes? (n + 1 - c.utf8Size) cs).map (c :: ·) else none

/-- The longest text shown in a summary, in bytes. -/
def summaryLimit : Nat := 32

/-- The place of a token and its text on one line, cut to the first bytes of a long text. There is
    no summary if the cut would fall inside a character. -/
def summary? (t : Token) : Option String :=
  let place := ":".intercalate [toString t.line, toString t.col, toString t.start, toString t.stop]
  let shown := Text.excerpted t.text
  let text := if shown.utf8ByteSize ≤ summaryLimit then some shown
    else (takeBytes? summaryLimit shown.toList).map fun cs => String.ofList cs ++ "..."
  text.map fun text => place ++ ", \"" ++ text ++ "\""

end Token

/-- The tokens of a text: those before the end of the text or before the first fault. -/
inductive Tokens where
  | eof (t : Token)
  | fault (f : LexFault)
  | cons (t : Token) (rest : Tokens)

namespace Tokens

/-- The number of tokens before the end. -/
def length : Tokens → Nat
  | .cons _ rest => rest.length + 1
  | _ => 0

/-- The tokens, with the last one standing for the end of the text if it was reached. -/
def toList : Tokens → List Token
  | .eof t => [t]
  | .fault _ => []
  | .cons t rest => t :: rest.toList

/-- The fault that ends the tokens, if any. -/
def fault? : Tokens → Option LexFault
  | .eof _ => none
  | .fault f => some f
  | .cons _ rest => rest.fault?

end Tokens

end AccessRules
