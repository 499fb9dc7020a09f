import AccessRules.Text.CharClass

set_option autoImplicit false

/-! # Text inside quotes

`quoted` writes a text between double quotes so that it stays on one line: quotes, backslashes,
line ends, tabs and NUL have short escapes, and every character that would not show by itself is
written as its code point in braces. `excerpted` is the form used for excerpts of a source. -/

namespace AccessRules.Text

/-- A code point in lower-case hexadecimal between braces, after a backslash and a `u`. -/
def codePointEscape (c : Char) : List Char :=
  ['\\', 'u', '\x7b'] ++ Nat.toDigits 16 c.toNat ++ ['\x7d']

/-- How a character is written: `marks` says whether characters that attach to the one before
    them are escaped, `quotes` which quote characters are. -/
def escapeChar (marks : Bool) (quotes : List Char) (c : Char) : List Char :=
  if c = '\x00' then ['\\', '0']
  else if c = '\t' then ['\\', 't']
  else if c = '\r' then ['\\', 'r']
  else if c = '\n' then ['\\', 'n']
  else if c = '\\' || quotes.contains c then ['\\', c]
  else if (marks && isAttaching c) || isUnprintable c then codePointEscape c
  else [c]

/-- The text between double quotes; single quotes stand for themselves. -/
def quoted (s : String) : String :=
  String.ofList ('"' :: s.toList.flatMap (escapeChar true ['"']) ++ ['"'])

/-- The escaped text without surrounding quotes. Both quote characters are escaped, and only at
    the start is a character escaped for attaching to what is before it. -/
def excerpted (s : String) : String :=
  let quotes : List Char := ['"', '\'']
  match s.toList with
  | [] => ""
  | c :: cs => String.ofList (escapeChar true quotes c ++ cs.flatMap (escapeChar false quotes))

end AccessRules.Text
