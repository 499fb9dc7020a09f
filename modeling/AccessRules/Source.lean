import AccessRules.Text.Blank

set_option autoImplicit false

/-! # Source texts

A `Source` is the text of one rule, action body or signature, together with the name it is reported
under. `Source.excerpt` shows a line of it with a mark under a column. Offsets have 32 bits, so only
a text that `Source.Fits` is read.

Lines end at a line feed; a carriage return right before it belongs to the line end. -/

namespace AccessRules

structure Source where
  file : String
  text : String

namespace Source

/-- The largest number of bytes that a text may have: two less than the largest number of 32 bits. -/
def maxSize : Nat :=
  4294967293

/-- The text is not too large to be read. -/
def Fits (s : Source) : Prop :=
  s.text.utf8ByteSize ≤ maxSize

instance (s : Source) : Decidable s.Fits :=
  inferInstanceAs (Decidable (_ ≤ _))

/-- A line without the carriage return at its end. -/
def withoutReturn (cs : List Char) : List Char :=
  if cs.getLast? = some '\r' then cs.dropLast else cs

/-- The lines of the text. A text that ends with a line feed has an empty last line. -/
def lines (s : Source) : List String :=
  let parts := Text.pieces '\n' s.text.toList
  (parts.dropLast.map withoutReturn ++ parts.getLast?.toList).map String.ofList

/-- The line with an index, counted from zero; empty beyond the last line. -/
def line (s : Source) (index : Nat) : String :=
  s.lines.getD index ""

/-- The text padded with blanks to a width. -/
def padded (width : Nat) (s : String) : String :=
  s ++ String.ofList (List.replicate (width - s.length) ' ')

/-- A message about a place of the text, counted from one, with the line and a mark below it. -/
def excerpt (s : Source) (line col : Nat) (kind msg : String) : String :=
  if s.lines.length < line || line = 0 then
    s.file ++ ": invalid line " ++ toString line ++ " specified"
  else
    let number := toString line
    let margin := number.length + 1
    "\n--> " ++ s.file ++ ":" ++ number ++ ":" ++ toString col
      ++ "\n" ++ padded margin "" ++ "|"
      ++ "\n" ++ padded margin number ++ "| " ++ s.line (line - 1)
      ++ "\n" ++ padded margin "" ++ "| " ++ padded (col - 1) "" ++ "^"
      ++ "\n" ++ kind ++ ": " ++ msg

end Source

end AccessRules
