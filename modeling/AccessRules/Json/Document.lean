set_option autoImplicit false

/-! # The text of documents

A YAML document may hold its values in the forms of JSON and is still subject to rules of its own on
characters, tabs, line breaks and keys. They are collected here: `Document.isAllowed` on single
characters, `Document.body?` and `Document.endsWell` on the margins, `Document.isKey` on the name of
a member, and `Document.fold` on line breaks inside a string. -/

namespace AccessRules.Document

/-- The characters that may stand in a document: no controls other than tab, line feed, carriage
    return and next line, and neither of the last two code points of the basic plane. -/
def isAllowed (c : Char) : Bool :=
  let n := c.toNat
  n == 0x09 || n == 0x0A || n == 0x0D || (0x20 ≤ n && n ≤ 0x7E) || n == 0x85
    || (0xA0 ≤ n && n ≤ 0xFFFD) || 0x10000 ≤ n

def isNextLine (c : Char) : Bool := c.toNat == 0x85

/-- Line breaks. Next line, line separator and paragraph separator count too. -/
def isBreak (c : Char) : Bool :=
  c = '\n' || c = '\r' || isNextLine c || c.toNat == 0x2028 || c.toNat == 0x2029

/-! ## Margins -/

/-- The text of a document after a byte order mark at its very start, if all its characters are
    allowed and no tab stands before its first other character. -/
def body? (cs : List Char) : Option (List Char) :=
  let body := match cs with
    | c :: rest => if c.toNat == 0xFEFF then rest else cs
    | [] => []
  let margin := body.takeWhile fun c => c = ' ' || c = '\t' || c = '\n' || c = '\r'
  if cs.all isAllowed && !margin.contains '\t' then some body else none

/-- Whether nothing is written in a body. -/
def isEmpty (body : List Char) : Bool :=
  body.all fun c => c = ' ' || c = '\n' || c = '\r'

/-- Whether what follows a value is a proper end: blanks, without a tab below the last line of the
    value. -/
def endsWell (rest : List Char) : Bool :=
  rest.all (fun c => c = ' ' || c = '\t' || c = '\n' || c = '\r')
    && !(rest.dropWhile fun c => c = ' ' || c = '\t').contains '\t'

/-! ## Keys and strings -/

/-- Whether a quoted text and the blanks after it can be the name of a member: they stay on one line
    and take at most 1024 characters, quotes included. -/
def isKey (inside blanks : List Char) : Bool :=
  inside.length + 2 + blanks.length ≤ 1024 && !(inside ++ blanks).any isBreak

/-- How a line break is written inside a folded string: next line becomes an escaped line feed. -/
def breakText (c : Char) : List Char :=
  if isNextLine c then ['\\', 'n'] else [c]

/-- What a run of blanks and line breaks inside a string stands for. Blanks around breaks vanish; a
    single next line is a blank, and before further breaks it vanishes too. -/
def foldRun (run : List Char) : List Char :=
  match run.filter isBreak with
  | [] => run
  | [c] => if isNextLine c then [' '] else [c]
  | c :: cs => (if isNextLine c then [] else [c]) ++ cs.flatMap breakText

/-- The inside of a string with its lines folded; `run` holds the blanks and line breaks right
    before. -/
def foldAfter (run : List Char) : List Char → List Char
  | [] => foldRun run
  | c :: cs =>
    if c = ' ' || isBreak c then foldAfter (run ++ [c]) cs
    else foldRun run ++ c :: foldAfter [] cs

/-- The inside of a string with its lines folded. -/
def fold (inside : List Char) : List Char :=
  foldAfter [] inside

end AccessRules.Document
