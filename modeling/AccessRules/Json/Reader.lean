import AccessRules.Json.Dialect
import AccessRules.Json.Written

set_option autoImplicit false

/-! # Reading structured values

`Written.parse?` accepts a text that holds exactly one value in the right form, with blanks around
it. Reading is recursion on a bound for the nesting, taken from the length of the text. Arrays and
objects that lie deeper than the dialect allows are checked for their form like all others and are
then unreadable. -/

namespace AccessRules.Written

def isBlank (c : Char) : Bool :=
  c = ' ' || c = '\n' || c = '\t' || c = '\r'

/-- The text without the blanks at its start. -/
def skipBlanks (cs : List Char) : List Char :=
  cs.dropWhile isBlank

/-- What follows `word` in a text that starts with it. -/
def dropWord? : List Char → List Char → Option (List Char)
  | [], cs => some cs
  | w :: ws, c :: cs => if w = c then dropWord? ws cs else none
  | _ :: _, [] => none

/-- A word that stands for a value, and what follows it. -/
def readWord? (word : String) (v : Json) (cs : List Char) : Option (Written × List Char) :=
  (dropWord? word.toList cs).map (.plain word (some v), ·)

/-- The inside of a string after its opening quote, and what follows its closing quote. -/
def readInside? (d : Dialect) (cs : List Char) : Option (List Char × List Char) := do
  let (inside, rest) ← JsonString.inside? cs
  if d.admits inside then some (inside, rest) else none

/-- A value that is neither an array nor an object. -/
def readScalar? (d : Dialect) (cs : List Char) : Option (Written × List Char) :=
  match cs with
  | '"' :: rest =>
    (readInside? d rest).map fun (inside, rest) => ((d.text? inside).elim .unreadable .str, rest)
  | 'n' :: _ => readWord? "null" .null cs
  | 't' :: _ => readWord? "true" (.bool true) cs
  | 'f' :: _ => readWord? "false" (.bool false) cs
  | c :: _ =>
    if c = '-' || c.isDigit then
      match NumberForm.read cs with
      | .ok (form, rest) => some (.plain form.text (d.number? form), rest)
      | .error _ => none
    else none
  | [] => none

/-- The elements of an array after its first one has been reached; `bound` exceeds their number. -/
def readElements? (value : List Char → Option (Written × List Char)) :
    (bound : Nat) → List Char → Option (List Written × List Char)
  | 0, _ => none
  | bound + 1, cs => do
    let (w, cs) ← value cs
    match skipBlanks cs with
    | ',' :: cs => do
      let (ws, cs) ← readElements? value bound cs
      some (w :: ws, cs)
    | ']' :: cs => some ([w], cs)
    | _ => none

/-- The members of an object after its first one has been reached; `bound` exceeds their number.
    A name may stand for no text. -/
def readMembers? (d : Dialect) (value : List Char → Option (Written × List Char)) :
    (bound : Nat) → List Char → Option (List (Option String × Written) × List Char)
  | 0, _ => none
  | bound + 1, cs =>
    match skipBlanks cs with
    | '"' :: cs => do
      let (inside, cs) ← readInside? d cs
      match skipBlanks cs with
      | ':' :: rest =>
        if d.isKey inside (cs.takeWhile isBlank) then do
          let (w, cs) ← value rest
          match skipBlanks cs with
          | ',' :: cs => do
            let (ms, cs) ← readMembers? d value bound cs
            some ((d.text? inside, w) :: ms, cs)
          | '}' :: cs => some ([(d.text? inside, w)], cs)
          | _ => none
        else none
      | _ => none
    | _ => none

/-- The object with these members, if each of their names stands for a text. -/
def ofMembers (members : List (Option String × Written)) : Written :=
  match members.mapM fun (k, w) => k.map (·, w) with
  | some named => .obj named
  | none => .unreadable

/-- The value at the start of a text, and what follows it. Arrays and objects are readable up to
    `depth` levels; `bound` exceeds the number of levels and the length of the text. -/
def readValue? (d : Dialect) : (bound depth : Nat) → List Char → Option (Written × List Char)
  | 0, _, _ => none
  | bound + 1, depth, cs =>
    let shown (w : Written) : Written := if depth = 0 then .unreadable else w
    match skipBlanks cs with
    | '[' :: cs =>
      match skipBlanks cs with
      | ']' :: cs => some (shown (.arr []), cs)
      | cs => do
        let (ws, cs) ← readElements? (readValue? d bound (depth - 1)) bound cs
        some (shown (.arr ws), cs)
    | '{' :: cs =>
      match skipBlanks cs with
      | '}' :: cs => some (shown (.obj []), cs)
      | cs => do
        let (ms, cs) ← readMembers? d (readValue? d bound (depth - 1)) bound cs
        some (shown (ofMembers ms), cs)
    | cs => readScalar? d cs

/-- What a text in JSON holds, if it holds exactly one value in the right form. -/
def parseJson? (s : String) : Option Written := do
  let (w, rest) ← readValue? .json (s.length + 1) Dialect.json.maxDepth s.toList
  if (skipBlanks rest).isEmpty then some w else none

/-- What a document holds, if it holds exactly one value in the right form. A document in which
    nothing is written holds an empty record. -/
def parseDocument? (s : String) : Option Written := do
  let body ← Document.body? s.toList
  if Document.isEmpty body then some (.obj [])
  else do
    let (w, rest) ← readValue? .yaml (s.length + 1) Dialect.yaml.maxDepth body
    if Document.endsWell rest then some w else none

/-- What a text holds, if it holds exactly one value in the right form. -/
def parse? : Dialect → String → Option Written
  | .json => parseJson?
  | .yaml => parseDocument?

end AccessRules.Written
