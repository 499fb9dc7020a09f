import AccessRules.Token.Lexer

set_option autoImplicit false

/-! # Reading trees from tokens

`Parse α` consumes tokens from the front and gives a tree or the fault that was met first. A fault
of the text itself surfaces when its token would become the current one. `iterate` and `nested` are
the two forms of repetition; both end because every round consumes a token, so a bound one above the
number of tokens left is never reached. -/

namespace AccessRules

/-- What is missing at a place where nothing fits. -/
inductive Wanted where
  | identifier | integer | setMember | threshold | caseLiteral | expression | assignment | action
  deriving DecidableEq

def Wanted.text : Wanted → String
  | .identifier => "identifier"
  | .integer => "integer"
  | .setMember => "item, string or place in set"
  | .threshold => "count, setting or reference"
  | .caseLiteral => "literal case value"
  | .expression => "expression"
  | .assignment => "assignment operator"
  | .action => "action"

inductive ParseCause where
  | lexical (cause : LexCause)
  /-- A given token is missing; `context` says where. -/
  | expected (text context : String)
  | expecting (what : Wanted)
  /-- Neither a comma nor the closing token follows an element of a list. -/
  | separator (closing list : String)
  | trailing
  | keyword (word : String)
  | notItem (name : String)
  | notSetting (name : String)
  | mixedSet
  | noDefault
  | inWithoutReference
  | unknownType (name : String)
  | badString (fault : StringFault)
  | badNumber
  /-- More rounds than there are tokens. -/
  | endless
  deriving DecidableEq

namespace ParseCause

def message : ParseCause → String
  | .lexical cause => cause.message
  | .expected text context => "expecting `" ++ text ++ "` " ++ context
  | .expecting what => "expecting " ++ what.text
  | .separator closing list => "expecting `,` or `" ++ closing ++ "` in " ++ list
  | .trailing => "unexpected trailing input"
  | .keyword word => "unexpected keyword `" ++ word ++ "`"
  | .notItem name => "`" ++ name ++ "` is not an item name"
  | .notSetting name => "`" ++ name ++ "` is not a setting name"
  | .mixedSet => "set mixes items, strings and places"
  | .noDefault => "PER requires a `_` case"
  | .inWithoutReference => "IN requires a reference on the left"
  | .unknownType name => "unknown parameter type `" ++ name ++ "`"
  | .badString fault => "invalid string literal. " ++ fault.message
  | .badNumber => "could not parse number"
  | .endless => "more rounds than tokens"

/-- What is added after the message. -/
def detail : ParseCause → String
  | .lexical cause => cause.detail
  | _ => ""

end ParseCause

/-- A cause with the place where it was found. -/
structure ParseFault where
  line : Nat
  col : Nat
  cause : ParseCause
  deriving DecidableEq

def LexFault.toParseFault (f : LexFault) : ParseFault :=
  ⟨f.line, f.col, .lexical f.cause⟩

/-- Why a text stands for no tree: it is not read at all, or there is a fault in it. -/
inductive ParseError where
  | tooLarge (file : String)
  | faulty (source : Source) (fault : ParseFault)

def ParseError.message : ParseError → String
  | .tooLarge file => file ++ " exceeds maximum allowed rule size " ++ toString Source.maxSize
  | .faulty source fault =>
    source.excerpt fault.line fault.col "error" fault.cause.message ++ fault.cause.detail

abbrev Parse := StateT Tokens (Except ParseFault)

namespace Parse

/-! ## The current token -/

/-- The first of the remaining tokens. -/
def peek : Tokens → Except ParseFault Token
  | .eof t => .ok t
  | .cons t _ => .ok t
  | .fault f => .error f.toParseFault

/-- The remaining tokens after the first; at the end of the text nothing changes. -/
def tail : Tokens → Tokens
  | .cons _ rest => rest
  | ts => ts

/-- The current token. -/
def current : Parse Token := fun ts => do
  return (← peek ts, ts)

/-- The token after the current one, which stays where it is. -/
def following : Parse Token := fun ts => do
  return (← peek (tail ts), ts)

/-- Go on to the next token. -/
def advance : Parse Unit := fun ts => do
  let _ ← peek (tail ts)
  return ((), tail ts)

/-- Fail at the place of a token. -/
def failAt {α : Type} (t : Token) (cause : ParseCause) : Parse α :=
  throw ⟨t.line, t.col, cause⟩

/-- Fail at the current token. -/
def fail {α : Type} (cause : ParseCause) : Parse α := do
  failAt (← current) cause

/-- The text by which a token is recognised: none for strings and places. -/
def wordOf (t : Token) : String :=
  match t.kind with
  | .string => ""
  | .place => ""
  | _ => t.text

/-- The text by which the current token is recognised. -/
def word : Parse String := do
  return wordOf (← current)

def kind : Parse TokenKind := do
  return (← current).kind

/-- Go past a given token. -/
def expect (text context : String) : Parse Unit := do
  if (← word) = text then advance else fail (.expected text context)

/-- The text must be at its end. -/
def expectEnd : Parse Unit := do
  if (← kind) = .eof then return () else fail .trailing

/-! ## Repetition -/

/-- The outcome of one round: another round from a new state, or a result. -/
inductive Round (σ β : Type) where
  | again (state : σ)
  | done (result : β)

/-- Rounds up to a bound. -/
def rounds {σ β : Type} (round : σ → Parse (Round σ β)) : (bound : Nat) → σ → Parse β
  | 0, _ => fail .endless
  | bound + 1, state => do
    match ← round state with
    | .again state => rounds round bound state
    | .done result => return result

/-- Rounds until there is a result. Each round that asks for another one consumes a token. -/
def iterate {σ β : Type} (round : σ → Parse (Round σ β)) (state : σ) : Parse β := fun ts =>
  rounds round (ts.length + 1) state ts

/-- A reader that may use itself up to a depth. -/
def nestedTo {ι α : Type} (reader : (ι → Parse α) → ι → Parse α) : (depth : Nat) → ι → Parse α
  | 0, _ => fail .endless
  | depth + 1, i => reader (nestedTo reader depth) i

/-- A reader that may use itself, each time after consuming a token. -/
def nested {ι α : Type} (reader : (ι → Parse α) → ι → Parse α) (i : ι) : Parse α := fun ts =>
  nestedTo reader (ts.length + 1) i ts

/-- Elements divided by commas, up to but without the closing token. A comma may stand before the
    closing token. -/
def listUntil {α : Type} (closing list : String) (element : Parse α) : Parse (List α) :=
  iterate (fun elements => do
    if (← word) = closing then return .done elements
    let e ← element
    let w ← word
    if w = "," then
      advance
      return .again (elements ++ [e])
    else if w = closing then return .again (elements ++ [e])
    else fail (.separator closing list)) []

/-- Operands joined by operators that associate to the left. -/
def leftAssociative {α : Type} (operator? : String → Option (α → α → α)) (operand : Parse α) :
    Parse α := do
  let first ← operand
  iterate (fun lhs => do
    match operator? (← word) with
    | none => return .done lhs
    | some combine =>
      advance
      let rhs ← operand
      return .again (combine lhs rhs)) first

/-! ## Words with a meaning -/

/-- The words that are no identifiers. -/
def keywords : List String :=
  ["TRUE", "FALSE", "NOT", "IF", "ELSE", "PER", "IN", "WITHIN", "SWAP"]

def ident : Parse String := do
  let t ← current
  if t.kind = .ident then
    if keywords.contains t.text then fail (.keyword t.text)
    advance
    return t.text
  else fail (.expecting .identifier)

def int : Parse Int64 := do
  let t ← current
  match if t.kind = .number then readWord? t.text.toList else none with
  | some n =>
    advance
    return n
  | none => fail (.expecting .integer)

/-- The value of the current token, which is a string. -/
def string : Parse String := do
  let t ← current
  match JsonString.decode t.text.toList with
  | .ok s =>
    advance
    return s
  | .error fault => failAt t (.badString fault)

/-- The path of the current token, which is a place. -/
def place : Parse String := do
  let t ← current
  advance
  return t.text

end Parse

namespace Source

/-- The run of a reader over the tokens of the text. -/
def run {α : Type} (s : Source) (p : Parse α) : Except ParseFault (α × Tokens) :=
  (do let _ ← Parse.current; p : Parse α) s.tokens

/-- The tree that the whole text stands for. A text that is too large is not looked at. -/
def parse {α : Type} (s : Source) (p : Parse α) : Except ParseError α :=
  if s.Fits then
    match s.run p with
    | .ok (tree, _) => .ok tree
    | .error fault => .error (.faulty s fault)
  else .error (.tooLarge s.file)

end Source

end AccessRules
