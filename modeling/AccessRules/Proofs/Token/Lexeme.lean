import AccessRules.Grammar.Parse
import AccessRules.Json.Writer

set_option autoImplicit false

/-! # Tokens and their written forms

A token is well formed if its text has the form that its kind asks for. A lexeme is a token without
its place, and `spaced` writes lexemes with blanks between them. -/

namespace AccessRules

open Cursor (isIdentStart isIdentChar nul)

/-- The text has the form of an identifier. -/
def IsIdent (s : String) : Prop :=
  ∃ c cs, s.toList = c :: cs ∧ isIdentStart c = true ∧ ∀ x ∈ cs, isIdentChar x = true

/-- The text is an identifier that is no keyword. -/
def IsName (s : String) : Prop :=
  IsIdent s ∧ s ∉ Parse.keywords

/-- The text can stand between single quotes. -/
def IsPath (s : String) : Prop :=
  ∀ c ∈ s.toList, c ≠ '\'' ∧ c ≠ nul ∧ c ≠ '\n'

/-- The text of the token is one of its kind. -/
structure Token.WellFormed (t : Token) : Prop where
  ident : t.kind = .ident → IsIdent t.text
  place : t.kind = .place → IsPath t.text

/-- Every token before the end is well formed. -/
def Tokens.WellFormed : Tokens → Prop
  | .eof t => t.WellFormed
  | .fault _ => True
  | .cons t rest => t.WellFormed ∧ rest.WellFormed

theorem Cursor.isIdentChar_of_isIdentStart {c : Char} (h : isIdentStart c = true) :
    isIdentChar c = true := by
  simp only [isIdentStart, isIdentChar, Bool.or_eq_true, Char.isAlphanum] at h ⊢
  exact h.imp_left .inl

/-! ## Lexemes -/

/-- A token as it is written, its place apart. -/
structure Lexeme where
  kind : TokenKind
  text : String
  deriving DecidableEq

namespace Lexeme

def symbol (text : String) : Lexeme := ⟨.symbol, text⟩

def ident (text : String) : Lexeme := ⟨.ident, text⟩

def int (n : Int64) : Lexeme := ⟨.number, wordText n⟩

def float (x : Float) : Lexeme := ⟨.number, Decimal.exactText x⟩

/-- A string with the escapes of structured values. -/
def string (s : String) : Lexeme := ⟨.string, String.ofList (s.toList.flatMap Json.escapeChar)⟩

def place (path : String) : Lexeme := ⟨.place, path⟩

/-- The characters of the token, with the quotes around a string or a place. -/
def written (l : Lexeme) : List Char :=
  match l.kind with
  | .string => '"' :: l.text.toList ++ ['"']
  | .place => '\'' :: l.text.toList ++ ['\'']
  | _ => l.text.toList

/-- The number of quotes before the text. -/
def margin (l : Lexeme) : Nat :=
  match l.kind with
  | .string => 1
  | .place => 1
  | _ => 0

/-- The text by which the token is recognised: none for strings and places. -/
def word (l : Lexeme) : String :=
  match l.kind with
  | .string => ""
  | .place => ""
  | _ => l.text

end Lexeme

def Token.lexeme (t : Token) : Lexeme :=
  ⟨t.kind, t.text⟩

/-- The token stands for the end of the text. -/
def Token.IsEnd (t : Token) : Prop :=
  t.kind = .eof ∧ t.text = ""

theorem Token.IsEnd.lexeme_eq {t : Token} (h : t.IsEnd) : t.lexeme = ⟨.eof, ""⟩ := by
  rw [lexeme, h.1, h.2]

namespace Tokens

/-- The lexemes before the end or the fault. -/
def lexemes : Tokens → List Lexeme
  | .cons t rest => t.lexeme :: rest.lexemes
  | _ => []

/-- The token for the end of the text, if the end was reached. -/
def eof? : Tokens → Option Token
  | .eof t => some t
  | .fault _ => none
  | .cons _ rest => rest.eof?

end Tokens

/-- Tokens with blanks between them. -/
def spaced (ls : List Lexeme) : String :=
  String.ofList ([' '].intercalate (ls.map Lexeme.written))

end AccessRules
