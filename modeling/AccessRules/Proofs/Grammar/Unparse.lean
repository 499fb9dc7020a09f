import AccessRules.Grammar.ActionBody
import AccessRules.Proofs.Expr.Predicate
import AccessRules.Proofs.Token.Lexeme

set_option autoImplicit false

/-! # Writing trees as text

`Expr.lexemes` and `Action.lexemes` write a tree in the concrete syntax, node by node and without
parentheses of their own, and `unparse` puts blanks between the tokens. Forms that differ only in
what they are taken for are written alike, so a value and the predicate that it denotes have the
same tokens, and a negated form has one `NOT` more. -/

namespace AccessRules

/-! ## Parts of expressions -/

open Lexeme (symbol ident)

/-- Tokens with commas between them. -/
def commaLexemes (parts : List (List Lexeme)) : List Lexeme :=
  [symbol ","].intercalate parts

def negationLexemes (negated : Bool) : List Lexeme :=
  if negated then [ident "NOT"] else []

def boolLexeme (b : Bool) : Lexeme :=
  ident (if b then "TRUE" else "FALSE")

def Literal.lexeme : Literal → Lexeme
  | .bool b => boolLexeme b
  | .int n => .int n
  | .float x => .float x
  | .str s => .string s
  | .place p => .place p

def Reference.lexemes (r : Reference) : List Lexeme :=
  match r.qualifier with
  | none => [symbol "^", ident r.name]
  | some (.ref q) => [symbol "^", ident r.name, symbol "@", symbol "^", ident q]
  | some (.place p) => [symbol "^", ident r.name, symbol "@", .place p]

def Comparand.lexemes : Comparand → List Lexeme
  | .item name => [ident name]
  | .setting name => [ident name]
  | .ref r => r.lexemes

def Threshold.lexemes : Threshold → List Lexeme
  | .count n => [.int n]
  | .setting name => [ident name]
  | .ref r => r.lexemes

def Members.lexemes : Members → List Lexeme
  | .items names => commaLexemes (names.map fun name => [ident name])
  | .strs texts => commaLexemes (texts.map fun text => [.string text])
  | .places paths => commaLexemes (paths.map fun path => [.place path])

def PlaceArg.lexemes : PlaceArg → List Lexeme
  | .ref r => r.lexemes
  | .literal p => [.place p]

def callLexemes (func : String) (args : List (List Lexeme)) : List Lexeme :=
  symbol "$" :: ident func :: symbol "(" :: commaLexemes args ++ [symbol ")"]

/-- A condition and its branch, after the `IF`. -/
def armLexemes (cond branch : List Lexeme) : List Lexeme :=
  symbol "(" :: cond ++ symbol ")" :: symbol "\x7b" :: branch ++ [symbol "\x7d"]

/-- The arms of a conditional and its last branch, after the first `IF`. -/
def chainLexemes : List (List Lexeme × List Lexeme) → Option (List Lexeme) → List Lexeme
  | [], none => []
  | [], some o => ident "ELSE" :: symbol "\x7b" :: o ++ [symbol "\x7d"]
  | [(c, b)], o => armLexemes c b ++ chainLexemes [] o
  | (c, b) :: arms, o => armLexemes c b ++ ident "ELSE" :: ident "IF" :: chainLexemes arms o

/-- A choice with the cases that are given with their keys, and the default. -/
def choiceLexemes (subject : String) (cases : List (Lexeme × List Lexeme))
    (default : List Lexeme) : List Lexeme :=
  ident "PER" :: ident subject :: symbol "\x7b" ::
    commaLexemes (cases.map (fun c => c.1 :: symbol "=>" :: c.2)
      ++ [ident "_" :: symbol "=>" :: default])
    ++ [symbol "\x7d"]

/-! ## Expressions -/

mutual

/-- The tokens of an expression. -/
def Expr.lexemes : Expr → List Lexeme
  | .or l r => l.lexemes ++ symbol "||" :: r.lexemes
  | .and l r => l.lexemes ++ symbol "&&" :: r.lexemes
  | .not e => ident "NOT" :: e.lexemes
  | .bool b => [boolLexeme b]
  | .paren e => symbol "(" :: e.lexemes ++ [symbol ")"]
  | .invoke f args n => negationLexemes n ++ callLexemes f (lexemesAll args)
  | .ifThenElse conds branches none =>
    ident "IF" :: chainLexemes ((lexemesAll conds).zip (lexemesAll branches)) none
  | .ifThenElse conds branches (some o) =>
    ident "IF" :: chainLexemes ((lexemesAll conds).zip (lexemesAll branches)) (some o.lexemes)
  | .ternary c y n => c.lexemes ++ symbol "?" :: y.lexemes ++ symbol ":" :: n.lexemes
  | .numCompare l op r => l.lexemes ++ symbol op.text :: r.lexemes
  | .strCompare l op lit => l.lexemes ++ [symbol op.text, lit.lexeme]
  | .flagMatch v mask => v.lexemes ++ [symbol "&", .int mask]
  | .refEq r op rhs => r.lexemes ++ symbol op.text :: rhs.lexemes
  | .refEqCall r op e => r.lexemes ++ symbol op.text :: e.lexemes
  | .settingFlag s n => negationLexemes n ++ [ident s]
  | .argFlag r n => negationLexemes n ++ r.lexemes
  | .itemAtLeast item t =>
    [ident "Count", symbol "(", ident item, symbol ")", symbol ">="] ++ t.lexemes
  | .hasItem item => [ident item]
  | .hasLiteralItem s => [.string s]
  | .hasArgItem r => ident "Has" :: symbol "(" :: r.lexemes ++ [symbol ")"]
  | .refInSet r ms => r.lexemes ++ ident "IN" :: symbol "[" :: ms.lexemes ++ [symbol "]"]
  | .within p n => negationLexemes n ++ ident "WITHIN" :: p.lexemes
  | .perItem item cases d => choiceLexemes item (lexemesCounts cases) d.lexemes
  | .perSetting setting cases d => choiceLexemes setting (lexemesOptions cases) d.lexemes
  | .int n => [.int n]
  | .float x => [.float x]
  | .str s => [.string s]
  | .place p => [.place p]
  | .ref r => r.lexemes
  | .setting s => [ident s]
  | .const c => [ident c]
  | .binOp l op r => l.lexemes ++ symbol op.text :: r.lexemes
  | .call f args => callLexemes f (lexemesAll args)
  | .items names => symbol "[" :: commaLexemes (names.map fun name => [ident name]) ++ [symbol "]"]

def lexemesAll : List Expr → List (List Lexeme)
  | [] => []
  | e :: es => e.lexemes :: lexemesAll es

def lexemesCounts : List (Int64 × Expr) → List (Lexeme × List Lexeme)
  | [] => []
  | (n, e) :: cases => (.int n, e.lexemes) :: lexemesCounts cases

def lexemesOptions : List (Literal × Expr) → List (Lexeme × List Lexeme)
  | [] => []
  | (lit, e) :: cases => (lit.lexeme, e.lexemes) :: lexemesOptions cases

end

/-- The text of an expression. -/
def Expr.unparse (e : Expr) : String :=
  spaced e.lexemes

/-! ## Actions -/

mutual

/-- The tokens of an action. -/
def Action.lexemes : Action → List Lexeme
  | .set target value => target.lexemes ++ symbol "=" :: value.lexemes
  | .alter target op delta => target.lexemes ++ symbol (op.text ++ "=") :: delta.lexemes
  | .swap first second =>
    ident "SWAP" :: symbol "(" :: first.lexemes ++ symbol "," :: second.lexemes ++ [symbol ")"]
  | .cond conds branches none =>
    ident "IF" :: chainLexemes ((lexemesAll conds).zip (lexemesSteps branches)) none
  | .cond conds branches (some o) =>
    ident "IF" :: chainLexemes ((lexemesAll conds).zip (lexemesSteps branches)) (some o.lexemes)
  | .call func args => callLexemes func (lexemesAll args)
  | .sequence steps => [symbol ";"].intercalate (lexemesSteps steps)

def lexemesSteps : List Action → List (List Lexeme)
  | [] => []
  | a :: as => a.lexemes :: lexemesSteps as

end

/-- The text of an action body. -/
def Action.unparse (a : Action) : String :=
  spaced a.lexemes

/-! ## Forms that are written alike -/

theorem lexemesAll_eq_map (es : List Expr) : lexemesAll es = es.map Expr.lexemes := by
  induction es with
  | nil => rfl
  | cons e es ih => rw [lexemesAll, ih, List.map_cons]

theorem lexemesCounts_eq_map (cases : List (Int64 × Expr)) :
    lexemesCounts cases = cases.map fun c => (Lexeme.int c.1, c.2.lexemes) := by
  induction cases with
  | nil => rfl
  | cons c cases ih => rw [lexemesCounts, ih, List.map_cons]

theorem lexemesOptions_eq_map (cases : List (Literal × Expr)) :
    lexemesOptions cases = cases.map fun c => (c.1.lexeme, c.2.lexemes) := by
  induction cases with
  | nil => rfl
  | cons c cases ih => rw [lexemesOptions, ih, List.map_cons]

theorem lexemesSteps_eq_map (as : List Action) : lexemesSteps as = as.map Action.lexemes := by
  induction as with
  | nil => rfl
  | cons a as ih => rw [lexemesSteps, ih, List.map_cons]

namespace Expr

theorem lexemes_ifThenElse (conds branches : List Expr) (o : Option Expr) :
    (Expr.ifThenElse conds branches o).lexemes = ident "IF" ::
      chainLexemes ((conds.map lexemes).zip (branches.map lexemes)) (o.map lexemes) := by
  cases o with
  | none => rw [lexemes, lexemesAll_eq_map, lexemesAll_eq_map, Option.map_none]
  | some o => rw [lexemes, lexemesAll_eq_map, lexemesAll_eq_map, Option.map_some]

theorem lexemes_asPredicate_cases {κ : Type} (key : κ → Lexeme) (cases : List (κ × Expr))
    (h : ∀ c ∈ cases, c.2.asPredicate.lexemes = c.2.lexemes) :
    (cases.map fun c => (c.1, c.2.asPredicate)).map (fun c => (key c.1, c.2.lexemes))
      = cases.map fun c => (key c.1, c.2.lexemes) := by
  rw [List.map_map]
  refine List.map_congr_left fun c hc => ?_
  simp only [Function.comp_apply, h c hc]

/-- A value and the predicate that it denotes have the same tokens. -/
theorem lexemes_asPredicate (e : Expr) : e.asPredicate.lexemes = e.lexemes := by
  induction e using children_induction with
  | step e ih =>
      cases e with
      | ref r => simp only [asPredicate, lexemes, negationLexemes]; rfl
      | setting name => simp only [asPredicate, lexemes, negationLexemes]; rfl
      | call func args => simp only [asPredicate, lexemes, negationLexemes]; rfl
      | paren inner => simp only [asPredicate, lexemes, ih inner (by simp [children])]
      | ternary c y n =>
          simp only [asPredicate, lexemes, ih y (by simp [children]), ih n (by simp [children])]
      | ifThenElse conds branches o =>
          have hbranches : (branches.map asPredicate).map lexemes = branches.map lexemes := by
            rw [List.map_map]
            exact List.map_congr_left fun b hb => ih b (by simp [children, hb])
          have ho : (o.map asPredicate).map lexemes = o.map lexemes := by
            rw [Option.map_map]
            exact Option.map_congr fun b hb => ih b (by simp_all [children])
          rw [asPredicate_ifThenElse, lexemes_ifThenElse, lexemes_ifThenElse, hbranches, ho]
      | perItem item cases d =>
          have hcases := lexemes_asPredicate_cases Lexeme.int cases fun c hc =>
            ih c.2 (List.mem_append_left _ (List.mem_map_of_mem hc))
          simp only [asPredicate, lexemes, asPredicateCounts_eq_map, lexemesCounts_eq_map, hcases,
            ih d (by simp [children])]
      | perSetting setting cases d =>
          have hcases := lexemes_asPredicate_cases Literal.lexeme cases fun c hc =>
            ih c.2 (List.mem_append_left _ (List.mem_map_of_mem hc))
          simp only [asPredicate, lexemes, asPredicateOptions_eq_map, lexemesOptions_eq_map, hcases,
            ih d (by simp [children])]
      | _ => simp only [asPredicate, lexemes]

theorem lexemes_negate (e : Expr) : e.negate.lexemes = ident "NOT" :: e.lexemes := by
  unfold negate
  split
  · rfl
  · rfl
  · rw [lexemes, lexemes]; rfl
  · rw [lexemes, lexemes]; rfl
  · rw [lexemes, lexemes_asPredicate]

theorem lexemes_compared (l : Expr) (op : CmpOp) (r : Expr) :
    (Grammar.compared l op r).lexemes = l.lexemes ++ symbol op.text :: r.lexemes := by
  unfold Grammar.compared
  split
  · split <;> simp only [lexemes] <;> rfl
  · rw [lexemes]

end Expr

theorem Action.lexemes_cond (conds : List Expr) (branches : List Action) (o : Option Action) :
    (Action.cond conds branches o).lexemes = ident "IF" ::
      chainLexemes ((conds.map Expr.lexemes).zip (branches.map lexemes)) (o.map lexemes) := by
  cases o with
  | none => rw [lexemes, lexemesAll_eq_map, lexemesSteps_eq_map, Option.map_none]
  | some o => rw [lexemes, lexemesAll_eq_map, lexemesSteps_eq_map, Option.map_some]

end AccessRules
