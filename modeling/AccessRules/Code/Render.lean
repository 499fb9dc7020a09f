import AccessRules.Code.Scope
import AccessRules.Expr.Outline
import AccessRules.Report

set_option autoImplicit false

/-! # Generated code

`CodeScope.body` renders a rule as code. Two things cannot be expressed: assignment to a qualified
reference, and a choice that has a float among its cases. The first of them from left to right is
the fault of the rule. -/

namespace AccessRules

/-- Code, or why there is none. -/
abbrev Rendered := Except RenderFault String

/-! ## Parts -/

/-- Code in a block. -/
def blockCode (code : String) : String :=
  "\x7b " ++ code ++ " \x7d"

/-- All of several pieces of code. -/
def allCode : List Rendered → Except RenderFault (List String)
  | [] => .ok []
  | c :: cs => do
    let code ← c
    let rest ← allCode cs
    return code :: rest

/-- The arms of a chain of conditions, each condition before its branch. -/
def armCode : List (Rendered × Rendered) → Except RenderFault (List String)
  | [] => .ok []
  | (cond, branch) :: arms => do
    let c ← cond
    let b ← branch
    let rest ← armCode arms
    return ("if " ++ c ++ " " ++ blockCode b) :: rest

/-- A chain of conditions up to its last branch. -/
def chainCode (conds branches : List Rendered) : Rendered := do
  return " else ".intercalate (← armCode (conds.zip branches))

/-- The last branch of a chain of conditions. -/
def elseCode (code : String) : String :=
  " else " ++ blockCode code

/-- A case of a choice. -/
def caseCode (pattern : String) (code : Rendered) : Rendered := do
  return pattern ++ " => " ++ (← code) ++ ","

/-- A choice by the value of a subject. -/
def choiceCode (subject : String) (cases : List Rendered) (default : Rendered) : Rendered := do
  let arms ← allCode cases
  let last ← caseCode "_" default
  return "match " ++ subject ++ " " ++ blockCode (" ".intercalate (arms ++ [last]))

def Literal.isStr : Literal → Bool
  | .str _ => true
  | _ => false

namespace CodeScope

def comparandCode (s : CodeScope) : Comparand → String
  | .item name => itemCode name
  | .setting name => settingCode name
  | .ref r => s.reference r

def thresholdCode (s : CodeScope) : Threshold → String
  | .count n => wordText n
  | .setting name => settingCode name
  | .ref r => s.reference r

/-- The members of a set as patterns. -/
def memberCodes (enumType : Option String) : Members → List String
  | .items names => names.map itemCode
  | .strs texts => texts.map (textCode enumType)
  | .places paths => paths.map placeCode

def placeArgCode (s : CodeScope) : PlaceArg → String
  | .ref r => s.reference r
  | .literal p => placeCode p

/-- The setting that a choice is made by. Where it is no enumeration, it is taken as a text if any
    case is one. -/
def choiceSubject (s : CodeScope) (setting : String) (cases : List Literal) : String :=
  settingCode setting
    ++ if (s.settingEnum? setting).isNone && cases.any Literal.isStr then ".as_str()" else ""

/-- A case of a choice by a setting. -/
def optionCode (s : CodeScope) (setting : String) (lit : Literal) (code : Rendered) : Rendered :=
  match lit with
  | .float x => .error (.floatCase x setting)
  | lit => caseCode (lit.code (s.settingEnum? setting)) code

/-! ## Expressions -/

mutual

def expr (s : CodeScope) : Expr → Rendered
  | .or l r => do
    let a ← expr s l
    let b ← expr s r
    return "(" ++ a ++ " || " ++ b ++ ")"
  | .and l r => do
    let a ← expr s l
    let b ← expr s r
    return "(" ++ a ++ " && " ++ b ++ ")"
  | .not e => do return "!(" ++ (← expr s e) ++ ")"
  | .bool b => return boolCode b
  | .paren e => do return "(" ++ (← expr s e) ++ ")"
  | .invoke func args negated => do
    return negation negated ++ s.callCode func (← allCode (exprAll s args))
  | .ifThenElse conds branches none => do
    let chain ← chainCode (exprAll s conds) (exprAll s branches)
    return chain ++ elseCode "Default::default()"
  | .ifThenElse conds branches (some o) => do
    let chain ← chainCode (exprAll s conds) (exprAll s branches)
    return chain ++ elseCode (← expr s o)
  | .ternary c y n => do
    let chain ← chainCode [expr s c] [expr s y]
    return chain ++ elseCode (← expr s n)
  | .numCompare l op r => do
    let a ← expr s l
    let b ← expr s r
    return a ++ " " ++ op.text ++ " " ++ b
  | .strCompare l op lit => do
    return (← expr s l) ++ " " ++ op.text ++ " " ++ lit.code (s.comparedEnum? l)
  | .flagMatch value mask => do
    return "(" ++ (← expr s value) ++ " & " ++ wordText mask ++ ") == " ++ wordText mask
  | .refEq r op rhs => return s.reference r ++ " " ++ op.text ++ " " ++ s.comparandCode rhs
  | .refEqCall r op e => do return s.reference r ++ " " ++ op.text ++ " " ++ (← expr s e)
  | .settingFlag name negated => return negation negated ++ settingCode name
  | .argFlag r negated => return negation negated ++ s.reference r
  | .itemAtLeast item t => return "ctx.count(" ++ itemCode item ++ ") >= " ++ s.thresholdCode t
  | .hasItem item => return "ctx.has(" ++ itemCode item ++ ")"
  | .hasLiteralItem item => return "ctx.has(" ++ itemCode item ++ ")"
  | .hasArgItem r => return "ctx.has(" ++ s.reference r ++ ")"
  | .refInSet r members =>
    return "matches!(" ++ s.reference r ++ ", "
      ++ " | ".intercalate (memberCodes (s.enumOf? r) members) ++ ")"
  | .within p negated => return negation negated ++ "ctx.within(" ++ s.placeArgCode p ++ ")"
  | .perItem item cases d =>
    choiceCode ("ctx.count(" ++ itemCode item ++ ")") (countCodes s cases) (expr s d)
  | .perSetting setting cases d =>
    choiceCode (s.choiceSubject setting (cases.map (·.1))) (optionCodes s setting cases) (expr s d)
  | .int n => return wordText n
  | .float x => return Decimal.exactText x
  | .str t => return Text.quoted t
  | .place p => return placeCode p
  | .ref r => return s.reference r
  | .setting name => return settingCode name
  | .const name => return name
  | .binOp l op r => do
    let a ← expr s l
    let b ← expr s r
    return "(" ++ a ++ " " ++ op.text ++ " " ++ b ++ ")"
  | .call func args => do return s.callCode func (← allCode (exprAll s args))
  | .items names => return "&[" ++ ", ".intercalate (names.map itemCode) ++ "]"

def exprAll (s : CodeScope) : List Expr → List Rendered
  | [] => []
  | e :: es => expr s e :: exprAll s es

def countCodes (s : CodeScope) : List (Int64 × Expr) → List Rendered
  | [] => []
  | (n, e) :: cases => caseCode (wordText n) (expr s e) :: countCodes s cases

def optionCodes (s : CodeScope) (setting : String) : List (Literal × Expr) → List Rendered
  | [] => []
  | (lit, e) :: cases => s.optionCode setting lit (expr s e) :: optionCodes s setting cases

end

/-! ## Actions -/

/-- The value of an assignment. A string assigned to an enumeration is its member. -/
def valueCode (s : CodeScope) (target : Reference) : Expr → Rendered
  | .str t => return textCode (s.enumOf? target) t
  | e => s.expr e

mutual

def action (s : CodeScope) : Action → Rendered
  | .set target value =>
    if target.qualifier.isSome then .error (.readOnly target)
    else do return s.assign target (← s.valueCode target value) ++ ";"
  | .alter target op delta => do
    return s.assign target (s.reference target ++ " " ++ op.text ++ " " ++ (← s.expr delta)) ++ ";"
  | .swap first second =>
    return blockCode ("let tmp = " ++ s.reference first ++ "; "
      ++ s.assign first (s.reference second) ++ "; " ++ s.assign second "tmp" ++ ";")
  | .cond conds branches none => chainCode (s.exprAll conds) (actionAll s branches)
  | .cond conds branches (some o) => do
    let chain ← chainCode (s.exprAll conds) (actionAll s branches)
    return chain ++ elseCode (← action s o)
  | .call func args => do return s.callCode func (← allCode (s.exprAll args)) ++ ";"
  | .sequence steps => do return " ".intercalate (← allCode (actionAll s steps))

def actionAll (s : CodeScope) : List Action → List Rendered
  | [] => []
  | a :: as => action s a :: actionAll s as

end

/-- The code of the rule. -/
def body (s : CodeScope) : Except Defect String :=
  match s.rule.body with
  | .requirement e => (s.expr e).mapError (Defect.unrenderable s.rule.name)
  | .actions a => (s.action a).mapError (Defect.unrenderable s.rule.name)

end CodeScope

end AccessRules
