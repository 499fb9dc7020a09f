import AccessRules.Expr.Basic

set_option autoImplicit false

/-! # The outline of a tree

A fully bracketed rendering of expressions and actions, in which every node shows its kind and its
parts. It is meant for reading a tree back from a text, so it adds what the concrete form leaves
out and keeps the parentheses that were written. -/

namespace AccessRules

/-- A mark for negated forms. -/
def negation (negated : Bool) : String :=
  if negated then "!" else ""

/-- A text between braces. -/
def braced (s : String) : String :=
  "\x7b" ++ s ++ "\x7d"

def Comparand.outline : Comparand → String
  | .item name => "Item:" ++ name
  | .setting name => "Setting:" ++ name
  | .ref r => r.text

def Threshold.outline : Threshold → String
  | .count n => wordText n
  | .setting name => "Setting:" ++ name
  | .ref r => r.text

def Members.outline : Members → String
  | .items names => ", ".intercalate names
  | .strs texts => ", ".intercalate (texts.map Text.quoted)
  | .places paths => ", ".intercalate (paths.map placeText)

def PlaceArg.outline : PlaceArg → String
  | .ref r => r.text
  | .literal p => placeText p

/-- The arms of a chain of conditions. -/
def outlineChain (conds branches : List String) : String :=
  "ELSE ".intercalate
    (List.zipWith (fun c b => "IF(" ++ c ++ ")THEN" ++ braced b) conds branches)

/-- The cases of a choice, the default last. -/
def outlineChoice (subject : String) (cases : List String) (default : String) : String :=
  "PER " ++ subject ++ "\x7b " ++ " ; ".intercalate (cases ++ ["_ => " ++ default]) ++ " \x7d"

mutual

def Expr.outline : Expr → String
  | .or l r => "OR[ " ++ l.outline ++ " , " ++ r.outline ++ " ]"
  | .and l r => "AND[ " ++ l.outline ++ " , " ++ r.outline ++ " ]"
  | .not e => "NOT[ " ++ e.outline ++ " ]"
  | .bool b => if b then "TRUE" else "FALSE"
  | .paren e => "( " ++ e.outline ++ " )"
  | .invoke f args n =>
    negation n ++ "Func:" ++ f ++ "(" ++ ", ".intercalate (outlineAll args) ++ ")"
  | .ifThenElse conds branches none => outlineChain (outlineAll conds) (outlineAll branches)
  | .ifThenElse conds branches (some o) =>
    outlineChain (outlineAll conds) (outlineAll branches) ++ "ELSE" ++ braced o.outline
  | .ternary c y n => "TERN(" ++ c.outline ++ " ? " ++ y.outline ++ " : " ++ n.outline ++ ")"
  | .numCompare l op r => "NUM[ " ++ l.outline ++ " " ++ op.text ++ " " ++ r.outline ++ " ]"
  | .strCompare l op lit => "STR[ " ++ l.outline ++ " " ++ op.text ++ " " ++ lit.text ++ " ]"
  | .flagMatch v mask => "FLAG[ " ++ v.outline ++ " & " ++ wordText mask ++ " ]"
  | .refEq r op rhs => "REFEQ[ " ++ r.text ++ " " ++ op.text ++ " " ++ rhs.outline ++ " ]"
  | .refEqCall r op e => "REFEQ[ " ++ r.text ++ " " ++ op.text ++ " " ++ e.outline ++ " ]"
  | .settingFlag s n => negation n ++ "Flag:" ++ s
  | .argFlag r n => negation n ++ "Arg:" ++ r.text
  | .itemAtLeast item t => "Item:" ++ item ++ braced t.outline
  | .hasItem item => "Item:" ++ item
  | .hasLiteralItem s => "Item:" ++ Text.quoted s
  | .hasArgItem r => "ItemArg:" ++ r.text
  | .refInSet r ms => "IN[ " ++ r.text ++ " ; " ++ ms.outline ++ " ]"
  | .within p n => negation n ++ "WITHIN[ " ++ p.outline ++ " ]"
  | .perItem item cases d => outlineChoice ("Item:" ++ item) (outlineCounts cases) d.outline
  | .perSetting setting cases d =>
    outlineChoice ("Setting:" ++ setting) (outlineOptions cases) d.outline
  | .int n => wordText n
  | .float x => Decimal.exactText x
  | .str s => Text.quoted s
  | .place p => placeText p
  | .ref r => r.text
  | .setting s => "Setting:" ++ s
  | .const c => "Const:" ++ c
  | .binOp l op r => "(" ++ l.outline ++ " " ++ op.text ++ " " ++ r.outline ++ ")"
  | .call f args => "Call:" ++ f ++ "(" ++ ", ".intercalate (outlineAll args) ++ ")"
  | .items names => "[" ++ ", ".intercalate names ++ "]"

def outlineAll : List Expr → List String
  | [] => []
  | e :: es => e.outline :: outlineAll es

def outlineCounts : List (Int64 × Expr) → List String
  | [] => []
  | (n, e) :: cases => (wordText n ++ " => " ++ e.outline) :: outlineCounts cases

def outlineOptions : List (Literal × Expr) → List String
  | [] => []
  | (lit, e) :: cases => (lit.text ++ " => " ++ e.outline) :: outlineOptions cases

end

mutual

def Action.outline : Action → String
  | .set target value => "SET[ " ++ target.text ++ " = " ++ value.outline ++ " ]"
  | .alter target op delta =>
    "ALTER[ " ++ target.text ++ " " ++ op.text ++ "= " ++ delta.outline ++ " ]"
  | .swap first second => "SWAP[ " ++ first.text ++ " , " ++ second.text ++ " ]"
  | .cond conds branches none => outlineChain (outlineAll conds) (outlineSteps branches)
  | .cond conds branches (some o) =>
    outlineChain (outlineAll conds) (outlineSteps branches) ++ "ELSE" ++ braced o.outline
  | .call func args => "CALL:" ++ func ++ "(" ++ ", ".intercalate (outlineAll args) ++ ")"
  | .sequence steps => "SEQ[ " ++ " ; ".intercalate (outlineSteps steps) ++ " ]"

def outlineSteps : List Action → List String
  | [] => []
  | a :: as => a.outline :: outlineSteps as

end

def Body.outline : Body → String
  | .requirement e => e.outline
  | .actions a => a.outline

end AccessRules
