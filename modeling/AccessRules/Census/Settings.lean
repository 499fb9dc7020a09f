import AccessRules.Context.Uses

set_option autoImplicit false

/-! # The census of settings

The values that each declared setting is compared with, and whether it is also used otherwise. A
setting that is not declared, and a value that a setting does not have, are reported. -/

namespace AccessRules

/-- What a setting is used for: a comparison with a literal, or anything else. -/
inductive SettingOption where
  | literal (text : String)
  | dynamic
  deriving DecidableEq

/-- The options seen for a setting: the texts of literals in order, and whether it is used in any
    other way. -/
structure SettingOptions where
  literals : NameSet := ∅
  dynamic : Bool := false

namespace SettingOptions

def add (o : SettingOptions) : SettingOption → SettingOptions
  | .literal text => { o with literals := NameSet.add o.literals text }
  | .dynamic => { o with dynamic := true }

/-- The options in order: literals by their texts, then any other use. -/
def toList (o : SettingOptions) : List SettingOption :=
  (NameSet.toList o.literals).map .literal ++ if o.dynamic then [.dynamic] else []

end SettingOptions

def SettingOption.text : SettingOption → String
  | .literal text => text
  | .dynamic => "*"

abbrev SettingCensus := NameMap SettingOptions

/-- The text of a literal among the options of a setting. -/
def optionText : Literal → String
  | .bool b => if b then "true" else "false"
  | .int n => wordText n
  | .float x => Decimal.plainText x
  | .str s => s
  | .place p => p

namespace Expr

/-- The literal with which a setting is compared directly; places do not count here. -/
def optionLiteral? : Expr → Option Literal
  | .place _ => none
  | e => e.literal?

/-- The setting and the literal of a node that compares just these two. -/
def settingComparison? : Expr → Option (String × Literal)
  | .numCompare (.setting s) _ rhs => rhs.optionLiteral?.map (s, ·)
  | .numCompare lhs _ (.setting s) => lhs.optionLiteral?.map (s, ·)
  | .strCompare (.setting s) _ lit => some (s, lit)
  | _ => none

/-- The uses of settings in a node itself, its children apart. -/
def settingUses (e : Expr) : List (String × SettingOption) :=
  match e.settingComparison? with
  | some (s, lit) => [(s, .literal (optionText lit))]
  | none =>
    match e with
    | .perSetting s cases _ => cases.map fun (lit, _) => (s, .literal (optionText lit))
    | .setting s => [(s, .dynamic)]
    | .settingFlag s _ => [(s, .dynamic)]
    | .refEq _ _ (.setting s) => [(s, .dynamic)]
    | .itemAtLeast _ (.setting s) => [(s, .dynamic)]
    | _ => []

end Expr

namespace Workspace

/-- The uses of settings in a rule. A direct comparison takes up the setting in it. -/
def settingUses (r : Rule) : List (String × SettingOption) :=
  (r.body.walk fun e => e.settingComparison?.isNone).flatMap Expr.settingUses

/-- What is to be said about a use of a declared setting. -/
def optionProblem? (setting : String) (decl : SettingDecl) : SettingOption → Option Problem
  | .literal value => decl.options.bind fun options =>
    if options.contains value then none else some (.unknownOption setting value options)
  | .dynamic => none

/-- The census so far, and the settings of the rule at hand already found not to be declared. -/
structure SettingState where
  census : SettingCensus
  unknown : List String := []

/-- A census after one use of a setting in a rule. -/
def recordSetting (w : Workspace) (r : Rule) (state : SettingState)
    (use : String × SettingOption) : SettingState × List Event :=
  let (setting, option) := use
  match w.catalog.settings.find? setting with
  | none =>
    if state.unknown.contains setting then (state, [])
    else ({ state with unknown := state.unknown ++ [setting] },
      [.problem r.name (.unknownSetting setting)])
  | some decl =>
    ({ state with census := state.census.alter setting fun o => (o.getD {}).add option },
      (optionProblem? setting decl option).toList.map (Event.problem r.name))

/-- A census after the uses in a rule. -/
def surveyRule (w : Workspace) (c : SettingCensus) (r : Rule) : SettingCensus × List Event :=
  let (state, events) := accumulate (w.recordSetting r) { census := c } (settingUses r)
  (state.census, events)

/-- The census of all rules. -/
def surveySettings (w : Workspace) : SettingCensus × List Event :=
  let (c, events) := accumulate w.surveyRule ∅ w.corpus.rules.values
  (c, events ++ [.debug (toString c.size ++ " settings referenced")])

end Workspace

end AccessRules
