import AccessRules.Context.Kind
import AccessRules.Signature

set_option autoImplicit false

/-! # Diagnostics

A `Problem` is a mistake in a rule or a thing that cannot be decided; none stops the work. A
`Diagnostic` attributes a problem to a rule. An `Event` is what is told while the work goes on:
notes about its progress, and diagnostics, of which the warnings are told at once. -/

namespace AccessRules

inductive Severity where
  | error | warning
  deriving DecidableEq

/-- The classes of problems. -/
inductive DiagnosticKind where
  | undefinedReference | typeConflict | unknownItem | unknownSetting | unknownOption | unknownPlace
  | unknownFunction | helperArity | placeDepth | dynamicCount | missingSettingMax
  | unresolvedDefault | unresolvedQualifier
  deriving DecidableEq

inductive Problem where
  | undefinedReference (name : String)
  /-- A context variable declares a type that there is not. -/
  | unknownType (type : String)
  | kindConflict (var : String) (known used : ContextKind)
  /-- A variable is assigned from another one of a kind that it does not accept. -/
  | copyConflict (var : String) (kind : ContextKind) (source : String) (sourceKind : ContextKind)
  | unknownItem (item : String)
  /-- An objective mentions an item that is not declared. -/
  | undeclaredGoal (item : String)
  | unknownSetting (setting : String)
  | unknownOption (setting value : String) (options : List String)
  | invalidSpot (fault : Place.PathFault)
  | unknownPlace (path : String)
  | unknownFunction (func : String)
  | builtinArity (func : String) (arity passed : Nat)
  | helperArity (helper : String) (arity passed : Nat)
  /-- A place below a spot is passed to a helper. -/
  | leafArgument (helper : String) (index : Nat) (param path : String)
  /-- A place literal of another kind than the parameter is passed to a helper. -/
  | placeDepth (helper : String) (index : Nat) (param : String) (want : PlaceKind) (site : String)
    (got : PlaceKind) (path : String)
  | paramConflict (helper : String) (index : Nat) (param : String) (known : ArgType) (site : String)
    (used : ArgType)
  | dynamicCount (item : String) (ref : Reference)
  | missingSettingMax (setting item : String)
  | unresolvedDefault
  | unresolvedQualifier (ref : Reference) (spot : String)
  deriving DecidableEq

/-- The count that is assumed for a setting without a declared largest value. -/
def unboundedCount : Int64 := 1024

namespace Problem

def kind : Problem → DiagnosticKind
  | .undefinedReference _ => .undefinedReference
  | .unknownType _ => .typeConflict
  | .kindConflict _ _ _ => .typeConflict
  | .copyConflict _ _ _ _ => .typeConflict
  | .unknownItem _ => .unknownItem
  | .undeclaredGoal _ => .unknownItem
  | .unknownSetting _ => .unknownSetting
  | .unknownOption _ _ _ => .unknownOption
  | .invalidSpot _ => .unknownPlace
  | .unknownPlace _ => .unknownPlace
  | .unknownFunction _ => .unknownFunction
  | .builtinArity _ _ _ => .helperArity
  | .helperArity _ _ _ => .helperArity
  | .leafArgument _ _ _ _ => .placeDepth
  | .placeDepth _ _ _ _ _ _ _ => .placeDepth
  | .paramConflict _ _ _ _ _ _ => .typeConflict
  | .dynamicCount _ _ => .dynamicCount
  | .missingSettingMax _ _ => .missingSettingMax
  | .unresolvedDefault => .unresolvedDefault
  | .unresolvedQualifier _ _ => .unresolvedQualifier

def severity : Problem → Severity
  | .unknownType _ => .warning
  | .undeclaredGoal _ => .warning
  | .dynamicCount _ _ => .warning
  | .missingSettingMax _ _ => .warning
  | .unresolvedDefault => .warning
  | .unresolvedQualifier _ _ => .warning
  | _ => .error

/-- The parameter of a helper inside a sentence. -/
def paramText (helper : String) (index : Nat) (param : String) : String :=
  "Helper $" ++ helper ++ " parameter " ++ toString index ++ " (^" ++ param ++ ")"

def arityText (callee : String) (arity : Nat) (rule : String) (passed : Nat) : String :=
  callee ++ " takes " ++ toString arity ++ " argument(s) but " ++ rule ++ " passes "
    ++ toString passed

/-- The kind of place that a path of this depth can name, inside a sentence. -/
def placeWord (path : String) : String :=
  ((Place.kind? path).map PlaceKind.word).getD "path"

/-- What is said about the problem in a rule. -/
def message (rule : String) : Problem → String
  | .undefinedReference name => "Undefined ctx property ^" ++ name ++ " in non-helper " ++ rule
  | .unknownType type => "Context variable " ++ rule ++ " declares unknown type " ++ type
  | .kindConflict var known used =>
    "Type conflict for ^" ++ var ++ " in " ++ rule ++ ": declared or inferred " ++ known.text
      ++ ", used as " ++ used.text
  | .copyConflict var kind source sourceKind =>
    "Type conflict in " ++ rule ++ ": ^" ++ var ++ " is " ++ kind.text ++ " but ^" ++ source
      ++ " is " ++ sourceKind.text
  | .unknownItem item => "Unknown item " ++ item ++ " in " ++ rule
  | .undeclaredGoal item => "Objective " ++ rule ++ " references undeclared item " ++ item
  | .unknownSetting setting => "Unknown setting " ++ setting ++ " in " ++ rule
  | .unknownOption setting value options =>
    "Setting " ++ setting ++ " has no option " ++ Text.quoted value ++ " (in " ++ rule
      ++ "); expected one of " ++ ", ".intercalate options
  | .invalidSpot fault => "Rule " ++ rule ++ " is attached to an invalid spot: " ++ fault.message
  | .unknownPlace path => "Unknown " ++ placeWord path ++ " " ++ placeText path ++ " in " ++ rule
  | .unknownFunction func => "Unrecognized function $" ++ func ++ " in " ++ rule
  | .builtinArity func arity passed => arityText ("Builtin $" ++ func) arity rule passed
  | .helperArity helper arity passed => arityText ("Helper $" ++ helper) arity rule passed
  | .leafArgument helper index param path =>
    paramText helper index param ++ " takes a Region, Area or Spot but " ++ rule ++ " passes "
      ++ placeText path ++ " with " ++ toString (Place.separators path) ++ " separators"
  | .placeDepth helper index param want site got path =>
    paramText helper index param ++ " is a " ++ want.name ++ " (from " ++ site ++ ") but " ++ rule
      ++ " passes " ++ got.name ++ " " ++ placeText path ++ " with "
      ++ toString (Place.separators path) ++ " separators"
  | .paramConflict helper index param known site used =>
    paramText helper index param ++ " is " ++ known.name ++ " at " ++ site ++ " but " ++ used.name
      ++ " at " ++ rule
  | .dynamicCount item ref =>
    "Count of " ++ item ++ " by " ++ ref.text ++ " in " ++ rule ++ " cannot be bounded; ignored"
  | .missingSettingMax setting item =>
    "Setting " ++ setting ++ " used as a count of " ++ item ++ " in " ++ rule
      ++ " has no max; assuming " ++ wordText unboundedCount
  | .unresolvedDefault => "No known default for $default in " ++ rule
  | .unresolvedQualifier ref spot =>
    "Qualifier of " ++ ref.text ++ " in " ++ rule ++ " does not resolve at " ++ spot
      ++ "; treated as uncertain"

end Problem

/-- A problem and the rule, or the declared variable, that it is about. -/
structure Diagnostic where
  rule : String
  problem : Problem
  deriving DecidableEq

namespace Diagnostic

def severity (d : Diagnostic) : Severity := d.problem.severity

def message (d : Diagnostic) : String := d.problem.message d.rule

end Diagnostic

inductive Event where
  | info (text : String)
  | debug (text : String)
  | diagnostic (d : Diagnostic)
  deriving DecidableEq

namespace Event

def diagnostic? : Event → Option Diagnostic
  | .diagnostic d => some d
  | _ => none

/-- The diagnostics among the events. -/
def diagnostics (events : List Event) : List Diagnostic :=
  events.filterMap diagnostic?

/-- The event of a problem in a rule. -/
def problem (rule : String) (p : Problem) : Event :=
  .diagnostic ⟨rule, p⟩

end Event

/-- Take a state through a list of things in order and collect the events on the way. -/
def accumulate {σ α : Type} (step : σ → α → σ × List Event) : σ → List α → σ × List Event
  | state, [] => (state, [])
  | state, a :: as =>
    let (state, events) := step state a
    let (state, later) := accumulate step state as
    (state, events ++ later)

/-- How many of the diagnostics are errors. -/
def errorCount (ds : List Diagnostic) : Nat :=
  ds.countP fun d => d.severity = .error

/-- How many of the diagnostics are warnings. -/
def warningCount (ds : List Diagnostic) : Nat :=
  ds.countP fun d => d.severity = .warning

end AccessRules
