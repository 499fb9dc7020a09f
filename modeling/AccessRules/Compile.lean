import AccessRules.Census.Places
import AccessRules.Census.Settings
import AccessRules.Code.Render
import AccessRules.Layout
import AccessRules.Reachability.Evaluate
import AccessRules.Typing

set_option autoImplicit false

/-! # Compilation

`Workspace.compile` takes a corpus through all analyses and renders its rules. Mistakes in rules are
told on the way and stop nothing; only a defect does. A rule that can never hold at its spot is
pruned: its code is `false`. -/

namespace AccessRules

/-! ## Options -/

structure CompileOptions where
  /-- Whether code is rendered. -/
  executable : Bool := true
  /-- Whether outlines are rendered. -/
  debug : Bool := true
  /-- Whether rules that can never hold at their spot are pruned. -/
  prune : Bool := true
  accessors : AccessorTable := {}

namespace CompileOptions

def ofWritten? (d : Dialect) (w : Written) : Option CompileOptions := do
  let fields ← w.fields? d ["executable", "debug", "prune", "accessors"]
  return {
    executable := ← Written.field? fields "executable" Written.bool? true
    debug := ← Written.field? fields "debug" Written.bool? true
    prune := ← Written.field? fields "prune" Written.bool? true
    accessors := ← Written.field? fields "accessors" (AccessorTable.ofWritten? d) {} }

/-- The options that a document holds. -/
def parse? (s : String) : Option CompileOptions :=
  Written.parse? .yaml s >>= ofWritten? .yaml

def toJson (o : CompileOptions) : Json :=
  .obj [("executable", .bool o.executable), ("debug", .bool o.debug), ("prune", .bool o.prune),
    ("accessors", o.accessors.toJson)]

end CompileOptions

/-! ## Results -/

structure RuleOutput where
  code : Option String
  outline : Option String
  /-- The value of the rule at its spot, if it has one. -/
  reachability : Option Value
  pruned : Bool

structure Compilation where
  contexts : ContextTable
  items : ItemCensus
  settings : SettingCensus
  helpers : HelperTypes
  layout : FlagLayout
  rules : NameMap RuleOutput

/-- Whether a rule with a reachability is to be pruned. -/
def CompileOptions.prunes (o : CompileOptions) (reachability : Option Value) : Bool :=
  o.prune && reachability.any Value.isFalse

/-- Code that never holds. -/
def prunedCode : String := "false"

namespace Workspace

/-- A defect if a rule is not well shaped. -/
def checkShapes (w : Workspace) : Report Unit :=
  match w.corpus.rules.values.findSome? fun r => r.body.defect? r.name with
  | some d => .abandon d
  | none => pure ()

/-- The value of a rule at its spot, if it has one. -/
def reachability (k : Knowledge) (r : Rule) : Report (Option Value) :=
  match r.spot with
  | some spot => some <$> k.evaluate r spot
  | none => pure none

/-- The output for a rule. -/
def compileRule (o : CompileOptions) (k : Knowledge) (r : Rule) : Report RuleOutput := do
  let reachability ← reachability k r
  let pruned := o.prunes reachability
  let code ←
    if !o.executable then pure none
    else if pruned then pure (some prunedCode)
    else some <$> .ofExcept (CodeScope.body ⟨k.toWorkspace, k.contexts, o.accessors, r⟩)
  let outline := if o.debug then some r.body.outline else none
  return { code, outline, reachability, pruned }

/-- The outputs for rules in order. -/
def compileRules (o : CompileOptions) (k : Knowledge) :
    List Rule → Report (List (String × RuleOutput))
  | [] => pure []
  | r :: rs => do
    let output ← compileRule o k r
    let outputs ← compileRules o k rs
    return (r.name, output) :: outputs

/-- The analyses of all rules, without their outputs. -/
def analyse (w : Workspace) : Report Compilation := do
  .tell w.checkPlaces
  let declared ← .ofPair (ContextTable.ofCatalog w.catalog)
  let contexts ← .ofPair (w.resolveContext declared)
  .tell [.debug (toString contexts.size ++ " context variables")]
  let items ← .ofPair w.countItems
  let settings ← .ofPair w.surveySettings
  let helpers ← .ofPair (w.helperTypes contexts)
  let layout := FlagLayout.pack (flagEntries contexts w.catalog items)
  .tell [.debug ("packed " ++ toString layout.size ++ " flags into "
    ++ toString layout.groups.length ++ " groups")]
  return { contexts, items, settings, helpers, layout, rules := ∅ }

/-- All analyses and the outputs of all rules. -/
def compileAll (w : Workspace) (o : CompileOptions) : Report Compilation := do
  w.checkShapes
  let c ← w.analyse
  let k : Knowledge := ⟨w, c.contexts, .ofCatalog w.catalog⟩
  let outputs ← compileRules o k w.corpus.rules.values
  return { c with rules := NameMap.ofList outputs }

/-- Compile a corpus, with notes on the beginning and the end. -/
def compile (w : Workspace) (o : CompileOptions) : Report Compilation :=
  let start := Event.info ("compiling " ++ toString w.corpus.rules.size ++ " rules")
  match w.compileAll o with
  | ⟨.ok c, events⟩ =>
    let errors := errorCount (Event.diagnostics events)
    let stop := Event.info ("compiled " ++ toString c.rules.size ++ " rules with "
      ++ toString errors ++ " errors")
    ⟨.ok c, start :: events ++ [stop]⟩
  | ⟨.error d, events⟩ => ⟨.error d, start :: events⟩

end Workspace

/-! ## The log -/

inductive LogLevel where
  | info | debug | warn
  deriving DecidableEq

/-- The line that an event leaves in the log. Errors leave none. -/
def Event.logLine? : Event → Option (LogLevel × String)
  | .info text => some (.info, text)
  | .debug text => some (.debug, text)
  | .diagnostic d => if d.severity = .warning then some (.warn, d.message) else none

/-- The log of the work. -/
def Report.log {α : Type} (r : Report α) : List (LogLevel × String) :=
  r.events.filterMap Event.logLine?

end AccessRules
