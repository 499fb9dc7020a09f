import AccessRules.Diagnostic
import AccessRules.Expr.Shape

set_option autoImplicit false

/-! # Work that may have to be abandoned

A `Report` is the outcome of a piece of work together with the events on the way. The outcome is a
`Defect` if the work had to be abandoned: a tree that breaks the shape every pass relies on, helpers
that expand without end, or a tree that generated code cannot express. Events before the defect are
kept. -/

namespace AccessRules

/-- Why generated code cannot express a node. -/
inductive RenderFault where
  /-- Qualified references are data and cannot be assigned. -/
  | readOnly (ref : Reference)
  /-- A float does not select a case of a choice. -/
  | floatCase (x : Float) (setting : String)

def RenderFault.message : RenderFault → String
  | .readOnly ref => ref.text ++ " is read-only data"
  | .floatCase x setting =>
    "float case " ++ Decimal.exactText x ++ " of " ++ setting ++ " is not a match pattern"

/-- The name of the kind of node that cannot be expressed. -/
def RenderFault.node : RenderFault → String
  | .readOnly _ => "Set"
  | .floatCase _ _ => "PerSettingSwitch"

inductive Defect where
  /-- A node of a rule breaks the shape that every pass relies on. -/
  | misshapen (rule node : String) (fault : ShapeFault)
  /-- Helpers expand each other too deeply, at a call in a rule. -/
  | endlessHelpers (rule helper : String)
  | unrenderable (rule : String) (fault : RenderFault)

/-- The depth of helper calls beyond which evaluation is abandoned. -/
def maxHelperDepth : Nat := 64

def Defect.message : Defect → String
  | .misshapen rule node fault =>
    "malformed " ++ node ++ " node in " ++ rule ++ ": " ++ fault.message
  | .endlessHelpers rule helper =>
    "helper expansion exceeded " ++ toString maxHelperDepth ++ " frames in " ++ rule ++ " (at $"
      ++ helper ++ ")"
  | .unrenderable rule fault =>
    "rust backend cannot render " ++ fault.node ++ " in " ++ rule ++ ": " ++ fault.message

/-- The defect of a rule body that is not well shaped. -/
def Body.defect? (rule : String) (b : Body) : Option Defect :=
  b.misshapen?.map fun (node, fault) => .misshapen rule node fault

structure Report (α : Type) where
  outcome : Except Defect α
  events : List Event := []

namespace Report

variable {α β : Type}

instance : Monad Report where
  pure a := ⟨.ok a, []⟩
  bind x f := match x.outcome with
    | .ok a => match f a with
      | ⟨outcome, events⟩ => ⟨outcome, x.events ++ events⟩
    | .error d => ⟨.error d, x.events⟩

/-- Work that is abandoned. -/
def abandon (d : Defect) : Report α :=
  ⟨.error d, []⟩

/-- Tell of events. -/
def tell (events : List Event) : Report Unit :=
  ⟨.ok (), events⟩

/-- Tell of a problem in a rule. -/
def warn (rule : String) (p : Problem) : Report Unit :=
  tell [.problem rule p]

/-- The result of work that cannot fail, with the events on the way. -/
def ofPair (result : α × List Event) : Report α :=
  ⟨.ok result.1, result.2⟩

def ofExcept (outcome : Except Defect α) : Report α :=
  ⟨outcome, []⟩

end Report

end AccessRules
