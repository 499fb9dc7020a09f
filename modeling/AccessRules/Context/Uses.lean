import AccessRules.Context.Table
import AccessRules.Corpus

set_option autoImplicit false

/-! # How rules use context variables

A reference `^name` in a rule stands for a context variable or for static data: a short name of the
rule first, then a declared variable or datum of that name. The parameters of a helper stand for
neither. `Workspace.uses` lists what the expressions and actions of a rule show about context
variables, and `Workspace.resolveContext` takes a table through all rules. -/

namespace AccessRules

/-- The context variable or datum that a name stands for in a rule. -/
def Rule.resolve? (catalog : Catalog) (r : Rule) (name : String) : Option String :=
  match r.locals.find? name with
  | some path => some path
  | none =>
    if catalog.context.contains name || catalog.data.contains name then some name else none

/-- A catalog with a corpus to be read against it. -/
structure Workspace where
  catalog : Catalog
  corpus : Corpus

namespace Workspace

/-- The context variable that a reference of a rule stands for. Qualified references read static
    data, and parameters are bound by calls. -/
def target? (w : Workspace) (r : Rule) (ref : Reference) : Option String :=
  if ref.qualifier.isSome || w.corpus.isParam r ref.name then none
  else (r.resolve? w.catalog ref.name).filter fun path => !w.catalog.isStatic path

/-! ## References -/

/-- The names that a rule refers to, its own parameters apart: those in expressions first, then
    those that actions assign to. -/
def referredNames (w : Workspace) (r : Rule) : List String :=
  let inExprs := r.body.nodes.flatMap Expr.refNames
  let inTargets := r.body.actionNodes.flatMap fun a => a.targets.flatMap Reference.names
  (inExprs ++ inTargets).filter fun name => !w.corpus.isParam r name

/-- The context variables that the names of a rule stand for. -/
def mentions (w : Workspace) (r : Rule) : List Use :=
  ((w.referredNames r).filterMap (r.resolve? w.catalog)).filterMap fun path =>
    if w.catalog.isStatic path then none else some (.mention path)

/-- The names of a rule that stand for nothing, each once. Helpers are free to mention them. -/
def undefinedNames (w : Workspace) (r : Rule) : List String :=
  if r.isHelper then []
  else ((w.referredNames r).filter fun name => (r.resolve? w.catalog name).isNone).eraseDups

/-! ## What expressions and actions show -/

/-- What a comparison of `side` with `other` shows about `side`. -/
def comparisonUse (w : Workspace) (r : Rule) (side other : Expr) : List Use :=
  match side with
  | .ref ref =>
    match w.target? r ref, other with
    | some var, .int _ => [.shows var .int]
    | some var, .float _ => [.shows var .float]
    | _, _ => []
  | _ => []

/-- The kind that membership in a set shows. -/
def membersKind? (var : String) : Members → Option ContextKind
  | .items _ => none
  | .strs _ => some (.enum (enumName var))
  | .places paths => paths.head?.bind fun p => (Place.kind? p).map .place

/-- What a node shows about context variables, its children apart. -/
def exprUses (w : Workspace) (r : Rule) : Expr → List Use
  | .numCompare lhs _ rhs => w.comparisonUse r lhs rhs ++ w.comparisonUse r rhs lhs
  | .strCompare (.ref ref) _ lit => (w.target? r ref).toList.flatMap fun var =>
    (ContextKind.ofLiteral? lit var).toList.map (Use.shows var)
  | .flagMatch (.ref ref) _ => (w.target? r ref).toList.map fun var => .shows var .int
  | .refInSet ref members => (w.target? r ref).toList.flatMap fun var =>
    (membersKind? var members).toList.map (Use.shows var)
  | _ => []

/-- What an assignment of a value to a variable shows. -/
def assignmentUses (w : Workspace) (r : Rule) (var : String) (value : Expr) : List Use :=
  match value.literal?, value with
  | some lit, _ => [.assign var lit]
  | none, .ref source => (w.target? r source).toList.map (Use.copy var)
  | none, _ => []

/-- What an action shows about context variables, its parts apart. -/
def actionUses (w : Workspace) (r : Rule) : Action → List Use
  | .set target value => (w.target? r target).toList.flatMap fun var => w.assignmentUses r var value
  | .alter target _ delta => (w.target? r target).toList.map fun var =>
    .shows var (match delta with | .float _ => .float | _ => .int)
  | .swap first second =>
    match w.target? r first, w.target? r second with
    | some a, some b => [.swap a b]
    | _, _ => []
  | _ => []

/-- The uses of context variables in a rule, in the order in which they count. -/
def uses (w : Workspace) (r : Rule) : List Use :=
  w.mentions r ++ r.body.nodes.flatMap (w.exprUses r) ++ r.body.actionNodes.flatMap (w.actionUses r)

/-- A table after the uses of a rule. Names that stand for nothing are reported first. -/
def resolveRule (w : Workspace) (t : ContextTable) (r : Rule) : ContextTable × List Event :=
  let undefineds := (w.undefinedNames r).map fun name =>
    Event.problem r.name (.undefinedReference name)
  let (t, events) := accumulate (ContextTable.record r.name) t (w.uses r)
  (t, .debug ("resolving context references in " ++ r.name) :: undefineds ++ events)

/-- A table after the uses of all rules. -/
def resolveContext (w : Workspace) (t : ContextTable) : ContextTable × List Event :=
  accumulate w.resolveRule t w.corpus.rules.values

end Workspace

end AccessRules
