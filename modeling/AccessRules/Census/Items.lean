import AccessRules.Context.Uses

set_option autoImplicit false

/-! # The census of items

How often each declared item is mentioned, and the largest quantity of it that any rule may ask for.
A mention of an item that is not declared is reported once for a rule. -/

namespace AccessRules

/-- The mentions of an item, and the largest quantity asked for. -/
structure ItemUsage where
  uses : Nat
  maxCount : Int64
  deriving DecidableEq

abbrev ItemCensus := NameMap ItemUsage

namespace ItemCensus

/-- The census after a mention of an item in a quantity. Any mention asks for at least one. -/
def record (c : ItemCensus) (item : String) (count : Int64) : ItemCensus :=
  c.alter item fun usage =>
    let usage := usage.getD ⟨0, 1⟩
    ⟨usage.uses + 1, if usage.maxCount < count then count else usage.maxCount⟩

/-- The items that are never needed in quantity. -/
def booleanItems (c : ItemCensus) : List String :=
  (c.entries.filter fun (_, usage) => usage.maxCount == 1).map (·.1)

end ItemCensus

/-- A mention of an item: in a quantity, or in one that cannot be bounded. -/
inductive Demand where
  | count (item : String) (n : Int64)
  /-- A quantity set by a setting with this largest value. -/
  | bySetting (item setting : String) (max : Option Int64)
  | byRef (item : String) (ref : Reference)

namespace Demand

/-- The item and the quantity that count. -/
def counted? : Demand → Option (String × Int64)
  | .count item n => some (item, n)
  | .bySetting item _ max => some (item, max.getD unboundedCount)
  | .byRef _ _ => none

/-- What is to be said about a quantity without a bound. -/
def problem? : Demand → Option Problem
  | .bySetting item setting none => some (.missingSettingMax setting item)
  | .byRef item ref => some (.dynamicCount item ref)
  | _ => none

end Demand

/-- The largest of the numbers, or one if there are none. -/
def largestOrOne : List Int64 → Int64
  | [] => 1
  | n :: ns => ns.foldl (fun m n => if m < n then n else m) n

/-- The mentions of items in a node itself, its children apart. -/
def Expr.demands (catalog : Catalog) : Expr → List Demand
  | .hasItem item => [.count item 1]
  | .hasLiteralItem item => [.count item 1]
  | .items names => names.map (Demand.count · 1)
  | .refInSet _ (.items names) => names.map (Demand.count · 1)
  | .refEq _ _ (.item item) => [.count item 1]
  | .itemAtLeast item (.count n) => [.count item n]
  | .itemAtLeast item (.setting s) =>
    [.bySetting item s (catalog.settings.find? s >>= SettingDecl.max)]
  | .itemAtLeast item (.ref r) => [.byRef item r]
  | .perItem item cases _ => [.count item (largestOrOne (cases.map (·.1)))]
  | _ => []

namespace Workspace

/-- What is to be said about an item that is not declared. -/
def unknownItem (r : Rule) (item : String) : Event :=
  .problem r.name (if r.category = .objective then .undeclaredGoal item else .unknownItem item)

/-- A census after the mentions in a rule. -/
def countRule (w : Workspace) (c : ItemCensus) (r : Rule) : ItemCensus × List Event :=
  let demands := r.body.nodes.flatMap (Expr.demands w.catalog)
  let unbounded := (demands.filterMap Demand.problem?).map (Event.problem r.name)
  let counted := demands.filterMap Demand.counted?
  let unknown := (counted.filter fun (item, _) => !w.catalog.items.contains item).map (·.1)
  let known := counted.filter fun (item, _) => w.catalog.items.contains item
  (known.foldl (fun c (item, n) => ItemCensus.record c item n) c,
    unbounded ++ unknown.eraseDups.map (unknownItem r))

/-- The census of all rules. -/
def countItems (w : Workspace) : ItemCensus × List Event :=
  let (c, events) := accumulate w.countRule ∅ w.corpus.rules.values
  (c, events ++ [.debug ("item census found " ++ toString c.size ++ " items")])

end Workspace

end AccessRules
