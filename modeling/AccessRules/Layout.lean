import AccessRules.Catalog.Format
import AccessRules.Census.Items
import AccessRules.Json.Writer

set_option autoImplicit false

/-! # The layout of boolean state

Boolean context variables, boolean settings and items that are never needed in quantity each take
one bit. Bits are packed in order into groups of 32; the last group is only as wide as it has to be,
with at least 8 bits. -/

namespace AccessRules

/-- A thing that takes a bit, and whether it starts out set. -/
structure FlagEntry where
  name : String
  defaultOn : Bool
  deriving DecidableEq

structure FlagGroup where
  /-- The number of bits. -/
  capacity : Nat
  /-- The names of the bits from the lowest up. -/
  members : List String
  defaultsOn : List String
  deriving DecidableEq

structure FlagLayout where
  groups : List FlagGroup := []
  /-- The number of the group of each name, counted from one. -/
  index : NameMap Nat := ∅

/-- The number of bits in every group but the last. -/
def groupWidth : Nat := 32

namespace FlagGroup

/-- The bit of a member's position. Bits are kept in a word of 64, where positions wrap around. -/
def positionBit (i : Nat) : Nat :=
  Nat.pow 2 (i % 64)

/-- The initial value of the bits. -/
def defaultBits (g : FlagGroup) : Nat :=
  (g.members.mapIdx fun i m => if g.defaultsOn.contains m then positionBit i else 0).foldr
    (· ||| ·) 0

/-- The type of the bits in generated code. -/
def repr (g : FlagGroup) : String :=
  if g.capacity ≤ 8 then "u8" else if g.capacity ≤ 16 then "u16"
  else if g.capacity ≤ 32 then "u32" else "u64"

/-- The width for a number of members up to a full group: 8, 16 or 32. -/
def widthFor (members : Nat) : Nat :=
  if members ≤ 8 then 8 else if members ≤ 16 then 16 else groupWidth

def ofEntries (entries : List FlagEntry) : FlagGroup where
  capacity := widthFor entries.length
  members := entries.map (·.name)
  defaultsOn := (entries.filter (·.defaultOn)).map (·.name)

def toJson (g : FlagGroup) : Json :=
  .obj [("capacity", .num (.int g.capacity)), ("members", textsJson g.members),
    ("defaults_on", textsJson g.defaultsOn)]

end FlagGroup

namespace FlagLayout

/-- The entries cut into full groups and a rest. -/
def chunks (entries : List FlagEntry) : List (List FlagEntry) :=
  (List.range ((entries.length + groupWidth - 1) / groupWidth)).map fun i =>
    (entries.drop (groupWidth * i)).take groupWidth

/-- The layout of entries in order. -/
def pack (entries : List FlagEntry) : FlagLayout where
  groups := (chunks entries).map FlagGroup.ofEntries
  index := NameMap.ofList
    ((chunks entries).mapIdx fun i chunk => chunk.map fun e => (e.name, i + 1)).flatten

/-- The number of the group of a name, or zero if it has none. -/
def groupOf (l : FlagLayout) (name : String) : Nat :=
  (l.index.find? name).getD 0

/-- The group and the bit of a name. -/
def bit? (l : FlagLayout) (name : String) : Option (Nat × Nat) := do
  let group ← l.index.find? name
  if group = 0 then none
  else
    let g ← l.groups[group - 1]?
    let bit ← g.members.findIdx? (· == name)
    return (group, bit)

/-- The number of names. -/
def size (l : FlagLayout) : Nat :=
  l.index.size

def toJson (l : FlagLayout) : Json :=
  .obj [("groups", .arr (l.groups.map FlagGroup.toJson)),
    ("index", mapJson (fun (n : Nat) => .num (.int n)) l.index)]

/-- The written form of the layout. -/
def text (l : FlagLayout) : String :=
  l.toJson.pretty

end FlagLayout

/-! ## Reading a layout -/

def FlagGroup.ofWritten? (d : Dialect) (w : Written) : Option FlagGroup := do
  let fields ← w.fields? d ["capacity", "members", "defaults_on"]
  return {
    capacity := ← fields.lookup "capacity" >>= Written.nat?
    members := ← fields.lookup "members" >>= Written.list? (Written.text? d)
    defaultsOn := ← fields.lookup "defaults_on" >>= Written.list? (Written.text? d) }

def FlagLayout.ofWritten? (d : Dialect) (w : Written) : Option FlagLayout := do
  let fields ← w.fields? d ["groups", "index"]
  return {
    groups := ← fields.lookup "groups" >>= Written.list? (FlagGroup.ofWritten? d)
    index := ← fields.lookup "index" >>= Written.map? Written.nat? }

/-! ## What is packed -/

/-- Whether the declared default of a variable is true. -/
def ContextVar.startsOn (v : ContextVar) : Bool :=
  match v.declaredDefault with
  | some (.bool b) => b
  | _ => false

/-- The things that take a bit: boolean context variables in the order of the table, then boolean
    settings and items that are never needed in quantity, each by name. -/
def flagEntries (contexts : ContextTable) (catalog : Catalog) (census : ItemCensus) :
    List FlagEntry :=
  let vars := (contexts.values.filter fun v => v.kind = some .bool).map fun v =>
    FlagEntry.mk v.name v.startsOn
  let flags := catalog.settings.entries.filter fun (_, d) => d.type = .bool
  let settings := flags.map fun (name, _) => FlagEntry.mk name false
  vars ++ settings ++ (ItemCensus.booleanItems census).map (FlagEntry.mk · false)

end AccessRules
