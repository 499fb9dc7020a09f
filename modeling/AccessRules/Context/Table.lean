import AccessRules.Catalog.Basic
import AccessRules.Diagnostic

set_option autoImplicit false

/-! # The table of context variables

What is known of each context variable: its kind, its bounds, its default, the values it takes and
the rules that assign it. A catalog gives the table its first entries; each `Use` of a variable in a
rule adds to it. Declared variables come first in their order of declaration, others follow in the
order in which they are first mentioned.

The first kind that a variable shows is kept. A use that does not agree with it is reported. -/

namespace AccessRules

structure ContextVar where
  name : String
  kind : Option ContextKind := none
  min : Option Int64 := none
  max : Option Int64 := none
  /-- The declared default, or else the first literal that a rule assigns. -/
  default : Option Literal := none
  declaredDefault : Option Literal := none
  /-- The strings that the variable is assigned, and its declared one. -/
  values : NameSet := ∅
  /-- The rules that assign each value, in order of their first assignment. -/
  valueSetters : NameMap (List String) := ∅
  /-- The rules that assign from each variable, in order of their first assignment. -/
  varSetters : NameMap (List String) := ∅
  declared : Bool := false

/-- The narrowest integer type of generated code that holds the range. -/
def integerType (min max : Int) : String :=
  if 0 ≤ min then
    if max ≤ 255 then "u8" else if max ≤ 65535 then "u16" else if max ≤ 4294967295 then "u32"
    else "i64"
  else if -128 ≤ min && max ≤ 127 then "i8"
  else if -32768 ≤ min && max ≤ 32767 then "i16"
  else if -2147483648 ≤ min && max ≤ 2147483647 then "i32"
  else "i64"

/-- A bound of a range, moved to take in `n`: of two integers, `outer` gives the one farther out. -/
def widenBound (outer : Int64 → Int64 → Int64) (bound : Option Int64) (n : Int64) : Option Int64 :=
  some (bound.elim n fun m => outer m n)

namespace ContextVar

/-- The type of the variable in generated code. -/
def repr (v : ContextVar) : String :=
  let integer := match v.max with
    | some max => integerType ((v.min.map Int64.toInt).getD 0) max.toInt
    | none => "i32"
  match v.kind with
  | some .bool => "bool"
  | some .float => "f32"
  | some (.enum name) => "enums::" ++ name
  | some (.place kind) => kind.idType
  | some .int => integer
  | none => integer

/-- The variable with a range that includes `n`. -/
def widen (v : ContextVar) (n : Int64) : ContextVar :=
  { v with min := widenBound Min.min v.min n, max := widenBound Max.max v.max n }

/-- The list with `rule` at its end unless it holds it. -/
def addOnce (rule : String) (rules : List String) : List String :=
  if rules.contains rule then rules else rules ++ [rule]

def addValueSetter (v : ContextVar) (key rule : String) : ContextVar :=
  { v with valueSetters := v.valueSetters.alter key fun rules => addOnce rule (rules.getD []) }

def addVarSetter (v : ContextVar) (source rule : String) : ContextVar :=
  { v with varSetters := v.varSetters.alter source fun rules => addOnce rule (rules.getD []) }

/-- The text under which an assigned literal is listed. -/
def setterKey : Literal → String
  | .str s => s
  | .place p => p
  | lit => lit.text

/-- The variable after a rule assigns a literal, its kind apart. -/
def takeLiteral (v : ContextVar) (lit : Literal) (rule : String) : ContextVar :=
  let v := match lit with
    | .int n => v.widen n
    | .str s => { v with values := NameSet.add v.values s }
    | _ => v
  ({ v with default := v.default <|> some lit }).addValueSetter (setterKey lit) rule

/-- A declared default, read as a place where the kind of the variable is a place. -/
def settleDefault (kind : Option ContextKind) (default : Option Literal) : Option Literal :=
  match kind, default with
  | some (.place _), some (.str s) => some (.place s)
  | _, default => default

/-- The variable of a declaration. Without a declared type the default shows its kind. -/
def ofDecl (name : String) (decl : ContextDecl) : ContextVar × List Event :=
  let literal := decl.default.bind Literal.ofJson?
  let kind := match decl.type with
    | some type => ContextKind.ofDecl? type name
    | none => literal.bind fun lit => ContextKind.ofLiteral? lit name
  let default := settleDefault kind literal
  let values := match kind, default with
    | some (.enum _), some (.str s) => NameSet.add ∅ s
    | _, _ => ∅
  let events := match decl.type, kind with
    | some type, none => [Event.problem name (.unknownType type)]
    | _, _ => []
  ({ name, kind, min := decl.min, max := decl.max, default, declaredDefault := default, values,
     declared := true }, events)

end ContextVar

/-- How a rule uses context variables. -/
inductive Use where
  | mention (var : String)
  /-- A variable stands where only a value of a kind fits. -/
  | shows (var : String) (kind : ContextKind)
  | assign (var : String) (lit : Literal)
  /-- A variable is assigned from another one. -/
  | copy (var source : String)
  | swap (first second : String)

abbrev ContextTable := Roster ContextVar

namespace ContextTable

/-- The table of the declared variables. -/
def ofCatalog (c : Catalog) : ContextTable × List Event :=
  accumulate (fun (t : ContextTable) (name, decl) =>
    let (v, events) := ContextVar.ofDecl name decl
    (t.insert name v, events)) ∅ c.context.entries

/-- The table with one variable changed; one that is not there yet is entered first. -/
def modify (t : ContextTable) (var : String) (f : ContextVar → ContextVar) : ContextTable :=
  t.insert var (f ((t.find? var).getD { name := var }))

def kind? (t : ContextTable) (var : String) : Option ContextKind :=
  t.find? var >>= ContextVar.kind

/-- A variable shows a kind in a rule. -/
def observe (t : ContextTable) (rule var : String) (kind : ContextKind) :
    ContextTable × List Event :=
  match t.kind? var with
  | none => (t.modify var fun v => { v with kind := some kind }, [])
  | some known =>
    (t, if known.accepts kind then [] else [.problem rule (.kindConflict var known kind)])

/-- Two variables hold each other's values: one kind unknown becomes the other, and two known
    kinds must agree, enumerations apart. -/
def unify (t : ContextTable) (rule a b : String) : ContextTable × List Event :=
  match t.kind? a, t.kind? b with
  | some (.enum _), some (.enum _) => (t, [])
  | some ka, some kb =>
    (t, if ka.accepts kb then [] else [.problem rule (.copyConflict a ka b kb)])
  | some ka, none => (t.modify b fun v => { v with kind := some ka }, [])
  | none, some kb => (t.modify a fun v => { v with kind := some kb }, [])
  | none, none => (t, [])

/-- The table after a rule uses a variable. -/
def record (rule : String) (t : ContextTable) : Use → ContextTable × List Event
  | .mention var => (t.modify var id, [])
  | .shows var kind => t.observe rule var kind
  | .assign var lit =>
    let (t, events) := match ContextKind.ofLiteral? lit var with
      | some kind => t.observe rule var kind
      | none => (t, [])
    (t.modify var fun v => v.takeLiteral lit rule, events)
  | .copy var source =>
    let (t, events) := t.unify rule var source
    (t.modify var fun v => v.addVarSetter source rule, events)
  | .swap a b =>
    let (t, events) := t.unify rule a b
    ((t.modify a fun v => v.addVarSetter b rule).modify b fun v => v.addVarSetter a rule, events)

end ContextTable

end AccessRules
