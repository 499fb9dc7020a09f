import AccessRules.Catalog.Format

set_option autoImplicit false

/-! # Accessors of context variables

How generated code reads and writes a context variable: by a method of the player state named after
the variable, unless a table gives another accessor. -/

namespace AccessRules

structure AccessorTable where
  /-- Expressions that read a variable. -/
  getters : NameMap String := ∅
  /-- Functions that write a variable. -/
  setters : NameMap String := ∅

namespace AccessorTable

/-- Code that reads the variable with a path. -/
def getter (t : AccessorTable) (path : String) : String :=
  (t.getters.find? path).getD ("ctx." ++ Text.identifierSafe path ++ "()")

/-- Code that writes a value to the variable with a path. -/
def setter (t : AccessorTable) (path value : String) : String :=
  (t.setters.find? path).getD ("ctx.set_" ++ Text.identifierSafe path) ++ "(" ++ value ++ ")"

def ofWritten? (d : Dialect) (w : Written) : Option AccessorTable := do
  let fields ← w.fields? d ["getters", "setters"]
  return {
    getters := ← Written.field? fields "getters" (Written.map? (Written.text? d)) ∅
    setters := ← Written.field? fields "setters" (Written.map? (Written.text? d)) ∅ }

def toJson (t : AccessorTable) : Json :=
  .obj [("getters", mapJson .str t.getters), ("setters", mapJson .str t.setters)]

end AccessorTable

end AccessRules
