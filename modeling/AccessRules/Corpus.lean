import AccessRules.Collection.NameMap
import AccessRules.Expr.Shape
import AccessRules.Grammar.ActionBody
import AccessRules.Grammar.SignatureText

set_option autoImplicit false

/-! # The corpus of rules

A corpus holds rules under their qualified names and helper signatures under their own; the body of
a helper is the rule `helpers:name`. Rules and helpers are always listed in name order. A call names
a helper, a builtin function, or a rule that is not a helper, in this order of precedence. -/

namespace AccessRules

/-! ## Builtin functions -/

structure Builtin where
  name : String
  arity : Nat
  /-- What is called in generated code. -/
  target : String
  /-- Whether the player state is passed before the arguments. -/
  threadsState : Bool := false
  /-- The type of the result, if it is always the same. -/
  returns : Option ArgType := none

def builtins : List Builtin := [
  { name := "default", arity := 0, target := "Default::default" },
  { name := "get_area", arity := 1, target := "get_area", returns := some (.place .area) },
  { name := "get_region", arity := 1, target := "get_region", returns := some (.place .region) },
  { name := "max", arity := 2, target := "std::cmp::max", returns := some .int },
  { name := "min", arity := 2, target := "std::cmp::min", returns := some .int },
  { name := "visited", arity := 1, target := "visited", threadsState := true,
    returns := some .bool }]

def builtin? (name : String) : Option Builtin :=
  builtins.find? fun b => b.name == name

/-! ## Rules -/

inductive RuleCategory where
  | helper | objective | rule
  deriving DecidableEq

structure Rule where
  /-- The qualified name: a namespace, a colon, and a name within it. -/
  name : String
  body : Body
  /-- Short names for context variables. -/
  locals : NameMap String := ∅
  /-- The spot that the rule is attached to. -/
  spot : Option String := none

namespace Rule

def objectiveNamespace : String := "objectives"

/-- The text before the first colon and the text after it. -/
def splitName? (name : String) : Option (String × String) :=
  let cs := name.toList
  if cs.contains ':' then
    some (String.ofList (cs.takeWhile (· != ':')), String.ofList ((cs.dropWhile (· != ':')).drop 1))
  else none

/-- The namespace of the rule; empty for a name without a colon. -/
def namespaceName (r : Rule) : String :=
  ((splitName? r.name).map (·.1)).getD ""

/-- The name within the namespace. -/
def shortName (r : Rule) : String :=
  ((splitName? r.name).map (·.2)).getD r.name

def category (r : Rule) : RuleCategory :=
  if r.namespaceName = Signature.helperNamespace then .helper
  else if r.namespaceName = objectiveNamespace then .objective
  else .rule

def isHelper (r : Rule) : Bool :=
  r.category = .helper

end Rule

/-! ## The corpus -/

/-- What a call refers to. -/
inductive Callee where
  | helper (s : Signature)
  | builtin (b : Builtin)
  | rule (r : Rule)
  | unknown

inductive CorpusError where
  | parse (e : ParseError)
  | duplicateRule (name : String)
  | duplicateHelper (name : String)

def CorpusError.message : CorpusError → String
  | .parse e => e.message
  | .duplicateRule name => "duplicate rule " ++ name
  | .duplicateHelper name => "duplicate helper $" ++ name

structure Corpus where
  rules : NameMap Rule := ∅
  helpers : NameMap Signature := ∅

namespace Corpus

/-- The corpus with a rule added under its name, which must be new. -/
def addRule (c : Corpus) (r : Rule) : Except CorpusError Corpus :=
  if c.rules.contains r.name then .error (.duplicateRule r.name)
  else .ok { c with rules := c.rules.insert r.name r }

/-- The corpus with a helper added from the text of its signature and its body. -/
def addHelper (c : Corpus) (signature : String) (body : Body) : Except CorpusError Corpus := do
  let s ← (parseSignature signature).mapError .parse
  if c.helpers.contains s.name then throw (.duplicateHelper s.name)
  let c ← c.addRule { name := s.ruleName, body }
  return { c with helpers := c.helpers.insert s.name s }

/-- The body that a text stands for: a requirement, or an action body. -/
def parseBody (file text : String) (isAction : Bool) : Except CorpusError Body :=
  if isAction then ((parseActions file text).map Body.actions).mapError .parse
  else ((parseRequirement file text).map Body.requirement).mapError .parse

/-- The corpus with a helper added from two texts. The body is read first, and reported under the
    text of the signature. -/
def parseHelper (c : Corpus) (signature text : String) (isAction : Bool) :
    Except CorpusError Corpus := do
  let body ← parseBody signature text isAction
  c.addHelper signature body

/-- The signature of the helper whose body is the rule. -/
def helperOf? (c : Corpus) (r : Rule) : Option Signature :=
  if r.isHelper then c.helpers.find? r.shortName else none

/-- Whether a name is a parameter of the helper whose body is the rule. -/
def isParam (c : Corpus) (r : Rule) (name : String) : Bool :=
  (c.helperOf? r).any fun s => s.hasParam name

/-- What a call of `func` refers to. -/
def resolve (c : Corpus) (func : String) : Callee :=
  match c.helpers.find? func with
  | some s => .helper s
  | none =>
    match builtin? func with
    | some b => .builtin b
    | none =>
      match c.rules.values.find? fun r => !r.isHelper && r.shortName == func with
      | some r => .rule r
      | none => .unknown

end Corpus

end AccessRules
