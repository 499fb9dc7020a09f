import AccessRules.Context.Uses

set_option autoImplicit false

/-! # The types of helper parameters

A parameter without a declared type takes the type of the first argument passed for it whose type
can be determined; rules are read in name order. A later argument of another type is reported, and a
type once known is never revised. Calls are also checked for the number of their arguments and for
the existence of what they call. -/

namespace AccessRules

/-- A type, and the rule whose call fixed it. -/
structure ParamType where
  type : ArgType
  site : String
  deriving DecidableEq

/-- The site of a type that the signature declares. -/
def declaredSite : String := "its declaration"

/-- The types of the parameters of each helper. -/
abbrev HelperTypes := NameMap (List (Option ParamType))

namespace HelperTypes

def param? (t : HelperTypes) (helper : String) (index : Nat) : Option ParamType :=
  t.find? helper >>= fun slots => (slots[index]?).join

/-- The declared types of the parameters. -/
def ofCorpus (c : Corpus) : HelperTypes :=
  NameMap.ofList (c.helpers.entries.map fun (name, s) =>
    (name, s.params.map fun p => p.type.map fun type => ⟨type, declaredSite⟩))

/-- The types with one parameter fixed. -/
def fix (t : HelperTypes) (helper : String) (index : Nat) (type : ParamType) : HelperTypes :=
  t.alter helper fun slots => (slots.getD []).set index (some type)

end HelperTypes

/-- A call in a rule. -/
structure CallSite where
  func : String
  args : List Expr

def Action.callSite? : Action → Option CallSite
  | .call func args => some ⟨func, args⟩
  | _ => none

def Expr.callSite? : Expr → Option CallSite
  | .invoke func args _ => some ⟨func, args⟩
  | .call func args => some ⟨func, args⟩
  | _ => none

/-- The calls of a rule: those that are actions first, then those in expressions. -/
def Body.calls (b : Body) : List CallSite :=
  b.actionNodes.filterMap Action.callSite? ++ b.nodes.filterMap Expr.callSite?

/-- The type of the arguments that hold a kind of context variable. -/
def ContextKind.argType : ContextKind → ArgType
  | .bool => .bool
  | .int => .int
  | .float => .float
  | .enum _ => .str
  | .place kind => .place kind

def SettingType.argType : SettingType → ArgType
  | .bool => .bool
  | .int => .int
  | .float => .float
  | .enum => .str
  | .str => .str

/-- The type of a datum. A string divided like a path is a place if it is not too deep. -/
def dataType? : Json → Option ArgType
  | .bool _ => some .bool
  | .num n => some (if n.word?.isSome then .int else .float)
  | .str s => some (if looksLikePlace s then ((Place.kind? s).map .place).getD .str else .str)
  | _ => none

namespace Workspace

/-- The type of an unqualified reference in a rule. A helper that hands on its own parameter hands
    on the type of that parameter. -/
def refType? (w : Workspace) (contexts : ContextTable) (types : HelperTypes) (r : Rule)
    (name : String) : Option ArgType :=
  match (w.corpus.helperOf? r).bind fun s => (s.paramIndex? name).map (s.name, ·) with
  | some (helper, index) => (types.param? helper index).map (·.type)
  | none => do
    let path ← r.resolve? w.catalog name
    match contexts.kind? path with
    | some kind => some kind.argType
    | none => w.catalog.data.find? path >>= dataType?

/-- The type of an argument, if it can be determined. -/
def argType? (w : Workspace) (contexts : ContextTable) (types : HelperTypes) (r : Rule) :
    Expr → Option ArgType
  | .hasItem _ => some .item
  | .hasLiteralItem _ => some .item
  | .items _ => some .items
  | .str _ => some .str
  | .int _ => some .int
  | .const _ => some .int
  | .binOp _ _ _ => some .int
  | .float _ => some .float
  | .place path => (Place.kind? path).map .place
  | .paren inner => argType? w contexts types r inner
  | .ref ref => if ref.qualifier.isNone then w.refType? contexts types r ref.name else none
  | .setting s => (w.catalog.settings.find? s).map fun d => d.type.argType
  | .call func _ =>
    match w.corpus.resolve func with
    | .builtin b => b.returns
    | _ => none
  | .ifThenElse _ _ _ => none
  | .ternary _ _ _ => none
  | .perItem _ _ _ => none
  | .perSetting _ _ _ => none
  | _ => some .bool

/-- What is to be said about an argument whose type is not that of the parameter. -/
def argumentProblem (helper : String) (index : Nat) (param : String) (known : ParamType)
    (used : ArgType) (arg : Expr) : Problem :=
  match known.type, used, arg with
  | .place want, .place got, .place path =>
    .placeDepth helper index param want known.site got path
  | type, used, _ => .paramConflict helper index param type known.site used

/-- The types after an argument of a type is passed for a parameter. A place literal below a spot
    is never right. -/
def passArgument (r : Rule) (s : Signature) (index : Nat) (param : String) (arg : Expr)
    (used : ArgType) (types : HelperTypes) : HelperTypes × List Event :=
  match arg, used with
  | .place path, .place .leaf => (types, [.problem r.name (.leafArgument s.name index param path)])
  | _, _ =>
    match types.param? s.name index with
    | none => (types.fix s.name index ⟨used, r.name⟩, [])
    | some known =>
      (types, if known.type = used then []
        else [.problem r.name (argumentProblem s.name index param known used arg)])

/-- The types after the arguments of a call of a helper. -/
def passArguments (w : Workspace) (contexts : ContextTable) (r : Rule) (s : Signature)
    (types : HelperTypes) (args : List Expr) : HelperTypes × List Event :=
  accumulate (fun types ((index, param), arg) =>
    match w.argType? contexts types r arg with
    | some used => passArgument r s index param.name arg used types
    | none => (types, [])) types ((List.range s.params.length).zip s.params |>.zip args)

/-- The types after a call in a rule. A call with the wrong number of arguments shows no types. -/
def checkCall (w : Workspace) (contexts : ContextTable) (r : Rule) (types : HelperTypes)
    (call : CallSite) : HelperTypes × List Event :=
  let passed := call.args.length
  let problem (p : Problem) : HelperTypes × List Event := (types, [.problem r.name p])
  match w.corpus.resolve call.func with
  | .unknown => problem (.unknownFunction call.func)
  | .rule _ => (types, [])
  | .builtin b =>
    if b.arity = passed then (types, []) else problem (.builtinArity call.func b.arity passed)
  | .helper s =>
    if s.params.length = passed then w.passArguments contexts r s types call.args
    else problem (.helperArity s.name s.params.length passed)

/-- The types of the parameters of all helpers. -/
def helperTypes (w : Workspace) (contexts : ContextTable) : HelperTypes × List Event :=
  let (types, events) := accumulate
    (fun types r => accumulate (w.checkCall contexts r) types r.body.calls)
    (HelperTypes.ofCorpus w.corpus) w.corpus.rules.values
  (types, events ++ [.debug ("unified parameters of " ++ toString types.size ++ " helpers")])

end Workspace

end AccessRules
