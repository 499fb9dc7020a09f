import AccessRules.Proofs.Reachability.Evaluation
import Mathlib.Data.Stream.Defs

set_option autoImplicit false

/-! # Completions

What a rule comes to in an actual game. A completion decides whatever static data leaves open: a
certain value at every point where evaluation is uncertain although no operand is, and one of the
branches of every choice. Nothing is uncertain then, so connectives and conditions are two-valued, a
chain takes the first branch whose condition holds, and a helper is called with certain arguments.

`Knowledge.complete` is the value of a rule under a completion. Decisions are taken from a stream in
the order in which they are asked for, so that no two points are bound to be decided alike. -/

namespace AccessRules

/-- What is decided at one point: a certain value, and the number of a branch. -/
structure Decision where
  value : Value
  certain : value ≠ .uncertain
  branch : Nat

/-- Decisions, in the order in which they are asked for. -/
abbrev Completion := Stream' Decision

/-- Work that asks for decisions. -/
abbrev Completing (α : Type) := StateT Completion (Except Defect) α

namespace Completing

def next : Completing Decision := fun c => pure (c.head, c.tail)

/-- The value, or one that is decided on if it is uncertain. -/
def settle (v : Value) : Completing Value :=
  match v with
  | .uncertain => do return (← next).value
  | v => pure v

variable {α β : Type}

/-- Whatever is decided, the work has a result with the property. -/
def Always (m : Completing α) (P : α → Prop) : Prop :=
  ∀ c, ∃ a c', m.run c = .ok (a, c') ∧ P a

theorem always_pure {P : α → Prop} {a : α} (h : P a) : (pure a : Completing α).Always P :=
  fun c => ⟨a, c, rfl, h⟩

theorem Always.bind {P : α → Prop} {Q : β → Prop} {m : Completing α} {f : α → Completing β}
    (hm : m.Always P) (hf : ∀ a, P a → (f a).Always Q) : (m >>= f).Always Q := by
  intro c
  obtain ⟨a, c', hrun, ha⟩ := hm c
  obtain ⟨b, c'', hrun', hb⟩ := hf a ha c'
  refine ⟨b, c'', ?_, hb⟩
  rw [StateT.run_bind, hrun]
  exact hrun'

theorem Always.imp {P Q : α → Prop} {m : Completing α} (hm : m.Always P) (h : ∀ a, P a → Q a) :
    m.Always Q := by
  intro c
  obtain ⟨a, c', hrun, ha⟩ := hm c
  exact ⟨a, c', hrun, h a ha⟩

theorem always_next : next.Always fun _ => True :=
  fun c => ⟨c.head, c.tail, rfl, trivial⟩

theorem Always.run_eq {P : α → Prop} {m : Completing α} (h : m.Always P) (c : Completion) :
    ∃ a, m.run' c = .ok a ∧ P a := by
  obtain ⟨a, c', hrun, ha⟩ := h c
  refine ⟨a, ?_, ha⟩
  rw [StateT.run'_eq, hrun]
  rfl

end Completing

/-- An expression ready to be evaluated under a completion. -/
abbrev Choosing := Expect → Completing Value

/-- Whether a value counts as true. -/
def Value.holds (v : Value) : Bool :=
  v.truth? == some true

namespace Knowledge

open Completing

variable (k : Knowledge) (f : Frame)

/-! ## References and calls -/

def completeRef (r : Reference) : Completing Value :=
  match r.qualifier with
  | none => settle (k.lookupName f r.name)
  | some q =>
    match f.rule.resolve? k.catalog r.name, q with
    | none, _ => settle .uncertain
    | some path, .place p => settle (k.statics.lookup p path)
    | some path, .ref name => do
      let held ← settle (k.lookupName f name)
      settle (k.lookupVia path held)

def completeComparand : Comparand → Completing Value
  | .ref other => k.completeRef f other
  | _ => settle .uncertain

def completePlace : PlaceArg → Completing Value
  | .literal path => pure (.place path)
  | .ref r => k.completeRef f r

/-- The result of a call. A call that is not expanded is decided on as a whole. -/
def completeCall (expand : Signature → List Choosing → Choosing) (func : String)
    (args : List Choosing) : Choosing := fun expect =>
  match k.corpus.resolve func with
  | .builtin b => do
    let values ← args.mapM fun a => a .unknown
    settle (builtinValue b.name expect values)
  | .helper s => expand s args expect
  | .rule _ => settle .uncertain
  | .unknown => settle .uncertain

/-! ## Conditionals -/

/-- Whether an expression counts as true. -/
def holds (e : Choosing) : Completing Bool :=
  Value.holds <$> e .bool

/-- The first branch whose condition holds, or the last one. -/
def firstHolding (otherwise : Choosing) (expect : Expect) : List (Choosing × Choosing) →
    Completing Value
  | [] => otherwise expect
  | (cond, branch) :: arms => do
    if ← holds cond then branch expect else firstHolding otherwise expect arms

/-- A chain of conditions. Without a last branch the value that stands for none is taken. -/
def completeChain (conds branches : List Choosing) (otherwise : Option Choosing) : Choosing :=
  fun expect =>
    firstHolding (otherwise.getD fun expect => settle (defaultValue expect)) expect
      (conds.zip branches)

/-- One of several cases, or the default. -/
def completeChoice (cases : List Choosing) (default : Choosing) : Choosing := fun expect => do
  let decision ← next
  (cases[decision.branch]?.getD default) expect

/-! ## Expressions -/

mutual

/-- The value of an expression under a completion, given how helpers expand. -/
def completeExpr (k : Knowledge) (f : Frame) (expand : Signature → List Choosing → Choosing) :
    Expr → Choosing
  | .or l r => fun _ => do
    if ← holds (completeExpr k f expand l) then return .bool true
    return .bool (← holds (completeExpr k f expand r))
  | .and l r => fun _ => do
    if ← holds (completeExpr k f expand l) then
      return .bool (← holds (completeExpr k f expand r))
    return .bool false
  | .not e => fun _ => do return .bool !(← holds (completeExpr k f expand e))
  | .bool b => fun _ => pure (.bool b)
  | .paren e => completeExpr k f expand e
  | .invoke func args negated => fun expect => do
    let v ← k.completeCall expand func (completeAll k f expand args) expect
    return v.negateIf negated
  | .ifThenElse conds branches none =>
    completeChain (completeAll k f expand conds) (completeAll k f expand branches) none
  | .ifThenElse conds branches (some o) =>
    completeChain (completeAll k f expand conds) (completeAll k f expand branches)
      (some (completeExpr k f expand o))
  | .ternary c y n =>
    completeChain [completeExpr k f expand c] [completeExpr k f expand y]
      (some (completeExpr k f expand n))
  | .numCompare l op r => fun _ => do
    let a ← completeExpr k f expand l .int
    let b ← completeExpr k f expand r .int
    settle (a.compare op b)
  | .strCompare l op lit => fun _ => do
    let a ← completeExpr k f expand l (expectLike lit)
    settle (a.compare op (.ofLiteral lit))
  | .flagMatch e mask => fun _ => do
    let a ← completeExpr k f expand e .int
    settle (maskValue mask a)
  | .refEq r op rhs => fun _ => do
    let a ← k.completeRef f r
    let b ← k.completeComparand f rhs
    settle (a.compare op b)
  | .refEqCall r op e => fun _ => do
    let a ← k.completeRef f r
    let b ← completeExpr k f expand e (k.expectFor f r.name)
    settle (a.compare op b)
  | .settingFlag _ _ => fun _ => settle .uncertain
  | .argFlag r negated => fun _ => do return (← k.completeRef f r).truth.negateIf negated
  | .itemAtLeast _ _ => fun _ => settle .uncertain
  | .hasItem _ => fun _ => settle .uncertain
  | .hasLiteralItem _ => fun _ => settle .uncertain
  | .hasArgItem _ => fun _ => settle .uncertain
  | .refInSet r members => fun _ => do settle (isMember (← k.completeRef f r) members)
  | .within p negated => fun _ => do
    let place ← k.completePlace f p
    return (← settle (isWithin f place)).negateIf negated
  | .perItem _ cases d =>
    completeChoice (completeCounts k f expand cases) (completeExpr k f expand d)
  | .perSetting _ cases d =>
    completeChoice (completeOptions k f expand cases) (completeExpr k f expand d)
  | .int n => fun _ => pure (.int n)
  | .float x => fun _ => pure (.float x)
  | .str s => fun _ => pure (.str s)
  | .place p => fun _ => pure (.place p)
  | .ref r => fun _ => k.completeRef f r
  | .setting _ => fun _ => settle .uncertain
  | .const name => fun _ => settle ((k.catalog.consts.find? name).elim .uncertain Value.ofJson)
  | .binOp l op r => fun _ => do
    let a ← completeExpr k f expand l .int
    let b ← completeExpr k f expand r .int
    settle (a.arith op b)
  | .call func args => k.completeCall expand func (completeAll k f expand args)
  | .items _ => fun _ => settle .uncertain

def completeAll (k : Knowledge) (f : Frame) (expand : Signature → List Choosing → Choosing) :
    List Expr → List Choosing
  | [] => []
  | e :: es => completeExpr k f expand e :: completeAll k f expand es

def completeCounts (k : Knowledge) (f : Frame) (expand : Signature → List Choosing → Choosing) :
    List (Int64 × Expr) → List Choosing
  | [] => []
  | (_, e) :: cases => completeExpr k f expand e :: completeCounts k f expand cases

def completeOptions (k : Knowledge) (f : Frame) (expand : Signature → List Choosing → Choosing) :
    List (Literal × Expr) → List Choosing
  | [] => []
  | (_, e) :: cases => completeExpr k f expand e :: completeOptions k f expand cases

end

/-! ## Lists of expressions -/

section Lists

variable (expand : Signature → List Choosing → Choosing)

theorem completeAll_eq_map (es : List Expr) :
    completeAll k f expand es = es.map (completeExpr k f expand) := by
  induction es with
  | nil => rfl
  | cons e es ih => rw [completeAll, ih, List.map_cons]

theorem completeCounts_eq_map (cases : List (Int64 × Expr)) :
    completeCounts k f expand cases = (cases.map (·.2)).map (completeExpr k f expand) := by
  induction cases with
  | nil => rfl
  | cons c cases ih =>
      obtain ⟨n, e⟩ := c
      rw [completeCounts, ih, List.map_cons, List.map_cons]

theorem completeOptions_eq_map (cases : List (Literal × Expr)) :
    completeOptions k f expand cases = (cases.map (·.2)).map (completeExpr k f expand) := by
  induction cases with
  | nil => rfl
  | cons c cases ih =>
      obtain ⟨lit, e⟩ := c
      rw [completeOptions, ih, List.map_cons, List.map_cons]

theorem completeExpr_ifThenElse (conds branches : List Expr) (otherwise : Option Expr) :
    completeExpr k f expand (.ifThenElse conds branches otherwise)
      = completeChain (conds.map (completeExpr k f expand)) (branches.map (completeExpr k f expand))
          (otherwise.map (completeExpr k f expand)) := by
  cases otherwise <;> simp [completeExpr, completeAll_eq_map]

end Lists

/-! ## Rules -/

/-- Bind one more parameter to the value of an argument. -/
def completeBinding (bindings : NameMap Value) (bound : Param × Choosing) :
    Completing (NameMap Value) := do
  return bindings.insert bound.1.name (← bound.2 .unknown)

/-- The parameters bound to the values of arguments, one after another. -/
def completeBindings (params : List Param) (args : List Choosing) : Completing (NameMap Value) :=
  (params.zip args).foldlM completeBinding ∅

/-- How helpers expand at a spot under a completion, given how their bodies are evaluated. -/
def completeHelper (evalBody : Frame → Expr → Choosing) (spot : String) :
    Signature → List Choosing → Choosing := fun s args expect =>
  match k.corpus.rules.find? s.ruleName with
  | none => settle .uncertain
  | some r => do
    let bindings ← completeBindings s.params args
    match r.body with
    | .requirement body => evalBody ⟨r, spot, bindings⟩ body expect
    | .actions _ => settle .uncertain

/-- The value of an expression under a completion, with helpers expanded up to a depth. -/
def completeWithin (k : Knowledge) : (depth : Nat) → Frame → Expr → Choosing
  | 0, f, e => completeExpr k f (fun s _ _ => throw (.endlessHelpers f.rule.name s.name)) e
  | depth + 1, f, e => completeExpr k f (k.completeHelper (completeWithin k depth) f.spot) e

/-- The value of a rule at a spot under a completion. An action body is decided on as a whole. -/
def complete (k : Knowledge) (depth : Nat) (r : Rule) (spot : String) : Completing Value :=
  match r.body with
  | .requirement e => k.completeWithin depth { rule := r, spot } e .bool
  | .actions _ => settle .uncertain

-- Whether an item is held is decided on freely.
example (k : Knowledge) (name item spot : String) (d : Decision) (c : Completion) :
    (k.complete 0 { name, body := .requirement (.hasItem item) } spot).run' (Stream'.cons d c)
      = .ok d.value := by
  rfl

end Knowledge

end AccessRules
