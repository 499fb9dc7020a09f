import AccessRules.Grammar.ActionBody
import AccessRules.Proofs.Expr.Nodes
import AccessRules.Proofs.Token.Lexeme

set_option autoImplicit false

/-! # The grammar as a relation

`Grammar.Derives` says which trees a level of the grammar of requirements gives, with one rule for
each production, and `Grammar.DerivesAction` does so for action bodies. Nothing in them speaks of
tokens: how a tree was spelled is left out, what is kept is which trees can stand where. -/

namespace AccessRules

/-! ## Parts of expressions -/

def Qualifier.WellFormed : Qualifier → Prop
  | .ref name => IsName name
  | .place path => IsPath path

structure Reference.WellFormed (r : Reference) : Prop where
  name : IsName r.name
  qualifier : ∀ q ∈ r.qualifier, q.WellFormed

def Threshold.WellFormed : Threshold → Prop
  | .count _ => True
  | .setting name => IsName name ∧ Grammar.isItemName name = false
  | .ref r => r.WellFormed

def Literal.WellFormed : Literal → Prop
  | .place path => IsPath path
  | _ => True

def Literal.NoFloat : Literal → Prop
  | .float _ => False
  | _ => True

/-- A set without members is one of items. -/
def Members.WellFormed : Members → Prop
  | .items names => ∀ name ∈ names, IsName name
  | .strs texts => texts ≠ []
  | .places paths => paths ≠ [] ∧ ∀ path ∈ paths, IsPath path

def PlaceArg.WellFormed : PlaceArg → Prop
  | .ref r => r.WellFormed
  | .literal path => IsPath path

namespace Grammar

/-! ## Expressions -/

/-- The levels of binding, from the tightest to the loosest. -/
inductive Level where
  | atom | product | sum | comparison | negation | conjunction | disjunction
  | whole (position : Position)

/-- The expression is one that the grammar gives at the level; `F` says whether floats may
    stand in it. -/
inductive Derives (F : Prop) : Level → Expr → Prop
  | bool (b : Bool) : Derives F .atom (.bool b)
  | int (n : Int64) : Derives F .atom (.int n)
  | float (hfloats : F) (x : Float) : Derives F .atom (.float x)
  | str (s : String) : Derives F .atom (.str s)
  | place {path : String} (hpath : IsPath path) : Derives F .atom (.place path)
  | ref {r : Reference} (hr : r.WellFormed) : Derives F .atom (.ref r)
  | const {name : String} (hname : IsName name) (hconst : isConstName name = true) :
      Derives F .atom (.const name)
  | hasItem {name : String} (hname : IsName name) (hconst : isConstName name = false)
      (hitem : isItemName name = true) : Derives F .atom (.hasItem name)
  | setting {name : String} (hname : IsName name) (hitem : isItemName name = false) :
      Derives F .atom (.setting name)
  | itemAtLeast {item : String} {t : Threshold} (hitem : IsName item) (ht : t.WellFormed) :
      Derives F .atom (.itemAtLeast item t)
  | hasArgItem {r : Reference} (hr : r.WellFormed) : Derives F .atom (.hasArgItem r)
  | within {p : PlaceArg} (hp : p.WellFormed) : Derives F .atom (.within p false)
  | items {names : List String} (hnames : ∀ name ∈ names, IsName name)
      (hitems : ∀ name ∈ names, isItemName name = true) : Derives F .atom (.items names)
  | paren {e : Expr} (he : Derives F (.whole .value) e) : Derives F .atom (.paren e)
  | call {func : String} {args : List Expr} (hfunc : IsName func)
      (hargs : ∀ a ∈ args, Derives F (.whole .value) a) : Derives F .atom (.call func args)
  | ifThenElse {arms : List (Expr × Expr)} {otherwise : Option Expr} (hne : arms ≠ [])
      (hconds : ∀ a ∈ arms, Derives F (.whole .truth) a.1)
      (hbranches : ∀ a ∈ arms, Derives F (.whole .value) a.2)
      (hotherwise : ∀ o ∈ otherwise, Derives F (.whole .value) o) :
      Derives F .atom (.ifThenElse (arms.map (·.1)) (arms.map (·.2)) otherwise)
  | perItem {item : String} {cases : List (Int64 × Expr)} {d : Expr} (hname : IsName item)
      (hitem : isItemName item = true) (hcases : ∀ c ∈ cases, Derives F (.whole .value) c.2)
      (hd : Derives F (.whole .value) d) : Derives F .atom (.perItem item cases d)
  | perSetting {setting : String} {cases : List (Literal × Expr)} {d : Expr}
      (hname : IsName setting) (hitem : isItemName setting = false)
      (hkeys : ∀ c ∈ cases, c.1.WellFormed ∧ (F ∨ c.1.NoFloat))
      (hcases : ∀ c ∈ cases, Derives F (.whole .value) c.2)
      (hd : Derives F (.whole .value) d) : Derives F .atom (.perSetting setting cases d)
  | ofAtom {e : Expr} (he : Derives F .atom e) : Derives F .product e
  | product {l r : Expr} {op : ArithOp} (hl : Derives F .product l) (hop : op = .mul ∨ op = .div)
      (hr : Derives F .atom r) : Derives F .product (.binOp l op r)
  | ofProduct {e : Expr} (he : Derives F .product e) : Derives F .sum e
  | sum {l r : Expr} {op : ArithOp} (hl : Derives F .sum l) (hop : op = .add ∨ op = .sub)
      (hr : Derives F .product r) : Derives F .sum (.binOp l op r)
  | ofSum {e : Expr} (he : Derives F .sum e) : Derives F .comparison e
  | compared {l r : Expr} (hl : Derives F .sum l) (op : CmpOp) (hr : Derives F .sum r) :
      Derives F .comparison (compared l op r)
  | flagMatch {e : Expr} (he : Derives F .sum e) (mask : Int64) :
      Derives F .comparison (.flagMatch e mask)
  | refInSet {r : Reference} {ms : Members} (hr : r.WellFormed) (hms : ms.WellFormed) :
      Derives F .comparison (.refInSet r ms)
  | ofComparison {e : Expr} (he : Derives F .comparison e) : Derives F .negation e
  | negation {e : Expr} (he : Derives F .negation e) : Derives F .negation e.negate
  | ofNegation {e : Expr} (he : Derives F .negation e) : Derives F .conjunction e
  | conjunction {l r : Expr} (hl : Derives F .conjunction l) (hr : Derives F .negation r) :
      Derives F .conjunction (.and l.asPredicate r.asPredicate)
  | ofConjunction {e : Expr} (he : Derives F .conjunction e) : Derives F .disjunction e
  | disjunction {l r : Expr} (hl : Derives F .disjunction l) (hr : Derives F .conjunction r) :
      Derives F .disjunction (.or l.asPredicate r.asPredicate)
  | value {e : Expr} (he : Derives F .disjunction e) : Derives F (.whole .value) e
  | truth {e : Expr} (he : Derives F .disjunction e) : Derives F (.whole .truth) e.asPredicate
  | ternary {position : Position} {c y n : Expr} (hc : Derives F .disjunction c)
      (hy : Derives F (.whole position) y) (hn : Derives F (.whole position) n) :
      Derives F (.whole position) (.ternary c.asPredicate y n)

/-! ## Actions -/

/-- A single action, or a block of them. -/
inductive Extent where
  | step | block

/-- The action is one that the grammar gives as a step or as a block, with or without floats. -/
inductive DerivesAction (F : Prop) : Extent → Action → Prop
  | set {target : Reference} {value : Expr} (ht : target.WellFormed)
      (hv : Derives F (.whole .value) value) : DerivesAction F .step (.set target value)
  | alter {target : Reference} {delta : Expr} (ht : target.WellFormed) (op : ArithOp)
      (hd : Derives F (.whole .value) delta) : DerivesAction F .step (.alter target op delta)
  | swap {first second : Reference} (hfirst : first.WellFormed) (hsecond : second.WellFormed) :
      DerivesAction F .step (.swap first second)
  | cond {arms : List (Expr × Action)} {otherwise : Option Action} (hne : arms ≠ [])
      (hconds : ∀ a ∈ arms, Derives F (.whole .truth) a.1)
      (hbranches : ∀ a ∈ arms, DerivesAction F .block a.2)
      (hotherwise : ∀ o ∈ otherwise, DerivesAction F .block o) :
      DerivesAction F .step (.cond (arms.map (·.1)) (arms.map (·.2)) otherwise)
  | call {func : String} {args : List Expr} (hfunc : IsName func)
      (hargs : ∀ a ∈ args, Derives F (.whole .value) a) : DerivesAction F .step (.call func args)
  | single {a : Action} (ha : DerivesAction F .step a) : DerivesAction F .block a
  | sequence {steps : List Action} (hlen : 2 ≤ steps.length)
      (hsteps : ∀ a ∈ steps, DerivesAction F .step a) : DerivesAction F .block (.sequence steps)

namespace DerivesAction

variable {F : Prop} {x : Extent} {a b : Action}

theorem of_mem_parts (h : DerivesAction F x a) (hb : b ∈ a.parts) :
    ∃ y, DerivesAction F y b := by
  induction h with
  | cond _ _ hbranches hotherwise _ _ =>
      rcases List.mem_append.1 hb with hb | hb
      · obtain ⟨arm, harm, rfl⟩ := List.mem_map.1 hb
        exact ⟨_, hbranches arm harm⟩
      · exact ⟨_, hotherwise b (Option.mem_toList.1 hb)⟩
  | single _ ih => exact ih hb
  | sequence _ hsteps _ => exact ⟨_, hsteps b hb⟩
  | _ => exact absurd hb List.not_mem_nil

/-- Whatever stands in an action of the grammar is an action of the grammar. -/
theorem of_part (h : DerivesAction F x a) (hb : b.Part a) : ∃ y, DerivesAction F y b := by
  induction hb generalizing x with
  | here => exact ⟨x, h⟩
  | inside hc _ ih =>
      obtain ⟨y, hderives⟩ := h.of_mem_parts hc
      exact ih hderives

theorem held (h : DerivesAction F x a) : ∀ e ∈ a.held, ∃ L, Derives F L e := by
  induction h with
  | set _ hv => exact List.forall_mem_singleton.2 ⟨_, hv⟩
  | alter _ _ hd => exact List.forall_mem_singleton.2 ⟨_, hd⟩
  | swap _ _ => exact List.forall_mem_nil _
  | cond _ hconds _ _ _ _ => exact List.forall_mem_map.2 fun arm harm => ⟨_, hconds arm harm⟩
  | call _ hargs => exact fun e he => ⟨_, hargs e he⟩
  | single _ ih => exact ih
  | sequence _ _ _ => exact List.forall_mem_nil _

end DerivesAction

end Grammar

end AccessRules
