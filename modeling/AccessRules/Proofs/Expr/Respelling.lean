import AccessRules.Corpus
import AccessRules.Proofs.Expr.Children

set_option autoImplicit false

/-! # Other spellings of places

`Rule.respell` writes a place in another way, at one kind of position of a rule. Nothing else
changes: neither the shape of the tree nor the names in it. -/

namespace AccessRules

/-- Where a rule can write a place. -/
inductive PlacePosition where
  /-- As a value. -/
  | value
  /-- As what a value is compared with. -/
  | comparison
  /-- Among the members of a set. -/
  | member
  /-- In a test for being within the place. -/
  | within
  /-- As the qualifier of a reference. -/
  | qualifier
  deriving DecidableEq

/-- One spelling in place of another, at one kind of position. -/
structure Respelling where
  position : PlacePosition
  old : String
  new : String

namespace Respelling

variable (ρ : Respelling)

/-- The spelling of a path at a position. -/
def path (pos : PlacePosition) (p : String) : String :=
  if ρ.position = pos ∧ p = ρ.old then ρ.new else p

def reference (r : Reference) : Reference :=
  match r.qualifier with
  | some (.place p) => { r with qualifier := some (.place (ρ.path .qualifier p)) }
  | _ => r

def literal : Literal → Literal
  | .place p => .place (ρ.path .comparison p)
  | lit => lit

def comparand : Comparand → Comparand
  | .ref r => .ref (ρ.reference r)
  | rhs => rhs

def members : Members → Members
  | .places paths => .places (paths.map (ρ.path .member))
  | ms => ms

def threshold : Threshold → Threshold
  | .ref r => .ref (ρ.reference r)
  | t => t

def placeArg : PlaceArg → PlaceArg
  | .ref r => .ref (ρ.reference r)
  | .literal p => .literal (ρ.path .within p)

end Respelling

/-- The expression with a place written in another way. -/
def Expr.respell (ρ : Respelling) : Expr → Expr
  | .or l r => .or (l.respell ρ) (r.respell ρ)
  | .and l r => .and (l.respell ρ) (r.respell ρ)
  | .not e => .not (e.respell ρ)
  | .paren e => .paren (e.respell ρ)
  | .invoke func args negated => .invoke func (args.map fun e => e.respell ρ) negated
  | .ifThenElse conds branches none =>
    .ifThenElse (conds.map fun e => e.respell ρ) (branches.map fun e => e.respell ρ) none
  | .ifThenElse conds branches (some o) =>
    .ifThenElse (conds.map fun e => e.respell ρ) (branches.map fun e => e.respell ρ)
      (some (o.respell ρ))
  | .ternary c y n => .ternary (c.respell ρ) (y.respell ρ) (n.respell ρ)
  | .numCompare l op r => .numCompare (l.respell ρ) op (r.respell ρ)
  | .strCompare l op lit => .strCompare (l.respell ρ) op (ρ.literal lit)
  | .flagMatch e mask => .flagMatch (e.respell ρ) mask
  | .refEq r op rhs => .refEq (ρ.reference r) op (ρ.comparand rhs)
  | .refEqCall r op e => .refEqCall (ρ.reference r) op (e.respell ρ)
  | .argFlag r negated => .argFlag (ρ.reference r) negated
  | .itemAtLeast item t => .itemAtLeast item (ρ.threshold t)
  | .hasArgItem r => .hasArgItem (ρ.reference r)
  | .refInSet r ms => .refInSet (ρ.reference r) (ρ.members ms)
  | .within p negated => .within (ρ.placeArg p) negated
  | .perItem item cases d =>
    .perItem item (cases.map fun c => (c.1, c.2.respell ρ)) (d.respell ρ)
  | .perSetting name cases d =>
    .perSetting name (cases.map fun c => (c.1, c.2.respell ρ)) (d.respell ρ)
  | .place p => .place (ρ.path .value p)
  | .ref r => .ref (ρ.reference r)
  | .binOp l op r => .binOp (l.respell ρ) op (r.respell ρ)
  | .call func args => .call func (args.map fun e => e.respell ρ)
  | .bool b => .bool b
  | .settingFlag name negated => .settingFlag name negated
  | .hasItem item => .hasItem item
  | .hasLiteralItem text => .hasLiteralItem text
  | .int n => .int n
  | .float x => .float x
  | .str text => .str text
  | .setting name => .setting name
  | .const name => .const name
  | .items names => .items names
termination_by e => sizeOf e
decreasing_by
  all_goals apply Expr.sizeOf_lt_of_mem_children
  all_goals grind [Expr.children]

namespace Respelling

variable {ρ : Respelling} {pos : PlacePosition}

theorem path_of_ne (h : ρ.position ≠ pos) (p : String) : ρ.path pos p = p := by
  simp [path, h]

theorem path_of_eq (h : ρ.new = ρ.old) (p : String) : ρ.path pos p = p := by
  unfold path
  split
  · rename_i hp
    rw [h, hp.2]
  · rfl

theorem reference_eq_self (h : ∀ p, ρ.path .qualifier p = p) (r : Reference) :
    ρ.reference r = r := by
  obtain ⟨name, qualifier⟩ := r
  cases qualifier with
  | none => rfl
  | some q => cases q <;> simp [reference, h]

theorem literal_eq_self (h : ∀ p, ρ.path .comparison p = p) (lit : Literal) :
    ρ.literal lit = lit := by
  cases lit <;> simp [literal, h]

theorem members_eq_self (h : ∀ p, ρ.path .member p = p) (ms : Members) : ρ.members ms = ms := by
  cases ms <;> simp [members, funext h]

/-- References keep their names. -/
theorem reference_name (ρ : Respelling) (r : Reference) : (ρ.reference r).name = r.name := by
  unfold reference
  split <;> rfl

end Respelling

namespace Expr

variable (ρ : Respelling)

theorem respell_ifThenElse (conds branches : List Expr) (otherwise : Option Expr) :
    (Expr.ifThenElse conds branches otherwise).respell ρ
      = .ifThenElse (conds.map (respell ρ)) (branches.map (respell ρ))
          (otherwise.map (respell ρ)) := by
  cases otherwise <;> simp only [respell, Option.map_none, Option.map_some]

theorem isLeaf_respell (e : Expr) : (e.respell ρ).isLeaf = e.isLeaf := by
  cases e with
  | ifThenElse conds branches otherwise =>
      rw [respell_ifThenElse]
      rfl
  | _ => simp only [respell, isLeaf]

variable {ρ}

/-- Writing a place as it was changes nothing. -/
theorem respell_eq_self (h : ρ.new = ρ.old) (e : Expr) : e.respell ρ = e := by
  have hpath : ∀ (pos : PlacePosition) (p : String), ρ.path pos p = p :=
    fun _ p => Respelling.path_of_eq h p
  have href := Respelling.reference_eq_self (hpath .qualifier)
  induction e using Expr.children_induction with
  | step e ih =>
    have hmap : ∀ es : List Expr, (∀ c ∈ es, c ∈ e.children) → es.map (respell ρ) = es := by
      intro es hes
      exact (List.map_congr_left fun c hc => ih c (hes c hc)).trans (List.map_id es)
    have hcases : ∀ (κ : Type) (cases : List (κ × Expr)), (∀ c ∈ cases, c.2 ∈ e.children) →
        cases.map (fun c => (c.1, c.2.respell ρ)) = cases := by
      intro κ cases hmem
      refine (List.map_congr_left fun c hc => ?_).trans (List.map_id cases)
      rw [ih c.2 (hmem c hc)]
      rfl
    cases e with
    | invoke func args negated =>
        rw [respell, hmap args fun c hc => hc]
    | call func args => rw [respell, hmap args fun c hc => hc]
    | ifThenElse conds branches otherwise =>
        have ho : otherwise.map (respell ρ) = otherwise := by
          cases otherwise with
          | none => rfl
          | some o => rw [Option.map_some, ih o (by simp [children])]
        rw [respell_ifThenElse, hmap conds (by simp +contextual [children]),
          hmap branches (by simp +contextual [children]), ho]
    | perItem item cases d =>
        rw [respell, hcases _ cases fun c hc => List.mem_append_left _ (List.mem_map_of_mem hc),
          ih d (by simp [children])]
    | perSetting name cases d =>
        rw [respell, hcases _ cases fun c hc => List.mem_append_left _ (List.mem_map_of_mem hc),
          ih d (by simp [children])]
    | refEq r op rhs =>
        rw [respell, href]
        cases rhs <;> simp [Respelling.comparand, href]
    | itemAtLeast item t =>
        rw [respell]
        cases t <;> simp [Respelling.threshold, href]
    | within p negated =>
        rw [respell]
        cases p <;> simp [Respelling.placeArg, href, hpath]
    | or l r | and l r => rw [respell, ih l (by simp [children]), ih r (by simp [children])]
    | numCompare l op r | binOp l op r =>
        rw [respell, ih l (by simp [children]), ih r (by simp [children])]
    | ternary c y n =>
        rw [respell, ih c (by simp [children]), ih y (by simp [children]),
          ih n (by simp [children])]
    | not e | paren e => rw [respell, ih e (by simp [children])]
    | flagMatch e mask => rw [respell, ih e (by simp [children])]
    | strCompare l op lit =>
        rw [respell, ih l (by simp [children]), Respelling.literal_eq_self (hpath .comparison)]
    | refEqCall r op e => rw [respell, href, ih e (by simp [children])]
    | refInSet r ms => rw [respell, href, Respelling.members_eq_self (hpath .member)]
    | argFlag r negated => rw [respell, href]
    | hasArgItem r | ref r => rw [respell, href]
    | place p => rw [respell, hpath]
    | _ => rw [respell]

end Expr

/-- The body with a place written in another way. Action bodies have no value and stay as they
    are. -/
def Body.respell (ρ : Respelling) : Body → Body
  | .requirement e => .requirement (e.respell ρ)
  | .actions a => .actions a

/-- The rule with a place written in another way. -/
def Rule.respell (ρ : Respelling) (r : Rule) : Rule :=
  { r with body := r.body.respell ρ }

end AccessRules
