import AccessRules.Reachability.Evaluate
import Mathlib.Data.List.Basic

set_option autoImplicit false

/-! # Values that approximate others

A value approximates another if it is uncertain or the same. This is the order by which an
evaluation that knows less is measured against one that knows more. All operations on values respect
it: most of them because they are uncertain as soon as an operand is, the connectives because a
certain answer never depends on an uncertain operand.

What several branches agree on approximates the value of each branch. This holds as long as equal
values are the same, which floats spoil: `PlainFor` describes the values that arise where no float
is written. -/

namespace AccessRules

namespace Value

/-- The value is uncertain, or it is the other one. -/
def Approx (a b : Value) : Prop :=
  a = .uncertain ∨ a = b

variable {a b c d : Value}

@[simp] theorem approx_refl (a : Value) : a.Approx a := Or.inr rfl

@[simp] theorem uncertain_approx (a : Value) : Approx .uncertain a := Or.inl rfl

theorem Approx.eq (h : a.Approx b) (ha : a ≠ .uncertain) : a = b :=
  h.resolve_left ha

/-- An operation that is uncertain on an uncertain operand respects the order. -/
theorem Approx.map {f : Value → Value} (hf : f .uncertain = .uncertain) (h : a.Approx b) :
    (f a).Approx (f b) := by
  rcases h with rfl | rfl
  · exact Or.inl hf
  · exact approx_refl _

theorem Approx.map₂ {f : Value → Value → Value} (hleft : ∀ v, f .uncertain v = .uncertain)
    (hright : ∀ v, f v .uncertain = .uncertain) (h : a.Approx b) (h' : c.Approx d) :
    (f a c).Approx (f b d) := by
  rcases h with rfl | rfl
  · exact Or.inl (hleft c)
  · exact h'.map (hright a)

/-! ## Operations -/

theorem compare_uncertain_left (op : CmpOp) (v : Value) : compare .uncertain op v = .uncertain := by
  cases v <;> rfl

theorem compare_uncertain_right (op : CmpOp) (v : Value) :
    compare v op .uncertain = .uncertain := by
  cases v <;> rfl

theorem Approx.compare (h : a.Approx b) (op : CmpOp) (h' : c.Approx d) :
    (a.compare op c).Approx (b.compare op d) :=
  h.map₂ (compare_uncertain_left op) (compare_uncertain_right op) h'

theorem arith_uncertain_left (op : ArithOp) (v : Value) : arith .uncertain op v = .uncertain := by
  cases v <;> rfl

theorem arith_uncertain_right (op : ArithOp) (v : Value) : arith v op .uncertain = .uncertain := by
  cases v <;> rfl

theorem Approx.arith (h : a.Approx b) (op : ArithOp) (h' : c.Approx d) :
    (a.arith op c).Approx (b.arith op d) :=
  h.map₂ (arith_uncertain_left op) (arith_uncertain_right op) h'

theorem Approx.negateIf (h : a.Approx b) (negated : Bool) :
    (a.negateIf negated).Approx (b.negateIf negated) :=
  h.map (by cases negated <;> rfl)

/-! ## Truth values -/

/-- Truth values of which the first approximates the second. -/
inductive TruthApprox : Value → Value → Prop
  | unknown : TruthApprox .uncertain .uncertain
  | settled (t : Bool) : TruthApprox .uncertain (.bool t)
  | known (t : Bool) : TruthApprox (.bool t) (.bool t)

/-- The truth of a value is a truth value, or not known. -/
theorem truth_cases (a : Value) : a.truth = .uncertain ∨ ∃ t, a.truth = .bool t := by
  unfold truth
  cases a.truth? <;> simp

theorem Approx.truth (h : a.Approx b) : TruthApprox a.truth b.truth := by
  rcases h with rfl | rfl
  · rcases truth_cases b with hb | ⟨t, hb⟩
    · rw [hb]
      exact .unknown
    · rw [hb]
      exact .settled t
  · rcases truth_cases a with ha | ⟨t, ha⟩
    · rw [ha]
      exact .unknown
    · rw [ha]
      exact .known t

theorem TruthApprox.approx (h : TruthApprox a b) : a.Approx b := by
  cases h <;> simp

@[simp] theorem bool_or_bool (s t : Bool) : (Value.bool s).or (.bool t) = .bool (s || t) := by
  cases s <;> cases t <;> rfl

@[simp] theorem uncertain_or_bool (t : Bool) :
    Value.uncertain.or (.bool t) = if t then .bool true else .uncertain := by
  cases t <;> rfl

@[simp] theorem bool_or_uncertain (s : Bool) :
    (Value.bool s).or .uncertain = if s then .bool true else .uncertain := by
  cases s <;> rfl

@[simp] theorem uncertain_or_uncertain : Value.uncertain.or .uncertain = .uncertain := rfl

@[simp] theorem bool_and_bool (s t : Bool) : (Value.bool s).and (.bool t) = .bool (s && t) := by
  cases s <;> cases t <;> rfl

@[simp] theorem uncertain_and_bool (t : Bool) :
    Value.uncertain.and (.bool t) = if t then .uncertain else .bool false := by
  cases t <;> rfl

@[simp] theorem bool_and_uncertain (s : Bool) :
    (Value.bool s).and .uncertain = if s then .uncertain else .bool false := by
  cases s <;> rfl

@[simp] theorem uncertain_and_uncertain : Value.uncertain.and .uncertain = .uncertain := rfl

theorem TruthApprox.or (h : TruthApprox a b) (h' : TruthApprox c d) :
    (a.or c).Approx (b.or d) := by
  cases h with
  | unknown => cases h' <;> simp
  | settled s => cases h' with
    | known t => cases t <;> simp
    | _ => simp
  | known s => cases h' with
    | settled t => cases s <;> simp
    | _ => simp

theorem TruthApprox.and (h : TruthApprox a b) (h' : TruthApprox c d) :
    (a.and c).Approx (b.and d) := by
  cases h with
  | unknown => cases h' <;> simp
  | settled s => cases h' with
    | known t => cases t <;> simp
    | _ => simp
  | known s => cases h' with
    | settled t => cases s <;> simp
    | _ => simp

theorem TruthApprox.or_bool {s t : Bool} (h : TruthApprox a (.bool s))
    (h' : TruthApprox c (.bool t)) : (a.or c).Approx (.bool (s || t)) := by
  rw [← bool_or_bool]
  exact h.or h'

theorem TruthApprox.and_bool {s t : Bool} (h : TruthApprox a (.bool s))
    (h' : TruthApprox c (.bool t)) : (a.and c).Approx (.bool (s && t)) := by
  rw [← bool_and_bool]
  exact h.and h'

/-- Whatever is joined to an uncertain operand, the disjunction is true unless it is uncertain. -/
theorem uncertain_or_approx (a : Value) : (Value.uncertain.or a).Approx (.bool true) := by
  unfold or
  split
  · exact uncertain_approx _
  · split
    · contradiction
    · split <;> simp_all [truth?]

theorem uncertain_and_approx (a : Value) : (Value.uncertain.and a).Approx (.bool false) := by
  unfold and
  split
  · exact uncertain_approx _
  · split
    · contradiction
    · split <;> simp_all [truth?]

/-! ## Floats -/

/-- The value is a float only where one is expected, and then it is zero. Such are the values that
    arise where no float is written. -/
def PlainFor (expect : Expect) (v : Value) : Prop :=
  ∀ x, v = .float x → expect = .float ∧ x = 0

/-- The value is no float. -/
def NotFloat (v : Value) : Prop :=
  ∀ x, v ≠ .float x

variable {expect : Expect}

theorem NotFloat.plainFor (h : a.NotFloat) : a.PlainFor expect :=
  fun x hx => absurd hx (h x)

theorem PlainFor.notFloat (h : a.PlainFor expect) (hexpect : expect ≠ .float) : a.NotFloat :=
  fun x hx => hexpect (h x hx).1

theorem notFloat_uncertain : NotFloat .uncertain := nofun

theorem notFloat_place (p : String) : NotFloat (.place p) := nofun

theorem notFloat_truth (a : Value) : a.truth.NotFloat := by
  rcases truth_cases a with ha | ⟨t, ha⟩ <;> rw [ha] <;> nofun

theorem notFloat_not (a : Value) : a.not.NotFloat := by
  unfold not
  cases a.truth? <;> nofun

theorem notFloat_equality {α : Type} [BEq α] (op : CmpOp) (x y : α) :
    (equality op x y).NotFloat := by
  cases op <;> nofun

theorem notFloat_compare (a : Value) (op : CmpOp) (b : Value) : (a.compare op b).NotFloat := by
  unfold compare
  split
  · nofun
  · exact notFloat_equality op _ _
  · split
    · exact notFloat_equality op _ _
    · split <;> nofun

theorem notFloat_arith (ha : a.NotFloat) (hb : b.NotFloat) (op : ArithOp) :
    (a.arith op b).NotFloat := by
  cases a with
  | float x => exact absurd rfl (ha x)
  | int m =>
      cases b with
      | float y => exact absurd rfl (hb y)
      | int n =>
          show ((op.onWords? m n).elim Value.uncertain .int).NotFloat
          cases op.onWords? m n <;> nofun
      | _ => nofun
  | _ => nofun

/-! ## Agreement -/

theorem eq_of_beq_of_plain (ha : a.PlainFor expect) (hb : b.PlainFor expect) (h : (a == b) = true) :
    a = b := by
  cases a <;> cases b <;> simp_all [BEq.beq, instBEqValue.beq, PlainFor]

theorem beq_self_of_plain (ha : a.PlainFor expect) : (a == a) = true := by
  cases a with
  | float x =>
      obtain ⟨_, rfl⟩ := ha x rfl
      decide
  | _ => simp [BEq.beq, instBEqValue.beq]

theorem mem_agreement_eq {vs : List Value} (hplain : ∀ u ∈ vs, PlainFor expect u)
    (h : agreement vs ≠ .uncertain) {u : Value} (hu : u ∈ vs) : u = agreement vs := by
  cases vs with
  | nil => simp at hu
  | cons v rest =>
      simp only [agreement] at h ⊢
      split at h
      · rename_i hall
        rw [if_pos hall]
        rcases List.mem_cons.1 hu with rfl | hmem
        · rfl
        · have hbeq := List.all_eq_true.1 hall u hmem
          exact (eq_of_beq_of_plain (hplain v (by simp)) (hplain u hu) hbeq).symm
      · exact absurd rfl h

/-- What branches agree on approximates all that is approximated by one of them. -/
theorem agreement_approx {vs : List Value} (hplain : ∀ u ∈ vs, PlainFor expect u) {u : Value}
    (hu : u ∈ vs) (h : u.Approx c) : (agreement vs).Approx c := by
  by_cases hvs : agreement vs = .uncertain
  · exact Or.inl hvs
  · rw [← mem_agreement_eq hplain hvs hu]
    exact h

theorem agreement_approx_agreement {vs ws : List Value} (hplain : ∀ u ∈ vs, PlainFor expect u)
    (hne : ws ≠ []) (h : ∀ w ∈ ws, ∃ u ∈ vs, u.Approx w) :
    (agreement vs).Approx (agreement ws) := by
  by_cases hvs : agreement vs = .uncertain
  · exact Or.inl hvs
  · -- all that is left of the branches has the value on which they agree
    have hall : ∀ w ∈ ws, w = agreement vs := by
      intro w hw
      obtain ⟨u, hu, huw⟩ := h w hw
      exact ((agreement_approx hplain hu huw).eq hvs).symm
    have hself : (agreement vs == agreement vs) = true := by
      obtain ⟨w, hw⟩ := List.exists_mem_of_ne_nil ws hne
      obtain ⟨u, hu, _⟩ := h w hw
      rw [← mem_agreement_eq hplain hvs hu]
      exact beq_self_of_plain (hplain u hu)
    cases ws with
    | nil => exact absurd rfl hne
    | cons w rest =>
        refine Or.inr ?_
        have hbeq : rest.all (fun u => w == u) = true := by
          rw [List.all_eq_true]
          intro u hu
          rw [hall w (by simp), hall u (List.mem_cons_of_mem _ hu)]
          exact hself
        show agreement vs = if rest.all (fun u => w == u) = true then w else .uncertain
        rw [if_pos hbeq, hall w (by simp)]

theorem plainFor_agreement {vs : List Value} (hplain : ∀ u ∈ vs, PlainFor expect u) :
    (agreement vs).PlainFor expect := by
  by_cases hvs : agreement vs = .uncertain
  · rw [hvs]
    exact notFloat_uncertain.plainFor
  · cases vs with
    | nil => exact absurd rfl hvs
    | cons v rest =>
        rw [← mem_agreement_eq hplain hvs (List.mem_cons_self ..)]
        exact hplain v (List.mem_cons_self ..)

end Value

end AccessRules
