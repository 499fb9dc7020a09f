import AccessRules.Proofs.Reachability.Approximation
import AccessRules.Proofs.Report
import Mathlib.Data.Sign.Defs

set_option autoImplicit false

/-! # Three-valued logic

False, uncertain and true are three degrees of truth, in this order. On degrees, strong Kleene logic
is the minimum, the maximum and the change of sign, and truth takes the connectives of values to
these: `Value.degree_and`, `Value.degree_or` and `Value.degree_not`. The values themselves say more
than their truth, since a conjunction with a true operand gives back the other one as it is, so some
laws hold of values and others of their truth only: `connectives_kleene`. -/

namespace AccessRules

namespace Value

/-! ## Degrees of truth -/

/-- How true a value is: less than nothing if it is false, more if it is true, and nothing if that
    is not known. -/
def degree (v : Value) : SignType :=
  match v.truth? with
  | some false => -1
  | none => 0
  | some true => 1

/-- The truth value of a degree. -/
def ofDegree : SignType → Value
  | .neg => .bool false
  | .zero => .uncertain
  | .pos => .bool true

variable {a b : Value}

theorem truth_eq_ofDegree (v : Value) : v.truth = ofDegree v.degree := by
  unfold truth degree
  rcases v.truth? with _ | _ | _ <;> rfl

@[simp] theorem degree_ofDegree (s : SignType) : (ofDegree s).degree = s := by
  cases s <;> rfl

@[simp] theorem degree_truth (v : Value) : v.truth.degree = v.degree := by
  rw [truth_eq_ofDegree, degree_ofDegree]

/-- Values have the same truth exactly if they have the same degree. -/
theorem truth_eq_truth_iff : a.truth = b.truth ↔ a.degree = b.degree := by
  constructor
  · intro h
    rw [← degree_truth a, h, degree_truth]
  · intro h
    rw [truth_eq_ofDegree, h, ← truth_eq_ofDegree]

/-! ## The connectives -/

theorem beq_bool_iff {t : Bool} : (a == .bool t) = true ↔ a = .bool t := by
  cases a with
  | bool s =>
      change (s == t) = true ↔ _
      rw [beq_iff_eq, Value.bool.injEq]
  | _ => exact ⟨fun h => absurd h Bool.false_ne_true, fun h => Value.noConfusion h⟩

protected theorem not_eq (a : Value) : a.not = ofDegree (-a.degree) := by
  unfold not degree
  rcases a.truth? with _ | _ | _ <;> rfl

protected theorem and_true (a : Value) : a.and (.bool true) = a :=
  if_pos rfl

protected theorem true_and (a : Value) : (Value.bool true).and a = a := by
  unfold and
  split
  · exact (beq_bool_iff.1 ‹_›).symm
  · rfl

/-- Unless one of them is plainly true, operands are joined by their truth. -/
protected theorem and_eq (ha : a ≠ .bool true) (hb : b ≠ .bool true) :
    a.and b = ofDegree (min a.degree b.degree) := by
  rw [and, if_neg (mt beq_bool_iff.1 hb), if_neg (mt beq_bool_iff.1 ha)]
  unfold degree
  rcases a.truth? with _ | _ | _ <;> rcases b.truth? with _ | _ | _ <;> rfl

protected theorem or_false (a : Value) : a.or (.bool false) = a :=
  if_pos rfl

protected theorem false_or (a : Value) : (Value.bool false).or a = a := by
  unfold or
  split
  · exact (beq_bool_iff.1 ‹_›).symm
  · rfl

/-- Unless one of them is plainly false, operands are joined by their truth. -/
protected theorem or_eq (ha : a ≠ .bool false) (hb : b ≠ .bool false) :
    a.or b = ofDegree (max a.degree b.degree) := by
  rw [or, if_neg (mt beq_bool_iff.1 hb), if_neg (mt beq_bool_iff.1 ha)]
  unfold degree
  rcases a.truth? with _ | _ | _ <;> rcases b.truth? with _ | _ | _ <;> rfl

/-! ## Truth of the connectives -/

@[simp] theorem degree_not (a : Value) : a.not.degree = -a.degree := by
  rw [Value.not_eq, degree_ofDegree]

@[simp] theorem degree_and (a b : Value) : (a.and b).degree = min a.degree b.degree := by
  by_cases hb : b = .bool true
  · rw [hb, Value.and_true]
    exact (min_eq_left (SignType.le_one _)).symm
  by_cases ha : a = .bool true
  · rw [ha, Value.true_and]
    exact (min_eq_right (SignType.le_one _)).symm
  rw [Value.and_eq ha hb, degree_ofDegree]

@[simp] theorem degree_or (a b : Value) : (a.or b).degree = max a.degree b.degree := by
  by_cases hb : b = .bool false
  · rw [hb, Value.or_false]
    exact (max_eq_left (SignType.neg_one_le _)).symm
  by_cases ha : a = .bool false
  · rw [ha, Value.false_or]
    exact (max_eq_right (SignType.neg_one_le _)).symm
  rw [Value.or_eq ha hb, degree_ofDegree]

/-! ## Laws of values -/

protected theorem and_comm (a b : Value) : a.and b = b.and a := by
  by_cases hb : b = .bool true
  · rw [hb, Value.and_true, Value.true_and]
  by_cases ha : a = .bool true
  · rw [ha, Value.and_true, Value.true_and]
  rw [Value.and_eq ha hb, Value.and_eq hb ha, min_comm]

protected theorem or_comm (a b : Value) : a.or b = b.or a := by
  by_cases hb : b = .bool false
  · rw [hb, Value.or_false, Value.false_or]
  by_cases ha : a = .bool false
  · rw [ha, Value.or_false, Value.false_or]
  rw [Value.or_eq ha hb, Value.or_eq hb ha, max_comm]

protected theorem and_false (a : Value) : a.and (.bool false) = .bool false := by
  by_cases ha : a = .bool true
  · rw [ha, Value.true_and]
  have hmin : min a.degree (Value.bool false).degree = -1 := min_eq_right (SignType.neg_one_le _)
  rw [Value.and_eq ha (by simp), hmin]
  rfl

protected theorem or_true (a : Value) : a.or (.bool true) = .bool true := by
  by_cases ha : a = .bool false
  · rw [ha, Value.false_or]
  have hmax : max a.degree (Value.bool true).degree = 1 := max_eq_right (SignType.le_one _)
  rw [Value.or_eq ha (by simp), hmax]
  rfl

/-! ## Laws of truth -/

theorem ofDegree_and (s t : SignType) : (ofDegree s).and (ofDegree t) = ofDegree (min s t) := by
  cases s <;> cases t <;> rfl

theorem ofDegree_or (s t : SignType) : (ofDegree s).or (ofDegree t) = ofDegree (max s t) := by
  cases s <;> cases t <;> rfl

/-- Truth may be taken before or after operands are joined. -/
theorem truth_and (a b : Value) : (a.and b).truth = a.truth.and b.truth := by
  simp only [truth_eq_ofDegree, degree_and, ofDegree_and]

theorem truth_or (a b : Value) : (a.or b).truth = a.truth.or b.truth := by
  simp only [truth_eq_ofDegree, degree_or, ofDegree_or]

theorem antitone_neg_degree : Antitone (Neg.neg : SignType → SignType) :=
  fun _ _ h => SignType.neg_le_neg_iff.2 h

/-- A negation is a truth value, so the laws of De Morgan hold of values. -/
theorem not_and_eq (a b : Value) : (a.and b).not = a.not.or b.not := by
  rw [Value.not_eq, Value.not_eq, Value.not_eq, ofDegree_or, degree_and,
    antitone_neg_degree.map_min]

theorem not_or_eq (a b : Value) : (a.or b).not = a.not.and b.not := by
  rw [Value.not_eq, Value.not_eq, Value.not_eq, ofDegree_and, degree_or,
    antitone_neg_degree.map_max]

end Value

/-! ## Evaluation that stops early -/

namespace Knowledge

variable {k : Knowledge} {f : Frame} {expand : Expand} {l r : Expr} {a b : Value}

theorem outcome_test {e : Pending} (h : (e .bool).outcome = .ok a) :
    (test e).outcome = .ok a.truth :=
  Report.map_eq_ok_iff.2 ⟨a, h, rfl⟩

/-- A true operand decides a disjunction, so nothing is lost if the other one is left out. -/
theorem outcome_eval_or (hl : (eval k f expand l .bool).outcome = .ok a)
    (hr : (eval k f expand r .bool).outcome = .ok b) (expect : Expect) :
    (eval k f expand (.or l r) expect).outcome = .ok (a.truth.or b.truth) := by
  refine Report.bind_eq_ok_iff.2 ⟨a.truth, outcome_test hl, ?_⟩
  split
  · -- the other operand is not looked at
    rename_i htrue
    rw [Value.beq_bool_iff.1 htrue, Value.or_comm, Value.or_true]
    rfl
  · exact Report.bind_eq_ok_iff.2 ⟨b.truth, outcome_test hr, rfl⟩

/-- A false operand decides a conjunction. -/
theorem outcome_eval_and (hl : (eval k f expand l .bool).outcome = .ok a)
    (hr : (eval k f expand r .bool).outcome = .ok b) (expect : Expect) :
    (eval k f expand (.and l r) expect).outcome = .ok (a.truth.and b.truth) := by
  refine Report.bind_eq_ok_iff.2 ⟨a.truth, outcome_test hl, ?_⟩
  split
  · rename_i hfalse
    rw [Value.beq_bool_iff.1 hfalse, Value.and_comm, Value.and_false]
    rfl
  · exact Report.bind_eq_ok_iff.2 ⟨b.truth, outcome_test hr, rfl⟩

end Knowledge

/-- Truth takes conjunction, disjunction and negation to the minimum, the maximum and the change of
    sign. Of values, conjunction and disjunction are commutative, the laws of De Morgan hold, and
    true and false are neutral or decide; of their truth, both are associative and distribute over
    each other. An evaluation that stops at the operand that decides gives what both operands
    together give. -/
theorem connectives_kleene (a b c : Value) :
    (a.truth = .ofDegree a.truth.degree ∧
      (a.and b).truth = .ofDegree (min a.truth.degree b.truth.degree) ∧
      (a.or b).truth = .ofDegree (max a.truth.degree b.truth.degree) ∧
      a.not.truth = .ofDegree (-a.truth.degree)) ∧
    (a.and b = b.and a ∧ a.or b = b.or a) ∧
    (((a.and b).and c).truth = (a.and (b.and c)).truth ∧
      ((a.or b).or c).truth = (a.or (b.or c)).truth) ∧
    ((a.and (b.or c)).truth = ((a.and b).or (a.and c)).truth ∧
      (a.or (b.and c)).truth = ((a.or b).and (a.or c)).truth) ∧
    ((a.and b).not = a.not.or b.not ∧ (a.or b).not = a.not.and b.not) ∧
    ((Value.bool true).and a = a ∧ a.and (.bool true) = a ∧
      (Value.bool false).or a = a ∧ a.or (.bool false) = a) ∧
    ((Value.bool false).and a = .bool false ∧ a.and (.bool false) = .bool false ∧
      (Value.bool true).or a = .bool true ∧ a.or (.bool true) = .bool true) ∧
    ∀ (k : Knowledge) (f : Frame) (expand : Expand) (l r : Expr) (expect : Expect),
      (k.eval f expand l .bool).outcome = .ok a → (k.eval f expand r .bool).outcome = .ok b →
      ((k.eval f expand (.or l r) expect).outcome = .ok (a.truth.or b.truth) ∧
        a.truth.or b.truth = (a.or b).truth) ∧
      ((k.eval f expand (.and l r) expect).outcome = .ok (a.truth.and b.truth) ∧
        a.truth.and b.truth = (a.and b).truth) := by
  simp only [Value.degree_truth]
  -- laws of truth are laws of a linear order, taken back along the degrees
  refine ⟨⟨a.truth_eq_ofDegree, ?_, ?_, ?_⟩, ⟨a.and_comm b, a.or_comm b⟩, ⟨?_, ?_⟩, ⟨?_, ?_⟩,
    ⟨a.not_and_eq b, a.not_or_eq b⟩, ⟨a.true_and, a.and_true, a.false_or, a.or_false⟩,
    ⟨?_, a.and_false, ?_, a.or_true⟩, ?_⟩
  · rw [Value.truth_eq_ofDegree, Value.degree_and]
  · rw [Value.truth_eq_ofDegree, Value.degree_or]
  · rw [Value.truth_eq_ofDegree, Value.degree_not]
  · rw [Value.truth_eq_truth_iff]
    simp only [Value.degree_and, min_assoc]
  · rw [Value.truth_eq_truth_iff]
    simp only [Value.degree_or, max_assoc]
  · rw [Value.truth_eq_truth_iff]
    simp only [Value.degree_and, Value.degree_or, min_max_distrib_left]
  · rw [Value.truth_eq_truth_iff]
    simp only [Value.degree_and, Value.degree_or, max_min_distrib_left]
  · rw [Value.and_comm, Value.and_false]
  · rw [Value.or_comm, Value.or_true]
  · intro k f expand l r expect hl hr
    exact ⟨⟨Knowledge.outcome_eval_or hl hr expect, (a.truth_or b).symm⟩,
      Knowledge.outcome_eval_and hl hr expect, (a.truth_and b).symm⟩

/-- The evaluation of an expression where nothing is declared and no helper expands. -/
def evalBare (e : Expr) : Pending :=
  Knowledge.eval ⟨⟨{}, {}⟩, ∅, {}⟩
    ⟨{ name := "rules:open", body := .requirement (.bool true) }, "", ∅⟩
    (fun _ _ _ => pure .uncertain) e

/-- A number that counts as true, beside a setting that is not known. -/
theorem three_or_setting_true :
    (evalBare (.int 3) .bool).outcome = .ok (.int 3) ∧
    (evalBare (.setting "hard") .bool).outcome = .ok .uncertain ∧
    (evalBare (.or (.int 3) (.setting "hard")) .int).outcome = .ok (.bool true) ∧
    (evalBare (.and (.int 3) (.setting "hard")) .int).outcome = .ok .uncertain := by
  have hleft : (evalBare (.int 3) .bool).outcome = .ok (.int 3) := rfl
  have hright : (evalBare (.setting "hard") .bool).outcome = .ok .uncertain := rfl
  obtain ⟨-, -, -, -, -, -, -, heval⟩ := connectives_kleene (.int 3) .uncertain .uncertain
  obtain ⟨⟨hor, -⟩, hand, -⟩ := heval _ _ _ _ _ .int hleft hright
  exact ⟨hleft, hright, hor, hand⟩

end AccessRules
