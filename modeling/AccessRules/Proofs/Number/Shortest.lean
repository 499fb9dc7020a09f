import AccessRules.Number.Shortest
import Mathlib.Algebra.Order.Field.Basic
import Mathlib.Algebra.Order.Field.Rat
import Mathlib.Data.Nat.ModEq
import Mathlib.Tactic.FieldSimp
import Mathlib.Tactic.Linarith
import Mathlib.Tactic.NormNum
import Mathlib.Tactic.Ring

set_option autoImplicit false

/-! # The shortest decimal stands for one float only

The rationals that round to a float form an interval, `Binary.Rounds`. The intervals of successive
floats share an end, which belongs to the even one of the two, so no rational rounds to two floats:
`Binary.eq_of_rounds`. The shortest decimal of a float rounds to it: `Binary.rounds_shortest`. -/

namespace AccessRules.Decimal

def Scaled.value (s : Scaled) : ℚ :=
  s.digits * 10 ^ s.exponent

namespace Binary

/-- The lower end of the rationals that round to the number. -/
def lower (b : Binary) : ℚ :=
  ((4 * b.mantissa - (if b.narrow then 1 else 2) : ℕ) : ℚ) * 2 ^ (b.exponent - 2)

/-- The upper end of the rationals that round to the number. -/
def upper (b : Binary) : ℚ :=
  ((4 * b.mantissa + 2 : ℕ) : ℚ) * 2 ^ (b.exponent - 2)

/-- The rational rounds to the number: it lies between the ends, or at one of them if the number is
    even. -/
def Rounds (b : Binary) (x : ℚ) : Prop :=
  if b.mantissa % 2 = 0 then b.lower ≤ x ∧ x ≤ b.upper else b.lower < x ∧ x < b.upper

/-! ## The decimal that is found -/

theorem zpow_eq_div (a : ℚ) (n : ℤ) : a ^ n = a ^ n.toNat / a ^ (-n).toNat := by
  cases n with
  | ofNat n => simp
  | negSucc n =>
      rw [zpow_negSucc]
      simp

section Grid

variable (a p : ℕ) (shift k : ℤ)

/-- Comparisons on the common denominator are comparisons of the rationals. -/
theorem le_grid_iff :
    a * (2 ^ shift.toNat * 10 ^ (-k).toNat) ≤ p * (2 ^ (-shift).toNat * 10 ^ k.toNat)
      ↔ (a : ℚ) * 2 ^ shift ≤ p * 10 ^ k := by
  rw [zpow_eq_div 2 shift, zpow_eq_div 10 k, ← mul_div_assoc, ← mul_div_assoc,
    div_le_div_iff₀ (by positivity) (by positivity), ← Nat.cast_le (α := ℚ)]
  push_cast
  constructor <;> intro h <;> linarith

theorem grid_le_iff :
    p * (2 ^ (-shift).toNat * 10 ^ k.toNat) ≤ a * (2 ^ shift.toNat * 10 ^ (-k).toNat)
      ↔ (p : ℚ) * 10 ^ k ≤ a * 2 ^ shift := by
  rw [zpow_eq_div 2 shift, zpow_eq_div 10 k, ← mul_div_assoc, ← mul_div_assoc,
    div_le_div_iff₀ (by positivity) (by positivity), ← Nat.cast_le (α := ℚ)]
  push_cast
  constructor <;> intro h <;> linarith

end Grid

/-- The test of a point of the grid, as `onGrid?` makes it. -/
def inside (b : Binary) (k : Int) (p : Nat) : Bool :=
  let shift := b.exponent - 2
  let up := Nat.pow 2 shift.toNat * Nat.pow 10 (-k).toNat
  let low := (4 * b.mantissa - (if b.narrow then 1 else 2)) * up
  let high := (4 * b.mantissa + 2) * up
  let unit := Nat.pow 2 (-shift).toNat * Nat.pow 10 k.toNat
  if b.mantissa % 2 == 0 then low ≤ p * unit && p * unit ≤ high
  else low < p * unit && p * unit < high

theorem inside_iff (b : Binary) (k : Int) (p : Nat) :
    b.inside k p = true ↔ b.Rounds (p * 10 ^ k) := by
  have hlow := le_grid_iff (4 * b.mantissa - (if b.narrow then 1 else 2)) p (b.exponent - 2) k
  have hhigh := grid_le_iff (4 * b.mantissa + 2) p (b.exponent - 2) k
  have hlow' := grid_le_iff (4 * b.mantissa - (if b.narrow then 1 else 2)) p (b.exponent - 2) k
  have hhigh' := le_grid_iff (4 * b.mantissa + 2) p (b.exponent - 2) k
  simp only [inside, Rounds, lower, upper, Nat.pow_eq, beq_iff_eq]
  split
  · rw [Bool.and_eq_true, decide_eq_true_iff, decide_eq_true_iff, hlow, hhigh]
  · rw [Bool.and_eq_true, decide_eq_true_iff, decide_eq_true_iff, ← not_le, ← not_le, hlow', hhigh',
      not_le, not_le]

/-- The last point of the grid that is not above the number. -/
def below (b : Binary) (k : Int) : Nat :=
  let shift := b.exponent - 2
  let up := Nat.pow 2 shift.toNat * Nat.pow 10 (-k).toNat
  let unit := Nat.pow 2 (-shift).toNat * Nat.pow 10 k.toNat
  4 * b.mantissa * up / unit

/-- A point that stands for a number on a grid is next to it, and rounds to it. -/
theorem onGrid?_eq_some {b : Binary} {k : Int} {s : Scaled} (h : b.onGrid? k = some s) :
    ∃ p, b.inside k p = true ∧ s = ⟨p, k⟩ := by
  unfold onGrid? at h
  dsimp only at h
  split at h
  · rename_i hp hsucc
    obtain ⟨-, hp⟩ := Bool.and_eq_true_iff.1 hp
    obtain rfl := Option.some.inj h
    split
    · exact ⟨_, hp, rfl⟩
    · exact ⟨_, hsucc, rfl⟩
  · rename_i hp _
    obtain ⟨-, hp⟩ := Bool.and_eq_true_iff.1 hp
    exact ⟨_, hp, (Option.some.inj h).symm⟩
  · rename_i hsucc
    exact ⟨_, hsucc, (Option.some.inj h).symm⟩
  · cases h

theorem rounds_onGrid? {b : Binary} {k : Int} {s : Scaled} (h : b.onGrid? k = some s) :
    b.Rounds s.value := by
  obtain ⟨p, hp, rfl⟩ := onGrid?_eq_some h
  exact (inside_iff b k p).1 hp

/-- A grid has a point for the number if the next point above it rounds to it. -/
theorem onGrid?_ne_none {b : Binary} {k : Int} (h : b.inside k (b.below k + 1) = true) :
    b.onGrid? k ≠ none := by
  intro hnone
  unfold onGrid? at hnone
  dsimp only at hnone
  split at hnone
  · cases hnone
  · cases hnone
  · cases hnone
  · rename_i hsucc
    exact absurd h (by rw [Bool.not_eq_true]; exact hsucc)

/-- If the grid is finer than half a step between floats, the next point above rounds. -/
theorem inside_of_fine {b : Binary} {k : Int}
    (hfine : 2 ^ (-(b.exponent - 2)).toNat * 10 ^ k.toNat
      ≤ 2 ^ (b.exponent - 2).toNat * 10 ^ (-k).toNat) : b.inside k (b.below k + 1) = true := by
  let up := 2 ^ (b.exponent - 2).toNat * 10 ^ (-k).toNat
  let unit := 2 ^ (-(b.exponent - 2)).toNat * 10 ^ k.toNat
  let p := 4 * b.mantissa * up / unit
  have hpos : 0 < unit := by positivity
  have hup : 0 < up := hpos.trans_le hfine
  have hlow : (4 * b.mantissa - (if b.narrow then 1 else 2)) * up < (p + 1) * unit :=
    calc (4 * b.mantissa - (if b.narrow then 1 else 2)) * up
        ≤ 4 * b.mantissa * up := Nat.mul_le_mul_right up (Nat.sub_le _ _)
      _ < (p + 1) * unit := Nat.lt_mul_of_div_lt (Nat.lt_succ_self p) hpos
  have hhigh : (p + 1) * unit < (4 * b.mantissa + 2) * up :=
    calc (p + 1) * unit = p * unit + unit := Nat.succ_mul p unit
      _ ≤ 4 * b.mantissa * up + up := Nat.add_le_add (Nat.div_mul_le_self _ _) hfine
      _ < 4 * b.mantissa * up + 2 * up := by omega
      _ = (4 * b.mantissa + 2) * up := (Nat.add_mul _ _ _).symm
  show (if b.mantissa % 2 == 0 then _ else _) = true
  split
  · exact Bool.and_eq_true_iff.2 ⟨decide_eq_true hlow.le, decide_eq_true hhigh.le⟩
  · exact Bool.and_eq_true_iff.2 ⟨decide_eq_true hlow, decide_eq_true hhigh⟩

theorem two_pow_le_ten_pow {m n : ℕ} (h : m ≤ 73 * n) : 2 ^ m ≤ 10 ^ (22 * n) :=
  calc 2 ^ m ≤ 2 ^ (73 * n) := Nat.pow_le_pow_right (by norm_num) h
    _ = (2 ^ 73) ^ n := pow_mul 2 73 n
    _ ≤ (10 ^ 22) ^ n := Nat.pow_le_pow_left (by norm_num) n
    _ = 10 ^ (22 * n) := (pow_mul 10 22 n).symm

/-- The finest grid that is tried is fine enough for every float. -/
theorem inside_finest {b : Binary} (he : -1074 ≤ b.exponent) :
    b.inside (-330) (b.below (-330) + 1) = true := by
  have hcoarse : (-330 : ℤ).toNat = 0 := rfl
  have hfine : (- -330 : ℤ).toNat = 22 * 15 := rfl
  have hexp : (-(b.exponent - 2)).toNat ≤ 73 * 15 := by omega
  refine inside_of_fine ?_
  rw [hcoarse, hfine, pow_zero, mul_one]
  exact (two_pow_le_ten_pow hexp).trans (Nat.le_mul_of_pos_left _ (by positivity))

/-- The shortest decimal of a number rounds to it. -/
theorem rounds_shortest {b : Binary} (he : -1074 ≤ b.exponent) : b.Rounds b.shortest.value := by
  unfold shortest
  cases hfind : (List.range 640).findSome? fun i : Nat => b.onGrid? (309 - (i : Int)) with
  | some s =>
      obtain ⟨i, -, hi⟩ := List.exists_of_findSome?_eq_some hfind
      exact rounds_onGrid? hi
  | none =>
      have hnone := List.findSome?_eq_none_iff.1 hfind 639 (by simp)
      exact absurd hnone (onGrid?_ne_none (inside_finest he))

/-! ## Intervals of different floats -/

theorem lower_lt_upper (b : Binary) : b.lower < b.upper := by
  have hnum : 4 * b.mantissa - (if b.narrow then 1 else 2) < 4 * b.mantissa + 2 := by omega
  exact mul_lt_mul_of_pos_right (Nat.cast_lt.2 hnum) (zpow_pos (by norm_num) _)

theorem ofBits_subnormal {n : Nat} (h : n < 2 ^ 52) : ofBits n = ⟨n, -1074, false⟩ := by
  have hbiased : n / 2 ^ 52 % 2 ^ 11 = 0 := by rw [Nat.div_eq_of_lt h, Nat.zero_mod]
  simp only [ofBits, Nat.pow_eq, hbiased, if_true, Nat.mod_eq_of_lt h]

theorem ofBits_normal {n : Nat} (hlow : 2 ^ 52 ≤ n) (hhigh : n < 2 ^ 63) :
    ofBits n = ⟨n % 2 ^ 52 + 2 ^ 52, (n / 2 ^ 52 : ℕ) - 1075,
      n % 2 ^ 52 == 0 && decide (n / 2 ^ 52 > 1)⟩ := by
  have hbiased : n / 2 ^ 52 % 2 ^ 11 = n / 2 ^ 52 := Nat.mod_eq_of_lt (by omega)
  have hne : n / 2 ^ 52 ≠ 0 := by omega
  simp only [ofBits, Nat.pow_eq, hbiased, if_neg hne]

/-- Between numbers with the same exponent. -/
theorem upper_eq_lower_succ (m : ℕ) (q : ℤ) (narrow : Bool) :
    upper ⟨m, q, narrow⟩ = lower ⟨m + 1, q, false⟩ := by
  have hnum : 4 * (m + 1) - 2 = 4 * m + 2 := by omega
  show ((4 * m + 2 : ℕ) : ℚ) * _ = ((4 * (m + 1) - 2 : ℕ) : ℚ) * _
  rw [hnum]

/-- Where the exponent goes up by one, steps double in length. -/
theorem upper_eq_lower_double {m m' : ℕ} (h : m + 1 = 2 * m') (q : ℤ) (narrow : Bool) :
    upper ⟨m, q, narrow⟩ = lower ⟨m', q + 1, true⟩ := by
  have hnum : 4 * m + 2 = (4 * m' - 1) * 2 := by omega
  show ((4 * m + 2 : ℕ) : ℚ) * 2 ^ (q - 2) = ((4 * m' - 1 : ℕ) : ℚ) * 2 ^ (q + 1 - 2)
  rw [hnum, show q + 1 - 2 = q - 2 + 1 by ring, zpow_add_one₀ (by norm_num), Nat.cast_mul]
  ring

/-- The interval of a float ends where that of the next one starts. -/
theorem upper_ofBits {n : Nat} (hn : n + 1 < 2 ^ 63) :
    (ofBits n).upper = (ofBits (n + 1)).lower := by
  by_cases hsub : n < 2 ^ 52
  · rw [ofBits_subnormal hsub]
    by_cases hlast : n + 1 < 2 ^ 52
    · rw [ofBits_subnormal hlast]
      exact upper_eq_lower_succ n (-1074) false
    · -- the first normal number has the exponent of the subnormal ones
      obtain rfl : n = 2 ^ 52 - 1 := by omega
      exact upper_eq_lower_succ _ (-1074) false
  · have hexp : n / 2 ^ 52 ≥ 1 := by omega
    rw [ofBits_normal (by omega) (by omega), ofBits_normal (by omega) hn]
    by_cases hlast : n % 2 ^ 52 + 1 < 2 ^ 52
    · have hdiv : (n + 1) / 2 ^ 52 = n / 2 ^ 52 := by omega
      have hmod : (n + 1) % 2 ^ 52 = n % 2 ^ 52 + 1 := by omega
      have hwide : ((n + 1) % 2 ^ 52 == 0) = false := by
        rw [hmod]
        rfl
      rw [hwide, hdiv, hmod, Bool.false_and, Nat.add_right_comm]
      exact upper_eq_lower_succ _ _ _
    · have hdiv : (n + 1) / 2 ^ 52 = n / 2 ^ 52 + 1 := by omega
      have hmod : (n + 1) % 2 ^ 52 = 0 := by omega
      have hnarrow : decide (n / 2 ^ 52 + 1 > 1) = true := decide_eq_true (by omega)
      rw [hmod, hdiv, hnarrow, beq_self_eq_true, Bool.true_and, Nat.zero_add, Nat.cast_succ,
        add_sub_right_comm]
      exact upper_eq_lower_double (by omega) _ _

/-- The intervals are ordered as the floats are. -/
theorem upper_le_lower {m n : Nat} (hmn : m < n) (hn : n < 2 ^ 63) :
    (ofBits m).upper ≤ (ofBits n).lower := by
  induction n, hmn using Nat.le_induction with
  | base => exact (upper_ofBits hn).le
  | succ n hle ih =>
      have hprev := ih (by omega)
      have hnext := upper_ofBits hn
      exact (hprev.trans (lower_lt_upper _).le).trans hnext.le

/-- Only next to each other do two intervals meet. -/
theorem upper_lt_lower {m n : Nat} (hmn : m + 1 < n) (hn : n < 2 ^ 63) :
    (ofBits m).upper < (ofBits n).lower :=
  calc (ofBits m).upper = (ofBits (m + 1)).lower := upper_ofBits (by omega)
    _ < (ofBits (m + 1)).upper := lower_lt_upper _
    _ ≤ (ofBits n).lower := upper_le_lower hmn hn

theorem mantissa_ofBits_mod_two {n : Nat} (hn : n < 2 ^ 63) :
    (ofBits n).mantissa % 2 = n % 2 := by
  by_cases hsub : n < 2 ^ 52
  · rw [ofBits_subnormal hsub]
  · rw [ofBits_normal (by omega) hn]
    simp only
    omega

theorem Rounds.le {b : Binary} {x : ℚ} (h : b.Rounds x) : b.lower ≤ x ∧ x ≤ b.upper := by
  unfold Rounds at h
  split at h
  · exact h
  · exact ⟨h.1.le, h.2.le⟩

/-- Only an even number has the ends of its interval. -/
theorem Rounds.even {b : Binary} {x : ℚ} (h : b.Rounds x) (hx : x = b.lower ∨ x = b.upper) :
    b.mantissa % 2 = 0 := by
  unfold Rounds at h
  split at h
  · assumption
  · obtain ⟨hlow, hhigh⟩ := h
    rcases hx with rfl | rfl
    · exact absurd hlow (lt_irrefl _)
    · exact absurd hhigh (lt_irrefl _)

theorem not_lt_of_rounds {m n : Nat} (hn : n < 2 ^ 63) {x : ℚ} (hm : (ofBits m).Rounds x)
    (hx : (ofBits n).Rounds x) : ¬ m < n := by
  intro hmn
  have hle := upper_le_lower hmn hn
  obtain ⟨-, hupper⟩ := hm.le
  obtain ⟨hlower, -⟩ := hx.le
  have heq : x = (ofBits m).upper := le_antisymm hupper (hle.trans hlower)
  have heq' : x = (ofBits n).lower := le_antisymm (heq ▸ hle) hlower
  obtain rfl : n = m + 1 := by
    by_contra hne
    exact absurd (heq.symm.trans heq') (upper_lt_lower (by omega) hn).ne
  have hmeven := hm.even (.inr heq)
  have hneven := hx.even (.inl heq')
  rw [mantissa_ofBits_mod_two (by omega)] at hmeven
  rw [mantissa_ofBits_mod_two hn] at hneven
  omega

/-- No rational rounds to two floats. -/
theorem eq_of_rounds {m n : Nat} (hm : m < 2 ^ 63) (hn : n < 2 ^ 63) {x : ℚ}
    (hxm : (ofBits m).Rounds x) (hxn : (ofBits n).Rounds x) : m = n :=
  le_antisymm (not_lt.1 (not_lt_of_rounds hm hxn hxm)) (not_lt.1 (not_lt_of_rounds hn hxm hxn))

theorem exponent_ofBits (n : Nat) : -1074 ≤ (ofBits n).exponent := by
  unfold ofBits
  dsimp only
  split
  · exact le_refl _
  · simp only
    omega

end Binary

end AccessRules.Decimal
