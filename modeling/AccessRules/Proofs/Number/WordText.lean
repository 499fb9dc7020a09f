import AccessRules.Number.Word

set_option autoImplicit false

/-! # Words in decimal

The decimal text of a word is read back as that word: `readWord?_wordText`. Its digits do not start
with a zero unless it is zero. -/

namespace AccessRules

/-! ## Digits -/

theorem digitValue_of_isDigit {c : Char} (h : c.isDigit = true) :
    digitValue c = c.toNat - '0'.toNat := by
  simp only [digitValue, h, if_true]

theorem digitsValue_eq_ofDigitChars {ds : List Char} (h : ∀ c ∈ ds, c.isDigit = true) :
    digitsValue 10 ds = Nat.ofDigitChars 10 ds 0 := by
  rw [digitsValue, Nat.ofDigitChars_eq_foldl]
  generalize 0 = start
  induction ds generalizing start with
  | nil => rfl
  | cons c ds ih =>
      rw [List.forall_mem_cons] at h
      rw [List.foldl_cons, List.foldl_cons, digitValue_of_isDigit h.1, Nat.mul_comm start 10]
      exact ih h.2 _

theorem isDigit_of_mem_toDigits {n : Nat} {c : Char} (h : c ∈ Nat.toDigits 10 n) :
    c.isDigit = true :=
  Nat.isDigit_of_mem_toDigits (by decide) (by decide) h

theorem digitsValue_toDigits (n : Nat) : digitsValue 10 (Nat.toDigits 10 n) = n := by
  rw [digitsValue_eq_ofDigitChars fun c => isDigit_of_mem_toDigits]
  exact Nat.ofDigitChars_ten_toDigits

/-- The digits of a positive number start with a digit that is not zero. -/
theorem toDigits_eq_cons {n : Nat} (hn : 0 < n) :
    ∃ d ds, Nat.toDigits 10 n = d :: ds ∧ d ≠ '0' := by
  induction n using Nat.strongRecOn with
  | ind n ih =>
      by_cases hlt : n < 10
      · refine ⟨n.digitChar, [], Nat.toDigits_of_lt_base hlt, ?_⟩
        rw [Ne, Nat.digitChar_eq_zero]
        omega
      · obtain ⟨d, ds, hds, hd⟩ := ih (n / 10) (by omega) (by omega)
        refine ⟨d, ds ++ [(n % 10).digitChar], ?_, hd⟩
        rw [Nat.toDigits_of_base_le (by decide) (by omega), hds]
        rfl

/-! ## Words -/

theorem toList_toString (n : Int) :
    (toString n).toList = (if n < 0 then ['-'] else []) ++ Nat.toDigits 10 n.natAbs := by
  rw [Int.toString_eq_repr, Int.repr_eq_if]
  by_cases h : 0 ≤ n
  · have hnat : n.toNat = n.natAbs := by omega
    rw [if_pos h, if_neg (by omega), Nat.toList_repr, hnat, List.nil_append]
  · have hnat : (-n).toNat = n.natAbs := by omega
    rw [if_neg h, if_pos (by omega), String.toList_append, Nat.toList_repr, hnat]
    rfl

theorem toList_wordText (n : Int64) :
    (wordText n).toList
      = (if n.toInt < 0 then ['-'] else []) ++ Nat.toDigits 10 n.toInt.natAbs :=
  toList_toString n.toInt

theorem fitsWord_toInt (n : Int64) : FitsWord n.toInt := by
  have hle := Int64.le_toInt n
  have hlt := Int64.toInt_lt n
  constructor <;> omega

theorem readWord?_minus (ds : List Char) :
    readWord? ('-' :: ds) = if ds.isEmpty || !ds.all Char.isDigit then none
      else word? (-(digitsValue 10 ds : Int)) :=
  rfl

theorem readWord?_digits {ds : List Char} (h : ds.head? ≠ some '-') :
    readWord? ds = if ds.isEmpty || !ds.all Char.isDigit then none
      else word? (digitsValue 10 ds : Int) := by
  simp only [readWord?]
  split
  · exact absurd rfl h
  · rfl

/-- The digits of a number are not empty, and all of them are digits. -/
theorem digits_toDigits (n : Nat) :
    ((Nat.toDigits 10 n).isEmpty || !(Nat.toDigits 10 n).all Char.isDigit) = false := by
  have hall : (Nat.toDigits 10 n).all Char.isDigit = true :=
    List.all_eq_true.2 fun c => isDigit_of_mem_toDigits
  simp [hall, Nat.toDigits_ne_nil]

theorem head?_toDigits_ne_minus (n : Nat) : (Nat.toDigits 10 n).head? ≠ some '-' := by
  intro h
  have hdigit := isDigit_of_mem_toDigits (List.mem_of_head? h)
  exact absurd hdigit (by decide)

theorem readWord?_wordText (n : Int64) : readWord? (wordText n).toList = some n := by
  have hword : word? n.toInt = some n := by
    rw [word?, if_pos (fitsWord_toInt n), Int64.ofInt_toInt]
  rw [toList_wordText]
  by_cases h : n.toInt < 0
  · have hneg : -(n.toInt.natAbs : Int) = n.toInt := by omega
    rw [if_pos h, List.singleton_append, readWord?_minus, digits_toDigits, digitsValue_toDigits,
      hneg, hword]
    rfl
  · have hpos : (n.toInt.natAbs : Int) = n.toInt := by omega
    rw [if_neg h, List.nil_append, readWord?_digits (head?_toDigits_ne_minus _), digits_toDigits,
      digitsValue_toDigits, hpos, hword]
    rfl

theorem wordText_injective {m n : Int64} (h : wordText m = wordText n) : m = n :=
  Option.some.inj (by rw [← readWord?_wordText, h, readWord?_wordText])

end AccessRules
