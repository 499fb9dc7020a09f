import AccessRules.Proofs.Number.WordText
import AccessRules.Proofs.Token.Spacing
import Mathlib.Data.List.TakeDrop
import Mathlib.Data.List.TakeWhile

set_option autoImplicit false

/-! # Numerals

`IsNumeral` describes the characters that are taken as one number. What is taken as a number is a
numeral (`Cursor.isNumeral_numberText`), and a numeral is taken up to its end if nothing follows
that goes on with it (`Cursor.numberText_append`). The texts of integers are numerals. -/

namespace AccessRules

namespace Cursor

/-! ## What may follow -/

-- The tables are searched by `List.all`: deciding a quantifier over characters runs through all
-- of them.

theorem not_starts_of_mem_skipped {x : Char} (hx : x ∈ skipped) :
    isIdentStart x = false ∧ extendsNumber x = false ∧ x.isDigit = false
      ∧ x ∉ ['-', '+', '.', 'e', 'E'] := by
  have hall : skipped.all (fun x => decide (isIdentStart x = false ∧ extendsNumber x = false
      ∧ x.isDigit = false ∧ x ∉ ['-', '+', '.', 'e', 'E'])) = true := by
    decide
  exact of_decide_eq_true (List.all_eq_true.1 hall x hx)

theorem isIdentChar_of_mem_skipped {x : Char} (hx : x ∈ skipped) : isIdentChar x = false :=
  (Bool.or_eq_false_iff.1 (not_starts_of_mem_skipped hx).2.1).2

end Cursor

/-- What follows a token without going on with it: nothing, or a character at which no token
    starts. -/
def Parted (tail : List Char) : Prop :=
  ∀ x ∈ tail.head?, x ∈ Cursor.skipped

theorem Spacing.parted {gap : List Char} (h : Spacing gap) (hne : gap ≠ []) (rest : List Char) :
    Parted (gap ++ rest) := by
  intro x hx
  cases h with
  | nil => exact absurd rfl hne
  | blank hc _ =>
      cases hx
      revert hc
      simp only [List.mem_cons, List.not_mem_nil, or_false]
      rintro (rfl | rfl | rfl) <;> decide
  | lineEnd _ =>
      cases hx
      decide
  | comment _ _ =>
      cases hx
      decide

theorem takeWhile_append_of_head {p : Char → Bool} {cs tail : List Char}
    (hcs : ∀ x ∈ cs, p x = true) (htail : ∀ x ∈ tail.head?, p x = false) :
    (cs ++ tail).takeWhile p = cs := by
  rw [List.takeWhile_append_of_pos hcs]
  cases tail with
  | nil => simp
  | cons x tail => simp [htail x rfl]

/-! ## The parts of a number -/

/-- A character and digits after it, of which there are none after a zero. -/
def IsWhole (cs : List Char) : Prop :=
  ∃ c ds, cs = c :: ds ∧ (c = '0' → ds = []) ∧ ∀ x ∈ ds, x.isDigit = true

/-- Nothing, or a point and at least one digit. -/
def IsFraction (cs : List Char) : Prop :=
  cs = [] ∨ ∃ ds, cs = '.' :: ds ∧ ds ≠ [] ∧ ∀ x ∈ ds, x.isDigit = true

/-- Nothing, or an exponent mark, perhaps a sign, and digits. -/
def IsExponent (cs : List Char) : Prop :=
  cs = [] ∨ ∃ mark sign ds, cs = mark :: (sign ++ ds) ∧ (mark = 'e' ∨ mark = 'E')
    ∧ (sign = [] ∨ sign = ['+'] ∨ sign = ['-']) ∧ ∀ x ∈ ds, x.isDigit = true

/-- The characters are taken as one number. -/
def IsNumeral (cs : List Char) : Prop :=
  ∃ whole fraction exponent, cs = whole ++ (fraction ++ exponent)
    ∧ IsWhole whole ∧ IsFraction fraction ∧ IsExponent exponent

namespace Cursor

variable {cs rest tail : List Char}

theorem wholePart_cons {c : Char} (h : c ≠ '0') (cs : List Char) :
    wholePart (c :: cs) = c :: cs.takeWhile Char.isDigit := by
  unfold wholePart
  split
  · rename_i heq
    cases heq
    exact absurd rfl h
  · rename_i heq
    cases heq
    rfl
  · rename_i heq
    cases heq

theorem wholePart_append (hcs : IsWhole cs) (hrest : ∀ x ∈ rest.head?, x.isDigit = false) :
    wholePart (cs ++ rest) = cs := by
  obtain ⟨c, ds, rfl, hzero, hds⟩ := hcs
  by_cases hc : c = '0'
  · rw [hzero hc, hc]
    rfl
  · rw [List.cons_append, wholePart_cons hc, takeWhile_append_of_head hds hrest]

theorem fractionPart_append (hcs : IsFraction cs)
    (hrest : ∀ x ∈ rest.head?, x ≠ '.' ∧ x.isDigit = false) : fractionPart (cs ++ rest) = cs := by
  rcases hcs with rfl | ⟨ds, rfl, hne, hds⟩
  · rw [List.nil_append]
    unfold fractionPart
    split
    · rename_i ds
      exact absurd rfl (hrest '.' rfl).1
    · rfl
  · obtain ⟨d, more, rfl⟩ := List.exists_cons_of_ne_nil hne
    have hhead : ((d :: more ++ rest).head?.any Char.isDigit) = true := hds d List.mem_cons_self
    rw [List.cons_append, fractionPart, if_pos hhead,
      takeWhile_append_of_head hds fun x hx => (hrest x hx).2]

/-- After an exponent mark without a sign come digits. -/
theorem exponentPart_unsigned {mark : Char} (hmark : mark = 'e' ∨ mark = 'E')
    (hcs : ∀ x ∈ cs.head?, x ≠ '+' ∧ x ≠ '-') :
    exponentPart (mark :: cs) = mark :: cs.takeWhile Char.isDigit := by
  have hif : (mark = 'e' || mark = 'E') = true := by simpa using hmark
  unfold exponentPart
  simp only [if_pos hif]
  split
  · exact absurd rfl (hcs '+' rfl).1
  · exact absurd rfl (hcs '-' rfl).2
  · rfl

theorem exponentPart_append (hcs : IsExponent cs)
    (hrest : ∀ x ∈ rest.head?, x ∉ ['-', '+', '.', 'e', 'E'] ∧ x.isDigit = false) :
    exponentPart (cs ++ rest) = cs := by
  rcases hcs with rfl | ⟨mark, sign, ds, rfl, hmark, hsign, hds⟩
  · cases rest with
    | nil => rfl
    | cons x rest =>
        have hx := (hrest x rfl).1
        simp only [List.mem_cons, List.not_mem_nil, or_false, not_or] at hx
        simp [exponentPart, hx]
  · have hif : (mark = 'e' || mark = 'E') = true := by simpa using hmark
    have htake := takeWhile_append_of_head hds fun x hx => (hrest x hx).2
    rcases hsign with rfl | rfl | rfl
    · rw [List.nil_append, List.cons_append, exponentPart_unsigned hmark ?_, htake]
      intro x hx
      cases ds with
      | nil =>
          have hx := (hrest x hx).1
          simp only [List.mem_cons, List.not_mem_nil, or_false, not_or] at hx
          exact ⟨hx.2.1, hx.1⟩
      | cons d ds =>
          have hd := hds d List.mem_cons_self
          cases hx
          exact ⟨fun h => absurd hd (by rw [h]; decide), fun h => absurd hd (by rw [h]; decide)⟩
    · simp only [List.cons_append, List.nil_append, exponentPart, if_pos hif, htake]
    · simp only [List.cons_append, List.nil_append, exponentPart, if_pos hif, htake]

/-- The first character of a part of a number, or of what follows it. -/
theorem head_fraction_append {x : Char} (hcs : IsFraction cs) (hx : x ∈ (cs ++ rest).head?) :
    x = '.' ∨ x ∈ rest.head? := by
  rcases hcs with rfl | ⟨ds, rfl, -⟩
  · exact .inr hx
  · cases hx
    exact .inl rfl

theorem head_exponent_append {x : Char} (hcs : IsExponent cs) (hx : x ∈ (cs ++ rest).head?) :
    (x = 'e' ∨ x = 'E') ∨ x ∈ rest.head? := by
  rcases hcs with rfl | ⟨mark, sign, ds, rfl, hmark, -⟩
  · exact .inr hx
  · cases hx
    exact .inl hmark

/-- A numeral is taken as a number up to its end. -/
theorem numberText_append (hcs : IsNumeral cs) (htail : Parted tail) :
    numberText (cs ++ tail) = cs := by
  obtain ⟨whole, fraction, exponent, rfl, hwhole, hfraction, hexponent⟩ := hcs
  have htail' : ∀ x ∈ tail.head?, x ∉ ['-', '+', '.', 'e', 'E'] ∧ x.isDigit = false :=
    fun x hx => ⟨(not_starts_of_mem_skipped (htail x hx)).2.2.2,
      (not_starts_of_mem_skipped (htail x hx)).2.2.1⟩
  have hafter : ∀ x ∈ (exponent ++ tail).head?, x ≠ '.' ∧ x.isDigit = false := by
    intro x hx
    rcases head_exponent_append hexponent hx with (rfl | rfl) | hx
    · decide
    · decide
    · exact ⟨fun h => (htail' x hx).1 (by simp [h]), (htail' x hx).2⟩
  have hbefore : ∀ x ∈ (fraction ++ (exponent ++ tail)).head?, x.isDigit = false := by
    intro x hx
    rcases head_fraction_append hfraction hx with rfl | hx
    · decide
    · exact (hafter x hx).2
  have hdrop : (whole ++ (fraction ++ (exponent ++ tail))).drop
      (whole.length + fraction.length) = exponent ++ tail := by
    rw [← List.append_assoc, ← List.length_append, List.drop_left]
  simp only [numberText, List.append_assoc, wholePart_append hwhole hbefore, List.drop_left,
    fractionPart_append hfraction hafter, hdrop, exponentPart_append hexponent htail']

theorem isWhole_wholePart (hne : cs ≠ []) : IsWhole (wholePart cs) := by
  obtain ⟨c, rest, rfl⟩ := List.exists_cons_of_ne_nil hne
  by_cases hc : c = '0'
  · subst hc
    exact ⟨'0', [], rfl, fun _ => rfl, by simp⟩
  · exact ⟨c, _, wholePart_cons hc rest, fun h => absurd h hc, fun x => List.mem_takeWhile_imp⟩

theorem isFraction_fractionPart (cs : List Char) : IsFraction (fractionPart cs) := by
  unfold fractionPart
  split
  · rename_i rest
    split
    · rename_i hhead
      refine .inr ⟨_, rfl, ?_, fun x => List.mem_takeWhile_imp⟩
      cases rest with
      | nil => cases hhead
      | cons d rest =>
          have hd : d.isDigit = true := hhead
          simp [hd]
    · exact .inl rfl
  · exact .inl rfl

theorem isExponent_exponentPart (cs : List Char) : IsExponent (exponentPart cs) := by
  unfold exponentPart
  split
  · rename_i mark rest
    split
    · rename_i hmark
      have hmark : mark = 'e' ∨ mark = 'E' := by simpa using hmark
      split
      · exact .inr ⟨mark, ['+'], _, rfl, hmark, by simp, fun x => List.mem_takeWhile_imp⟩
      · exact .inr ⟨mark, ['-'], _, rfl, hmark, by simp, fun x => List.mem_takeWhile_imp⟩
      · exact .inr ⟨mark, [], _, rfl, hmark, by simp, fun x => List.mem_takeWhile_imp⟩
    · exact .inl rfl
  · exact .inl rfl

/-- What is taken as a number is a numeral. -/
theorem isNumeral_numberText (hne : cs ≠ []) : IsNumeral (numberText cs) :=
  ⟨_, _, _, List.append_assoc .., isWhole_wholePart hne, isFraction_fractionPart _,
    isExponent_exponentPart _⟩

theorem isPrefix_wholePart (cs : List Char) : wholePart cs <+: cs := by
  cases cs with
  | nil => exact List.prefix_rfl
  | cons c cs =>
      by_cases hc : c = '0'
      · subst hc
        exact List.prefix_append ['0'] cs
      · rw [wholePart_cons hc]
        exact (List.prefix_cons_inj c).2 (List.takeWhile_prefix _)

theorem isPrefix_fractionPart (cs : List Char) : fractionPart cs <+: cs := by
  unfold fractionPart
  split
  · split
    · exact (List.prefix_cons_inj '.').2 (List.takeWhile_prefix _)
    · exact List.nil_prefix
  · exact List.nil_prefix

theorem isPrefix_exponentPart (cs : List Char) : exponentPart cs <+: cs := by
  unfold exponentPart
  split
  · rename_i mark rest
    split
    · split <;> simp only [List.prefix_cons_inj, List.takeWhile_prefix]
    · exact List.nil_prefix
  · exact List.nil_prefix

/-- A number is taken from the front of the text. -/
theorem isPrefix_numberText (cs : List Char) : numberText cs <+: cs := by
  have hwhole := List.prefix_iff_eq_append.1 (isPrefix_wholePart cs)
  have hfraction :=
    List.prefix_iff_eq_append.1 (isPrefix_fractionPart (cs.drop (wholePart cs).length))
  rw [List.drop_drop] at hfraction
  obtain ⟨rest, hrest⟩ := isPrefix_exponentPart
    (cs.drop ((wholePart cs).length + (fractionPart (cs.drop (wholePart cs).length)).length))
  refine ⟨rest, ?_⟩
  simp only [numberText, List.append_assoc, hrest, hfraction, hwhole]

/-! ## Where a number starts -/

theorem startsNumber_digit {d : Char} (hd : d.isDigit = true) (cs : List Char) :
    startsNumber (d :: cs) = true := by
  unfold startsNumber
  split
  · rename_i heq
    injection heq with heq
    rw [heq] at hd
    exact absurd hd (by decide)
  · rename_i heq
    injection heq with heq
    rw [← heq]
    exact hd
  · rename_i heq
    cases heq

/-- A number starts with a digit, or with a minus sign and a digit. -/
theorem startsNumber_iff : startsNumber cs = true ↔
    ∃ d ds, d.isDigit = true ∧ (cs = d :: ds ∨ cs = '-' :: d :: ds) := by
  constructor
  · intro h
    unfold startsNumber at h
    split at h
    · exact ⟨_, _, h, .inr rfl⟩
    · exact ⟨_, _, h, .inl rfl⟩
    · cases h
  · rintro ⟨d, ds, hd, rfl | rfl⟩
    · exact startsNumber_digit hd ds
    · exact hd

theorem startsNumber_append (h : startsNumber cs = true) (rest : List Char) :
    startsNumber (cs ++ rest) = true := by
  obtain ⟨d, ds, hd, hcs⟩ := startsNumber_iff.1 h
  exact startsNumber_iff.2 ⟨d, ds ++ rest, hd, hcs.imp (by rintro rfl; rfl) (by rintro rfl; rfl)⟩

/-- Where no digit and no sign stands, no number starts. -/
theorem startsNumber_eq_false {first : Char} (cs : List Char) (hminus : first ≠ '-')
    (hdigit : first.isDigit = false) : startsNumber (first :: cs) = false := by
  unfold startsNumber
  split
  · rename_i heq
    injection heq with heq
    exact absurd heq hminus
  · rename_i heq
    injection heq with heq
    rw [← heq]
    exact hdigit
  · rfl

theorem startsNumber_singleton {x : Char} (hx : x.isDigit = false) : startsNumber [x] = false := by
  unfold startsNumber
  split
  · rename_i heq
    cases heq
  · rename_i heq
    cases heq
    exact hx
  · rfl

theorem startsNumber_pair {x y : Char} (cs : List Char) (hx : x.isDigit = false)
    (hy : y.isDigit = false) : startsNumber (x :: y :: cs) = false := by
  unfold startsNumber
  split
  · rename_i heq
    cases heq
    exact hy
  · rename_i heq
    cases heq
    exact hx
  · rfl

/-- What is taken as a number starts as one. -/
theorem startsNumber_numberText (h : startsNumber cs = true) :
    startsNumber (numberText cs) = true := by
  obtain ⟨d, ds, hd, rfl | rfl⟩ := startsNumber_iff.1 h
  · by_cases hzero : d = '0'
    · subst hzero
      exact startsNumber_digit hd _
    · simp only [numberText, wholePart_cons hzero, List.cons_append]
      exact startsNumber_digit hd _
  · rw [numberText, wholePart_cons (by decide), List.takeWhile_cons_of_pos hd]
    exact hd

end Cursor

/-! ## Integers -/

theorem readDigits_of_all {ds : List Char} (hne : ds ≠ []) (h : ∀ c ∈ ds, c.isDigit = true) :
    NumberForm.readDigits ds = .ok (ds, []) := by
  obtain ⟨d, rest, rfl⟩ := List.exists_cons_of_ne_nil hne
  rw [NumberForm.readDigits, if_pos (h d List.mem_cons_self), List.span_eq_takeWhile_dropWhile,
    List.takeWhile_eq_self_iff.2 h, List.dropWhile_eq_nil_iff.2 h]

theorem readWhole_toDigits (n : Nat) :
    NumberForm.readWhole (Nat.toDigits 10 n) = .ok (Nat.toDigits 10 n, []) := by
  have hread := readDigits_of_all (Nat.toDigits_ne_nil (n := n) (b := 10))
    fun c => isDigit_of_mem_toDigits
  rcases Nat.eq_zero_or_pos n with rfl | hpos
  · rfl
  · obtain ⟨d, ds, hds, hd⟩ := toDigits_eq_cons hpos
    rw [hds] at hread ⊢
    unfold NumberForm.readWhole
    split
    · rename_i heq
      cases heq
      exact absurd rfl hd
    · exact hread

theorem absorb_digits {ds : List Char} {start : Nat}
    (h : ds.foldl (fun n c => n * 10 + digitValue c) start < Nat.pow 2 64) :
    JsonNumber.absorb start ds = (ds.foldl (fun n c => n * 10 + digitValue c) start, []) := by
  induction ds generalizing start with
  | nil => rfl
  | cons d ds ih =>
      have hgrows : ∀ (cs : List Char) (m : Nat),
          m ≤ cs.foldl (fun n c => n * 10 + digitValue c) m := by
        intro cs
        induction cs with
        | nil => exact fun m => Nat.le_refl m
        | cons c cs ihcs =>
            intro m
            exact Nat.le_trans (by omega) (ihcs (m * 10 + digitValue c))
      have hnext : start * 10 + digitValue d < Nat.pow 2 64 :=
        Nat.lt_of_le_of_lt (hgrows ds _) h
      rw [JsonNumber.absorb]
      simp only [hnext, if_true]
      exact ih h

theorem absorb_toDigits {n : Nat} (h : n < Nat.pow 2 64) :
    JsonNumber.absorb 0 (Nat.toDigits 10 n) = (n, []) := by
  have hvalue : (Nat.toDigits 10 n).foldl (fun n c => n * 10 + digitValue c) 0 = n :=
    digitsValue_toDigits n
  rw [absorb_digits (by rwa [hvalue]), hvalue]

theorem numberForm_read_wordText (n : Int64) :
    NumberForm.read (wordText n).toList
      = .ok (⟨n.toInt < 0, Nat.toDigits 10 n.toInt.natAbs, none, none⟩, []) := by
  rw [toList_wordText]
  by_cases hneg : n.toInt < 0
  · rw [if_pos hneg]
    simp only [List.singleton_append, NumberForm.read, hneg, decide_true, readWhole_toDigits]
    rfl
  · rw [if_neg hneg, List.nil_append]
    simp only [NumberForm.read]
    split
    · rename_i heq
      exact absurd (congrArg List.head? heq) (head?_toDigits_ne_minus _)
    · simp only [hneg, decide_false, readWhole_toDigits]
      rfl

theorem read_wordText (n : Int64) :
    JsonNumber.read (wordText n).toList = .ok (.int n.toInt, []) := by
  obtain ⟨hlow, hhigh⟩ := fitsWord_toInt n
  have hpow63 : Nat.pow 2 63 = 9223372036854775808 := rfl
  have hpow64 : Nat.pow 2 64 = 18446744073709551616 := rfl
  have habsorb := absorb_toDigits (n := n.toInt.natAbs) (by omega)
  have hsign : (if n.toInt < 0 then -(n.toInt.natAbs : Int) else n.toInt.natAbs) = n.toInt := by
    split <;> omega
  have hrange : (!decide (n.toInt < 0)
      || decide (0 < n.toInt.natAbs) && decide (n.toInt.natAbs ≤ Nat.pow 2 63)) = true := by
    simp only [hpow63, Bool.or_eq_true, Bool.not_eq_true', decide_eq_false_iff_not,
      Bool.and_eq_true, decide_eq_true_eq]
    omega
  have hform : (⟨n.toInt < 0, Nat.toDigits 10 n.toInt.natAbs, none, none⟩ : NumberForm).value?
      = some (.int n.toInt) := by
    simp only [NumberForm.value?, habsorb, Option.isNone_none, List.isEmpty_nil, Bool.and_self,
      hrange, if_true, decide_eq_true_eq, hsign]
    rfl
  simp only [JsonNumber.read, numberForm_read_wordText, bind, Except.bind, hform]
  rfl

/-- The text of a word is a numeral. -/
theorem isNumeral_wordText (n : Int64) : IsNumeral (wordText n).toList := by
  have hdigits : ∀ k : Nat, ∀ c ∈ Nat.toDigits 10 k, c.isDigit = true :=
    fun k c => isDigit_of_mem_toDigits
  refine ⟨_, [], [], (List.append_nil _).symm, ?_, .inl rfl, .inl rfl⟩
  rw [toList_wordText]
  split
  · exact ⟨'-', _, rfl, fun h => absurd h (by decide), hdigits _⟩
  · rcases Nat.eq_zero_or_pos n.toInt.natAbs with hzero | hpos
    · rw [hzero]
      exact ⟨'0', [], rfl, fun _ => rfl, by simp⟩
    · obtain ⟨d, ds, hds, hd⟩ := toDigits_eq_cons hpos
      refine ⟨d, ds, hds, fun h => absurd h hd, fun x hx => hdigits n.toInt.natAbs x ?_⟩
      rw [hds]
      exact List.mem_cons_of_mem d hx

theorem startsNumber_wordText (n : Int64) : Cursor.startsNumber (wordText n).toList = true := by
  obtain ⟨d, ds, hds⟩ := List.exists_cons_of_ne_nil
    (Nat.toDigits_ne_nil (n := n.toInt.natAbs) (b := 10))
  have hd : d.isDigit = true := isDigit_of_mem_toDigits (hds ▸ List.mem_cons_self)
  rw [toList_wordText, hds]
  split
  · exact hd
  · exact Cursor.startsNumber_digit hd _

end AccessRules
