import AccessRules.Number.FloatText
import AccessRules.Proofs.Number.Shortest
import AccessRules.Proofs.Number.WordText
import Mathlib.Data.List.TakeWhile

set_option autoImplicit false

/-! # Floats are told apart by their texts

The text of a finite float is a decimal whose value is that of the shortest decimal of the float:
`decimalValue_text`. As this decimal rounds to no other float, different floats have different
texts: `exactText_injective`. Such a text can also not be taken for that of an integer. -/

namespace AccessRules.Decimal

/-! ## The value of a decimal -/

/-- An integer from an optional sign and digits. -/
def intValue : List Char → ℤ
  | '-' :: ds => -(digitsValue 10 ds : ℤ)
  | ds => digitsValue 10 ds

/-- The number that a decimal without a sign stands for. -/
def decimalValue (cs : List Char) : ℚ :=
  let mantissa := cs.takeWhile (· != 'e')
  let exponent := (cs.dropWhile (· != 'e')).tail
  let whole := mantissa.takeWhile (· != '.')
  let fraction := (mantissa.dropWhile (· != '.')).tail
  digitsValue 10 (whole ++ fraction) * 10 ^ (intValue exponent - fraction.length)

section Splitting

variable {c : Char} {a : List Char}

theorem bne_of_notMem (h : c ∉ a) : ∀ x ∈ a, (x != c) = true := by
  intro x hx
  rw [bne_iff_ne]
  rintro rfl
  exact h hx

theorem takeWhile_before (h : c ∉ a) (b : List Char) : (a ++ c :: b).takeWhile (· != c) = a := by
  rw [List.takeWhile_append_of_pos (bne_of_notMem h), List.takeWhile_cons_of_neg (by simp),
    List.append_nil]

theorem dropWhile_before (h : c ∉ a) (b : List Char) :
    (a ++ c :: b).dropWhile (· != c) = c :: b := by
  rw [List.dropWhile_append_of_pos (bne_of_notMem h), List.dropWhile_cons_of_neg (by simp)]

theorem takeWhile_all (h : c ∉ a) : a.takeWhile (· != c) = a :=
  List.takeWhile_eq_self_iff.2 (bne_of_notMem h)

theorem dropWhile_all (h : c ∉ a) : a.dropWhile (· != c) = [] :=
  List.dropWhile_eq_nil_iff.2 (bne_of_notMem h)

end Splitting

/-- All characters are digits. -/
def Digits (cs : List Char) : Prop :=
  ∀ c ∈ cs, c.isDigit = true

theorem Digits.notMem {cs : List Char} (h : Digits cs) (c : Char) (hc : c.isDigit = false) :
    c ∉ cs := by
  intro hmem
  rw [h c hmem] at hc
  cases hc

theorem Digits.append {a b : List Char} (ha : Digits a) (hb : Digits b) : Digits (a ++ b) :=
  List.forall_mem_append.2 ⟨ha, hb⟩

theorem digits_replicate (n : Nat) : Digits (List.replicate n '0') := by
  intro c hc
  rw [List.eq_of_mem_replicate hc]
  rfl

section Value

variable {w f ex : List Char}

theorem decimalValue_point (hw : Digits w) (hf : Digits f) :
    decimalValue (w ++ '.' :: f) = digitsValue 10 (w ++ f) * 10 ^ (-(f.length : ℤ)) := by
  have hexp : 'e' ∉ w ++ '.' :: f := by
    simp [hw.notMem 'e' rfl, hf.notMem 'e' rfl]
  simp only [decimalValue, takeWhile_all hexp, dropWhile_all hexp,
    takeWhile_before (hw.notMem '.' rfl), dropWhile_before (hw.notMem '.' rfl), List.tail_nil,
    List.tail_cons]
  rw [show intValue [] = 0 from rfl, zero_sub]

theorem decimalValue_exponent (hw : Digits w) :
    decimalValue (w ++ 'e' :: ex) = digitsValue 10 w * 10 ^ intValue ex := by
  simp only [decimalValue, takeWhile_before (hw.notMem 'e' rfl),
    dropWhile_before (hw.notMem 'e' rfl), takeWhile_all (hw.notMem '.' rfl),
    dropWhile_all (hw.notMem '.' rfl), List.tail_nil, List.tail_cons, List.append_nil,
    List.length_nil, Nat.cast_zero, sub_zero]

theorem decimalValue_point_exponent (hw : Digits w) (hf : Digits f) :
    decimalValue (w ++ '.' :: f ++ 'e' :: ex)
      = digitsValue 10 (w ++ f) * 10 ^ (intValue ex - f.length) := by
  have hexp : 'e' ∉ w ++ '.' :: f := by
    simp [hw.notMem 'e' rfl, hf.notMem 'e' rfl]
  simp only [decimalValue, takeWhile_before hexp, dropWhile_before hexp,
    takeWhile_before (hw.notMem '.' rfl), dropWhile_before (hw.notMem '.' rfl), List.tail_cons]

end Value

theorem digitsValue_append (a b : List Char) :
    digitsValue 10 (a ++ b) = digitsValue 10 a * 10 ^ b.length + digitsValue 10 b := by
  unfold digitsValue
  rw [List.foldl_append]
  generalize a.foldl (fun n c => n * 10 + digitValue c) 0 = start
  -- the value of the digits so far moves up with each digit
  suffices h : ∀ n start : Nat, b.foldl (fun n c => n * 10 + digitValue c) (start + n)
      = start * 10 ^ b.length + b.foldl (fun n c => n * 10 + digitValue c) n by
    exact h 0 start
  induction b with
  | nil => simp
  | cons c b ih =>
      intro n start
      rw [List.foldl_cons, List.foldl_cons, List.length_cons, Nat.pow_succ',
        show (start + n) * 10 + digitValue c = start * 10 + (n * 10 + digitValue c) by ring,
        ih, Nat.mul_assoc]

theorem digitsValue_replicate (n : Nat) : digitsValue 10 (List.replicate n '0') = 0 := by
  induction n with
  | zero => rfl
  | succ n ih =>
      rw [List.replicate_succ, ← List.singleton_append, digitsValue_append, ih,
        show digitsValue 10 ['0'] = 0 from rfl, Nat.zero_mul]

theorem intValue_toString (n : ℤ) : intValue (toString n).toList = n := by
  rw [toList_toString]
  split
  · rw [List.singleton_append, intValue, digitsValue_toDigits]
    omega
  · rw [List.nil_append, intValue, digitsValue_toDigits]
    · omega
    · intro ds hds
      exact head?_toDigits_ne_minus n.natAbs (by rw [hds]; rfl)

/-! ## The text of a finite float -/

section Text

variable {ds : List Char} {point : ℤ}

/-- A decimal without an exponent has digits on both sides of its point, and the value of the
    given digits, moved to the point. -/
theorem positionalText_eq (hds : Digits ds) (hne : ds ≠ []) (point : ℤ) :
    ∃ w f, positionalText true ds point = w ++ '.' :: f ∧ w ≠ [] ∧ Digits w ∧ Digits f ∧
      (digitsValue 10 (w ++ f) : ℚ) * 10 ^ (-(f.length : ℤ))
        = digitsValue 10 ds * 10 ^ (point - ds.length) := by
  unfold positionalText
  dsimp only
  split
  · rename_i hneg
    have hvalue : digitsValue 10 (['0'] ++ (List.replicate (-point).toNat '0' ++ ds))
        = digitsValue 10 ds := by
      rw [digitsValue_append, digitsValue_append, digitsValue_replicate,
        show digitsValue 10 ['0'] = 0 from rfl]
      omega
    refine ⟨['0'], List.replicate (-point).toNat '0' ++ ds, by simp, by simp,
      digits_replicate 1, (digits_replicate _).append hds, ?_⟩
    rw [hvalue, List.length_append, List.length_replicate]
    congr 2
    push_cast
    omega
  · split
    · rename_i hpos hinside
      refine ⟨ds.take point.toNat, ds.drop point.toNat, rfl, ?_,
        fun c hc => hds c (List.mem_of_mem_take hc), fun c hc => hds c (List.mem_of_mem_drop hc),
        ?_⟩
      · rw [Ne, List.take_eq_nil_iff, not_or]
        exact ⟨by omega, hne⟩
      · rw [List.take_append_drop, List.length_drop]
        congr 2
        omega
    · rename_i hpos houtside
      obtain ⟨n, hn⟩ := Int.eq_ofNat_of_zero_le (show 0 ≤ point - ds.length by omega)
      have hvalue : digitsValue 10 (ds ++ List.replicate n '0' ++ ['0'])
          = digitsValue 10 ds * 10 ^ n * 10 := by
        rw [digitsValue_append, digitsValue_append, digitsValue_replicate, List.length_replicate]
        rfl
      refine ⟨ds ++ List.replicate n '0', ['0'], by simp [hn], by simp [hne],
        hds.append (digits_replicate n), digits_replicate 1, ?_⟩
      rw [hvalue, hn, zpow_natCast, show -((['0'].length : ℕ) : ℤ) = -1 from rfl, zpow_neg_one]
      push_cast
      ring

theorem decimalValue_positionalText (hds : Digits ds) (hne : ds ≠ []) :
    decimalValue (positionalText true ds point)
      = digitsValue 10 ds * 10 ^ (point - ds.length) := by
  obtain ⟨w, f, htext, -, hw, hf, hvalue⟩ := positionalText_eq hds hne point
  rw [htext, decimalValue_point hw hf, hvalue]

theorem decimalValue_exponentText (hds : Digits ds) (hne : ds ≠ []) :
    decimalValue (exponentText ds point) = digitsValue 10 ds * 10 ^ (point - ds.length) := by
  obtain ⟨d, more, rfl⟩ := List.exists_cons_of_ne_nil hne
  have hd : Digits [d] := fun c hc => hds c (by simp_all)
  cases more with
  | nil =>
      refine (decimalValue_exponent hd).trans ?_
      rw [intValue_toString]
      rfl
  | cons d' more =>
      have hmore : Digits (d' :: more) := fun c hc => hds c (List.mem_cons_of_mem d hc)
      refine (decimalValue_point_exponent hd hmore).trans ?_
      rw [intValue_toString, List.singleton_append]
      congr 2
      simp only [List.length_cons]
      push_cast
      ring

end Text

theorem decimalValue_text (s : Scaled) : decimalValue (s.text exactLayout) = s.value := by
  have hdigits : Digits (Nat.toDigits 10 s.digits) := fun c => isDigit_of_mem_toDigits
  have hexp : ((Nat.toDigits 10 s.digits).length + s.exponent : ℤ)
      - (Nat.toDigits 10 s.digits).length = s.exponent := by ring
  unfold Scaled.text
  dsimp only
  split
  · rw [show exactLayout.keepsFraction = true from rfl,
      decimalValue_positionalText hdigits Nat.toDigits_ne_nil, hexp, digitsValue_toDigits,
      Scaled.value]
  · rw [decimalValue_exponentText hdigits Nat.toDigits_ne_nil, hexp, digitsValue_toDigits,
      Scaled.value]

/-- A digit, or a mark that stands among digits. -/
def isDecimalChar (c : Char) : Bool :=
  c.isDigit || c == '.' || c == 'e' || c == '-'

/-- What the text of a finite float looks like, its sign apart: it starts with a digit, and a point
    or an exponent tells it from an integer. -/
structure IsDecimal (cs : List Char) : Prop where
  start : ∃ d ds, cs = d :: ds ∧ d.isDigit = true
  chars : ∀ c ∈ cs, isDecimalChar c = true
  mark : '.' ∈ cs ∨ 'e' ∈ cs

theorem Digits.isDecimalChar {ds : List Char} (h : Digits ds) :
    ∀ c ∈ ds, isDecimalChar c = true := by
  intro c hc
  simp [Decimal.isDecimalChar, h c hc]

theorem isDecimalChar_toString (n : ℤ) : ∀ c ∈ (toString n).toList, isDecimalChar c = true := by
  rw [toList_toString, List.forall_mem_append]
  refine ⟨?_, Digits.isDecimalChar fun c => isDigit_of_mem_toDigits⟩
  split
  · exact List.forall_mem_singleton.2 rfl
  · simp

theorem isDecimal_positionalText {ds : List Char} (hds : Digits ds) (hne : ds ≠ []) (point : ℤ) :
    IsDecimal (positionalText true ds point) := by
  obtain ⟨w, f, htext, hw, hdw, hdf, -⟩ := positionalText_eq hds hne point
  obtain ⟨d, w, rfl⟩ := List.exists_cons_of_ne_nil hw
  rw [htext]
  refine ⟨⟨d, _, rfl, hdw d List.mem_cons_self⟩, ?_, .inl (by simp)⟩
  exact List.forall_mem_append.2
    ⟨hdw.isDecimalChar, List.forall_mem_cons.2 ⟨rfl, hdf.isDecimalChar⟩⟩

theorem isDecimal_exponentText {ds : List Char} (hds : Digits ds) (hne : ds ≠ []) (point : ℤ) :
    IsDecimal (exponentText ds point) := by
  obtain ⟨d, more, rfl⟩ := List.exists_cons_of_ne_nil hne
  have hd : d.isDigit = true := hds d List.mem_cons_self
  have hexp : ∀ c ∈ 'e' :: (toString (point - 1)).toList, isDecimalChar c = true :=
    List.forall_mem_cons.2 ⟨rfl, isDecimalChar_toString (point - 1)⟩
  cases more with
  | nil =>
      have hchars := List.forall_mem_append.2 ⟨hds.isDecimalChar, hexp⟩
      exact ⟨⟨d, _, rfl, hd⟩, hchars, .inr (by simp [exponentText])⟩
  | cons d' more =>
      obtain ⟨hfirst, hmore⟩ := List.forall_mem_cons.1 hds.isDecimalChar
      have hchars : ∀ c ∈ d :: '.' :: (d' :: more ++ 'e' :: (toString (point - 1)).toList),
          isDecimalChar c = true :=
        List.forall_mem_cons.2
          ⟨hfirst, List.forall_mem_cons.2 ⟨rfl, List.forall_mem_append.2 ⟨hmore, hexp⟩⟩⟩
      exact ⟨⟨d, _, rfl, hd⟩, hchars, .inl (by simp [exponentText])⟩

theorem isDecimal_text (s : Scaled) : IsDecimal (s.text exactLayout) := by
  have hdigits : Digits (Nat.toDigits 10 s.digits) := fun c => isDigit_of_mem_toDigits
  unfold Scaled.text
  dsimp only
  split
  · exact isDecimal_positionalText hdigits Nat.toDigits_ne_nil _
  · exact isDecimal_exponentText hdigits Nat.toDigits_ne_nil _

/-! ## Floats by their bits -/

section Bits

open Float.Model (Format UnpackedFloat)
open Float.Model.UnpackedFloat (unpackExponent unpackMantissa packedNaN)

variable {b : BitVec Format.binary64.numBits}

theorem toNat_of_unpackExponent (h : unpackExponent b = -1#_) :
    b.toNat / 2 ^ 52 % 2 ^ 11 = 2047 := by
  have hnat := congrArg BitVec.toNat h
  simpa [unpackExponent, Nat.shiftRight_eq_div_pow] using hnat

theorem toNat_of_unpackMantissa (h : unpackMantissa b = 0#_) : b.toNat % 2 ^ 52 = 0 := by
  have hnat := congrArg BitVec.toNat h
  simpa [unpackMantissa] using hnat

/-- The exponent and the mantissa tell infinite and undefined values. -/
theorem unpack_cases (b : BitVec Format.binary64.numBits) :
    (unpackExponent b = -1#_ ∧ unpackMantissa b = 0#_
      ∧ (UnpackedFloat.unpack Format.binary64 b).isNaN = false) ∨
    (unpackExponent b = -1#_ ∧ unpackMantissa b ≠ 0#_
      ∧ (UnpackedFloat.unpack Format.binary64 b).isInf = false) ∨
    ((UnpackedFloat.unpack Format.binary64 b).isNaN = false
      ∧ (UnpackedFloat.unpack Format.binary64 b).isInf = false) := by
  unfold UnpackedFloat.unpack
  dsimp only
  by_cases hexp : unpackExponent b = -1#_
  · by_cases hfraction : unpackMantissa b = 0#_
    · rw [if_pos hexp, if_pos hfraction]
      exact .inl ⟨hexp, hfraction, rfl⟩
    · rw [if_pos hexp, if_neg hfraction]
      exact .inr (.inl ⟨hexp, hfraction, rfl⟩)
  · rw [if_neg hexp]
    by_cases hsmall : unpackExponent b = 0#_
    · rw [if_pos hsmall]
      by_cases hfraction : unpackMantissa b = 0#_
      · rw [dif_pos hfraction]
        exact .inr (.inr ⟨rfl, rfl⟩)
      · rw [dif_neg hfraction]
        exact .inr (.inr ⟨rfl, rfl⟩)
    · rw [if_neg hsmall]
      exact .inr (.inr ⟨rfl, rfl⟩)

/-- There is one undefined value. -/
theorem toBits_of_isNaN {x : Float} (h : x.isNaN = true) :
    x.toBits.toBitVec = packedNaN Format.binary64 := by
  have hnan : (UnpackedFloat.unpack Format.binary64 x.toBits.toBitVec).isNaN = true := h
  rcases unpack_cases x.toBits.toBitVec with ⟨-, -, hnot⟩ | ⟨hexp, hfraction, -⟩ | ⟨hnot, -⟩
  · rw [hnot] at hnan
    cases hnan
  · exact x.toModel.valid.eq_packedNaN hexp hfraction
  · rw [hnot] at hnan
    cases hnan

/-- There is one infinite magnitude. -/
theorem magnitude_of_isInf {x : Float} (h : x.isInf = true) :
    x.toBits.toNat % 2 ^ 63 = 2047 * 2 ^ 52 := by
  have hinf : (UnpackedFloat.unpack Format.binary64 x.toBits.toBitVec).isInf = true := h
  rcases unpack_cases x.toBits.toBitVec with ⟨hexp, hfraction, -⟩ | ⟨-, -, hnot⟩ | ⟨-, hnot⟩
  · have hhigh : x.toBits.toNat / 2 ^ 52 % 2 ^ 11 = 2047 := toNat_of_unpackExponent hexp
    have hlow : x.toBits.toNat % 2 ^ 52 = 0 := toNat_of_unpackMantissa hfraction
    omega
  · rw [hnot] at hinf
    cases hinf
  · rw [hnot] at hinf
    cases hinf

end Bits

theorem eq_of_toBits {x y : Float} (h : x.toBits.toBitVec = y.toBits.toBitVec) : x = y := by
  obtain ⟨⟨bits, hx⟩⟩ := x
  obtain ⟨⟨bits', hy⟩⟩ := y
  obtain rfl : bits = bits' := UInt64.toBitVec_inj.1 h
  rfl

/-! ## Texts of floats -/

/-- The text of a finite magnitude. -/
def magnitudeText (n : Nat) : List Char :=
  if n = 0 then ['0', '.', '0'] else (Binary.ofBits n).shortest.text exactLayout

theorem isDecimal_magnitudeText (n : Nat) : IsDecimal (magnitudeText n) := by
  unfold magnitudeText
  split
  · exact ⟨⟨'0', _, rfl, rfl⟩, List.all_eq_true.1 rfl, .inl (by simp)⟩
  · exact isDecimal_text _

theorem lower_ofBits_pos {n : Nat} (hpos : 0 < n) (hn : n < 2 ^ 63) :
    0 < (Binary.ofBits n).lower := by
  have hmantissa : 0 < (Binary.ofBits n).mantissa := by
    by_cases h : n < 2 ^ 52
    · rw [Binary.ofBits_subnormal h]
      exact hpos
    · rw [Binary.ofBits_normal (by omega) hn]
      exact Nat.add_pos_right _ (by positivity)
  have hnum : 0 < 4 * (Binary.ofBits n).mantissa - (if (Binary.ofBits n).narrow then 1 else 2) := by
    split <;> omega
  exact mul_pos (Nat.cast_pos.2 hnum) (zpow_pos (by norm_num) _)

theorem decimalValue_magnitudeText_zero : decimalValue (magnitudeText 0) = 0 := by
  have hvalue := decimalValue_point (digits_replicate 1) (digits_replicate 1)
  rw [← List.replicate_add, digitsValue_replicate, Nat.cast_zero, zero_mul] at hvalue
  exact hvalue

theorem rounds_magnitudeText {n : Nat} (hpos : 0 < n) :
    (Binary.ofBits n).Rounds (decimalValue (magnitudeText n)) := by
  rw [magnitudeText, if_neg (by omega), decimalValue_text]
  exact Binary.rounds_shortest (Binary.exponent_ofBits n)

theorem decimalValue_magnitudeText_pos {n : Nat} (hpos : 0 < n) (hn : n < 2 ^ 63) :
    0 < decimalValue (magnitudeText n) :=
  (lower_ofBits_pos hpos hn).trans_le (rounds_magnitudeText hpos).le.1

theorem magnitudeText_injective {m n : Nat} (hm : m < 2 ^ 63) (hn : n < 2 ^ 63)
    (h : magnitudeText m = magnitudeText n) : m = n := by
  have hvalue := congrArg decimalValue h
  rcases Nat.eq_zero_or_pos m with rfl | hmpos <;> rcases Nat.eq_zero_or_pos n with rfl | hnpos
  · rfl
  · rw [decimalValue_magnitudeText_zero] at hvalue
    exact absurd hvalue (decimalValue_magnitudeText_pos hnpos hn).ne
  · rw [decimalValue_magnitudeText_zero] at hvalue
    exact absurd hvalue (decimalValue_magnitudeText_pos hmpos hm).ne'
  · have hrounds := rounds_magnitudeText hmpos
    rw [hvalue] at hrounds
    exact Binary.eq_of_rounds hm hn hrounds (rounds_magnitudeText hnpos)

/-- The minus sign of a float with such bits. -/
def signText (bits : Nat) : List Char :=
  if bits < 2 ^ 63 then [] else ['-']

/-- The text of a float, its sign apart. -/
def unsignedText (x : Float) : List Char :=
  if x.isInf then ['i', 'n', 'f'] else magnitudeText (x.toBits.toNat % 2 ^ 63)

theorem toList_exactText (x : Float) :
    (exactText x).toList
      = if x.isNaN then ['N', 'a', 'N'] else signText x.toBits.toNat ++ unsignedText x := by
  have hsign : (if x.toBits.toNat < 2 ^ 63 then "" else "-").toList = signText x.toBits.toNat := by
    unfold signText
    split <;> rfl
  simp only [exactText, floatText, unsignedText, magnitudeText, Nat.pow_eq]
  split
  · rfl
  split
  · rw [String.toList_append, hsign]
    rfl
  split
  · rw [String.toList_append, hsign]
    rfl
  · rw [String.toList_append, hsign, String.toList_ofList]

/-- Without its sign, a float starts with a digit, or it is infinite. -/
theorem unsignedText_eq_cons (x : Float) :
    ∃ c cs, unsignedText x = c :: cs ∧ (c.isDigit = true ∨ c = 'i') := by
  unfold unsignedText
  split
  · exact ⟨'i', _, rfl, .inr rfl⟩
  · obtain ⟨d, ds, htext, hd⟩ := (isDecimal_magnitudeText (x.toBits.toNat % 2 ^ 63)).start
    exact ⟨d, ds, htext, .inl hd⟩

theorem unsignedText_ne_cons (x : Float) {c : Char} (hdigit : c.isDigit = false) (hc : c ≠ 'i')
    (cs : List Char) : unsignedText x ≠ c :: cs := by
  intro h
  obtain ⟨d, ds, htext, hd⟩ := unsignedText_eq_cons x
  rw [htext] at h
  obtain ⟨rfl, -⟩ := List.cons.inj h
  rcases hd with hd | hd
  · rw [hd] at hdigit
    cases hdigit
  · exact hc hd

theorem inf_ne_magnitudeText (n : Nat) : ['i', 'n', 'f'] ≠ magnitudeText n := by
  intro h
  obtain ⟨d, ds, htext, hd⟩ := (isDecimal_magnitudeText n).start
  rw [htext] at h
  obtain ⟨rfl, -⟩ := List.cons.inj h
  cases hd

theorem unsignedText_injective {x y : Float} (h : unsignedText x = unsignedText y) :
    x.toBits.toNat % 2 ^ 63 = y.toBits.toNat % 2 ^ 63 := by
  have hm : x.toBits.toNat % 2 ^ 63 < 2 ^ 63 := Nat.mod_lt _ (by norm_num)
  have hn : y.toBits.toNat % 2 ^ 63 < 2 ^ 63 := Nat.mod_lt _ (by norm_num)
  unfold unsignedText at h
  split at h <;> split at h
  · rw [magnitude_of_isInf ‹_›, magnitude_of_isInf ‹_›]
  · exact absurd h (inf_ne_magnitudeText _)
  · exact absurd h.symm (inf_ne_magnitudeText _)
  · exact magnitudeText_injective hm hn h

/-- The sign and the magnitude are read off the text. -/
theorem signedText_injective {x y : Float} (h : signText x.toBits.toNat ++ unsignedText x
    = signText y.toBits.toNat ++ unsignedText y) : x.toBits.toNat = y.toBits.toNat := by
  have hx : x.toBits.toNat < 2 ^ 64 := x.toBits.toNat_lt
  have hy : y.toBits.toNat < 2 ^ 64 := y.toBits.toNat_lt
  unfold signText at h
  split at h <;> split at h
  · have hmag := unsignedText_injective h
    omega
  · exact absurd h (unsignedText_ne_cons x rfl (by decide) _)
  · exact absurd h.symm (unsignedText_ne_cons y rfl (by decide) _)
  · have hmag := unsignedText_injective (List.cons.inj h).2
    omega

theorem nan_ne_signedText (x : Float) :
    ['N', 'a', 'N'] ≠ signText x.toBits.toNat ++ unsignedText x := by
  intro h
  unfold signText at h
  split at h
  · exact unsignedText_ne_cons x rfl (by decide) _ h.symm
  · cases h

theorem exactText_injective {x y : Float} (h : exactText x = exactText y) : x = y := by
  have hlist := congrArg String.toList h
  rw [toList_exactText, toList_exactText] at hlist
  split at hlist <;> split at hlist
  · exact eq_of_toBits ((toBits_of_isNaN ‹_›).trans (toBits_of_isNaN ‹_›).symm)
  · exact absurd hlist (nan_ne_signedText y)
  · exact absurd hlist.symm (nan_ne_signedText x)
  · exact eq_of_toBits (BitVec.eq_of_toNat_eq (signedText_injective hlist))

/-! ## Texts of numbers -/

/-- The characters that texts of numbers consist of. -/
def isNumeralChar (c : Char) : Bool :=
  isDecimalChar c || ['i', 'n', 'f', 'N', 'a'].contains c

/-- The text starts like that of a number. -/
def startsNumeral (cs : List Char) : Bool :=
  ['N', 'a'].isPrefixOf cs || cs.head?.any fun c => c.isDigit || c == '-' || c == 'i'

theorem isNumeralChar_of_isDecimalChar {cs : List Char} (h : ∀ c ∈ cs, isDecimalChar c = true) :
    ∀ c ∈ cs, isNumeralChar c = true := by
  intro c hc
  rw [isNumeralChar, h c hc, Bool.true_or]

theorem isNumeralChar_wordText (n : Int64) : ∀ c ∈ (wordText n).toList, isNumeralChar c = true :=
  isNumeralChar_of_isDecimalChar (isDecimalChar_toString n.toInt)

theorem isNumeralChar_exactText (x : Float) :
    ∀ c ∈ (exactText x).toList, isNumeralChar c = true := by
  rw [toList_exactText, signText, unsignedText]
  split
  · exact List.all_eq_true.1 rfl
  rw [List.forall_mem_append]
  constructor
  · split <;> exact List.all_eq_true.1 rfl
  · split
    · exact List.all_eq_true.1 rfl
    · exact isNumeralChar_of_isDecimalChar (isDecimal_magnitudeText _).chars

theorem startsNumeral_wordText (n : Int64) (r : List Char) :
    startsNumeral ((wordText n).toList ++ r) = true := by
  rw [toList_wordText, startsNumeral, Bool.or_eq_true]
  right
  split
  · rfl
  · obtain ⟨d, ds, hds⟩ := List.exists_cons_of_ne_nil (Nat.toDigits_ne_nil (n := n.toInt.natAbs))
    have hd : d.isDigit = true := isDigit_of_mem_toDigits (hds ▸ List.mem_cons_self)
    simp [hds, hd]

theorem startsNumeral_exactText (x : Float) (r : List Char) :
    startsNumeral ((exactText x).toList ++ r) = true := by
  rw [toList_exactText, signText, startsNumeral, Bool.or_eq_true]
  split
  · exact .inl rfl
  · right
    split
    · obtain ⟨c, cs, htext, hc⟩ := unsignedText_eq_cons x
      rcases hc with hc | hc <;> simp [htext, hc]
    · rfl

theorem exists_mark_unsignedText (x : Float) :
    ∃ c ∈ unsignedText x, c.isDigit = false ∧ c ≠ '-' := by
  unfold unsignedText
  split
  · exact ⟨'i', by simp, rfl, by decide⟩
  · rcases (isDecimal_magnitudeText (x.toBits.toNat % 2 ^ 63)).mark with hpoint | hexp
    · exact ⟨'.', hpoint, rfl, by decide⟩
    · exact ⟨'e', hexp, rfl, by decide⟩

theorem exists_mark_exactText (x : Float) :
    ∃ c ∈ (exactText x).toList, c.isDigit = false ∧ c ≠ '-' := by
  rw [toList_exactText]
  split
  · exact ⟨'N', by simp, rfl, by decide⟩
  · obtain ⟨c, hc, hmark⟩ := exists_mark_unsignedText x
    exact ⟨c, List.mem_append_right _ hc, hmark⟩

/-- A point, an exponent or a word tells a float from an integer. -/
theorem exactText_ne_wordText (x : Float) (n : Int64) : exactText x ≠ wordText n := by
  intro h
  obtain ⟨c, hc, hdigit, hminus⟩ := exists_mark_exactText x
  rw [h, toList_wordText] at hc
  rcases List.mem_append.1 hc with hsign | hdigits
  · split at hsign
    · exact hminus (List.mem_singleton.1 hsign)
    · cases hsign
  · rw [isDigit_of_mem_toDigits hdigits] at hdigit
    cases hdigit

end AccessRules.Decimal
