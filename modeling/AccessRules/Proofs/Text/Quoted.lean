import AccessRules.Proofs.Number.WordText
import AccessRules.Text.Quoted
import Mathlib.Tactic.SplitIfs

set_option autoImplicit false

/-! # Quoted texts are told apart

A character is read off the start of a text in which it was escaped: `unescape_escapeChar`. So a
quoted text ends where its own closing quote stands, whatever comes after it, and what is between
the quotes determines the text: `quoted_append_inj`. -/

namespace AccessRules.Text

/-! ## Hexadecimal digits -/

theorem digitValue_digitChar {d : Nat} (h : d < 16) : digitValue d.digitChar = d := by
  have hall : ∀ d < 16, digitValue d.digitChar = d := by decide
  exact hall d h

theorem digitsValue_toDigits_hex (n : Nat) : digitsValue 16 (Nat.toDigits 16 n) = n := by
  induction n using Nat.strongRecOn with
  | ind n ih =>
      by_cases hlt : n < 16
      · rw [Nat.toDigits_of_lt_base hlt]
        show 0 * 16 + digitValue n.digitChar = n
        rw [digitValue_digitChar hlt]
        omega
      · have hhigh := ih (n / 16) (by omega)
        rw [Nat.toDigits_of_base_le (by decide) (by omega)]
        unfold digitsValue at hhigh ⊢
        rw [List.foldl_append, hhigh, List.foldl_cons, List.foldl_nil,
          digitValue_digitChar (Nat.mod_lt n (by decide))]
        omega

theorem digitChar_ne_brace {d : Nat} (h : d < 16) : (d.digitChar != '\x7d') = true := by
  have hall : ∀ d < 16, (d.digitChar != '\x7d') = true := by decide
  exact hall d h

theorem ne_brace_of_mem_toDigits (n : Nat) :
    ∀ c ∈ Nat.toDigits 16 n, (c != '\x7d') = true := by
  induction n using Nat.strongRecOn with
  | ind n ih =>
      by_cases hlt : n < 16
      · rw [Nat.toDigits_of_lt_base hlt]
        exact List.forall_mem_singleton.2 (digitChar_ne_brace hlt)
      · rw [Nat.toDigits_of_base_le (by decide) (by omega), List.forall_mem_append]
        exact ⟨ih (n / 16) (by omega),
          List.forall_mem_singleton.2 (digitChar_ne_brace (Nat.mod_lt n (by decide)))⟩

/-! ## Reading escapes -/

/-- The character that a mark after a backslash stands for. -/
def shortEscape (mark : Char) : Char :=
  if mark = '0' then '\x00'
  else if mark = 't' then '\t'
  else if mark = 'r' then '\r'
  else if mark = 'n' then '\n'
  else mark

/-- A character with its code point between braces, and what follows. -/
def readCodePoint (cs : List Char) : Char × List Char :=
  let inner := cs.tail
  (Char.ofNat (digitsValue 16 (inner.takeWhile (· != '\x7d'))),
    (inner.dropWhile (· != '\x7d')).tail)

/-- What stands after a backslash: a code point, or a mark. -/
def readEscape : List Char → Option (Char × List Char)
  | [] => none
  | mark :: rest => some (if mark = 'u' then readCodePoint rest else (shortEscape mark, rest))

/-- The first character of an escaped text, and what follows it. -/
def unescape : List Char → Option (Char × List Char)
  | [] => none
  | c :: cs => if c = '\\' then readEscape cs else some (c, cs)

theorem readCodePoint_digits (c : Char) (r : List Char) :
    readCodePoint ('\x7b' :: (Nat.toDigits 16 c.toNat ++ '\x7d' :: r)) = (c, r) := by
  have hdigits := ne_brace_of_mem_toDigits c.toNat
  simp only [readCodePoint, List.tail_cons]
  rw [List.takeWhile_append_of_pos hdigits, List.dropWhile_append_of_pos hdigits,
    List.takeWhile_cons_of_neg (by simp), List.dropWhile_cons_of_neg (by simp), List.append_nil,
    digitsValue_toDigits_hex, Char.ofNat_toNat, List.tail_cons]

theorem unescape_codePointEscape (c : Char) (r : List Char) :
    unescape (codePointEscape c ++ r) = some (c, r) := by
  have htext : codePointEscape c ++ r
      = '\\' :: 'u' :: '\x7b' :: (Nat.toDigits 16 c.toNat ++ '\x7d' :: r) := by
    simp [codePointEscape]
  rw [htext]
  exact congrArg some (readCodePoint_digits c r)

/-- A character that is not a backslash stands for itself. -/
theorem unescape_self {c : Char} (h : c ≠ '\\') (r : List Char) :
    unescape (c :: r) = some (c, r) :=
  if_neg h

theorem unescape_escapeChar (c : Char) (r : List Char) :
    unescape (escapeChar true ['"'] c ++ r) = some (c, r) := by
  unfold escapeChar
  split_ifs with hnul htab hreturn hline hquote hshown
  · rw [hnul]; rfl
  · rw [htab]; rfl
  · rw [hreturn]; rfl
  · rw [hline]; rfl
  · have hc : c = '\\' ∨ c = '"' := by simpa using hquote
    rcases hc with rfl | rfl <;> rfl
  · exact unescape_codePointEscape c r
  · have hc : c ≠ '\\' := by
      rintro rfl
      exact hquote rfl
    exact unescape_self hc r

/-- No character is written as a quote alone. -/
theorem escapeChar_ne_quote (c : Char) (r s : List Char) :
    escapeChar true ['"'] c ++ r ≠ '"' :: s := by
  intro h
  have hread := unescape_escapeChar c r
  rw [h] at hread
  obtain ⟨rfl, -⟩ := Prod.mk.inj (Option.some.inj hread)
  cases h

/-! ## Quoted texts -/

theorem escaped_append_inj {cs ds r s : List Char}
    (h : cs.flatMap (escapeChar true ['"']) ++ '"' :: r
      = ds.flatMap (escapeChar true ['"']) ++ '"' :: s) : cs = ds ∧ r = s := by
  induction cs generalizing ds with
  | nil =>
      cases ds with
      | nil => exact ⟨rfl, (List.cons.inj h).2⟩
      | cons d ds =>
          rw [List.flatMap_cons, List.append_assoc] at h
          exact absurd h.symm (escapeChar_ne_quote d _ _)
  | cons c cs ih =>
      rw [List.flatMap_cons, List.append_assoc] at h
      cases ds with
      | nil => exact absurd h (escapeChar_ne_quote c _ _)
      | cons d ds =>
          rw [List.flatMap_cons, List.append_assoc] at h
          have hread := congrArg unescape h
          rw [unescape_escapeChar, unescape_escapeChar] at hread
          obtain ⟨rfl, hrest⟩ := Prod.mk.inj (Option.some.inj hread)
          obtain ⟨rfl, hr⟩ := ih hrest
          exact ⟨rfl, hr⟩

theorem toList_quoted (s : String) :
    (quoted s).toList = '"' :: (s.toList.flatMap (escapeChar true ['"']) ++ ['"']) := by
  rw [quoted, String.toList_ofList]
  rfl

/-- A quoted text shows where it ends. -/
theorem quoted_append_inj {a b : String} {r s : List Char}
    (h : (quoted a).toList ++ r = (quoted b).toList ++ s) : a = b ∧ r = s := by
  rw [toList_quoted, toList_quoted] at h
  simp only [List.cons_append, List.append_assoc, List.nil_append] at h
  obtain ⟨hlist, hr⟩ := escaped_append_inj (List.cons.inj h).2
  exact ⟨String.toList_inj.1 hlist, hr⟩

end AccessRules.Text
