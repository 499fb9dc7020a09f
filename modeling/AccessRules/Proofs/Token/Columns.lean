import AccessRules.Proofs.Token.Tiling
import Mathlib.Algebra.Order.Ring.Nat
import Mathlib.Data.List.DropRight

set_option autoImplicit false

/-! # Columns

The column of a token is kept while the text is read: spacing, symbols, numbers and identifiers add
what they take up, a place its characters and a string its bytes. `Source.columnAt` counts the
characters of the line instead. In a text without tabs the two differ by what the strings before
the token on its line have in bytes beyond their characters, `Token.surplusOn`: one call of `next`
keeps that difference (`Source.Measured.step`), and so do all calls (`Source.Measured.scans`). -/

namespace AccessRules

open Cursor (byteCount colAfter)

/-! ## Counting characters -/

namespace Cursor

theorem byteCount_eq_length_iff (cs : List Char) :
    byteCount cs = cs.length ↔ ∀ c ∈ cs, c.utf8Size = 1 := by
  induction cs with
  | nil => simp
  | cons c cs ih =>
      have hpos := c.utf8Size_pos
      have hle := length_le_byteCount cs
      rw [byteCount_cons, List.length_cons, List.forall_mem_cons, ← ih]
      omega

end Cursor

namespace Source

/-- The column of what follows the characters, from one: it counts the characters after the last
    line feed. -/
def columnAfter (before : List Char) : Nat :=
  1 + (before.rtakeWhile (· ≠ '\n')).length

theorem columnAfter_concat (before : List Char) (x : Char) :
    columnAfter (before ++ [x]) = if x = '\n' then 1 else columnAfter before + 1 := by
  by_cases hx : x = '\n' <;> simp [columnAfter, hx, Nat.add_assoc]

theorem columnAfter_append {cs : List Char} (hline : '\n' ∉ cs) (before : List Char) :
    columnAfter (before ++ cs) = columnAfter before + cs.length := by
  induction cs generalizing before with
  | nil => rw [List.append_nil, List.length_nil, Nat.add_zero]
  | cons x cs ih =>
      have hx : x ≠ '\n' := Ne.symm (List.ne_of_not_mem_cons hline)
      rw [List.append_cons, ih (List.not_mem_of_not_mem_cons hline), columnAfter_concat, if_neg hx,
        List.length_cons]
      omega

/-- Without tabs, skipping counts the characters of the line. -/
theorem colAfter_columnAfter {gap : List Char} (htabs : '\t' ∉ gap) (before : List Char) :
    colAfter (columnAfter before) gap = columnAfter (before ++ gap) := by
  induction gap generalizing before with
  | nil => rw [List.append_nil]; rfl
  | cons x gap ih =>
      have hx : x ≠ '\t' := Ne.symm (List.ne_of_not_mem_cons htabs)
      rw [List.append_cons, ← ih (List.not_mem_of_not_mem_cons htabs), columnAfter_concat, colAfter,
        List.foldl_cons, if_neg hx]
      rfl

end Source

/-- A start that is too far to the right stays so, up to the next line feed. -/
theorem Cursor.colAfter_add (col k : Nat) (gap : List Char) :
    colAfter (col + k) gap = colAfter col gap + if '\n' ∈ gap then 0 else k := by
  induction gap generalizing col with
  | nil => rfl
  | cons x gap ih =>
      simp only [colAfter, List.foldl_cons, List.mem_cons] at ih ⊢
      by_cases hline : x = '\n'
      · simp [hline]
      · have hiff : ('\n' = x ∨ '\n' ∈ gap) ↔ '\n' ∈ gap := or_iff_right (Ne.symm hline)
        simp only [if_neg hline, hiff, ← ih]
        split <;> congr 1 <;> omega

theorem Token.takeBytes?_append (cs ds : List Char) :
    takeBytes? (byteCount cs) (cs ++ ds) = some cs := by
  induction cs with
  | nil => rw [Cursor.byteCount_nil, takeBytes?]
  | cons c cs ih =>
      have hpos := c.utf8Size_pos
      have hbytes := Cursor.byteCount_cons c cs
      obtain ⟨n, hn⟩ : ∃ n, byteCount (c :: cs) = n + 1 := Nat.exists_eq_add_one.2 (by omega)
      have hrest : n + 1 - c.utf8Size = byteCount cs := by omega
      rw [hn, List.cons_append, takeBytes?, if_pos (by omega), hrest, ih]
      rfl

namespace Source

/-- The column of the character at an offset. -/
def columnAt (s : Source) (offset : Nat) : Nat :=
  columnAfter ((Token.takeBytes? offset s.text.toList).getD [])

theorem Slice.columnAt_eq {s : Source} {offset : Nat} {before : List Char}
    (h : s.Slice 0 offset before) : s.columnAt offset = columnAfter before := by
  obtain ⟨start, after, htext, hstart, rfl⟩ := h
  obtain rfl : start = [] := by
    have hle := Cursor.length_le_byteCount start
    exact List.eq_nil_of_length_eq_zero (by omega)
  rw [columnAt, htext, List.nil_append, List.nil_append, Token.takeBytes?_append, Option.getD_some]

end Source

/-! ## Bytes beyond characters -/

namespace Lexeme

/-- How many columns more than its characters reading the lexeme counts. -/
def surplus (l : Lexeme) : Nat :=
  match l.kind with
  | .string => byteCount l.text.toList - l.text.toList.length
  | _ => 0

theorem surplus_eq_zero_iff (l : Lexeme) :
    l.surplus = 0 ↔ (l.kind = .string → ∀ c ∈ l.text.toList, c.utf8Size = 1) := by
  have hle := Cursor.length_le_byteCount l.text.toList
  unfold surplus
  cases l.kind with
  | string =>
      simp only [forall_const, ← Cursor.byteCount_eq_length_iff]
      omega
  | _ => simp

theorem Lexed.columns_eq {l : Lexeme} (h : l.Lexed) :
    l.columns = l.written.length + l.surplus := by
  by_cases hquoted : l.kind = .string ∨ l.kind = .place
  · have hle := Cursor.length_le_byteCount l.text.toList
    have hbytes := l.byteCount_written
    unfold columns surplus
    rcases hquoted with hkind | hkind
    · simp only [margin, written, hkind, List.length_append, List.length_cons,
        List.length_nil] at hbytes ⊢
      omega
    · rw [hkind]
      rfl
  · obtain ⟨hstring, hplace⟩ := not_or.1 hquoted
    have hzero : l.surplus = 0 := l.surplus_eq_zero_iff.2 fun hkind => absurd hkind hstring
    rw [columns_of_not_place hplace, hzero, Nat.add_zero, Cursor.byteCount_eq_length_iff]
    exact fun x hx => Cursor.utf8Size_of_isBare (h.isBare hstring hplace x hx)

end Lexeme

namespace Token

/-- What the tokens on a line add to its columns beyond their characters. -/
def surplusOn (line : Nat) (ts : List Token) : Nat :=
  ((ts.filter (·.line = line)).map fun t => t.lexeme.surplus).sum

theorem surplusOn_concat (line : Nat) (ts : List Token) (t : Token) :
    surplusOn line (ts ++ [t])
      = surplusOn line ts + if t.line = line then t.lexeme.surplus else 0 := by
  by_cases h : t.line = line <;> simp [surplusOn, h]

theorem surplusOn_eq_zero_iff (line : Nat) (ts : List Token) :
    surplusOn line ts = 0 ↔ ∀ u ∈ ts, u.line = line → u.lexeme.surplus = 0 := by
  rw [surplusOn, List.sum_eq_zero_iff_forall_eq_nat, List.forall_mem_map]
  simp

end Token

/-! ## One token -/

namespace Source

variable {s : Source} {before gap after : List Char} {earlier : List Token} {t : Token}
  {c c' : Cursor}

/-- The column of a token's text is that of its written form, moved by the quote. -/
theorem Stands.columnAt_eq (h : s.Stands before t after) :
    s.columnAt t.start = columnAfter before + t.lexeme.margin := by
  obtain ⟨quote, hwritten, hbytes, hlength, hline⟩ := t.lexeme.written_eq
  have hslice : s.Slice 0 t.start (before ++ quote) := by
    refine ⟨[], t.lexeme.text.toList ++ quote ++ after, ?_, rfl, ?_⟩
    · rw [h.text, hwritten]
      simp
    · rw [List.nil_append, Cursor.byteCount_append, hbytes, h.start]
  rw [hslice.columnAt_eq, columnAfter_append hline, hlength]

/-- The cursor has passed over `before`, where the earlier tokens stand, and its column is ahead by
    what those on its line have added. -/
structure Measured (s : Source) (before : List Char) (earlier : List Token) (c : Cursor) : Prop
    extends s.At before c where
  col : c.col = columnAfter before + Token.surplusOn c.line earlier
  earlier_line : ∀ u ∈ earlier, u.line ≤ c.line

namespace Measured

theorem start (s : Source) : s.Measured [] [] s.start :=
  { s.at_start with col := rfl, earlier_line := List.forall_mem_nil _ }

/-- Where the spacing before a token leads. -/
theorem col_gap (h : s.Measured before earlier c) (hstep : c.Step gap t c')
    (htabs : '\t' ∉ s.text.toList) :
    colAfter c.col gap = columnAfter (before ++ gap) + Token.surplusOn t.line earlier := by
  have hgap : '\t' ∉ gap := by
    intro hmem
    rw [h.text, hstep.rest] at htabs
    exact htabs (List.mem_append_right _ (List.mem_append_left _ hmem))
  rw [h.col, Cursor.colAfter_add, colAfter_columnAfter hgap]
  congr 1
  split
  · rename_i hline
    -- the token is on a later line than every token before it
    symm
    rw [Token.surplusOn_eq_zero_iff]
    intro u hu heq
    have hle := h.earlier_line u hu
    have hpos := List.count_pos_iff.2 hline
    have hnext := hstep.line
    omega
  · rename_i hline
    rw [hstep.line, List.count_eq_zero.2 hline, Nat.add_zero]

theorem col_token (h : s.Measured before earlier c) (hstep : c.Step gap t c')
    (htabs : '\t' ∉ s.text.toList) (hkind : t.kind ≠ .eof) :
    t.col = s.columnAt t.start + Token.surplusOn t.line earlier := by
  rw [hstep.col (hstep.spacing hkind), h.col_gap hstep htabs, (h.stands hstep).columnAt_eq]
  omega

/-- One call of `next` adds what its token has beyond its characters. -/
theorem step (h : s.Measured before earlier c) (hstep : c.Step gap t c')
    (htabs : '\t' ∉ s.text.toList) (hkind : t.kind ≠ .eof) :
    s.Measured (before ++ gap ++ t.lexeme.written) (earlier ++ [t]) c' where
  toAt := h.toAt.step hstep
  col := by
    have hlexed := hstep.lexed hkind
    rw [hstep.next_col (hstep.spacing hkind), h.col_gap hstep htabs, hlexed.columns_eq,
      columnAfter_append hlexed.inLine.no_line, hstep.next_line, Token.surplusOn_concat,
      if_pos rfl]
    omega
  earlier_line := by
    have hle : c.line ≤ c'.line := by
      rw [hstep.next_line, hstep.line]
      exact Nat.le_add_right _ _
    intro u hu
    rcases List.mem_append.1 hu with hu | hu
    · exact Nat.le_trans (h.earlier_line u hu) hle
    · rw [List.mem_singleton.1 hu, hstep.next_line]

/-! ## All tokens -/

theorem scans {ts : Tokens} (h : s.Measured before earlier c) (hscans : c.Scans ts)
    (htabs : '\t' ∉ s.text.toList) {left right : List Token} (hts : ts.toList = left ++ t :: right)
    (hkind : t.kind ≠ .eof) :
    t.col = s.columnAt t.start + Token.surplusOn t.line (earlier ++ left) := by
  induction hscans generalizing before earlier left with
  | fault _ => simp [Tokens.toList] at hts
  | @eof _ _ u _ heof =>
      have hmem : t ∈ (Tokens.eof u).toList := by
        rw [hts]
        exact List.mem_append_right _ (List.mem_cons_self ..)
      rw [List.mem_singleton.1 hmem] at hkind
      exact absurd heof hkind
  | cons hnext hne _ ih =>
      obtain ⟨gap, hstep⟩ := Cursor.next_eq_ok hnext
      cases left with
      | nil =>
          obtain ⟨rfl, -⟩ := List.cons.inj hts
          rw [List.append_nil]
          exact h.col_token hstep htabs hkind
      | cons u left =>
          obtain ⟨rfl, hrest⟩ := List.cons.inj hts
          rw [List.append_cons]
          exact ih (h.step hstep htabs hne) hrest

end Measured

/-- In a text without tabs a token is shown as far to the right of where it stands as the strings
    before it on its line have bytes beyond their characters. -/
theorem col_token_exact (s : Source) (htabs : '\t' ∉ s.text.toList) {earlier later : List Token}
    {t : Token} (htokens : s.tokens.toList = earlier ++ t :: later) (hkind : t.kind ≠ .eof) :
    t.col = s.columnAt t.start + Token.surplusOn t.line earlier ∧
    (t.col = s.columnAt t.start ↔
      ∀ u ∈ earlier, u.kind = .string → u.line = t.line → ∀ c ∈ u.text.toList, c.utf8Size = 1) := by
  have hcol := (Measured.start s).scans s.scans_tokens htabs htokens hkind
  rw [List.nil_append] at hcol
  refine ⟨hcol, ?_⟩
  have hzero : t.col = s.columnAt t.start ↔ Token.surplusOn t.line earlier = 0 := by omega
  rw [hzero, Token.surplusOn_eq_zero_iff]
  refine forall₂_congr fun u _ => ?_
  rw [Lexeme.surplus_eq_zero_iff]
  exact ⟨fun h hstring hline => h hline hstring, fun h hline hstring => h hstring hline⟩

/-- A place with a character of two bytes does not move what follows it. -/
theorem col_after_place : ∃ t ∈ (Source.tokens ⟨"f", "\"a\" 'é' x"⟩).toList,
    t.kind = .ident ∧ t.col = columnAt ⟨"f", "\"a\" 'é' x"⟩ t.start := by
  have htokens : (Source.tokens ⟨"f", "\"a\" 'é' x"⟩).toList
      = [⟨.string, "a", 1, 2, 1, 2⟩, ⟨.place, "é", 1, 6, 5, 7⟩] ++
        ⟨.ident, "x", 1, 9, 9, 10⟩ :: [⟨.eof, "", 1, 10, 10, 10⟩] := rfl
  refine ⟨⟨.ident, "x", 1, 9, 9, 10⟩, by rw [htokens]; simp, rfl, ?_⟩
  refine (col_token_exact _ (by decide) htokens (by decide)).2.2 ?_
  simp [show 'a'.utf8Size = 1 from rfl]

/-- A string with one does, though there are no tabs. -/
theorem col_after_string : '\t' ∉ "\"é\" x".toList ∧
    ∃ t ∈ (Source.tokens ⟨"f", "\"é\" x"⟩).toList,
      t.kind = .ident ∧ t.col = 6 ∧ columnAt ⟨"f", "\"é\" x"⟩ t.start = 5 := by
  have htokens : (Source.tokens ⟨"f", "\"é\" x"⟩).toList
      = [⟨.string, "é", 1, 2, 1, 3⟩, ⟨.ident, "x", 1, 6, 5, 6⟩, ⟨.eof, "", 1, 7, 6, 6⟩] := rfl
  exact ⟨by decide, ⟨.ident, "x", 1, 6, 5, 6⟩, by rw [htokens]; simp, rfl, rfl, rfl⟩

end Source

end AccessRules
