import AccessRules.Proofs.Token.Reading

set_option autoImplicit false

/-! # What reading a token takes

Whatever is read is a lexeme of the right form, and it takes up its written form, no more and no
less: `Cursor.readToken_eq_ok`. Together with what is skipped before it this is the whole effect of
`Cursor.next`. `Cursor.Scans` is the repetition of `next` without a bound, and the tokens of a text
are what it comes to: `Source.scans_tokens`. -/

namespace AccessRules

open Cursor (byteCount nul)

namespace Lexeme

theorem byteCount_written (l : Lexeme) :
    byteCount l.written = l.margin + byteCount l.text.toList + l.margin := by
  unfold written margin
  cases l.kind <;>
    simp [show '"'.utf8Size = 1 from rfl, show '\''.utf8Size = 1 from rfl, Nat.add_assoc]

theorem written_of_bare {l : Lexeme} (hstring : l.kind ≠ .string) (hplace : l.kind ≠ .place) :
    l.written = l.text.toList ∧ l.margin = 0 := by
  unfold written margin
  cases hkind : l.kind with
  | string => exact absurd hkind hstring
  | place => exact absurd hkind hplace
  | _ => exact ⟨rfl, rfl⟩

/-- The columns that reading the lexeme goes on by: a place counts its characters, anything else
    its bytes. -/
def columns (l : Lexeme) : Nat :=
  match l.kind with
  | .place => l.written.length
  | _ => byteCount l.written

theorem columns_of_not_place {l : Lexeme} (h : l.kind ≠ .place) :
    l.columns = byteCount l.written := by
  unfold columns
  cases hkind : l.kind with
  | place => exact absurd hkind h
  | _ => rfl

/-- The written form stays within a line: it has neither a line feed nor a NUL character, and it
    does not end with half a line end. -/
structure InLine (l : Lexeme) : Prop where
  no_line : '\n' ∉ l.written
  no_nul : nul ∉ l.written
  no_return : l.written.getLast? ≠ some '\r'

theorem inLine_of_bare {l : Lexeme} (h : ∀ x ∈ l.written, x ∉ Cursor.skipped) : l.InLine where
  no_line hmem := h _ hmem (by decide)
  no_nul hmem := h _ hmem (by decide)
  no_return hlast := h _ (List.mem_of_getLast? hlast) (by decide)

theorem inLine_of_quoted {l : Lexeme} {q : Char} (hq : q ∉ Cursor.skipped)
    (hwritten : l.written = q :: l.text.toList ++ [q])
    (h : ∀ x ∈ l.text.toList, x ≠ nul ∧ x ≠ '\n') : l.InLine := by
  have hnot : ∀ x ∈ Cursor.skipped, x ∉ l.text.toList → x ∉ l.written := by
    intro x hx htext
    have hne : x ≠ q := fun h => hq (h ▸ hx)
    rw [hwritten]
    simp [hne, htext]
  refine ⟨?_, ?_, ?_⟩
  · exact hnot _ (by decide) fun hmem => (h _ hmem).2 rfl
  · exact hnot _ (by decide) fun hmem => (h _ hmem).1 rfl
  · rw [hwritten, List.getLast?_concat]
    exact fun h => hq (Option.some.inj h ▸ by decide)

end Lexeme

theorem no_break_of_stringBody {cs : List Char} (h : StringBody cs) :
    ∀ x ∈ cs, x ≠ nul ∧ x ≠ '\n' := by
  have hhex : ∀ x, JsonString.isHexDigit x = true → x ≠ nul ∧ x ≠ '\n' := fun x hx =>
    ⟨fun h => absurd hx (by rw [h]; decide), fun h => absurd hx (by rw [h]; decide)⟩
  induction h with
  | nil => simp
  | code hall _ ih =>
      simp only [List.all_cons, List.all_nil, Bool.and_eq_true] at hall
      obtain ⟨ha, hb, hd, he, -⟩ := hall
      simp only [List.forall_mem_cons]
      exact ⟨by decide, by decide, hhex _ ha, hhex _ hb, hhex _ hd, hhex _ he, ih⟩
  | @simple e cs he _ ih =>
      have hne : e ≠ nul ∧ e ≠ '\n' :=
        ⟨fun h => absurd he (by rw [h]; decide), fun h => absurd he (by rw [h]; decide)⟩
      simp only [List.forall_mem_cons]
      exact ⟨by decide, hne, ih⟩
  | @plain x cs _ _ hlow _ ih =>
      have hne : x ≠ nul ∧ x ≠ '\n' :=
        ⟨fun h => absurd hlow (by rw [h]; decide), fun h => absurd hlow (by rw [h]; decide)⟩
      exact List.forall_mem_cons.2 ⟨hne, ih⟩

/-! ## Characters outside quotes -/

namespace Cursor

/-- A character of identifiers, numbers and symbols. -/
def isBare (x : Char) : Bool :=
  isIdentChar x || x = '.' || x = '|' || singleSymbols.contains x

theorem not_mem_skipped_of_isBare {x : Char} (h : isBare x = true) : x ∉ skipped := by
  have hall : skipped.all (fun x => isBare x = false) = true := by decide
  intro hx
  have hnot : isBare x = false := of_decide_eq_true (List.all_eq_true.1 hall x hx)
  exact Bool.false_ne_true (hnot.symm.trans h)

theorem utf8Size_of_isBare {x : Char} (h : isBare x = true) : x.utf8Size = 1 := by
  have hall : ('_' :: '.' :: '|' :: singleSymbols).all (fun x => x.utf8Size = 1) = true := by
    decide
  have hmark : x.isAlphanum = true ∨ x ∈ '_' :: '.' :: '|' :: singleSymbols := by
    simpa [isBare, isIdentChar, or_assoc] using h
  rcases hmark with hx | hx
  · refine Char.utf8Size_eq_one_iff.2 ?_
    delta Char.isAlphanum Char.isAlpha Char.isUpper Char.isLower Char.isDigit at hx
    grind
  · exact of_decide_eq_true (List.all_eq_true.1 hall x hx)

theorem isBare_of_numeral {cs : List Char} (h : IsNumeral cs) (hstart : startsNumber cs = true) :
    ∀ x ∈ cs, isBare x = true := by
  have hdigit : ∀ x : Char, x.isDigit = true → isBare x = true := by
    intro x hx
    simp [isBare, isIdentChar, Char.isAlphanum, hx]
  have hmark : ∀ x ∈ ['-', '+', '.', 'e', 'E'], isBare x = true :=
    List.all_eq_true.1 (by decide)
  obtain ⟨_, fraction, exponent, rfl, ⟨first, ds, rfl, -, hds⟩, hfraction, hexponent⟩ := h
  have hfirst : isBare first = true := by
    obtain ⟨d, more, hd, hcs | hcs⟩ := startsNumber_iff.1 hstart
    · exact hdigit _ ((List.cons.inj hcs).1 ▸ hd)
    · exact (List.cons.inj hcs).1 ▸ by decide
  intro x hx
  rcases List.mem_append.1 hx with hx | hx
  · rcases List.mem_cons.1 hx with rfl | hx
    · exact hfirst
    · exact hdigit x (hds x hx)
  rcases List.mem_append.1 hx with hx | hx
  · rcases hfraction with rfl | ⟨fs, rfl, -, hfs⟩
    · cases hx
    · rcases List.mem_cons.1 hx with rfl | hx
      · decide
      · exact hdigit x (hfs x hx)
  · rcases hexponent with rfl | ⟨mark, sign, es, rfl, hexp, hsign, hes⟩
    · cases hx
    · rcases List.mem_cons.1 hx with rfl | hx
      · exact hmark x (by rcases hexp with rfl | rfl <;> simp)
      rcases List.mem_append.1 hx with hx | hx
      · exact hmark x (by rcases hsign with rfl | rfl | rfl <;> simp_all)
      · exact hdigit x (hes x hx)

end Cursor

namespace Lexeme

/-- Only quotes let other characters in. -/
theorem Lexed.isBare {l : Lexeme} (h : l.Lexed) (hstring : l.kind ≠ .string)
    (hplace : l.kind ≠ .place) : ∀ x ∈ l.written, Cursor.isBare x = true := by
  cases h with
  | single h =>
      have hall : Cursor.singleSymbols.all Cursor.isBare = true := by decide
      obtain ⟨x, hx, hsingle⟩ := List.mem_map.1 h
      rw [symbol, written, ← hsingle]
      exact List.forall_mem_singleton.2 (List.all_eq_true.1 hall x hx)
  | double h =>
      have hall : Cursor.doubleSymbols.all (fun d => d.all Cursor.isBare) = true := by decide
      exact List.all_eq_true.1 (List.all_eq_true.1 hall _ h)
  | ident h =>
      obtain ⟨first, cs, hlist, hfirst, hall⟩ := h
      have hident : ∀ x ∈ first :: cs, Cursor.isIdentChar x = true :=
        List.forall_mem_cons.2 ⟨Cursor.isIdentChar_of_isIdentStart hfirst, hall⟩
      intro x hx
      rw [Lexeme.ident, written, hlist] at hx
      simp [Cursor.isBare, hident x hx]
  | number hstart hnumeral _ => exact Cursor.isBare_of_numeral hnumeral hstart
  | string _ _ => exact absurd rfl hstring
  | place _ => exact absurd rfl hplace

theorem Lexed.inLine {l : Lexeme} (h : l.Lexed) : l.InLine := by
  by_cases hquoted : l.kind = .string ∨ l.kind = .place
  · cases h with
    | string hbody _ =>
        exact inLine_of_quoted (q := '"') (by decide) rfl (no_break_of_stringBody hbody)
    | place h =>
        exact inLine_of_quoted (q := '\'') (by decide) rfl fun x hx => (h x hx).2
    | _ => exact absurd hquoted (not_or.2 ⟨TokenKind.noConfusion, TokenKind.noConfusion⟩)
  · rw [not_or] at hquoted
    exact inLine_of_bare fun x hx =>
      Cursor.not_mem_skipped_of_isBare (h.isBare hquoted.1 hquoted.2 x hx)

end Lexeme

namespace Cursor

variable {c c' : Cursor} {t : Token}

/-- From `c` to `c'` the written form of the token was read, and the token says where it stood. -/
structure Took (c : Cursor) (t : Token) (c' : Cursor) : Prop where
  rest : c.rest = t.lexeme.written ++ c'.rest
  start : t.start = c.offset + t.lexeme.margin
  stop : t.stop = t.start + byteCount t.text.toList
  line : t.line = c.line
  col : t.col = c.col + t.lexeme.margin
  next_offset : c'.offset = c.offset + byteCount t.lexeme.written
  next_line : c'.line = c.line
  next_col : c'.col = c.col + t.lexeme.columns

theorem took_take {kind : TokenKind} {taken : List Char} (hstring : kind ≠ .string)
    (hplace : kind ≠ .place) (h : taken <+: c.rest) :
    c.Took (c.take kind taken).1 (c.take kind taken).2 := by
  obtain ⟨hwritten, hmargin⟩ :=
    Lexeme.written_of_bare (l := (c.take kind taken).1.lexeme) hstring hplace
  have htext : (c.take kind taken).1.text.toList = taken := String.toList_ofList
  have hwritten : (c.take kind taken).1.lexeme.written = taken := hwritten.trans htext
  exact {
    rest := by rw [hwritten]; exact (List.prefix_iff_eq_append.1 h).symm
    start := by rw [hmargin]; rfl
    stop := by rw [htext]; rfl
    line := rfl
    col := by rw [hmargin]; rfl
    next_offset := by rw [hwritten]; rfl
    next_line := rfl
    next_col := by rw [Lexeme.columns_of_not_place hplace, hwritten]; rfl }

/-! ## One token -/

theorem readNumber_eq_ok (hstart : startsNumber c.rest = true) (h : c.readNumber = .ok (t, c')) :
    c.Took t c' ∧ t.lexeme.Lexed := by
  have hne : c.rest ≠ [] := by
    intro hnil
    rw [hnil] at hstart
    cases hstart
  have htext : (c.take .number (numberText c.rest)).1.text.toList = numberText c.rest :=
    String.toList_ofList
  have hnumeral := isNumeral_numberText hne
  have hstarts := startsNumber_numberText hstart
  simp only [readNumber] at h
  split at h
  · cases h
  · split at h
    · rename_i hread
      cases h
      refine ⟨took_take (by decide) (by decide) (isPrefix_numberText c.rest), ?_⟩
      rw [← htext] at hnumeral hstarts hread
      exact .number hstarts hnumeral hread
    · cases h

/-- A text between quotes takes up the quotes too. -/
theorem took_quoted {kind : TokenKind} {q : Char} {inside rest : List Char} {col' : Nat}
    (hkind : kind = .string ∧ q = '"' ∨ kind = .place ∧ q = '\'')
    (hrest : c.rest = q :: (inside ++ q :: rest))
    (hcol : col' = c.col + (Lexeme.mk kind (String.ofList inside)).columns) :
    c.Took ⟨kind, String.ofList inside, c.line, c.col + 1, c.offset + 1,
        c.offset + 1 + byteCount inside⟩
      ⟨rest, c.offset + 2 + byteCount inside, c.line, col'⟩ := by
  have hsize : q.utf8Size = 1 := by rcases hkind with ⟨-, rfl⟩ | ⟨-, rfl⟩ <;> rfl
  have hbytes : byteCount [q] = 1 := hsize
  have hwritten : (Lexeme.mk kind (String.ofList inside)).written = q :: inside ++ [q] := by
    rcases hkind with ⟨rfl, rfl⟩ | ⟨rfl, rfl⟩ <;> simp [Lexeme.written]
  have hmargin : (Lexeme.mk kind (String.ofList inside)).margin = 1 := by
    rcases hkind with ⟨rfl, -⟩ | ⟨rfl, -⟩ <;> rfl
  exact {
    rest := by
      rw [hrest, Token.lexeme, hwritten]
      simp
    start := by rw [Token.lexeme, hmargin]
    stop := by simp
    line := rfl
    col := by rw [Token.lexeme, hmargin]
    next_offset := by
      rw [Token.lexeme, hwritten, byteCount_append, byteCount_cons, hbytes, hsize]
      show c.offset + 2 + byteCount inside = c.offset + (1 + byteCount inside + 1)
      omega
    next_line := rfl
    next_col := hcol }

theorem readString_eq_ok {cs : List Char} (hrest : c.rest = '"' :: cs)
    (h : c.readString = .ok (t, c')) : c.Took t c' ∧ t.lexeme.Lexed := by
  simp only [readString, hrest, List.drop_succ_cons, List.drop_zero] at h
  split at h
  · cases h
  · rename_i inside rest hinside
    obtain ⟨hbody, rfl⟩ := stringBody_of_stringInside hinside
    split at h
    · cases h
    · rename_i value hdecode
      cases h
      refine ⟨took_quoted (.inl ⟨rfl, rfl⟩) hrest ?_, ?_⟩
      · rw [Lexeme.columns_of_not_place TokenKind.noConfusion, Lexeme.byteCount_written,
          String.toList_ofList]
        show _ = c.col + (1 + byteCount inside + 1)
        omega
      rw [← String.toList_ofList (l := inside)] at hbody hdecode
      exact .string hbody hdecode

theorem readPlace_eq_ok {cs : List Char} (hrest : c.rest = '\'' :: cs)
    (h : c.readPlace = .ok (t, c')) : c.Took t c' ∧ t.lexeme.Lexed := by
  simp only [readPlace, hrest, List.drop_succ_cons, List.drop_zero] at h
  split at h
  · rename_i rest hdrop
    cases h
    have hpre := List.takeWhile_prefix (l := cs) fun x => x != '\'' && x != nul && x != '\n'
    have hsplit := List.prefix_iff_eq_append.1 hpre
    rw [hdrop] at hsplit
    refine ⟨took_quoted (.inr ⟨rfl, rfl⟩) (hrest.trans (congrArg _ hsplit.symm)) ?_, .place ?_⟩
    · simp only [Lexeme.columns, Lexeme.written, String.toList_ofList, List.length_append,
        List.length_cons, List.length_nil]
      omega
    intro x hx
    rw [String.toList_ofList] at hx
    simpa [and_assoc] using List.mem_takeWhile_imp hx
  · cases h

theorem symbol?_eq_some {cs taken : List Char} (h : symbol? cs = some taken) :
    taken <+: cs ∧ (taken ∈ doubleSymbols ∨ taken ∈ singleSymbols.map ([·])) := by
  unfold symbol? at h
  split at h
  · rename_i hdouble
    cases h
    exact ⟨List.take_prefix 2 cs, .inl (List.contains_iff_mem.1 hdouble)⟩
  · split at h
    · rename_i x rest _
      split at h
      · rename_i hsingle
        cases h
        exact ⟨List.prefix_append [x] rest,
          .inr (List.mem_map.2 ⟨x, List.contains_iff_mem.1 hsingle, rfl⟩)⟩
      · cases h
    · cases h

/-- What is read is a lexeme, or the end of the text. -/
theorem readToken_eq_ok (h : c.readToken = .ok (t, c')) :
    c.Took t c' ∧ (t.lexeme.Lexed ∨ t.IsEnd ∧ Exhausted c'.rest) := by
  have hend : c.Took ⟨.eof, "", c.line, c.col, c.offset, c.offset⟩ c :=
    ⟨rfl, rfl, rfl, rfl, rfl, rfl, rfl, rfl⟩
  unfold readToken at h
  split at h
  · rename_i hrest
    cases h
    exact ⟨hend, .inr ⟨⟨rfl, rfl⟩, by simp [Exhausted, hrest]⟩⟩
  rename_i first cs hrest
  split at h
  · rename_i hnul
    cases h
    exact ⟨hend, .inr ⟨⟨rfl, rfl⟩, by simp [Exhausted, hrest, hnul]⟩⟩
  split at h
  · rename_i hnumber
    exact (readNumber_eq_ok hnumber h).imp_right .inl
  split at h
  · rename_i taken hsymbol
    cases h
    obtain ⟨hpre, hmem⟩ := symbol?_eq_some hsymbol
    refine ⟨took_take (by decide) (by decide) hpre, .inl ?_⟩
    rw [← String.toList_ofList (l := taken)] at hmem
    exact hmem.elim .double .single
  split_ifs at h with _ hquote hplace hident
  · exact (readString_eq_ok (hquote ▸ hrest) h).imp_right .inl
  · exact (readPlace_eq_ok (hplace ▸ hrest) h).imp_right .inl
  · cases h
    refine ⟨took_take (by decide) (by decide) (List.takeWhile_prefix _), .inl (.ident ?_)⟩
    refine ⟨first, cs.takeWhile isIdentChar, ?_, hident, fun x => List.mem_takeWhile_imp⟩
    rw [String.toList_ofList, hrest,
      List.takeWhile_cons_of_pos (isIdentChar_of_isIdentStart hident)]

/-! ## The next token -/

/-- One call of `next`: it passes over `gap` and then takes the token. -/
structure Step (c : Cursor) (gap : List Char) (t : Token) (c' : Cursor) : Prop where
  rest : c.rest = gap ++ (t.lexeme.written ++ c'.rest)
  passed : Passed gap (t.lexeme.written ++ c'.rest)
  no_nul : nul ∉ gap
  start : t.start = c.offset + byteCount gap + t.lexeme.margin
  stop : t.stop = t.start + byteCount t.text.toList
  line : t.line = c.line + gap.count '\n'
  col : Spacing gap → t.col = colAfter c.col gap + t.lexeme.margin
  next_offset : c'.offset = c.offset + byteCount gap + byteCount t.lexeme.written
  next_line : c'.line = t.line
  next_col : Spacing gap → c'.col = colAfter c.col gap + t.lexeme.columns
  kind : t.lexeme.Lexed ∨ t.IsEnd ∧ Exhausted c'.rest

theorem next_eq_ok (h : c.next = .ok (t, c')) : ∃ gap, c.Step gap t c' := by
  unfold next at h
  cases hskip : c.skip with
  | error fault =>
      rw [hskip] at h
      cases h
  | ok mid =>
      rw [hskip] at h
      obtain ⟨gap, hgap, hpassed⟩ := skip_eq_ok hskip
      obtain ⟨htook, hkind⟩ := readToken_eq_ok h
      refine ⟨gap, ?_⟩
      exact {
        rest := by rw [hgap.rest, htook.rest]
        passed := htook.rest ▸ hpassed
        no_nul := hgap.no_nul
        start := by rw [htook.start, hgap.offset]
        stop := htook.stop
        line := by rw [htook.line, hgap.line]
        col hspacing := by rw [htook.col, Skipped.col_eq hskip hgap hspacing]
        next_offset := by rw [htook.next_offset, hgap.offset]
        next_line := by rw [htook.next_line, htook.line]
        next_col hspacing := by rw [htook.next_col, Skipped.col_eq hskip hgap hspacing]
        kind := hkind }

theorem Step.lexed {gap : List Char} (h : c.Step gap t c') (hkind : t.kind ≠ .eof) :
    t.lexeme.Lexed :=
  h.kind.resolve_right fun hend => hkind hend.1.1

theorem Step.isEnd {gap : List Char} (h : c.Step gap t c') (hkind : t.kind = .eof) :
    t.IsEnd ∧ Exhausted c'.rest :=
  h.kind.resolve_left fun hlexed => lexed_kind hlexed hkind

/-- Each token takes at least one character. -/
theorem Step.length_lt {gap : List Char} (h : c.Step gap t c') (hkind : t.kind ≠ .eof) :
    c'.rest.length < c.rest.length := by
  obtain ⟨first, cs, hwritten, -⟩ := written_eq_cons (h.lexed hkind)
  rw [h.rest, hwritten]
  simp only [List.length_append, List.length_cons]
  omega

/-! ## All tokens -/

/-- The tokens are what calling `next` again and again gives, up to the end or to a fault. -/
inductive Scans : Cursor → Tokens → Prop
  | fault {c : Cursor} {f : LexFault} (h : c.next = .error f) : Scans c (.fault f)
  | eof {c c' : Cursor} {t : Token} (h : c.next = .ok (t, c')) (hkind : t.kind = .eof) :
      Scans c (.eof t)
  | cons {c c' : Cursor} {t : Token} {ts : Tokens} (h : c.next = .ok (t, c'))
      (hkind : t.kind ≠ .eof) (hts : Scans c' ts) : Scans c (.cons t ts)

theorem scans_tokens {bound : Nat} (hbound : c.rest.length < bound) : c.Scans (c.tokens bound) := by
  induction bound generalizing c with
  | zero => exact absurd hbound (Nat.not_lt_zero _)
  | succ bound ih =>
      rw [tokens]
      split
      · rename_i f hnext
        exact .fault hnext
      · rename_i t c' hnext
        obtain ⟨gap, hstep⟩ := next_eq_ok hnext
        split
        · rename_i hkind
          exact .eof hnext hkind
        · rename_i hkind
          have hlt := hstep.length_lt hkind
          exact .cons hnext hkind (ih (by omega))

theorem Scans.length_le {ts : Tokens} (h : c.Scans ts) : ts.length ≤ c.rest.length := by
  induction h with
  | fault _ => exact Nat.zero_le _
  | eof _ _ => exact Nat.zero_le _
  | cons hnext hkind _ ih =>
      obtain ⟨gap, hstep⟩ := next_eq_ok hnext
      exact Nat.lt_of_le_of_lt ih (hstep.length_lt hkind)

theorem Scans.unique {ts ts' : Tokens} (h : c.Scans ts) (h' : c.Scans ts') : ts = ts' := by
  induction h generalizing ts' with
  | fault hnext =>
      cases h' with
      | fault hnext' => cases hnext.symm.trans hnext'; rfl
      | eof hnext' _ => cases hnext.symm.trans hnext'
      | cons hnext' _ _ => cases hnext.symm.trans hnext'
  | eof hnext hkind =>
      cases h' with
      | fault hnext' => cases hnext.symm.trans hnext'
      | eof hnext' _ => cases hnext.symm.trans hnext'; rfl
      | cons hnext' hkind' _ =>
          cases hnext.symm.trans hnext'
          exact absurd hkind hkind'
  | cons hnext hkind _ ih =>
      cases h' with
      | fault hnext' => cases hnext.symm.trans hnext'
      | eof hnext' hkind' =>
          cases hnext.symm.trans hnext'
          exact absurd hkind' hkind
      | cons hnext' _ hts' =>
          cases hnext.symm.trans hnext'
          rw [ih hts']

theorem Scans.lexed {ts : Tokens} (h : c.Scans ts) : ∀ l ∈ ts.lexemes, l.Lexed := by
  induction h with
  | fault _ => exact List.forall_mem_nil _
  | eof _ _ => exact List.forall_mem_nil _
  | cons hnext hkind _ ih =>
      obtain ⟨gap, hstep⟩ := next_eq_ok hnext
      exact List.forall_mem_cons.2 ⟨hstep.lexed hkind, ih⟩

end Cursor

theorem Lexeme.Lexed.wellFormed {t : Token} (h : t.lexeme.Lexed) : t.WellFormed := by
  obtain ⟨kind, text, line, col, start, stop⟩ := t
  cases h with
  | ident h => exact ⟨fun _ => h, TokenKind.noConfusion⟩
  | place h => exact ⟨TokenKind.noConfusion, fun _ => h⟩
  | _ => exact ⟨TokenKind.noConfusion, TokenKind.noConfusion⟩

theorem Cursor.Scans.wellFormed {c : Cursor} {ts : Tokens} (h : c.Scans ts) : ts.WellFormed := by
  induction h with
  | fault _ => trivial
  | eof _ hkind =>
      exact ⟨fun h => TokenKind.noConfusion (hkind.symm.trans h),
        fun h => TokenKind.noConfusion (hkind.symm.trans h)⟩
  | cons hnext hkind _ ih =>
      obtain ⟨gap, hstep⟩ := next_eq_ok hnext
      exact ⟨(hstep.lexed hkind).wellFormed, ih⟩

namespace Source

theorem scans_tokens (s : Source) : s.start.Scans s.tokens :=
  Cursor.scans_tokens (by rw [start, String.length_toList]; exact Nat.lt_succ_self _)

/-- Every token that is read is well formed. -/
theorem wellFormed_tokens (s : Source) : s.tokens.WellFormed :=
  s.scans_tokens.wellFormed

end Source

end AccessRules
