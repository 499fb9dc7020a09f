import AccessRules.Proofs.Source
import AccessRules.Proofs.Token.Extent

set_option autoImplicit false

/-! # The tokens tile the text

The tokens of a text stand one after the other in it with nothing but spacing between them, and
their offsets and lines say where. `Source.Stands` is what one token says of its place. One call of
`next` gives such a token (`Source.At.step`), and along all calls `Source.Tiles` holds; what
`Source.Tiled` asks of the tokens together is read off it.

One thing goes wrong: a NUL character ends the tokens also inside a comment, which is then no
spacing. `Source.CutShort` describes such a comment, and there is one exactly if the tokens do not
tile the text. -/

namespace AccessRules

open Cursor (byteCount nul)

namespace Token

/-- Where the written form starts: before the opening quote if there is one. -/
def extentStart (t : Token) : Nat :=
  t.start - t.lexeme.margin

/-- Where the written form stops: after the closing quote if there is one. -/
def extentStop (t : Token) : Nat :=
  t.stop + t.lexeme.margin

end Token

/-- What is passed over before a token: spacing, and before the token for the end also a comment
    that no line feed ends. -/
def Skippable (gap : List Char) (t : Token) : Prop :=
  Spacing gap ∨ t.kind = .eof ∧ Unended gap

namespace Cursor.Step

variable {c c' : Cursor} {gap : List Char} {t : Token}

theorem spacing (h : c.Step gap t c') (hkind : t.kind ≠ .eof) : Spacing gap := by
  refine h.passed.resolve_right fun hend => ?_
  -- a token is never taken for the end of the text
  obtain ⟨first, cs, hwritten, hfirst⟩ := written_eq_cons (h.lexed hkind)
  have hnul : first = nul := hend.2 first (by rw [hwritten]; rfl)
  exact ne_nul_of_not_mem_skipped hfirst hnul

theorem skippable (h : c.Step gap t c') : Skippable gap t := by
  by_cases hkind : t.kind = .eof
  · exact h.passed.imp_right fun hend => ⟨hkind, hend.1⟩
  · exact .inl (h.spacing hkind)

end Cursor.Step

theorem Lexeme.written_eq (l : Lexeme) : ∃ quote, l.written = quote ++ (l.text.toList ++ quote)
    ∧ byteCount quote = l.margin ∧ quote.length = l.margin ∧ '\n' ∉ quote := by
  unfold written margin
  cases l.kind with
  | string => exact ⟨['"'], rfl, rfl, rfl, by decide⟩
  | place => exact ⟨['\''], rfl, rfl, rfl, by decide⟩
  | _ => exact ⟨[], (List.append_nil _).symm, rfl, rfl, List.not_mem_nil⟩

namespace Source

variable {s : Source} {before after gap : List Char} {t : Token} {c c' : Cursor}

/-! ## One token -/

/-- The token stands in the text between `before` and `after`. -/
structure Stands (s : Source) (before : List Char) (t : Token) (after : List Char) : Prop where
  text : s.text.toList = before ++ (t.lexeme.written ++ after)
  start : t.start = byteCount before + t.lexeme.margin
  stop : t.stop = t.start + byteCount t.text.toList
  line : t.line = 1 + before.count '\n'
  no_nul : nul ∉ before
  kind : t.lexeme.Lexed ∨ t.IsEnd ∧ Exhausted after

namespace Stands

theorem extentStart_eq (h : s.Stands before t after) : t.extentStart = byteCount before := by
  rw [Token.extentStart, h.start, Nat.add_sub_cancel]

theorem extentStop_eq (h : s.Stands before t after) :
    t.extentStop = byteCount (before ++ t.lexeme.written) := by
  have hbytes := t.lexeme.byteCount_written
  rw [Token.extentStop, h.stop, h.start, Cursor.byteCount_append, hbytes]
  show _ = byteCount before + (t.lexeme.margin + byteCount t.text.toList + t.lexeme.margin)
  omega

theorem extent (h : s.Stands before t after) :
    s.Slice t.extentStart t.extentStop t.lexeme.written :=
  ⟨before, after, h.text, h.extentStart_eq.symm, h.extentStop_eq.symm⟩

theorem gap_slice (h : s.Stands (before ++ gap) t after) :
    s.Slice (byteCount before) t.extentStart gap :=
  ⟨before, t.lexeme.written ++ after, by rw [h.text, List.append_assoc], rfl,
    h.extentStart_eq.symm⟩

theorem le_extentStart (h : s.Stands (before ++ gap) t after) :
    byteCount before ≤ t.extentStart := by
  rw [h.extentStart_eq, Cursor.byteCount_append]
  exact Nat.le_add_right _ _

theorem span (h : s.Stands before t after) : s.Slice t.start t.stop t.text.toList := by
  obtain ⟨quote, hwritten, hmargin, -, -⟩ := t.lexeme.written_eq
  refine ⟨before ++ quote, quote ++ after, ?_, ?_, ?_⟩
  · rw [h.text, hwritten]
    simp [Token.lexeme]
  · rw [Cursor.byteCount_append, hmargin, h.start]
  · rw [Cursor.byteCount_append, Cursor.byteCount_append, hmargin, h.stop, h.start]

/-- The line of a token counts the line feeds before its text. -/
theorem line_count (h : s.Stands before t after) :
    ∃ cs, s.Slice 0 t.start cs ∧ t.line = 1 + cs.count '\n' := by
  obtain ⟨quote, hwritten, hmargin, -, hquote⟩ := t.lexeme.written_eq
  refine ⟨before ++ quote, ⟨[], t.lexeme.text.toList ++ quote ++ after, ?_, rfl, ?_⟩, ?_⟩
  · rw [h.text, hwritten]
    simp
  · rw [List.nil_append, Cursor.byteCount_append, hmargin, h.start]
  · rw [List.count_append, List.count_eq_zero.2 hquote, Nat.add_zero, h.line]

theorem lexed (h : s.Stands before t after) (hkind : t.kind ≠ .eof) : t.lexeme.Lexed :=
  h.kind.resolve_right fun hend => hkind hend.1.1

theorem inLine (h : s.Stands before t after) : t.lexeme.InLine := by
  rcases h.kind with hlexed | ⟨hend, -⟩
  · exact hlexed.inLine
  · rw [hend.lexeme_eq]
    exact ⟨by decide, by decide, by decide⟩

/-- The line of a token is a part of the text that has the token in it. -/
theorem line_slice (h : s.Stands before t after) :
    ∃ start stop, s.Slice start stop (s.line (t.line - 1)).toList ∧
      (t.kind ≠ .eof → start ≤ t.start ∧ t.stop ≤ stop) := by
  have hstop := h.extentStop_eq
  obtain ⟨earlier, current, later, rest, rfl, rfl, hcount, hline⟩ :=
    exists_lineAt h.text h.inLine.no_line
  -- the end of the text may stand beyond what is shown: after a carriage return
  have hkept : ∃ kept, kept <+: current ++ (t.lexeme.written ++ later)
      ∧ kept.getLast? ≠ some '\r' ∧ (t.kind ≠ .eof → kept = current ++ t.lexeme.written) := by
    by_cases hkind : t.kind = .eof
    · exact ⟨[], List.nil_prefix, by simp, fun h => absurd hkind h⟩
    · refine ⟨_, ⟨later, List.append_assoc ..⟩, ?_, fun _ => rfl⟩
      obtain ⟨first, cs, hwritten, -⟩ := Cursor.written_eq_cons (h.lexed hkind)
      rw [List.getLast?_append_of_ne_nil _ (hwritten ▸ List.cons_ne_nil first cs)]
      exact h.inLine.no_return
  obtain ⟨kept, hkept, hlast, heq⟩ := hkept
  obtain ⟨shown, hshown, ⟨hidden, hpre⟩, hcontains⟩ := exists_line_eq hline hkept hlast
  refine ⟨byteCount earlier, byteCount (earlier ++ shown), ?_, fun hkind => ?_⟩
  · rw [h.line, Nat.add_sub_cancel_left, hcount, hshown, String.toList_ofList]
    refine ⟨earlier, hidden ++ rest, ?_, rfl, rfl⟩
    rw [hline.text, ← hpre, List.append_assoc]
  · obtain ⟨more, hmore⟩ := hcontains
    rw [heq hkind] at hmore
    have hstart := h.start
    rw [← hmore]
    simp only [Cursor.byteCount_append, Token.extentStop] at hstop hstart ⊢
    omega

/-- What is left at the end: nothing, or a NUL character and what follows it. -/
theorem rest (h : s.Stands before t after) (ht : t.IsEnd) :
    s.text.toList = before ++ after ∧ t.start = byteCount before ∧ Exhausted after := by
  refine ⟨?_, ?_, ?_⟩
  · rw [h.text, ht.lexeme_eq]
    rfl
  · rw [h.start, ht.lexeme_eq]
    rfl
  · exact (h.kind.resolve_left fun hlexed => Cursor.lexed_kind hlexed ht.1).2

end Stands

/-- The cursor has passed over `before`. -/
structure At (s : Source) (before : List Char) (c : Cursor) : Prop where
  text : s.text.toList = before ++ c.rest
  offset : c.offset = byteCount before
  line : c.line = 1 + before.count '\n'
  no_nul : nul ∉ before

theorem at_start (s : Source) : s.At [] s.start :=
  ⟨rfl, rfl, rfl, List.not_mem_nil⟩

theorem At.stands (h : s.At before c) (hstep : c.Step gap t c') :
    s.Stands (before ++ gap) t c'.rest where
  text := by rw [h.text, hstep.rest, List.append_assoc]
  start := by rw [hstep.start, h.offset, Cursor.byteCount_append]
  stop := hstep.stop
  line := by rw [hstep.line, h.line, List.count_append, Nat.add_assoc]
  no_nul := by simp [h.no_nul, hstep.no_nul]
  kind := hstep.kind

/-- One call of `next` gives a token that stands in the text and goes to its end. -/
theorem At.step (h : s.At before c) (hstep : c.Step gap t c') :
    s.At (before ++ gap ++ t.lexeme.written) c' where
  text := by rw [h.text, hstep.rest, List.append_assoc, List.append_assoc]
  offset := by
    rw [hstep.next_offset, h.offset, Cursor.byteCount_append, Cursor.byteCount_append]
  line := by
    have hline := (h.stands hstep).inLine.no_line
    have hcount : (before ++ gap ++ t.lexeme.written).count '\n' = (before ++ gap).count '\n' := by
      rw [List.count_append, List.count_eq_zero.2 hline, Nat.add_zero]
    rw [hstep.next_line, (h.stands hstep).line, hcount]
  no_nul := by
    have hnul := (h.stands hstep).inLine.no_nul
    simp [h.no_nul, hstep.no_nul, hnul]

/-! ## All tokens -/

/-- From the offset on, what stands before each of the tokens is as `P` says. -/
def GapsFrom (s : Source) (P : List Char → Token → Prop) : Nat → List Token → Prop
  | _, [] => True
  | start, t :: ts =>
    (∃ gap, s.Slice start t.extentStart gap ∧ P gap t) ∧ s.GapsFrom P t.extentStop ts

/-- After `before` the tokens stand in the text one after the other. -/
inductive Tiles (s : Source) : List Char → Tokens → Prop
  | fault {before : List Char} {f : LexFault} : Tiles s before (.fault f)
  | eof {before gap after : List Char} {t : Token} (hgap : Skippable gap t)
      (h : s.Stands (before ++ gap) t after) (ht : t.IsEnd) : Tiles s before (.eof t)
  | cons {before gap after : List Char} {t : Token} {ts : Tokens} (hgap : Skippable gap t)
      (h : s.Stands (before ++ gap) t after) (ht : t.lexeme.Lexed)
      (hts : Tiles s (before ++ gap ++ t.lexeme.written) ts) : Tiles s before (.cons t ts)

theorem At.tiles {ts : Tokens} (h : s.At before c) (hscans : c.Scans ts) : s.Tiles before ts := by
  induction hscans generalizing before with
  | fault _ => exact .fault
  | eof hnext hkind =>
      obtain ⟨gap, hstep⟩ := Cursor.next_eq_ok hnext
      exact .eof hstep.skippable (h.stands hstep) (hstep.isEnd hkind).1
  | cons hnext hkind _ ih =>
      obtain ⟨gap, hstep⟩ := Cursor.next_eq_ok hnext
      exact .cons hstep.skippable (h.stands hstep) (hstep.lexed hkind) (ih (h.step hstep))

theorem tiles_tokens (s : Source) : s.Tiles [] s.tokens :=
  s.at_start.tiles s.scans_tokens

namespace Tiles

variable {ts : Tokens}

theorem stands (h : s.Tiles before ts) :
    ∀ t ∈ ts.toList, ∃ before after, s.Stands before t after := by
  induction h with
  | fault => exact List.forall_mem_nil _
  | eof _ h _ => exact List.forall_mem_singleton.2 ⟨_, _, h⟩
  | cons _ h _ _ ih => exact List.forall_mem_cons.2 ⟨⟨_, _, h⟩, ih⟩

theorem le_extentStart (h : s.Tiles before ts) :
    ∀ t ∈ ts.toList, byteCount before ≤ t.extentStart := by
  induction h with
  | fault => exact List.forall_mem_nil _
  | eof _ h _ => exact List.forall_mem_singleton.2 h.le_extentStart
  | cons _ h _ _ ih =>
      refine List.forall_mem_cons.2 ⟨h.le_extentStart, fun u hu => Nat.le_trans ?_ (ih u hu)⟩
      rw [List.append_assoc, Cursor.byteCount_append]
      exact Nat.le_add_right _ _

theorem apart (h : s.Tiles before ts) : ts.toList.Pairwise fun t u =>
    t.extentStart < t.extentStop ∧ t.extentStop ≤ u.extentStart := by
  induction h with
  | fault => exact .nil
  | eof _ _ _ => exact List.pairwise_singleton _ _
  | @cons before gap after t ts _ h ht hts ih =>
      refine List.pairwise_cons.2 ⟨fun u hu => ⟨?_, h.extentStop_eq ▸ hts.le_extentStart u hu⟩, ih⟩
      obtain ⟨first, cs, hwritten, -⟩ := Cursor.written_eq_cons ht
      have hpos := first.utf8Size_pos
      rw [h.extentStart_eq, h.extentStop_eq, hwritten, Cursor.byteCount_append _ (first :: cs),
        Cursor.byteCount_cons]
      omega

theorem gaps (h : s.Tiles before ts) : s.GapsFrom Skippable (byteCount before) ts.toList := by
  induction h with
  | fault => trivial
  | eof hgap h _ => exact ⟨⟨_, h.gap_slice, hgap⟩, trivial⟩
  | cons hgap h _ _ ih => exact ⟨⟨_, h.gap_slice, hgap⟩, h.extentStop_eq ▸ ih⟩

/-- What stands before the end starts at the offset, or where one of the other tokens stops. -/
theorem last_gap {P : List Char → Token → Prop} {start bound : Nat} (h : s.Tiles before ts)
    (hgaps : s.GapsFrom P start ts.toList) (hstart : start ≤ bound)
    (hbound : ∀ u ∈ ts.toList, u.kind ≠ .eof → u.extentStop ≤ bound) (heof : ts.eof? = some t) :
    ∃ first gap, first ≤ bound ∧ s.Slice first t.extentStart gap ∧ P gap t := by
  induction h generalizing start with
  | fault => cases heof
  | eof _ _ _ =>
      cases heof
      obtain ⟨⟨gap, hslice, hgap⟩, -⟩ := hgaps
      exact ⟨start, gap, hstart, hslice, hgap⟩
  | cons _ _ ht _ ih =>
      obtain ⟨hstop, hbound⟩ := List.forall_mem_cons.1 hbound
      exact ih hgaps.2 (hstop (Cursor.lexed_kind ht)) hbound heof

theorem exists_stands_eof (h : s.Tiles before ts) (heof : ts.eof? = some t) :
    ∃ before after, s.Stands before t after ∧ t.IsEnd := by
  induction h with
  | fault => cases heof
  | eof _ h ht =>
      cases heof
      exact ⟨_, _, h, ht⟩
  | cons _ _ _ _ ih => exact ih heof

end Tiles

theorem takeWhile_ne_nul (hbefore : nul ∉ before) (hafter : Exhausted after) :
    (before ++ after).takeWhile (· ≠ nul) = before := by
  refine takeWhile_append_of_head (fun x hx => ?_) fun x hx => ?_
  · exact decide_eq_true fun h => hbefore (h ▸ hx)
  · exact decide_eq_false fun h => h (hafter x hx)

/-- The end is found at the first NUL character, or after the last character if there is none. -/
theorem start_eof (h : s.tokens.eof? = some t) :
    t.start = byteCount (s.text.toList.takeWhile (· ≠ nul))
      ∧ (t.start = s.text.utf8ByteSize ↔ nul ∉ s.text.toList) := by
  obtain ⟨before, after, hstands, hend⟩ := s.tiles_tokens.exists_stands_eof h
  obtain ⟨htext, hstart, hafter⟩ := hstands.rest hend
  have hnul := hstands.no_nul
  refine ⟨by rw [htext, takeWhile_ne_nul hnul hafter, hstart], ?_⟩
  rw [hstart, ← Cursor.byteCount_toList, htext, Cursor.byteCount_append]
  cases after with
  | nil => simpa using hnul
  | cons x more =>
      obtain rfl : x = nul := hafter x rfl
      have hpos := nul.utf8Size_pos
      simp only [Cursor.byteCount_cons, List.mem_append, List.mem_cons, true_or, or_true, not_true,
        iff_false]
      omega

/-! ## Comments cut short -/

/-- A comment starts after `before`, outside the tokens, and before any line feed in it comes the
    first NUL character of the text, which is taken for the end. -/
structure CutShort (s : Source) (ts : Tokens) (before body rest : List Char) : Prop where
  text : s.text.toList = before ++ '#' :: (body ++ nul :: rest)
  no_line : '\n' ∉ body
  no_nul : nul ∉ before ++ '#' :: body
  outside : ∀ u ∈ ts.toList, u.kind ≠ .eof → u.extentStop ≤ byteCount before
  ended : ts.eof?.isSome

/-- The text has a comment that is cut short. -/
def CommentCut (s : Source) : Prop :=
  ∃ before body rest, s.CutShort s.tokens before body rest

/-- What may stand before a token: spacing, and at the end of the text also a comment that no line
    feed ends. Both have only whole comments in them. -/
def Gap (s : Source) (gap : List Char) (t : Token) : Prop :=
  Spacing gap ∨ t.kind = .eof ∧ t.start = s.text.utf8ByteSize ∧ Unended gap

/-- What was passed over before the end has only whole comments in it, or the last is cut short. -/
theorem Stands.gap_or_cut (h : s.Stands (before ++ gap) t after) (hgap : Skippable gap t)
    (ht : t.IsEnd) :
    s.Gap gap t ∨ ∃ more body rest, s.CutShort (.eof t) (before ++ more) body rest := by
  obtain ⟨htext, hstart, hafter⟩ := h.rest ht
  have hnul := h.no_nul
  rcases hgap with hspacing | ⟨hkind, hunended⟩
  · exact Or.inl (Or.inl hspacing)
  · cases after with
    | nil =>
        refine Or.inl (Or.inr ⟨hkind, ?_, hunended⟩)
        rw [hstart, ← Cursor.byteCount_toList, htext, List.append_nil]
    | cons x rest =>
        obtain rfl : x = nul := hafter x rfl
        obtain ⟨spacing, body, rfl, -, hbody⟩ := hunended
        rw [← List.append_assoc] at htext hnul
        refine Or.inr ⟨spacing, body, rest, ?_, hbody, hnul, ?_, rfl⟩
        · rw [htext, List.append_assoc, List.cons_append]
        · exact List.forall_mem_singleton.2 fun h => absurd hkind h

theorem Tiles.gaps_or_cut {ts : Tokens} (h : s.Tiles before ts) :
    s.GapsFrom s.Gap (byteCount before) ts.toList ∨
      ∃ more body rest, s.CutShort ts (before ++ more) body rest := by
  induction h with
  | fault => exact Or.inl trivial
  | eof hgap h ht =>
      exact (h.gap_or_cut hgap ht).imp_left fun hgap => ⟨⟨_, h.gap_slice, hgap⟩, trivial⟩
  | @cons before gap after t ts hgap h ht hts ih =>
      rcases ih with hgaps | ⟨more, body, rest, hcut⟩
      · have hspacing : Spacing gap :=
          hgap.resolve_right fun hend => Cursor.lexed_kind ht hend.1
        exact Or.inl ⟨⟨gap, h.gap_slice, Or.inl hspacing⟩, h.extentStop_eq ▸ hgaps⟩
      · rw [List.append_assoc, List.append_assoc] at hcut
        refine Or.inr ⟨_, body, rest, hcut.text, hcut.no_line, hcut.no_nul, ?_, hcut.ended⟩
        refine List.forall_mem_cons.2 ⟨fun _ => ?_, hcut.outside⟩
        -- the comment starts after the token
        rw [h.extentStop_eq, ← List.append_assoc, ← List.append_assoc,
          Cursor.byteCount_append _ more]
        exact Nat.le_add_right _ _

/-- Where a comment is cut short, the last gap has part of a comment in it. -/
theorem CutShort.not_gaps {body rest : List Char} (h : s.CutShort s.tokens before body rest) :
    ¬ s.GapsFrom s.Gap 0 s.tokens.toList := by
  intro hgaps
  obtain ⟨t, heof⟩ := Option.isSome_iff_exists.1 h.ended
  obtain ⟨hstart, hsize⟩ := start_eof heof
  obtain ⟨first, gap, hfirst, hslice, hgap⟩ :=
    s.tiles_tokens.last_gap hgaps (Nat.zero_le _) h.outside heof
  have htext : s.text.toList = before ++ ('#' :: body ++ nul :: rest) := h.text
  have hstop : t.extentStart = byteCount (before ++ '#' :: body) := by
    obtain ⟨-, -, -, hend⟩ := s.tiles_tokens.exists_stands_eof heof
    have hrest : Exhausted (nul :: rest) := fun x hx => (Option.some.inj hx).symm
    rw [Token.extentStart, hend.lexeme_eq, hstart, htext, ← List.append_assoc,
      takeWhile_ne_nul h.no_nul hrest]
    rfl
  obtain ⟨more, rfl⟩ := hslice.eq_append htext hfirst hstop
  rcases hgap with hspacing | ⟨-, hend, -⟩
  · exact h.no_line hspacing.line_mem
  · exact hsize.1 hend (by simp [h.text])

/-! ## The whole text -/

/-- The tokens of the text have their places in it. -/
structure Placed (s : Source) : Prop where
  /-- Each call of `next` but the last gives one of the tokens before the end. -/
  calls : s.start.Scans s.tokens ∧ s.tokens.length + 1 ≤ s.text.length + 1
  span : ∀ t ∈ s.tokens.toList, s.Slice t.start t.stop t.text.toList
  extent : ∀ t ∈ s.tokens.toList, s.Slice t.extentStart t.extentStop t.lexeme.written
  apart : s.tokens.toList.Pairwise fun t u =>
    t.extentStart < t.extentStop ∧ t.extentStop ≤ u.extentStart
  skipped : s.GapsFrom Skippable 0 s.tokens.toList
  /-- Where the end is found the text is over, or a NUL character comes next. -/
  ended : ∀ t, s.tokens.eof? = some t →
    ∃ rest, s.Slice t.start s.text.utf8ByteSize rest ∧ Exhausted rest
  line : ∀ t ∈ s.tokens.toList, ∃ before, s.Slice 0 t.start before ∧ t.line = 1 + before.count '\n'
  lineText : ∀ t ∈ s.tokens.toList, ∃ start stop, s.Slice start stop (s.line (t.line - 1)).toList ∧
    (t.kind ≠ .eof → start ≤ t.start ∧ t.stop ≤ stop)

/-- The tokens of the text cover it, apart from what may stand between tokens. -/
structure Tiled (s : Source) : Prop extends s.Placed where
  gaps : s.GapsFrom s.Gap 0 s.tokens.toList

theorem placed (s : Source) : s.Placed where
  calls := by
    refine ⟨s.scans_tokens, Nat.succ_le_succ ?_⟩
    rw [← String.length_toList]
    exact s.scans_tokens.length_le
  span t ht := by
    obtain ⟨before, after, h⟩ := s.tiles_tokens.stands t ht
    exact h.span
  extent t ht := by
    obtain ⟨before, after, h⟩ := s.tiles_tokens.stands t ht
    exact h.extent
  apart := s.tiles_tokens.apart
  skipped := s.tiles_tokens.gaps
  ended t ht := by
    obtain ⟨before, after, h, hend⟩ := s.tiles_tokens.exists_stands_eof ht
    obtain ⟨htext, hstart, hafter⟩ := h.rest hend
    refine ⟨after, ⟨before, [], by rw [htext, List.append_nil], hstart.symm, ?_⟩, hafter⟩
    rw [← htext, Cursor.byteCount_toList]
  line t ht := by
    obtain ⟨before, after, h⟩ := s.tiles_tokens.stands t ht
    exact h.line_count
  lineText t ht := by
    obtain ⟨before, after, h⟩ := s.tiles_tokens.stands t ht
    exact h.line_slice

theorem CommentCut.not_tiled (h : s.CommentCut) : ¬ s.Tiled := by
  obtain ⟨before, body, rest, hcut⟩ := h
  exact fun htiled => hcut.not_gaps htiled.gaps

/-- The tokens of every text have their places in it, and they tile it exactly if no comment is cut
    short by a NUL character. -/
theorem tiled_unless_comment_cut (s : Source) : s.Placed ∧ (s.Tiled ↔ ¬ s.CommentCut) := by
  refine ⟨s.placed, fun htiled hcut => hcut.not_tiled htiled, fun hcut => ⟨s.placed, ?_⟩⟩
  exact s.tiles_tokens.gaps_or_cut.resolve_right hcut

/-- The comment ends on the first line, but nothing is read after it. -/
def brokenComment : Source :=
  ⟨"f", "TRUE #\x00\n&& FALSE"⟩

theorem commentCut_brokenComment : brokenComment.CommentCut := by
  have htokens : brokenComment.tokens.toList =
      [⟨.ident, "TRUE", 1, 1, 0, 4⟩, ⟨.eof, "", 1, 6, 6, 6⟩] := rfl
  refine ⟨"TRUE ".toList, [], "\n&& FALSE".toList, rfl, List.not_mem_nil, by decide, ?_, rfl⟩
  rw [htokens]
  decide

theorem brokenComment_not_tiled : ¬ ∀ s : Source, s.Tiled :=
  fun h => commentCut_brokenComment.not_tiled (h brokenComment)

end Source

end AccessRules
