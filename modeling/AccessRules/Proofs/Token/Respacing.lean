import AccessRules.Proofs.Token.Extent

set_option autoImplicit false

/-! # Writing tokens with other spacing

`Respaced` writes lexemes with any spacing before each of them. If no comment in it has a NUL
character, the lexemes are read back (`Source.tokens_respaced`); otherwise reading ends early
(`Source.tokens_cut`). -/

namespace AccessRules

open Cursor (nul)

/-- The tokens are the lexemes, followed by `rest`. -/
def Tokens.Spells : Tokens → List Lexeme → Tokens → Prop
  | ts, [], rest => ts = rest
  | ts, l :: ls, rest =>
    ∃ t more, ts = .cons t more ∧ t.kind = l.kind ∧ t.text = l.text ∧ more.Spells ls rest

theorem Tokens.spells_lexemes {ts : Tokens} {t : Token} (h : ts.eof? = some t) :
    ts.Spells ts.lexemes (.eof t) := by
  induction ts with
  | eof t' =>
      cases h
      rfl
  | fault f => cases h
  | cons t' ts ih => exact ⟨t', ts, rfl, rfl, rfl, ih h⟩

/-- The written forms of lexemes with spacing before each, which may be empty only before the
    first. -/
inductive Respaced : (first : Bool) → List Lexeme → List Char → Prop
  | nil {first : Bool} : Respaced first [] []
  | cons {first : Bool} {l : Lexeme} {ls : List Lexeme} {gap cs : List Char} (hgap : Spacing gap)
      (hfirst : first = true ∨ gap ≠ []) (h : Respaced false ls cs) :
      Respaced first (l :: ls) (gap ++ (l.written ++ cs))

theorem Respaced.parted {ls : List Lexeme} {cs trail : List Char} (h : Respaced false ls cs)
    (htrail : Spacing trail) : Parted (cs ++ trail) := by
  cases h with
  | nil =>
      intro x hx
      have hne : trail ≠ [] := by
        rintro rfl
        cases hx
      exact htrail.parted hne [] x (by simpa using hx)
  | cons hgap hfirst _ =>
      rw [List.append_assoc]
      exact hgap.parted (hfirst.resolve_left Bool.false_ne_true) _

namespace Cursor

variable {c : Cursor} {gap cs trail : List Char}

theorem next_of_skip {c' : Cursor} (h : c.skip = .ok c') : c.next = c'.readToken := by
  rw [next, h]
  rfl

theorem next_lexeme {l : Lexeme} {tail : List Char} (hgap : Spacing gap) (hnul : nul ∉ gap)
    (hl : l.Lexed) (htail : Parted tail) (hrest : c.rest = gap ++ (l.written ++ tail)) :
    ∃ t c', c.next = .ok (t, c') ∧ t.lexeme = l ∧ c'.rest = tail := by
  obtain ⟨first, more, hwritten, hfirst⟩ := written_eq_cons hl
  have hskip := skips_spacing hgap hnul c.offset c.line c.col (l.written ++ tail)
  rw [← hrest, hwritten, List.cons_append, skipFrom_stop hfirst, ← List.cons_append,
    ← hwritten] at hskip
  obtain ⟨t, c', hread, hkind, htext, hafter⟩ := reads_lexed hl htail (c := ⟨_, _, _, _⟩) rfl
  refine ⟨t, c', (next_of_skip hskip).trans hread, ?_, hafter⟩
  rw [Token.lexeme, hkind, htext]

theorem readToken_exhausted (h : Exhausted c.rest) :
    ∃ t c', c.readToken = .ok (t, c') ∧ t.IsEnd := by
  unfold readToken
  cases hrest : c.rest with
  | nil => exact ⟨_, _, rfl, rfl, rfl⟩
  | cons first cs =>
      have hnul : first = nul := h first (by rw [hrest]; rfl)
      simp only [if_pos hnul]
      exact ⟨_, _, rfl, rfl, rfl⟩

/-- After spacing at the end of the text, or with a NUL character in it, nothing more is read. -/
theorem next_end (hgap : Spacing gap) (hend : nul ∈ gap ∨ cs = []) (hrest : c.rest = gap ++ cs) :
    ∃ t c', c.next = .ok (t, c') ∧ t.IsEnd := by
  have hskip : ∃ c', c.skip = .ok c' ∧ Exhausted c'.rest := by
    rw [skip, hrest]
    by_cases hnul : nul ∈ gap
    · obtain ⟨c', hskip, hhead⟩ := skipFrom_spacing_nul hgap hnul c.offset c.line c.col cs
      refine ⟨c', hskip, fun x hx => ?_⟩
      rw [hhead] at hx
      exact (Option.some.inj hx).symm
    · obtain rfl := hend.resolve_left hnul
      have hskip := skips_spacing hgap hnul c.offset c.line c.col []
      exact ⟨_, hskip, by simp [Exhausted]⟩
  obtain ⟨c', hskip, hexhausted⟩ := hskip
  obtain ⟨t, c'', hread, ht⟩ := readToken_exhausted hexhausted
  exact ⟨t, c'', (next_of_skip hskip).trans hread, ht⟩

theorem scans_respaced {first : Bool} {ls : List Lexeme} (h : Respaced first ls cs)
    (hls : ∀ l ∈ ls, l.Lexed) (htrail : Spacing trail) (hnul : nul ∉ cs)
    (hrest : c.rest = cs ++ trail) :
    ∃ ts t, c.Scans ts ∧ t.IsEnd ∧ ts.Spells ls (.eof t) := by
  induction h generalizing c with
  | nil =>
      obtain ⟨t, c', hnext, ht⟩ := next_end htrail (.inr rfl) (hrest.trans (List.append_nil _).symm)
      exact ⟨_, t, .eof hnext ht.1, ht, rfl⟩
  | @cons first l ls gap cs hgap hfirst h ih =>
      simp only [List.append_assoc] at hrest
      simp only [List.mem_append, not_or] at hnul
      rw [List.forall_mem_cons] at hls
      obtain ⟨t, c', hnext, rfl, hafter⟩ :=
        next_lexeme hgap hnul.1 hls.1 (h.parted htrail) hrest
      obtain ⟨ts, e, hscans, he, hspells⟩ := ih hls.2 hnul.2.2 hafter
      exact ⟨_, e, .cons hnext (lexed_kind hls.1) hscans, he, t, ts, rfl, rfl, rfl, hspells⟩

/-- A NUL character ends reading before the last lexeme. -/
theorem scans_cut {first : Bool} {ls : List Lexeme} (h : Respaced first ls cs)
    (hls : ∀ l ∈ ls, l.Lexed) (htrail : Spacing trail) (hnul : nul ∈ cs)
    (hrest : c.rest = cs ++ trail) : ∃ ts, c.Scans ts ∧ ts.lexemes.length < ls.length := by
  induction h generalizing c with
  | nil => cases hnul
  | @cons first l ls gap cs hgap hfirst h ih =>
      simp only [List.append_assoc] at hrest
      rw [List.forall_mem_cons] at hls
      by_cases hmem : nul ∈ gap
      · obtain ⟨t, c', hnext, ht⟩ := next_end hgap (.inl hmem) hrest
        exact ⟨_, .eof hnext ht.1, Nat.succ_pos _⟩
      · have hcs : nul ∈ cs := by
          simpa [hmem, hls.1.inLine.no_nul] using hnul
        obtain ⟨t, c', hnext, rfl, hafter⟩ := next_lexeme hgap hmem hls.1 (h.parted htrail) hrest
        obtain ⟨ts, hscans, hlength⟩ := ih hls.2 hcs hafter
        exact ⟨_, .cons hnext (lexed_kind hls.1) hscans, Nat.succ_lt_succ hlength⟩

end Cursor

/-! ## Whole texts -/

namespace Source

variable {s : Source} {ls : List Lexeme} {cs trail : List Char}

/-- Lexemes are read back, whatever the spacing and whatever the file is called. -/
theorem tokens_respaced (h : Respaced true ls cs) (hls : ∀ l ∈ ls, l.Lexed) (htrail : Spacing trail)
    (hnul : nul ∉ cs) (htext : s.text.toList = cs ++ trail) :
    ∃ t : Token, t.IsEnd ∧ s.tokens.Spells ls (.eof t) := by
  obtain ⟨ts, t, hscans, ht, hspells⟩ :=
    Cursor.scans_respaced (c := s.start) h hls htrail hnul htext
  exact ⟨t, ht, s.scans_tokens.unique hscans ▸ hspells⟩

/-- After a NUL character nothing is read. -/
theorem tokens_cut (h : Respaced true ls cs) (hls : ∀ l ∈ ls, l.Lexed) (htrail : Spacing trail)
    (hnul : nul ∈ cs) (htext : s.text.toList = cs ++ trail) : s.tokens.lexemes ≠ ls := by
  obtain ⟨ts, hscans, hlength⟩ := Cursor.scans_cut (c := s.start) h hls htrail hnul htext
  rw [s.scans_tokens.unique hscans]
  exact fun heq => absurd hlength (by rw [heq]; exact Nat.lt_irrefl _)

end Source

/-! ## Single blanks -/

theorem respaced_blanks (ls : List Lexeme) :
    Respaced false ls (ls.flatMap fun l => ' ' :: l.written) := by
  induction ls with
  | nil => exact .nil
  | cons l ls ih =>
      have hblank : Spacing [' '] := .blank (by decide) .nil
      exact .cons hblank (.inr (List.cons_ne_nil _ _)) ih

theorem toList_spaced (l : Lexeme) (ls : List Lexeme) :
    (spaced (l :: ls)).toList = l.written ++ ls.flatMap fun l => ' ' :: l.written := by
  rw [spaced, String.toList_ofList]
  induction ls generalizing l with
  | nil => simp
  | cons m ls ih =>
      rw [List.map_cons, List.map_cons, List.intercalate_cons_cons, ← List.map_cons, ih]
      simp

theorem nul_not_mem_spaced {ls : List Lexeme} (hls : ∀ l ∈ ls, l.Lexed) :
    nul ∉ (spaced ls).toList := by
  cases ls with
  | nil => decide
  | cons l ls =>
      rw [List.forall_mem_cons] at hls
      rw [toList_spaced]
      simp only [List.mem_append, List.mem_flatMap, List.mem_cons, not_or, not_exists, not_and]
      exact ⟨hls.1.inLine.no_nul, fun m hm => ⟨by decide, (hls.2 m hm).inLine.no_nul⟩⟩

/-- Readable lexemes are read back, whatever the file is called. -/
theorem Source.tokens_spaced (file : String) {ls : List Lexeme} (hls : ∀ l ∈ ls, l.Readable) :
    ∃ t : Token, t.IsEnd ∧ (Source.tokens ⟨file, spaced ls⟩).Spells ls (.eof t) := by
  have hlexed : ∀ l ∈ ls, l.Lexed := fun l hl => (hls l hl).lexed
  refine tokens_respaced ?_ hlexed .nil (nul_not_mem_spaced hlexed) (List.append_nil _).symm
  cases ls with
  | nil => exact .nil
  | cons l ls =>
      rw [toList_spaced]
      exact .cons .nil (.inl rfl) (respaced_blanks ls)

end AccessRules
