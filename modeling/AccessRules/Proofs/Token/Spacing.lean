import AccessRules.Token.Lexer
import Mathlib.Data.List.Basic

set_option autoImplicit false

/-! # What stands between tokens

`Spacing` describes the characters that may stand between two tokens. Skipping goes over spacing
that has no NUL character in it and stops at the first one otherwise. Conversely, what is skipped
is spacing, apart from a comment that runs into the end of the text: `Cursor.skip_eq_ok`. -/

namespace AccessRules

/-- Blanks, line ends, and comments that run to the end of their line. -/
inductive Spacing : List Char → Prop
  | nil : Spacing []
  | blank {c : Char} {cs : List Char} (hc : c ∈ [' ', '\t', '\n']) (h : Spacing cs) :
      Spacing (c :: cs)
  | lineEnd {cs : List Char} (h : Spacing cs) : Spacing ('\r' :: '\n' :: cs)
  | comment {body cs : List Char} (hbody : '\n' ∉ body) (h : Spacing cs) :
      Spacing ('#' :: (body ++ '\n' :: cs))

/-- Spacing and then a comment that no line feed ends. -/
def Unended (cs : List Char) : Prop :=
  ∃ before body, cs = before ++ '#' :: body ∧ Spacing before ∧ '\n' ∉ body

/-- The end of the text as far as it is read: nothing is left, or a NUL character comes next. -/
def Exhausted (rest : List Char) : Prop :=
  ∀ c ∈ rest.head?, c = Cursor.nul

/-- What may be passed over before `rest`: spacing, and at the end a comment that is not ended. -/
def Passed (gap rest : List Char) : Prop :=
  Spacing gap ∨ Unended gap ∧ Exhausted rest

/-- The same from inside a comment on. -/
def PassedInComment (gap rest : List Char) : Prop :=
  ∃ body, '\n' ∉ body ∧
    (gap = body ∧ Exhausted rest ∨ ∃ more, gap = body ++ '\n' :: more ∧ Passed more rest)

section Passed

variable {c : Char} {gap rest : List Char}

theorem Unended.prepend (before : List Char) (hbefore : ∀ {cs}, Spacing cs → Spacing (before ++ cs))
    (h : Unended gap) : Unended (before ++ gap) := by
  obtain ⟨spacing, body, rfl, hspacing, hbody⟩ := h
  exact ⟨before ++ spacing, body, by rw [List.append_assoc], hbefore hspacing, hbody⟩

theorem Passed.prepend (before : List Char) (hbefore : ∀ {cs}, Spacing cs → Spacing (before ++ cs))
    (h : Passed gap rest) : Passed (before ++ gap) rest :=
  h.imp hbefore (And.imp_left (.prepend before hbefore))

theorem Passed.blank (hc : c ∈ [' ', '\t', '\n']) (h : Passed gap rest) : Passed (c :: gap) rest :=
  h.prepend [c] (.blank hc)

theorem Passed.comment (h : PassedInComment gap rest) : Passed ('#' :: gap) rest := by
  obtain ⟨body, hbody, ⟨rfl, hend⟩ | ⟨more, rfl, hmore⟩⟩ := h
  · exact .inr ⟨⟨[], gap, rfl, .nil, hbody⟩, hend⟩
  · have hprepend : Passed (('#' :: (body ++ ['\n'])) ++ more) rest :=
      hmore.prepend _ fun {cs} hcs => by simpa using Spacing.comment hbody hcs
    simpa using hprepend

theorem PassedInComment.cons (hc : c ≠ '\n') (h : PassedInComment gap rest) :
    PassedInComment (c :: gap) rest := by
  obtain ⟨body, hbody, hgap⟩ := h
  refine ⟨c :: body, by simp [hbody, hc.symm], hgap.imp (And.imp_left (congrArg (c :: ·))) ?_⟩
  rintro ⟨more, rfl, hmore⟩
  exact ⟨more, rfl, hmore⟩

theorem PassedInComment.line (h : Passed gap rest) : PassedInComment ('\n' :: gap) rest :=
  ⟨[], List.not_mem_nil, .inr ⟨gap, rfl, h⟩⟩

/-- A carriage return goes with the line feed after it. -/
theorem Passed.lineEnd (h : Passed ('\n' :: gap) rest) : Passed ('\r' :: '\n' :: gap) rest := by
  rcases h with h | ⟨⟨before, body, hgap, hbefore, hbody⟩, hend⟩
  · cases h with
    | blank _ h => exact .inl (.lineEnd h)
  · cases hbefore with
    | nil => cases hgap
    | blank _ h =>
        obtain ⟨-, rfl⟩ := List.cons.inj hgap
        exact .inr ⟨⟨_, body, rfl, .lineEnd h, hbody⟩, hend⟩
    | lineEnd h => cases hgap
    | comment _ h => cases hgap

end Passed

/-- A comment in spacing is ended by a line feed. -/
theorem Spacing.line_mem {before body : List Char} (h : Spacing (before ++ '#' :: body)) :
    '\n' ∈ body := by
  generalize hcs : before ++ '#' :: body = cs at h
  induction h generalizing before with
  | nil => simp at hcs
  | blank hc _ ih =>
      rcases List.append_eq_cons_iff.1 hcs with ⟨rfl, hbody⟩ | ⟨more, rfl, rfl⟩
      · obtain ⟨rfl, -⟩ := List.cons.inj hbody
        simp at hc
      · exact ih rfl
  | lineEnd _ ih =>
      rcases List.append_eq_cons_iff.1 hcs with ⟨rfl, hbody⟩ | ⟨more, rfl, hmore⟩
      · cases hbody
      · rcases List.append_eq_cons_iff.1 hmore.symm with ⟨rfl, hbody⟩ | ⟨more, rfl, rfl⟩
        · cases hbody
        · exact ih rfl
  | @comment inside cs hinside _ ih =>
      rcases List.append_eq_cons_iff.1 hcs with ⟨rfl, hbody⟩ | ⟨more, rfl, hmore⟩
      · obtain ⟨-, rfl⟩ := List.cons.inj hbody
        simp
      -- the mark stands inside the first comment, or after the line feed that ends it
      · rcases List.append_eq_append_iff.1 hmore with ⟨part, rfl, hpart⟩ | ⟨part, rfl, hpart⟩
        · rcases List.cons_eq_append_iff.1 hpart with ⟨rfl, hbody⟩ | ⟨part, rfl, rfl⟩
          · cases hbody
          · exact ih rfl
        · rcases List.cons_eq_append_iff.1 hpart with ⟨rfl, hbody⟩ | ⟨part, rfl, rfl⟩
          · cases hbody
          · simp

namespace Cursor

/-! ## Bytes -/

@[simp] theorem byteCount_nil : byteCount [] = 0 := rfl

@[simp] theorem byteCount_cons (c : Char) (cs : List Char) :
    byteCount (c :: cs) = c.utf8Size + byteCount cs := rfl

@[simp] theorem byteCount_append (cs ds : List Char) :
    byteCount (cs ++ ds) = byteCount cs + byteCount ds := by
  induction cs with
  | nil => simp
  | cons c cs ih => rw [List.cons_append, byteCount_cons, byteCount_cons, ih, Nat.add_assoc]

theorem byteCount_toList (s : String) : byteCount s.toList = s.utf8ByteSize := by
  have main : ∀ cs : List Char, (String.ofList cs).utf8ByteSize = byteCount cs := by
    intro cs
    induction cs with
    | nil => rfl
    | cons c cs ih =>
        have hcons : String.ofList (c :: cs) = String.singleton c ++ String.ofList cs := by
          rw [String.singleton_eq_ofList, ← String.ofList_append]
          rfl
        rw [hcons, String.utf8ByteSize_append, String.utf8ByteSize_singleton, ih, byteCount_cons]
  rw [← main, String.ofList_toList]

theorem length_le_byteCount (cs : List Char) : cs.length ≤ byteCount cs := by
  induction cs with
  | nil => exact Nat.le_refl 0
  | cons c cs ih =>
      have hpos := c.utf8Size_pos
      rw [List.length_cons, byteCount_cons]
      omega

/-- Of two texts that another one starts with, the one with fewer bytes starts the other. -/
theorem isPrefix_of_byteCount_le {cs ds text : List Char} (hcs : cs <+: text) (hds : ds <+: text)
    (hle : byteCount cs ≤ byteCount ds) : cs <+: ds := by
  rcases List.prefix_or_prefix_of_prefix hcs hds with h | ⟨more, rfl⟩
  · exact h
  · have hmore := length_le_byteCount more
    rw [byteCount_append] at hle
    obtain rfl : more = [] := List.eq_nil_of_length_eq_zero (by omega)
    exact ⟨[], by simp⟩

/-! ## Where skipping stops -/

/-- The characters at which no token starts. -/
def skipped : List Char :=
  ['\n', nul, ' ', '\t', '#', '\r']

theorem ne_nul_of_not_mem_skipped {x : Char} (h : x ∉ skipped) : x ≠ nul := by
  rintro rfl
  exact h (by decide)

theorem skipFrom_stop {first : Char} (h : first ∉ skipped) (cs : List Char)
    (offset line col : Nat) :
    skipFrom offset line col false (first :: cs) = .ok ⟨first :: cs, offset, line, col⟩ := by
  simp only [skipped, List.mem_cons, List.not_mem_nil, or_false, not_or] at h
  simp [skipFrom, h]

theorem skipFrom_nul (cs : List Char) (offset line col : Nat) (inComment : Bool) :
    skipFrom offset line col inComment (nul :: cs) = .ok ⟨nul :: cs, offset, line, col⟩ := by
  simp [skipFrom, show nul ≠ '\n' by decide]

/-! ## Skipping spacing -/

/-- The column after characters that are skipped: a line feed leads back to the first column, and
    a tab counts four. Comments and carriage returns end with a line feed, so it does not matter
    what they count. -/
def colAfter (col : Nat) (gap : List Char) : Nat :=
  gap.foldl (fun col x => if x = '\n' then 1 else if x = '\t' then col + 4 else col + 1) col

theorem colAfter_append (col : Nat) (gap more : List Char) :
    colAfter col (gap ++ more) = colAfter (colAfter col gap) more :=
  List.foldl_append

/-- Wherever they stand, the characters are skipped. -/
def Skips (gap : List Char) : Prop :=
  ∀ offset line col rest, skipFrom offset line col false (gap ++ rest)
    = skipFrom (offset + byteCount gap) (line + gap.count '\n') (colAfter col gap) false rest

theorem Skips.append {gap more : List Char} (hgap : Skips gap) (hmore : Skips more) :
    Skips (gap ++ more) := by
  intro offset line col rest
  rw [List.append_assoc, hgap, hmore, byteCount_append, List.count_append, colAfter_append,
    Nat.add_assoc, Nat.add_assoc]

theorem skips_blank {c : Char} (hc : c ∈ [' ', '\t', '\n']) : Skips [c] := by
  intro offset line col rest
  simp only [List.mem_cons, List.not_mem_nil, or_false] at hc
  rcases hc with rfl | rfl | rfl <;> rfl

theorem skips_lineEnd : Skips ['\r', '\n'] :=
  fun _ _ _ _ => rfl

theorem skipFrom_body {body : List Char} (hline : '\n' ∉ body) (hnul : nul ∉ body)
    (offset line col : Nat) (rest : List Char) :
    skipFrom offset line col true (body ++ rest)
      = skipFrom (offset + byteCount body) line col true rest := by
  induction body generalizing offset with
  | nil => rfl
  | cons c body ih =>
      simp only [List.mem_cons, not_or] at hline hnul
      have hstep : skipFrom offset line col true (c :: (body ++ rest))
          = skipFrom (offset + c.utf8Size) line col true (body ++ rest) := by
        simp [skipFrom, Ne.symm hline.1, Ne.symm hnul.1]
      rw [List.cons_append, hstep, ih hline.2 hnul.2, byteCount_cons, Nat.add_assoc]

theorem skips_comment {body : List Char} (hline : '\n' ∉ body) (hnul : nul ∉ body) :
    Skips ('#' :: (body ++ ['\n'])) := by
  intro offset line col rest
  have hstart : skipFrom offset line col false ('#' :: (body ++ ['\n']) ++ rest)
      = skipFrom (offset + 1) line col true (body ++ '\n' :: rest) := by
    rw [List.cons_append, List.append_assoc]
    rfl
  have hend : skipFrom (offset + 1 + byteCount body) line col true ('\n' :: rest)
      = skipFrom (offset + 1 + byteCount body + 1) (line + 1) 1 false rest := rfl
  have hbytes : byteCount ('#' :: (body ++ ['\n'])) = 1 + (byteCount body + 1) := by
    rw [byteCount_cons, byteCount_append]
    rfl
  have hcount : ('#' :: (body ++ ['\n'])).count '\n' = 1 := by
    simp [List.count_eq_zero.2 hline]
  have hcol : colAfter col ('#' :: (body ++ ['\n'])) = 1 := by
    rw [← List.cons_append, colAfter_append]
    rfl
  rw [hstart, skipFrom_body hline hnul, hend, hbytes, hcount, hcol, Nat.add_assoc, Nat.add_assoc]

/-- Spacing without a NUL character is skipped. -/
theorem skips_spacing {gap : List Char} (h : Spacing gap) (hnul : nul ∉ gap) : Skips gap := by
  induction h with
  | nil => exact fun _ _ _ _ => rfl
  | blank hc _ ih =>
      exact (skips_blank hc).append (ih fun hmem => hnul (List.mem_cons_of_mem _ hmem))
  | lineEnd _ ih => exact skips_lineEnd.append (ih (by simp_all))
  | @comment body cs hbody _ ih =>
      simp only [List.mem_cons, List.mem_append, not_or] at hnul
      have hboth := (skips_comment hbody hnul.2.1).append (ih hnul.2.2.2)
      simpa using hboth

/-- In spacing with a NUL character, which stands in a comment, skipping stops there. -/
theorem skipFrom_spacing_nul {gap : List Char} (h : Spacing gap) (hnul : nul ∈ gap)
    (offset line col : Nat) (rest : List Char) :
    ∃ c', skipFrom offset line col false (gap ++ rest) = .ok c' ∧ c'.rest.head? = some nul := by
  induction h generalizing offset line col with
  | nil => cases hnul
  | @blank c cs hc _ ih =>
      have hmem : nul ∈ cs := by
        refine (List.mem_cons.1 hnul).resolve_left ?_
        rintro rfl
        exact absurd hc (by decide)
      rw [← List.singleton_append (l := cs), List.append_assoc, skips_blank hc]
      exact ih hmem _ _ _
  | @lineEnd cs _ ih =>
      have hmem : nul ∈ cs := by
        simpa [show nul ≠ '\r' by decide, show nul ≠ '\n' by decide] using hnul
      exact ih hmem (offset + 1 + 1) (line + 1) 1
  | @comment body cs hbody _ ih =>
      have hstart : skipFrom offset line col false ('#' :: (body ++ '\n' :: cs) ++ rest)
          = skipFrom (offset + 1) line col true (body ++ '\n' :: (cs ++ rest)) := by
        rw [List.cons_append, List.append_assoc]
        rfl
      rw [hstart]
      by_cases hmem : nul ∈ body
      · obtain ⟨before, after, rfl, hbefore⟩ := List.eq_append_cons_of_mem hmem
        rw [List.append_assoc, skipFrom_body (fun h => hbody (List.mem_append_left _ h)) hbefore,
          List.cons_append, skipFrom_nul]
        exact ⟨_, rfl, rfl⟩
      · rw [skipFrom_body hbody hmem]
        refine ih ?_ (offset + 1 + byteCount body + 1) (line + 1) 1
        simpa [hmem, show nul ≠ '#' by decide, show nul ≠ '\n' by decide] using hnul

/-! ## What is skipped -/

/-- Skipping goes over `gap` and stops at the end of the text or at the start of a token. -/
structure Skipped (offset line : Nat) (cs gap : List Char) (c' : Cursor) : Prop where
  rest : cs = gap ++ c'.rest
  offset : c'.offset = offset + byteCount gap
  line : c'.line = line + gap.count '\n'
  no_nul : nul ∉ gap
  stops : ∀ x ∈ c'.rest.head?, x = nul ∨ x ∉ skipped

theorem skipped_nil {offset line col : Nat} {cs : List Char}
    (h : ∀ x ∈ cs.head?, x = nul ∨ x ∉ skipped) :
    Skipped offset line cs [] ⟨cs, offset, line, col⟩ :=
  ⟨rfl, rfl, rfl, List.not_mem_nil, h⟩

theorem Skipped.cons {offset line : Nat} {x : Char} {cs gap : List Char} {c' : Cursor}
    (h : Skipped (offset + x.utf8Size) (line + [x].count '\n') cs gap c') (hx : x ≠ nul) :
    Skipped offset line (x :: cs) (x :: gap) c' where
  rest := congrArg (x :: ·) h.rest
  offset := by rw [h.offset, byteCount_cons, Nat.add_assoc]
  line := by rw [h.line, ← List.singleton_append (l := gap), List.count_append, Nat.add_assoc]
  no_nul := by simp [h.no_nul, hx.symm]
  stops := h.stops

/-- Before a line feed something is skipped. -/
theorem Skipped.eq_cons {offset line : Nat} {cs gap : List Char} {c' : Cursor}
    (h : Skipped offset line ('\n' :: cs) gap c') : ∃ more, gap = '\n' :: more := by
  cases gap with
  | nil =>
      rcases h.stops '\n' (by rw [← List.nil_append c'.rest, ← h.rest]; rfl) with hstop | hstop
      · exact absurd hstop (by decide)
      · exact absurd hstop (by decide)
  | cons x more =>
      obtain ⟨rfl, -⟩ := List.cons.inj h.rest
      exact ⟨more, rfl⟩

theorem skipFrom_eq_ok {offset line col : Nat} {inComment : Bool} {cs : List Char} {c' : Cursor}
    (h : skipFrom offset line col inComment cs = .ok c') :
    ∃ gap, Skipped offset line cs gap c' ∧
      if inComment then PassedInComment gap c'.rest else Passed gap c'.rest := by
  -- at the end of the text nothing more is passed over, inside a comment or not
  have hend : ∀ {cs : List Char} {inComment : Bool}, Exhausted cs →
      if inComment then PassedInComment [] cs else Passed [] cs := by
    intro cs inComment hcs
    cases inComment with
    | true => exact ⟨[], List.not_mem_nil, .inl ⟨rfl, hcs⟩⟩
    | false => exact .inl .nil
  fun_induction skipFrom offset line col inComment cs with
  | case1 =>
      cases h
      exact ⟨[], skipped_nil (by simp), hend (by simp [Exhausted])⟩
  | case2 offset line col inComment cs ih =>
      obtain ⟨gap, hgap, hpassed⟩ := ih h
      refine ⟨'\n' :: gap, hgap.cons (by decide), ?_⟩
      cases inComment with
      | true => exact .line hpassed
      | false => exact .blank (by decide) hpassed
  | case3 =>
      cases h
      exact ⟨[], skipped_nil (by simp), hend (by simp [Exhausted])⟩
  | case4 offset line col x cs hline hnul ih =>
      obtain ⟨gap, hgap, hpassed⟩ := ih h
      refine ⟨x :: gap, ?_, .cons hline hpassed⟩
      refine Skipped.cons ?_ hnul
      rwa [List.count_singleton, if_neg (by simpa using hline)]
  | case5 offset line col inComment cs hcomment _ _ ih =>
      obtain ⟨gap, hgap, hpassed⟩ := ih h
      refine ⟨' ' :: gap, hgap.cons (by decide), ?_⟩
      rw [if_neg hcomment]
      exact .blank (by decide) hpassed
  | case6 offset line col inComment cs hcomment _ _ _ ih =>
      obtain ⟨gap, hgap, hpassed⟩ := ih h
      refine ⟨'\t' :: gap, hgap.cons (by decide), ?_⟩
      rw [if_neg hcomment]
      exact .blank (by decide) hpassed
  | case7 offset line col inComment cs hcomment _ _ _ _ ih =>
      obtain ⟨gap, hgap, hpassed⟩ := ih h
      refine ⟨'#' :: gap, hgap.cons (by decide), ?_⟩
      rw [if_neg hcomment]
      exact .comment hpassed
  | case8 offset line col inComment hcomment cs _ _ _ _ _ ih =>
      obtain ⟨gap, hgap, hpassed⟩ := ih h
      obtain ⟨more, rfl⟩ := hgap.eq_cons
      refine ⟨'\r' :: '\n' :: more, hgap.cons (by decide), ?_⟩
      rw [if_neg hcomment]
      exact .lineEnd hpassed
  | case9 => cases h
  | case10 offset line col inComment x cs hline hnul hcomment hspace htab hhash hreturn =>
      cases h
      refine ⟨[], skipped_nil ?_, ?_⟩
      · simp [skipped, hline, hnul, hspace, htab, hhash, hreturn]
      · rw [if_neg hcomment]
        exact .inl .nil

theorem skipFrom_stops {cs : List Char} (h : ∀ x ∈ cs.head?, x = nul ∨ x ∉ skipped)
    (offset line col : Nat) : skipFrom offset line col false cs = .ok ⟨cs, offset, line, col⟩ := by
  cases cs with
  | nil => rfl
  | cons x cs =>
      rcases h x rfl with rfl | hx
      · exact skipFrom_nul cs offset line col false
      · exact skipFrom_stop hx cs offset line col

/-- The column after spacing. -/
theorem Skipped.col_eq {c c' : Cursor} {gap : List Char} (h : c.skip = .ok c')
    (hskipped : Skipped c.offset c.line c.rest gap c') (hgap : Spacing gap) :
    c'.col = colAfter c.col gap := by
  have hskip := skips_spacing hgap hskipped.no_nul c.offset c.line c.col c'.rest
  rw [← hskipped.rest, skipFrom_stops hskipped.stops] at hskip
  exact congrArg Cursor.col (Except.ok.inj (h.symm.trans hskip))

/-- What is skipped before a token is spacing, apart from a comment that runs into the end of the
    text. -/
theorem skip_eq_ok {c c' : Cursor} (h : c.skip = .ok c') :
    ∃ gap, Skipped c.offset c.line c.rest gap c' ∧ Passed gap c'.rest :=
  skipFrom_eq_ok h

end Cursor

end AccessRules
