import AccessRules.Proofs.Grammar.Agreement
import AccessRules.Proofs.Grammar.ReaderRules
import AccessRules.Proofs.Token.Tiling

set_option autoImplicit false

/-! # Reading whole texts

A reader of whole texts stops at the end that the tokens of the text have. That is the end of the
text unless there is a NUL character in it: `text_read_through_iff`. What it gives does not depend
on the spacing between the tokens, again as long as no NUL character stands between them and the
text is not too large to be read: `respaced_read_alike`. -/

namespace AccessRules

open Cursor (byteCount nul)
open Parse (Agree)

/-! ## Readers of whole texts -/

namespace Parse

variable {α β : Type}

/-- Whatever the reader gives, it stops at the end. -/
def Ends (p : Parse α) : Prop :=
  ∀ ts a rest, p ts = .ok (a, rest) → ∃ t, peek rest = .ok t ∧ t.kind = .eof

theorem Ends.bind {p : Parse α} {f : α → Parse β} (hf : ∀ a, Ends (f a)) : Ends (p >>= f) := by
  intro ts b rest h
  obtain ⟨a, mid, -, hb⟩ := bind_eq_ok h
  exact hf a mid b rest hb

theorem Ends.ite {c : Prop} [Decidable c] {p q : Parse α} (hp : Ends p) (hq : Ends q) :
    Ends (if c then p else q) := by
  split
  · exact hp
  · exact hq

theorem expectEnd_eq_ok {ts rest : Tokens} (h : expectEnd ts = .ok ((), rest)) :
    rest = ts ∧ ∃ t, peek ts = .ok t ∧ t.kind = .eof := by
  obtain ⟨k, mid, hk, hend⟩ := bind_eq_ok h
  obtain ⟨t, mid', ht, hpure⟩ := bind_eq_ok hk
  obtain ⟨hpeek, rfl⟩ := current_eq_ok ht
  cases hpure
  split at hend
  · rename_i hkind
    cases hend
    exact ⟨rfl, t, hpeek, hkind⟩
  · obtain ⟨t', mid', -, hfail⟩ := bind_eq_ok hend
    cases hfail

theorem ends_expectEnd (a : α) : Ends (do expectEnd; return a) := by
  intro ts b rest h
  obtain ⟨_, mid, hend, hb⟩ := bind_eq_ok h
  obtain ⟨rfl, hpeek⟩ := expectEnd_eq_ok hend
  cases hb
  exact hpeek

end Parse

namespace Grammar

open Parse

theorem ends_requirement : Ends requirement :=
  .bind fun e => ends_expectEnd e

theorem ends_actionBody : Ends actionBody :=
  .bind fun a => ends_expectEnd a

theorem ends_signature : Ends signature := by
  refine .bind fun _ => .bind fun name => .bind fun w => .ite ?_ ?_
  · exact .bind fun _ => .bind fun params => .bind fun _ => .bind fun params => ends_expectEnd _
  · exact .bind fun params => ends_expectEnd _

end Grammar

/-! ## Where reading stops -/

/-- Tokens are the same as themselves, and so is their end. -/
theorem Cursor.Scans.same {c : Cursor} {ts : Tokens} (h : c.Scans ts) :
    ts.Same (fun t _ => ts.eof? = some t) ts := by
  induction h with
  | fault _ => exact .fault
  | eof hnext hkind =>
      obtain ⟨gap, hstep⟩ := next_eq_ok hnext
      exact .eof (hstep.isEnd hkind).1 (hstep.isEnd hkind).1 rfl
  | cons _ hkind _ ih => exact .cons hkind rfl ih

namespace Source

variable {α : Type} {s s' : Source} {p : Parse α} {a : α}

/-- The reader goes on to the end of the text, and that is the place after the last character. -/
def ReadThrough (s : Source) (p : Parse α) : Prop :=
  ∃ a t, s.run p = .ok (a, .eof t) ∧ t.start = s.text.utf8ByteSize

theorem run_same {E : Token → Token → Prop} (hp : Agree E p p) (h : s.tokens.Same E s'.tokens) :
    Parse.SameOutcome E (s.run p) (s'.run p) :=
  Agree.current (fun _ _ _ _ => hp) s.tokens s'.tokens h

theorem exists_run_eof (hp : ∀ E, Agree E p p) (hend : Parse.Ends p) (h : s.parse p = .ok a) :
    ∃ t, s.run p = .ok (a, .eof t) ∧ s.tokens.eof? = some t := by
  obtain ⟨-, rest, hrun⟩ := parse_eq_ok_iff.1 h
  have hsame := run_same (hp _) s.scans_tokens.same
  rw [hrun] at hsame
  obtain ⟨t, hpeek, hkind⟩ := Parse.Ends.bind (fun _ => hend) s.tokens a rest hrun
  cases hsame with
  | ok hrest =>
      cases hrest with
      | eof _ _ heof => exact ⟨_, hrun, heof⟩
      | fault => cases hpeek
      | cons hne _ _ =>
          cases hpeek
          exact absurd hkind hne

theorem readThrough_iff (hp : ∀ E, Agree E p p) (hend : Parse.Ends p) (h : s.parse p = .ok a) :
    s.ReadThrough p ↔ nul ∉ s.text.toList := by
  obtain ⟨t, hrun, heof⟩ := exists_run_eof hp hend h
  rw [← (start_eof heof).2]
  constructor
  · rintro ⟨a', t', hrun', hstart⟩
    cases hrun.symm.trans hrun'
    exact hstart
  · exact fun hstart => ⟨a, t, hrun, hstart⟩

end Source

/-- Nothing of a text is left out, neither by its tokens nor by a reader of whole texts, unless
    there is a NUL character in it. The end is found at the first one. -/
theorem text_read_through_iff (file text : String) :
    (∀ t, (Source.tokens ⟨file, text⟩).eof? = some t →
      t.start = byteCount (text.toList.takeWhile (· ≠ nul)) ∧
      (t.start = text.utf8ByteSize ↔ nul ∉ text.toList)) ∧
    (∀ e, parseRequirement file text = .ok e →
      (Source.ReadThrough ⟨file, text⟩ Grammar.requirement ↔ nul ∉ text.toList)) ∧
    (∀ a, parseActions file text = .ok a →
      (Source.ReadThrough ⟨file, text⟩ Grammar.actionBody ↔ nul ∉ text.toList)) ∧
    (∀ g, parseSignature text = .ok g →
      (Source.ReadThrough ⟨"<signature>", text⟩ Grammar.signature ↔ nul ∉ text.toList)) :=
  ⟨fun _ => Source.start_eof,
    fun _ => Source.readThrough_iff (fun _ => Grammar.agree_requirement) Grammar.ends_requirement,
    fun _ => Source.readThrough_iff (fun _ => Grammar.agree_actionBody) Grammar.ends_actionBody,
    fun _ => Source.readThrough_iff (fun _ => Grammar.agree_signature) Grammar.ends_signature⟩

theorem comment_read_through :
    (Source.tokens ⟨"f", "TRUE #é"⟩).eof? = some ⟨.eof, "", 1, 6, 8, 8⟩ ∧
    "TRUE #é".utf8ByteSize = 8 ∧
    parseRequirement "f" "TRUE #é" = .ok (.bool true) ∧
    Source.ReadThrough ⟨"f", "TRUE #é"⟩ Grammar.requirement := by
  have heof : (Source.tokens ⟨"f", "TRUE #é"⟩).eof? = some ⟨.eof, "", 1, 6, 8, 8⟩ := rfl
  have hparse : parseRequirement "f" "TRUE #é" = .ok (.bool true) := rfl
  have hall := text_read_through_iff "f" "TRUE #é"
  exact ⟨heof, ((hall.1 _ heof).2.2 (by decide)).symm, hparse, (hall.2.1 _ hparse).2 (by decide)⟩

/-- What stands after a NUL character is not looked at. -/
theorem text_after_nul_dropped :
    ((Source.tokens ⟨"f", "TRUE\x00 &&"⟩).eof? = some ⟨.eof, "", 1, 5, 4, 4⟩ ∧
      "TRUE\x00 &&".utf8ByteSize = 8) ∧
    (parseRequirement "f" "TRUE\x00 &&" = .ok (.bool true) ∧
      ¬ Source.ReadThrough ⟨"f", "TRUE\x00 &&"⟩ Grammar.requirement) ∧
    (parseActions "f" "^a = 1;\x00 &&" = .ok (.set ⟨"a", none⟩ (.int 1)) ∧
      ¬ Source.ReadThrough ⟨"f", "^a = 1;\x00 &&"⟩ Grammar.actionBody) ∧
    (parseSignature "$a\x00 &&" = .ok ⟨"a", []⟩ ∧
      ¬ Source.ReadThrough ⟨"<signature>", "$a\x00 &&"⟩ Grammar.signature) := by
  have hparse : parseRequirement "f" "TRUE\x00 &&" = .ok (.bool true) := rfl
  have hactions : parseActions "f" "^a = 1;\x00 &&" = .ok (.set ⟨"a", none⟩ (.int 1)) := rfl
  have hsignature : parseSignature "$a\x00 &&" = .ok ⟨"a", []⟩ := rfl
  refine ⟨⟨rfl, rfl⟩, ⟨hparse, ?_⟩, ⟨hactions, ?_⟩, hsignature, ?_⟩
  · rw [Source.readThrough_iff (fun _ => Grammar.agree_requirement) Grammar.ends_requirement hparse]
    decide
  · rw [Source.readThrough_iff (fun _ => Grammar.agree_actionBody) Grammar.ends_actionBody hactions]
    decide
  · rw [Source.readThrough_iff (fun _ => Grammar.agree_signature) Grammar.ends_signature hsignature]
    decide

/-! ## Other spacing -/

theorem same_of_spells {ts ts' : Tokens} {ls : List Lexeme} {t t' : Token}
    (h : ts.Spells ls (.eof t)) (h' : ts'.Spells ls (.eof t')) (ht : t.IsEnd) (ht' : t'.IsEnd)
    (hls : ∀ l ∈ ls, l.Lexed) : ts.Same (fun _ _ => True) ts' := by
  induction ls generalizing ts ts' with
  | nil =>
      cases h
      cases h'
      exact .eof ht ht' trivial
  | cons l ls ih =>
      rw [List.forall_mem_cons] at hls
      obtain ⟨t, more, rfl, hkind, htext, hmore⟩ := h
      obtain ⟨t', more', rfl, hkind', htext', hmore'⟩ := h'
      refine .cons (hkind ▸ Cursor.lexed_kind hls.1) ?_ (ih hmore hmore' hls.2)
      rw [Token.lexeme, Token.lexeme, hkind, hkind', htext, htext']

theorem Tokens.Spells.map_lexeme_toList {ts : Tokens} {ls : List Lexeme} {t : Token}
    (h : ts.Spells ls (.eof t)) :
    ts.fault? = none ∧ ts.toList.map Token.lexeme = ls ++ [t.lexeme] := by
  induction ls generalizing ts with
  | nil =>
      cases h
      exact ⟨rfl, rfl⟩
  | cons l ls ih =>
      obtain ⟨t', more, rfl, hkind, htext, hmore⟩ := h
      refine ⟨(ih hmore).1, ?_⟩
      rw [toList, List.map_cons, (ih hmore).2, Token.lexeme, hkind, htext]
      rfl

theorem Tokens.exists_eof_of_fault?_eq_none {ts : Tokens} (h : ts.fault? = none) :
    ∃ t, ts.eof? = some t := by
  induction ts with
  | eof t => exact ⟨t, rfl⟩
  | fault f => cases h
  | cons t ts ih => exact ih h

namespace Source

variable {s s' : Source} {cs trail : List Char}

/-- A text that is read without a fault, as lexemes and an end. -/
theorem spells_of_fault?_eq_none (h : s.tokens.fault? = none) :
    ∃ t : Token, t.IsEnd ∧ s.tokens.Spells s.tokens.lexemes (.eof t) := by
  obtain ⟨t, heof⟩ := Tokens.exists_eof_of_fault?_eq_none h
  obtain ⟨before, after, -, hend⟩ := s.tiles_tokens.exists_stands_eof heof
  exact ⟨t, hend, Tokens.spells_lexemes heof⟩

theorem toOption_parse_of_same {α : Type} {p : Parse α} (hp : ∀ E, Agree E p p)
    (h : s.tokens.Same (fun _ _ => True) s'.tokens) (hfits : s.Fits) (hfits' : s'.Fits) :
    (s.parse p).toOption = (s'.parse p).toOption := by
  have hsame := run_same (hp _) h
  rw [parse, parse, if_pos hfits, if_pos hfits']
  generalize s.run p = r at hsame ⊢
  generalize s'.run p = r' at hsame ⊢
  cases hsame with
  | ok _ => rfl
  | error => rfl

/-- The text is refused for its size, whatever it is read as. -/
def Refused (s : Source) : Prop :=
  parseRequirement s.file s.text = .error (.tooLarge s.file) ∧
    parseActions s.file s.text = .error (.tooLarge s.file) ∧
    parseSignature s.text = .error (.tooLarge "<signature>")

theorem refused_of_not_fits (h : ¬ s.Fits) : s.Refused :=
  ⟨parse_of_not_fits h, parse_of_not_fits h, parse_of_not_fits h⟩

end Source

/-- Tokens that are written again with any spacing between them are read as they were, exactly if no
    NUL character stands between them. So is the tree they stand for, if neither text is refused for
    its size. -/
theorem respaced_read_alike (s s' : Source) {cs trail : List Char} (h : s.tokens.fault? = none)
    (hcs : Respaced true s.tokens.lexemes cs) (htrail : Spacing trail)
    (htext : s'.text.toList = cs ++ trail) :
    ((s'.tokens.fault? = none ∧
        s'.tokens.toList.map Token.lexeme = s.tokens.toList.map Token.lexeme) ↔ nul ∉ cs) ∧
    (nul ∉ cs → s.Fits → s'.Fits →
      (parseRequirement s'.file s'.text).toOption = (parseRequirement s.file s.text).toOption ∧
      (parseActions s'.file s'.text).toOption = (parseActions s.file s.text).toOption ∧
      (parseSignature s'.text).toOption = (parseSignature s.text).toOption) ∧
    (¬ s.Fits → s.Refused) ∧ (¬ s'.Fits → s'.Refused) := by
  have hlexed := s.scans_tokens.lexed
  obtain ⟨t, ht, hspells⟩ := s.spells_of_fault?_eq_none h
  have hlist := hspells.map_lexeme_toList.2
  refine ⟨⟨fun hsame hnul => ?_, fun hnul => ?_⟩, fun hnul hfits hfits' => ?_,
    Source.refused_of_not_fits, Source.refused_of_not_fits⟩
  · obtain ⟨hfault, hmap⟩ := hsame
    obtain ⟨t', ht', hspells'⟩ := s'.spells_of_fault?_eq_none hfault
    rw [hspells'.map_lexeme_toList.2, hlist, ht.lexeme_eq, ht'.lexeme_eq] at hmap
    exact Source.tokens_cut hcs hlexed htrail hnul htext (List.append_cancel_right hmap)
  · obtain ⟨t', ht', hspells'⟩ := Source.tokens_respaced hcs hlexed htrail hnul htext
    obtain ⟨hfault, hmap⟩ := hspells'.map_lexeme_toList
    exact ⟨hfault, by rw [hmap, hlist, ht.lexeme_eq, ht'.lexeme_eq]⟩
  · obtain ⟨t', ht', hspells'⟩ := Source.tokens_respaced hcs hlexed htrail hnul htext
    have hsame := same_of_spells hspells' hspells ht' ht hlexed
    -- the tokens of a text do not depend on the name of the file
    have hsignature : (Source.mk "<signature>" s'.text).tokens.Same (fun _ _ => True)
      (Source.mk "<signature>" s.text).tokens := hsame
    exact ⟨Source.toOption_parse_of_same (fun _ => Grammar.agree_requirement) hsame hfits' hfits,
      Source.toOption_parse_of_same (fun _ => Grammar.agree_actionBody) hsame hfits' hfits,
      Source.toOption_parse_of_same (fun _ => Grammar.agree_signature) hsignature hfits' hfits⟩

theorem difference_read_alike :
    (Source.tokens ⟨"f", "3-(-1)<x"⟩).fault? = none ∧
    Respaced true (Source.tokens ⟨"f", "3-(-1)<x"⟩).lexemes
      "3 -#less\n\t(\r\n-1 )\n< x".toList ∧
    (Source.tokens ⟨"g", "3 -#less\n\t(\r\n-1 )\n< x\n"⟩).toList.map Token.lexeme
      = (Source.tokens ⟨"f", "3-(-1)<x"⟩).toList.map Token.lexeme ∧
    parseRequirement "f" "3-(-1)<x"
      = .ok (.numCompare (.binOp (.int 3) .sub (.paren (.int (-1)))) .lt (.setting "x")) ∧
    (parseRequirement "g" "3 -#less\n\t(\r\n-1 )\n< x\n").toOption
      = (parseRequirement "f" "3-(-1)<x").toOption := by
  have hlexemes : (Source.tokens ⟨"f", "3-(-1)<x"⟩).lexemes = [⟨.number, "3"⟩, ⟨.symbol, "-"⟩,
    ⟨.symbol, "("⟩, ⟨.number, "-1"⟩, ⟨.symbol, ")"⟩, ⟨.symbol, "<"⟩, ⟨.ident, "x"⟩] := rfl
  have hblank : Spacing [' '] := .blank (by decide) .nil
  have hline : Spacing ['\n'] := .blank (by decide) .nil
  have hpair : Spacing ['\r', '\n'] := .lineEnd .nil
  have hcomment : Spacing ['#', 'l', 'e', 's', 's', '\n', '\t'] :=
    @Spacing.comment ['l', 'e', 's', 's'] ['\t'] (by decide) (.blank (by decide) .nil)
  have hcs : Respaced true (Source.tokens ⟨"f", "3-(-1)<x"⟩).lexemes
      "3 -#less\n\t(\r\n-1 )\n< x".toList := by
    rw [hlexemes]
    exact .cons .nil (.inl rfl) (.cons hblank (.inr (by decide)) (.cons hcomment (.inr (by decide))
      (.cons hpair (.inr (by decide)) (.cons hblank (.inr (by decide)) (.cons hline
        (.inr (by decide)) (.cons hblank (.inr (by decide)) .nil))))))
  have halike := respaced_read_alike ⟨"f", "3-(-1)<x"⟩ ⟨"g", "3 -#less\n\t(\r\n-1 )\n< x\n"⟩
    rfl hcs hline rfl
  have hparsed := halike.2.1 (by decide) (by decide) (by decide)
  exact ⟨rfl, hcs, (halike.1.2 (by decide)).2, rfl, hparsed.1⟩

/-- A NUL character in a comment hides what follows the comment. -/
theorem text_after_comment_dropped :
    (Source.tokens ⟨"f", "TRUE && FALSE"⟩).fault? = none ∧
    Respaced true (Source.tokens ⟨"f", "TRUE && FALSE"⟩).lexemes "TRUE #\x00\n&& FALSE".toList ∧
    (Source.tokens ⟨"f", "TRUE #\x00\n&& FALSE"⟩).lexemes = [.ident "TRUE"] ∧
    parseRequirement "f" "TRUE && FALSE" = .ok (.and (.bool true) (.bool false)) ∧
    parseRequirement "f" "TRUE #\x00\n&& FALSE" = .ok (.bool true) := by
  have hlexemes : (Source.tokens ⟨"f", "TRUE && FALSE"⟩).lexemes
      = [.ident "TRUE", .symbol "&&", .ident "FALSE"] := rfl
  have hcomment : Spacing [' ', '#', nul, '\n'] :=
    .blank (by decide) (@Spacing.comment [nul] [] (by decide) .nil)
  have hblank : Spacing [' '] := .blank (by decide) .nil
  refine ⟨rfl, ?_, rfl, rfl, rfl⟩
  rw [hlexemes]
  exact .cons .nil (.inl rfl) (.cons hcomment (.inr (by decide))
    (.cons hblank (.inr (by decide)) .nil))

end AccessRules
