import AccessRules.Grammar.ActionBody
import AccessRules.Grammar.SignatureText
import AccessRules.Proofs.Token.Lexeme

set_option autoImplicit false

/-! # Reading the same lexemes

A reader looks at the kinds and the texts of tokens, and at their places only to report a fault. So
on tokens that are the same but for their places it gives the same tree or fails both times:
`Grammar.agree_requirement`, `Grammar.agree_actionBody` and `Grammar.agree_signature`. There is one
rule for every way in which readers are built and one lemma for each reader.

What the two ends of the text have to do with each other is left open. With a relation that says
something of one of them, the same lemmas say where a reader stops. -/

namespace AccessRules

/-- The same lexemes before ends that `E` relates, or before faults. -/
inductive Tokens.Same (E : Token → Token → Prop) : Tokens → Tokens → Prop
  | eof {t t' : Token} (ht : t.IsEnd) (ht' : t'.IsEnd) (h : E t t') : Same E (.eof t) (.eof t')
  | fault {f f' : LexFault} : Same E (.fault f) (.fault f')
  | cons {t t' : Token} {ts ts' : Tokens} (ht : t.kind ≠ .eof) (h : t.lexeme = t'.lexeme)
      (hts : Same E ts ts') : Same E (.cons t ts) (.cons t' ts')

theorem Tokens.Same.length_eq {E : Token → Token → Prop} {ts ts' : Tokens} (h : ts.Same E ts') :
    ts.length = ts'.length := by
  induction h with
  | cons _ _ _ ih => rw [length, length, ih]
  | _ => rfl

namespace Parse

variable {α β σ ι : Type} {E : Token → Token → Prop} {ts ts' : Tokens}

/-- The same tree and the same lexemes left, or a fault both times. -/
inductive SameOutcome (E : Token → Token → Prop) :
    Except ParseFault (α × Tokens) → Except ParseFault (α × Tokens) → Prop
  | ok {a : α} {ts ts' : Tokens} (h : ts.Same E ts') : SameOutcome E (.ok (a, ts)) (.ok (a, ts'))
  | error {f f' : ParseFault} : SameOutcome E (.error f) (.error f')

/-- On the same lexemes the readers have the same outcome. -/
def Agree (E : Token → Token → Prop) (p q : Parse α) : Prop :=
  ∀ ts ts', ts.Same E ts' → SameOutcome E (p ts) (q ts')

namespace Agree

variable {p q : Parse α} {f g : α → Parse β}

theorem pure (a : α) : Agree E (pure a) (pure a) :=
  fun _ _ h => .ok h

theorem bind (hp : Agree E p q) (hf : ∀ a, Agree E (f a) (g a)) : Agree E (p >>= f) (q >>= g) := by
  intro ts ts' h
  have hsame := hp ts ts' h
  change SameOutcome E (p ts >>= fun r => f r.1 r.2) (q ts' >>= fun r => g r.1 r.2)
  generalize p ts = r at hsame ⊢
  generalize q ts' = r' at hsame ⊢
  cases hsame with
  | ok hrest => exact hf _ _ _ hrest
  | error => exact .error

theorem map (hp : Agree E p q) (f : α → β) :
    Agree E (p >>= fun a => Pure.pure (f a)) (q >>= fun a => Pure.pure (f a)) :=
  hp.bind fun a => .pure (f a)

theorem ite {c : Prop} [Decidable c] {p' q' : Parse α} (hp : Agree E p q) (hq : Agree E p' q') :
    Agree E (if c then p else p') (if c then q else q') := by
  split
  · exact hp
  · exact hq

end Agree

/-! ## The current token -/

theorem peek_same (h : ts.Same E ts') :
    (∃ t t', peek ts = .ok t ∧ peek ts' = .ok t' ∧ t.lexeme = t'.lexeme)
      ∨ ∃ f f', peek ts = .error f ∧ peek ts' = .error f' := by
  cases h with
  | eof ht ht' _ => exact .inl ⟨_, _, rfl, rfl, ht.lexeme_eq.trans ht'.lexeme_eq.symm⟩
  | fault => exact .inr ⟨_, _, rfl, rfl⟩
  | cons _ h _ => exact .inl ⟨_, _, rfl, rfl, h⟩

theorem tail_same (h : ts.Same E ts') : (tail ts).Same E (tail ts') := by
  cases h with
  | eof ht ht' h => exact .eof ht ht' h
  | fault => exact .fault
  | cons _ _ hts => exact hts

namespace Agree

/-- A token is used for its kind and its text, or to report a fault. -/
theorem token (look : Tokens → Tokens) (hlook : ∀ {ts ts' : Tokens}, ts.Same E ts' →
      (look ts).Same E (look ts')) {f g : Token → Parse β}
    (hf : ∀ t t', t.kind = t'.kind → t.text = t'.text → Agree E (f t) (g t')) :
    Agree E ((fun ts => do return (← peek (look ts), ts) : Parse Token) >>= f)
      ((fun ts => do return (← peek (look ts), ts) : Parse Token) >>= g) := by
  intro ts ts' h
  change SameOutcome E ((peek (look ts) >>= fun t => Pure.pure (t, ts)) >>= fun r => f r.1 r.2)
    ((peek (look ts') >>= fun t => Pure.pure (t, ts')) >>= fun r => g r.1 r.2)
  rcases peek_same (hlook h) with ⟨t, t', ht, ht', hlexeme⟩ | ⟨e, e', he, he'⟩
  · rw [ht, ht']
    exact hf t t' (congrArg Lexeme.kind hlexeme) (congrArg Lexeme.text hlexeme) ts ts' h
  · rw [he, he']
    exact .error

theorem current {f g : Token → Parse β}
    (hf : ∀ t t', t.kind = t'.kind → t.text = t'.text → Agree E (f t) (g t')) :
    Agree E (Parse.current >>= f) (Parse.current >>= g) :=
  token id id hf

theorem following {f g : Token → Parse β}
    (hf : ∀ t t', t.kind = t'.kind → t.text = t'.text → Agree E (f t) (g t')) :
    Agree E (Parse.following >>= f) (Parse.following >>= g) :=
  token tail tail_same hf

theorem kind : Agree E Parse.kind Parse.kind :=
  current fun t _ hkind _ => hkind ▸ .pure t.kind

theorem word : Agree E Parse.word Parse.word := by
  refine current fun t t' hkind htext => ?_
  have hword : wordOf t = wordOf t' := by rw [wordOf, wordOf, hkind, htext]
  exact hword ▸ .pure (wordOf t)

theorem failAt (t t' : Token) (cause cause' : ParseCause) :
    Agree E (Parse.failAt t cause : Parse α) (Parse.failAt t' cause') :=
  fun _ _ _ => .error

theorem fail (cause : ParseCause) : Agree E (Parse.fail cause : Parse α) (Parse.fail cause) :=
  current fun t t' _ _ => .failAt t t' cause cause

theorem advance : Agree E Parse.advance Parse.advance := by
  intro ts ts' h
  change SameOutcome E (peek (tail ts) >>= fun _ => Pure.pure ((), tail ts))
    (peek (tail ts') >>= fun _ => Pure.pure ((), tail ts'))
  rcases peek_same (tail_same h) with ⟨t, t', ht, ht', -⟩ | ⟨e, e', he, he'⟩
  · rw [ht, ht']
    exact .ok (tail_same h)
  · rw [he, he']
    exact .error

theorem expect (text context : String) :
    Agree E (Parse.expect text context) (Parse.expect text context) :=
  word.bind fun _ => .ite advance (.fail _)

theorem expectEnd : Agree E Parse.expectEnd Parse.expectEnd :=
  kind.bind fun _ => .ite (.pure ()) (.fail _)

/-! ## Repetition -/

theorem iterate {round : σ → Parse (Round σ β)}
    (hround : ∀ state, Agree E (round state) (round state)) (state : σ) :
    Agree E (Parse.iterate round state) (Parse.iterate round state) := by
  have hrounds : ∀ bound state, Agree E (rounds round bound state) (rounds round bound state) := by
    intro bound
    induction bound with
    | zero => exact fun _ => .fail _
    | succ bound ih =>
        intro state
        refine (hround state).bind fun r => ?_
        cases r with
        | again state => exact ih state
        | done result => exact .pure result
  intro ts ts' h
  rw [Parse.iterate, Parse.iterate, h.length_eq]
  exact hrounds _ state ts ts' h

theorem nested {reader : (ι → Parse α) → ι → Parse α}
    (hreader : ∀ inner, (∀ i, Agree E (inner i) (inner i)) →
      ∀ i, Agree E (reader inner i) (reader inner i)) (i : ι) :
    Agree E (Parse.nested reader i) (Parse.nested reader i) := by
  have hdepth : ∀ depth i, Agree E (nestedTo reader depth i) (nestedTo reader depth i) := by
    intro depth
    induction depth with
    | zero => exact fun _ => .fail _
    | succ depth ih => exact hreader _ ih
  intro ts ts' h
  rw [Parse.nested, Parse.nested, h.length_eq]
  exact hdepth _ i ts ts' h

theorem listUntil {closing list : String} {element : Parse α} (helement : Agree E element element) :
    Agree E (Parse.listUntil closing list element) (Parse.listUntil closing list element) := by
  refine iterate (fun es => word.bind fun _ => .ite (.pure _) ?_) []
  refine helement.bind fun e => word.bind fun _ => .ite (advance.map _) ?_
  exact .ite (.pure _) (.fail _)

theorem leftAssociative {operator? : String → Option (α → α → α)} {operand : Parse α}
    (hoperand : Agree E operand operand) :
    Agree E (Parse.leftAssociative operator? operand)
      (Parse.leftAssociative operator? operand) := by
  refine hoperand.bind fun a => iterate (fun lhs => word.bind fun w => ?_) a
  cases operator? w with
  | none => exact .pure _
  | some combine => exact advance.bind fun _ => hoperand.map _

end Agree

/-! ## Words with a meaning -/

theorem agree_ident : Agree E ident ident := by
  refine .current fun t t' hkind htext => ?_
  simp only [hkind, htext]
  refine .ite (.ite ?_ (Agree.advance.map _)) (.fail _)
  exact (Agree.fail _).bind fun _ => Agree.advance.map _

theorem agree_int : Agree E int int := by
  refine .current fun t t' hkind htext => ?_
  simp only [hkind, htext]
  cases if t'.kind = .number then readWord? t'.text.toList else none with
  | some n => exact Agree.advance.map _
  | none => exact .fail _

theorem agree_string : Agree E string string := by
  refine .current fun t t' _ htext => ?_
  simp only [htext]
  cases JsonString.decode t'.text.toList with
  | ok s => exact Agree.advance.map _
  | error fault => exact .failAt t t' _ _

theorem agree_place : Agree E place place :=
  .current fun _ _ _ htext => htext ▸ Agree.advance.map _

end Parse

namespace Grammar

open Parse

variable {E : Token → Token → Prop}

/-! ## Parts of expressions -/

theorem agree_reference : Agree E reference reference := by
  refine (Agree.expect _ _).bind fun _ => agree_ident.bind fun name => Agree.word.bind fun w => ?_
  refine .ite (Agree.advance.bind fun _ => Agree.kind.bind fun k => .ite ?_ ?_) (.pure _)
  · exact agree_place.map _
  · exact (Agree.expect _ _).bind fun _ => agree_ident.map _

theorem agree_number : Agree E number number := by
  refine .current fun t t' _ htext => ?_
  simp only [htext]
  cases readWord? t'.text.toList with
  | some n => exact Agree.advance.map _
  | none =>
      cases Decimal.readFloat? t'.text with
      | some x => exact Agree.advance.map _
      | none => exact .failAt t t' _ _

theorem agree_caseLiteral : Agree E caseLiteral caseLiteral := by
  refine .current fun t t' hkind htext => ?_
  simp only [hkind, htext]
  cases t'.kind with
  | number => exact agree_number
  | string => exact agree_string.map _
  | place => exact agree_place.map _
  | ident => exact .ite (Agree.advance.map _) (.ite (Agree.advance.map _) (.fail _))
  | symbol => exact .fail _
  | eof => exact .fail _

theorem agree_threshold : Agree E threshold threshold := by
  refine .current fun t t' hkind htext => ?_
  simp only [hkind, htext]
  cases t'.kind with
  | number => exact agree_int.map _
  | ident => exact agree_ident.bind fun name => .ite ((Agree.fail _).map _) (.pure _)
  | symbol => exact .ite (agree_reference.map _) (.fail _)
  | string => exact .fail _
  | place => exact .fail _
  | eof => exact .fail _

theorem agree_listedItem : Agree E listedItem listedItem :=
  agree_ident.bind fun _ => .ite ((Agree.fail _).map _) (.pure _)

theorem agree_itemList : Agree E itemList itemList :=
  (Agree.expect _ _).bind fun _ => (Agree.listUntil agree_listedItem).bind fun _ =>
    Agree.advance.map _

theorem agree_member : Agree E member member := by
  refine Agree.kind.bind fun k => ?_
  cases k with
  | string => exact agree_string.map _
  | place => exact agree_place.map _
  | ident => exact agree_ident.map _
  | number => exact .fail _
  | symbol => exact .fail _
  | eof => exact .fail _

theorem agree_set : Agree E set set := by
  refine (Agree.expect _ _).bind fun _ => (Agree.listUntil agree_member).bind fun members =>
    Agree.advance.bind fun _ => ?_
  cases Member.gather? members with
  | some set => exact .pure set
  | none => exact .fail _

/-! ## Expressions -/

section Inner

variable {inner : Inner} (hinner : ∀ position, Agree E (inner position) (inner position))

include hinner

theorem agree_args : Agree E (args inner) (args inner) := by
  refine Agree.word.bind fun w => .ite (Agree.advance.bind fun _ => ?_) (.pure _)
  exact (Agree.listUntil (hinner .value)).bind fun es => Agree.advance.map _

theorem agree_arm {α : Type} {branch : Parse α} (hbranch : Agree E branch branch) :
    Agree E (arm inner branch) (arm inner branch) :=
  (Agree.expect _ _).bind fun _ => (hinner .truth).bind fun _ => (Agree.expect _ _).bind fun _ =>
    (Agree.expect _ _).bind fun _ => hbranch.bind fun _ => (Agree.expect _ _).map _

theorem agree_conditional {α : Type} {branch : Parse α} (hbranch : Agree E branch branch) :
    Agree E (conditional inner branch) (conditional inner branch) := by
  refine .iterate (fun arms => (agree_arm hinner hbranch).bind fun a => ?_) []
  refine Agree.word.bind fun w => .ite (.pure _) (Agree.advance.bind fun _ => ?_)
  refine Agree.word.bind fun w => .ite (Agree.advance.map _) ?_
  exact (Agree.expect _ _).bind fun _ => hbranch.bind fun b => (Agree.expect _ _).map _

theorem agree_choiceCases {κ : Type} {key : Parse κ} (hkey : Agree E key key) :
    Agree E (choiceCases inner key) (choiceCases inner key) := by
  have hcase : Agree E (choiceCase inner key) (choiceCase inner key) := by
    refine Agree.word.bind fun w => .ite ?_ ?_
    · exact Agree.advance.bind fun _ => (Agree.expect _ _).bind fun _ => (hinner .value).map _
    · exact hkey.bind fun k => (Agree.expect _ _).bind fun _ => (hinner .value).map _
  refine (Agree.expect _ _).bind fun _ => (Agree.listUntil hcase).bind fun cases => ?_
  cases (cases.filter (·.1.isNone)).getLast? with
  | none => exact .fail _
  | some last => exact Agree.advance.map _

theorem agree_choice : Agree E (choice inner) (choice inner) := by
  refine agree_ident.bind fun subject => .ite ?_ ?_
  · exact (agree_choiceCases hinner agree_int).map _
  · exact (agree_choiceCases hinner agree_caseLiteral).map _

omit hinner in
theorem agree_named : Agree E named named := by
  refine agree_ident.bind fun name => .ite (.pure _) (.ite ?_ (.pure _))
  refine Agree.word.bind fun w => .ite (Agree.advance.bind fun _ => ?_) (.pure _)
  exact agree_threshold.bind fun t => (Agree.expect _ _).map _

theorem agree_wordAtom : Agree E (wordAtom inner) (wordAtom inner) := by
  refine .following fun next next' _ htext => Agree.word.bind fun w => ?_
  simp only [htext]
  refine .ite (Agree.advance.map _) ?_
  refine .ite (Agree.advance.map _) ?_
  refine .ite (Agree.advance.bind fun _ => ?_) ?_
  · exact (agree_conditional hinner (hinner .value)).map _
  refine .ite (Agree.advance.bind fun _ => agree_choice hinner) ?_
  refine .ite (Agree.advance.bind fun _ => Agree.kind.bind fun k => .ite ?_ ?_) ?_
  · exact agree_place.map _
  · exact agree_reference.map _
  refine .ite (Agree.advance.bind fun _ => ?_) (.ite (Agree.advance.bind fun _ => ?_) agree_named)
  · exact (Agree.expect _ _).bind fun _ => agree_ident.bind fun item =>
      (Agree.expect _ _).bind fun _ => (Agree.expect _ _).bind fun _ => agree_threshold.map _
  · exact (Agree.expect _ _).bind fun _ => agree_reference.bind fun r => (Agree.expect _ _).map _

theorem agree_symbolAtom : Agree E (symbolAtom inner) (symbolAtom inner) := by
  refine Agree.word.bind fun w => .ite (Agree.advance.bind fun _ => ?_) ?_
  · exact (hinner .value).bind fun e => (Agree.expect _ _).map _
  refine .ite (agree_reference.map _) (.ite (Agree.advance.bind fun _ => ?_) ?_)
  · exact agree_ident.bind fun func => (agree_args hinner).map _
  · exact .ite (agree_itemList.map _) (.fail _)

theorem agree_atom : Agree E (atom inner) (atom inner) := by
  refine Agree.kind.bind fun k => ?_
  cases k with
  | number => exact agree_number.map _
  | string => exact agree_string.map _
  | place => exact agree_place.map _
  | ident => exact agree_wordAtom hinner
  | symbol => exact agree_symbolAtom hinner
  | eof => exact .fail _

theorem agree_arith : Agree E (arith inner) (arith inner) :=
  .leftAssociative (.leftAssociative (agree_atom hinner))

theorem agree_comparison : Agree E (comparison inner) (comparison inner) := by
  refine (agree_arith hinner).bind fun lhs => Agree.word.bind fun w => ?_
  cases comparison? w with
  | some op => exact Agree.advance.bind fun _ => (agree_arith hinner).map _
  | none =>
      refine .ite (Agree.advance.bind fun _ => agree_int.map _) (.ite ?_ (.pure _))
      cases lhs with
      | ref r => exact Agree.advance.bind fun _ => agree_set.map _
      | _ => exact .fail _

theorem agree_negated : Agree E (negated inner) (negated inner) := by
  refine Agree.bind (.iterate (fun count => Agree.word.bind fun w => ?_) 0) fun count =>
    (agree_comparison hinner).map _
  exact .ite (Agree.advance.map _) (.pure _)

theorem agree_disjunction : Agree E (disjunction inner) (disjunction inner) :=
  .leftAssociative (.leftAssociative (agree_negated hinner))

theorem agree_exprWith (position : Position) :
    Agree E (exprWith inner position) (exprWith inner position) := by
  refine (agree_disjunction hinner).bind fun e => Agree.word.bind fun w => .ite ?_ ?_
  · exact Agree.advance.bind fun _ => (hinner position).bind fun yes =>
      (Agree.expect _ _).bind fun _ => (hinner position).map _
  · cases position with
    | truth => exact .pure _
    | value => exact .pure _

end Inner

theorem agree_expr (position : Position) : Agree E (expr position) (expr position) :=
  .nested (fun _ => agree_exprWith) position

theorem agree_requirement : Agree E requirement requirement :=
  (agree_expr .truth).bind fun _ => Agree.expectEnd.map _

/-! ## Actions -/

theorem agree_assignment : Agree E assignment assignment := by
  refine agree_reference.bind fun target => Agree.word.bind fun w => ?_
  cases assignment? w with
  | none => exact .fail _
  | some op =>
      refine Agree.advance.bind fun _ => (agree_expr .value).bind fun value => ?_
      cases op with
      | none => exact .pure _
      | some op => exact .pure _

theorem agree_swapped : Agree E swapped swapped :=
  (Agree.expect _ _).bind fun _ => agree_reference.bind fun _ => (Agree.expect _ _).bind fun _ =>
    agree_reference.bind fun _ => (Agree.expect _ _).map _

theorem agree_action {block : Parse Action} (hblock : Agree E block block) :
    Agree E (action block) (action block) := by
  refine Agree.word.bind fun w => .ite agree_assignment ?_
  refine .ite (Agree.advance.bind fun _ => agree_swapped) ?_
  refine .ite (Agree.advance.bind fun _ => ?_) (.ite (Agree.advance.bind fun _ => ?_) (.fail _))
  · exact (agree_conditional agree_expr hblock).map _
  · exact agree_ident.bind fun func => (agree_args agree_expr).map _

theorem agree_actionList {block : Parse Action} (hblock : Agree E block block) :
    Agree E (actionList block) (actionList block) := by
  refine .iterate (fun steps => Agree.kind.bind fun k => Agree.word.bind fun w => ?_) []
  refine .ite (.pure _) ((agree_action hblock).bind fun a => Agree.word.bind fun w => ?_)
  exact .ite (Agree.advance.map _) (.pure _)

theorem agree_block : Agree E block block := by
  refine .nested (fun inner hinner _ => ?_) ()
  refine (agree_actionList (hinner ())).bind fun steps => ?_
  cases steps with
  | nil => exact .fail _
  | cons a more =>
      cases more with
      | nil => exact .pure a
      | cons b more => exact .pure _

theorem agree_actionBody : Agree E actionBody actionBody :=
  agree_block.bind fun _ => Agree.expectEnd.map _

/-! ## Signatures -/

theorem agree_param : Agree E param param := by
  refine (Agree.expect _ _).bind fun _ => agree_ident.bind fun name => Agree.word.bind fun w => ?_
  refine .ite (Agree.advance.bind fun _ => .current fun t t' _ _ => ?_) (.pure _)
  refine agree_ident.bind fun typeName => ?_
  cases ArgType.ofName? typeName with
  | some type => exact .pure _
  | none => exact .failAt t t' _ _

theorem agree_signature : Agree E signature signature := by
  refine (Agree.expect _ _).bind fun _ => agree_ident.bind fun name => Agree.word.bind fun w => ?_
  refine .ite ?_ ?_
  · exact Agree.advance.bind fun _ => (Agree.listUntil agree_param).bind fun params =>
      Agree.advance.bind fun _ => .bind (.pure params) fun _ => Agree.expectEnd.map _
  · exact .bind (.pure []) fun _ => Agree.expectEnd.map _

end Grammar

end AccessRules
