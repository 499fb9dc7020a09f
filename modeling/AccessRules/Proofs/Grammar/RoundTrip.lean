import AccessRules.Proofs.Grammar.ActionCompleteness
import AccessRules.Proofs.Grammar.Floatless
import AccessRules.Proofs.Grammar.Soundness
import AccessRules.Proofs.Token.Respacing

set_option autoImplicit false

/-! # Reading what was written

Writing a tree and reading the text gives the tree again, for every tree without floats that comes
from a text. Only a text that is too large is refused. The two halves meet at the grammar: what is
read is derived, and what is derived is read back from its tokens. Between text and tokens stands
the lexer, which reads tokens back that are written with blanks between them, if each of them is
`Lexeme.Readable`. -/

namespace AccessRules

open Parse

/-! ## Tokens of a tree can be read -/

namespace Lexeme

/-- Each of the tokens can be read back. -/
def AllReadable (ls : List Lexeme) : Prop :=
  ∀ l ∈ ls, l.Readable

@[simp] theorem allReadable_nil : AllReadable [] := by
  simp [AllReadable]

@[simp] theorem allReadable_cons {l : Lexeme} {ls : List Lexeme} :
    AllReadable (l :: ls) ↔ l.Readable ∧ AllReadable ls :=
  List.forall_mem_cons

@[simp] theorem allReadable_append {ls ms : List Lexeme} :
    AllReadable (ls ++ ms) ↔ AllReadable ls ∧ AllReadable ms :=
  List.forall_mem_append

theorem readable_symbol {w : String}
    (h : w.toList ∈ Cursor.singleSymbols.map ([·]) ∨ w.toList ∈ Cursor.doubleSymbols) :
    (symbol w).Readable :=
  h.elim .single .double

theorem readable_word {w : String} (hstart : w.toList.head?.any Cursor.isIdentStart = true)
    (hmore : w.toList.tail.all Cursor.isIdentChar = true) : (ident w).Readable := by
  refine .ident ?_
  cases hlist : w.toList with
  | nil =>
      rw [hlist] at hstart
      cases hstart
  | cons c cs =>
      rw [hlist] at hstart hmore
      exact ⟨c, cs, hlist, hstart, List.all_eq_true.1 hmore⟩

end Lexeme

open Lexeme

theorem allReadable_intercalate {sep : List Lexeme} {parts : List (List Lexeme)}
    (hsep : AllReadable sep) (h : ∀ p ∈ parts, AllReadable p) :
    AllReadable (sep.intercalate parts) := by
  induction parts with
  | nil => simp
  | cons p parts ih =>
      cases parts with
      | nil => simpa using h
      | cons q parts =>
          rw [List.intercalate_cons_cons, allReadable_append, allReadable_append]
          exact ⟨⟨h p (by simp), hsep⟩, ih fun x hx => h x (List.mem_cons_of_mem p hx)⟩

theorem allReadable_commaLexemes {parts : List (List Lexeme)} (h : ∀ p ∈ parts, AllReadable p) :
    AllReadable (commaLexemes parts) :=
  allReadable_intercalate (by simpa using readable_symbol (by decide)) h

theorem allReadable_tokenList {α : Type} {token : α → Lexeme} {elements : List α}
    (h : ∀ e ∈ elements, (token e).Readable) :
    AllReadable (commaLexemes (elements.map fun e => [token e])) :=
  allReadable_commaLexemes (List.forall_mem_map.2 fun e he => List.forall_mem_singleton.2 (h e he))

theorem Reference.allReadable {r : Reference} (hr : r.WellFormed) : AllReadable r.lexemes := by
  obtain ⟨name, qualifier⟩ := r
  obtain ⟨hname, hqualifier⟩ := hr
  have hcaret : (symbol "^").Readable := readable_symbol (by decide)
  have hat : (symbol "@").Readable := readable_symbol (by decide)
  rcases qualifier with _ | ⟨q | path⟩
  · simpa [lexemes] using ⟨hcaret, .ident hname.1⟩
  · have hq : IsName q := hqualifier _ rfl
    simpa [lexemes] using ⟨hcaret, .ident hname.1, hat, hcaret, .ident hq.1⟩
  · have hpath : IsPath path := hqualifier _ rfl
    simpa [lexemes] using ⟨hcaret, .ident hname.1, hat, .place hpath⟩

theorem Threshold.allReadable {t : Threshold} (ht : t.WellFormed) : AllReadable t.lexemes := by
  cases t with
  | count n => simpa [lexemes] using Readable.int n
  | setting name => simpa [lexemes] using Readable.ident ht.1.1
  | ref r => exact Reference.allReadable ht

theorem Literal.readable {lit : Literal} (h : lit.WellFormed) (hfloat : lit.NoFloat) :
    lit.lexeme.Readable := by
  cases lit with
  | bool b => cases b <;> exact readable_word (by decide) (by decide)
  | int n => exact .int n
  | float x => exact absurd hfloat id
  | str s => exact .string s
  | place path => exact .place h

theorem Members.allReadable {ms : Members} (h : ms.WellFormed) : AllReadable ms.lexemes := by
  cases ms with
  | items names => exact allReadable_tokenList fun name hname => .ident (h name hname).1
  | strs texts => exact allReadable_tokenList fun text _ => .string text
  | places paths => exact allReadable_tokenList fun path hpath => .place (h.2 path hpath)

theorem PlaceArg.allReadable {p : PlaceArg} (h : p.WellFormed) : AllReadable p.lexemes := by
  cases p with
  | ref r => exact Reference.allReadable h
  | literal path => simpa [lexemes] using Readable.place h

theorem allReadable_callLexemes {func : String} {args : List (List Lexeme)} (hfunc : IsName func)
    (hargs : ∀ a ∈ args, AllReadable a) : AllReadable (callLexemes func args) := by
  simp only [callLexemes, allReadable_cons, allReadable_append, allReadable_nil, and_true]
  exact ⟨⟨readable_symbol (by decide), .ident hfunc.1, readable_symbol (by decide),
    allReadable_commaLexemes hargs⟩, readable_symbol (by decide)⟩

theorem allReadable_armLexemes {cond branch : List Lexeme} (hcond : AllReadable cond)
    (hbranch : AllReadable branch) : AllReadable (armLexemes cond branch) := by
  simp only [armLexemes, allReadable_cons, allReadable_append, allReadable_nil, and_true]
  exact ⟨⟨⟨readable_symbol (by decide), hcond⟩, readable_symbol (by decide),
    readable_symbol (by decide), hbranch⟩, readable_symbol (by decide)⟩

theorem allReadable_chainLexemes {arms : List (List Lexeme × List Lexeme)}
    {otherwise : Option (List Lexeme)}
    (harms : ∀ a ∈ arms, AllReadable a.1 ∧ AllReadable a.2)
    (hotherwise : ∀ o ∈ otherwise, AllReadable o) : AllReadable (chainLexemes arms otherwise) := by
  have helse : (ident "ELSE").Readable := readable_word (by decide) (by decide)
  fun_induction chainLexemes arms otherwise with
  | case1 => simp
  | case2 o =>
      simp only [allReadable_cons, allReadable_append, allReadable_nil, and_true]
      exact ⟨⟨helse, readable_symbol (by decide), hotherwise o rfl⟩, readable_symbol (by decide)⟩
  | case3 c b o ih =>
      obtain ⟨hc, hb⟩ := harms (c, b) (by simp)
      rw [allReadable_append]
      exact ⟨allReadable_armLexemes hc hb, ih (by simp) hotherwise⟩
  | case4 c b arms o hne ih =>
      obtain ⟨hc, hb⟩ := harms (c, b) (by simp)
      simp only [allReadable_cons, allReadable_append]
      exact ⟨allReadable_armLexemes hc hb, helse, readable_word (by decide) (by decide),
        ih (fun a ha => harms a (List.mem_cons_of_mem _ ha)) hotherwise⟩

theorem allReadable_choiceLexemes {subject : String} {cases : List (Lexeme × List Lexeme)}
    {d : List Lexeme} (hsubject : IsName subject)
    (hcases : ∀ c ∈ cases, c.1.Readable ∧ AllReadable c.2) (hd : AllReadable d) :
    AllReadable (choiceLexemes subject cases d) := by
  have harrow : (symbol "=>").Readable := readable_symbol (by decide)
  have hparts : ∀ p ∈ cases.map (fun c => c.1 :: symbol "=>" :: c.2)
      ++ [ident "_" :: symbol "=>" :: d], AllReadable p := by
    intro p hp
    rcases List.mem_append.1 hp with hp | hp
    · obtain ⟨c, hc, rfl⟩ := List.mem_map.1 hp
      simpa using ⟨(hcases c hc).1, harrow, (hcases c hc).2⟩
    · obtain rfl := List.mem_singleton.1 hp
      simpa using ⟨readable_word (by decide) (by decide), harrow, hd⟩
  simp only [choiceLexemes, allReadable_cons, allReadable_append, allReadable_nil, and_true]
  exact ⟨⟨readable_word (by decide) (by decide), .ident hsubject.1, readable_symbol (by decide),
    allReadable_commaLexemes hparts⟩, readable_symbol (by decide)⟩

namespace Grammar

/-- The tokens of an expression that the grammar derives can be read. -/
theorem allReadable_of_derives {L : Level} {e : Expr} (h : Derives False L e) :
    AllReadable e.lexemes := by
  have hnot : (ident "NOT").Readable := readable_word (by decide) (by decide)
  induction h with
  | bool b =>
      have hlit : (Literal.bool b).lexeme.Readable := Literal.readable trivial trivial
      exact List.forall_mem_singleton.2 hlit
  | int n => exact List.forall_mem_singleton.2 (.int n)
  | float hF x => exact hF.elim
  | str s => exact List.forall_mem_singleton.2 (.string s)
  | place hpath => exact List.forall_mem_singleton.2 (.place hpath)
  | ref hr => exact Reference.allReadable hr
  | const hname hconst => exact List.forall_mem_singleton.2 (.ident hname.1)
  | hasItem hname hconst hitem => exact List.forall_mem_singleton.2 (.ident hname.1)
  | setting hname hitem => exact List.forall_mem_singleton.2 (.ident hname.1)
  | itemAtLeast hitem ht =>
      simp only [Expr.lexemes, allReadable_cons, allReadable_append, allReadable_nil, and_true]
      exact ⟨⟨readable_word (by decide) (by decide), readable_symbol (by decide), .ident hitem.1,
        readable_symbol (by decide), readable_symbol (by decide)⟩, Threshold.allReadable ht⟩
  | hasArgItem hr =>
      simp only [Expr.lexemes, allReadable_cons, allReadable_append, allReadable_nil, and_true]
      exact ⟨⟨readable_word (by decide) (by decide), readable_symbol (by decide),
        Reference.allReadable hr⟩, readable_symbol (by decide)⟩
  | within hp =>
      exact List.forall_mem_cons.2 ⟨readable_word (by decide) (by decide), PlaceArg.allReadable hp⟩
  | items hnames hitems =>
      simp only [Expr.lexemes, allReadable_cons, allReadable_append, allReadable_nil, and_true]
      exact ⟨⟨readable_symbol (by decide), allReadable_tokenList fun name hname =>
        .ident (hnames name hname).1⟩, readable_symbol (by decide)⟩
  | paren _ ih =>
      simp only [Expr.lexemes, allReadable_cons, allReadable_append, allReadable_nil, and_true]
      exact ⟨⟨readable_symbol (by decide), ih⟩, readable_symbol (by decide)⟩
  | call hfunc _ ih =>
      rw [Expr.lexemes, lexemesAll_eq_map]
      exact allReadable_callLexemes hfunc (List.forall_mem_map.2 ih)
  | ifThenElse hne _ _ _ ihconds ihbranches ihotherwise =>
      rw [Expr.lexemes_ifThenElse, zip_lexemes, allReadable_cons]
      exact ⟨readable_word (by decide) (by decide), allReadable_chainLexemes
        (List.forall_mem_map.2 fun a ha => ⟨ihconds a ha, ihbranches a ha⟩)
        (Option.forall_mem_map.2 ihotherwise)⟩
  | perItem hname hitem _ _ ihcases ihd =>
      rw [Expr.lexemes, lexemesCounts_eq_map]
      exact allReadable_choiceLexemes hname
        (List.forall_mem_map.2 fun c hc => ⟨.int c.1, ihcases c hc⟩) ihd
  | perSetting hname hitem hkeys _ _ ihcases ihd =>
      rw [Expr.lexemes, lexemesOptions_eq_map]
      refine allReadable_choiceLexemes hname (List.forall_mem_map.2 fun c hc => ?_) ihd
      obtain ⟨hkey, hfloat⟩ := hkeys c hc
      exact ⟨Literal.readable hkey (hfloat.resolve_left id), ihcases c hc⟩
  | ofAtom _ ih => exact ih
  | product _ hop _ ihl ihr =>
      rw [Expr.lexemes, allReadable_append, allReadable_cons]
      refine ⟨ihl, readable_symbol ?_, ihr⟩
      rcases hop with rfl | rfl <;> decide
  | ofProduct _ ih => exact ih
  | sum _ hop _ ihl ihr =>
      rw [Expr.lexemes, allReadable_append, allReadable_cons]
      refine ⟨ihl, readable_symbol ?_, ihr⟩
      rcases hop with rfl | rfl <;> decide
  | ofSum _ ih => exact ih
  | compared _ op _ ihl ihr =>
      rw [Expr.lexemes_compared, allReadable_append, allReadable_cons]
      refine ⟨ihl, readable_symbol ?_, ihr⟩
      cases op <;> decide
  | flagMatch _ mask ih =>
      simp only [Expr.lexemes, allReadable_cons, allReadable_append, allReadable_nil, and_true]
      exact ⟨ih, readable_symbol (by decide), .int mask⟩
  | refInSet hr hms =>
      simp only [Expr.lexemes, allReadable_cons, allReadable_append, allReadable_nil, and_true]
      exact ⟨⟨Reference.allReadable hr, readable_word (by decide) (by decide),
        readable_symbol (by decide), Members.allReadable hms⟩, readable_symbol (by decide)⟩
  | ofComparison _ ih => exact ih
  | negation _ ih =>
      rw [Expr.lexemes_negate, allReadable_cons]
      exact ⟨hnot, ih⟩
  | ofNegation _ ih => exact ih
  | conjunction _ _ ihl ihr =>
      rw [Expr.lexemes, Expr.lexemes_asPredicate, Expr.lexemes_asPredicate, allReadable_append,
        allReadable_cons]
      exact ⟨ihl, readable_symbol (by decide), ihr⟩
  | ofConjunction _ ih => exact ih
  | disjunction _ _ ihl ihr =>
      rw [Expr.lexemes, Expr.lexemes_asPredicate, Expr.lexemes_asPredicate, allReadable_append,
        allReadable_cons]
      exact ⟨ihl, readable_symbol (by decide), ihr⟩
  | value _ ih => exact ih
  | truth _ ih =>
      rw [Expr.lexemes_asPredicate]
      exact ih
  | ternary _ _ _ ihc ihy ihn =>
      simp only [Expr.lexemes, Expr.lexemes_asPredicate, allReadable_cons, allReadable_append]
      exact ⟨⟨ihc, readable_symbol (by decide), ihy⟩, readable_symbol (by decide), ihn⟩

/-- The tokens of an action that the grammar derives can be read. -/
theorem allReadable_of_derivesAction {x : Extent} {a : Action} (h : DerivesAction False x a) :
    AllReadable a.lexemes := by
  induction h with
  | set ht hv =>
      rw [Action.lexemes, allReadable_append, allReadable_cons]
      exact ⟨Reference.allReadable ht, readable_symbol (by decide), allReadable_of_derives hv⟩
  | alter ht op hd =>
      rw [Action.lexemes, allReadable_append, allReadable_cons]
      refine ⟨Reference.allReadable ht, readable_symbol ?_, allReadable_of_derives hd⟩
      cases op <;> decide
  | swap hfirst hsecond =>
      simp only [Action.lexemes, allReadable_cons, allReadable_append, allReadable_nil, and_true]
      exact ⟨⟨⟨readable_word (by decide) (by decide), readable_symbol (by decide),
        Reference.allReadable hfirst⟩, readable_symbol (by decide), Reference.allReadable hsecond⟩,
        readable_symbol (by decide)⟩
  | cond hne hconds _ _ ihbranches ihotherwise =>
      rw [Action.lexemes_cond, zip_lexemes, allReadable_cons]
      exact ⟨readable_word (by decide) (by decide), allReadable_chainLexemes
        (List.forall_mem_map.2 fun a ha => ⟨allReadable_of_derives (hconds a ha), ihbranches a ha⟩)
        (Option.forall_mem_map.2 ihotherwise)⟩
  | call hfunc hargs =>
      rw [Action.lexemes, lexemesAll_eq_map]
      exact allReadable_callLexemes hfunc
        (List.forall_mem_map.2 fun a ha => allReadable_of_derives (hargs a ha))
  | single _ ih => exact ih
  | sequence hlen _ ih =>
      rw [Action.lexemes, lexemesSteps_eq_map]
      exact allReadable_intercalate (by simpa using readable_symbol (by decide))
        (List.forall_mem_map.2 ih)

end Grammar

/-! ## Texts -/

theorem stops_eof {t : Token} (ht : t.IsEnd) {words : List String} (hwords : "" ∉ words) :
    Stops words (.eof t) := by
  intro t' ht'
  obtain rfl : t = t' := Except.ok.inj ht'
  rw [wordOf, ht.1, ht.2]
  exact ⟨rfl, hwords⟩

/-- What a reader reads from tokens is read from their text, if it takes up the whole text and the
    text is not too large. -/
theorem Source.parse_spaced {α : Type} {p : Parse α} {words : List String} {ls : List Lexeme}
    {a : α} (hp : Reads (Stops words) p ls a) (hwords : "" ∉ words) (hls : AllReadable ls)
    (file : String) :
    Source.parse ⟨file, spaced ls⟩ (do let a ← p; expectEnd; return a) =
      if Source.Fits ⟨file, spaced ls⟩ then .ok a else .error (.tooLarge file) := by
  obtain ⟨t, ht, hspells⟩ := Source.tokens_spaced file hls
  have hend : Legible (.eof t) := ⟨t, rfl⟩
  obtain ⟨first, hfirst⟩ := legible_of_spells hspells hend
  have hexpect : expectEnd (.eof t) = .ok ((), .eof t) := by
    have hkind : Parse.kind (.eof t) = .ok (t.kind, .eof t) := rfl
    rw [expectEnd, bind_ok hkind, if_pos ht.1]
    rfl
  have hrun : (do let a ← p; expectEnd; return a : Parse α) (Source.tokens ⟨file, spaced ls⟩)
      = .ok (a, .eof t) := by
    rw [bind_ok (hp _ _ hspells hend (stops_eof ht hwords)), bind_ok hexpect]
    rfl
  rw [Source.parse, Source.run, bind_ok (current_of_legible hfirst), hrun]

theorem parseRequirement_unparse_of_derives {e : Expr}
    (h : Grammar.Derives False (.whole .truth) e) (file : String) :
    parseRequirement file e.unparse =
      if Source.Fits ⟨file, e.unparse⟩ then .ok e else .error (.tooLarge file) :=
  Source.parse_spaced (Grammar.reads_expr h) (by decide) (Grammar.allReadable_of_derives h) file

theorem parseActions_unparse_of_derives {a : Action}
    (h : Grammar.DerivesAction False .block a) (file : String) :
    parseActions file a.unparse =
      if Source.Fits ⟨file, a.unparse⟩ then .ok a else .error (.tooLarge file) :=
  Source.parse_spaced (Grammar.reads_block h) (by decide)
    (Grammar.allReadable_of_derivesAction h) file

/-- A tree with operators of every strength. -/
def gateTree : Expr :=
  .ternary
    (.or (.numCompare (.ref ⟨"x", some (.place "A > B")⟩) .ge
        (.binOp (.int (-1)) .sub (.binOp (.int 2) .mul (.setting "y"))))
      (.not (.itemAtLeast "Bomb" (.count 3))))
    (.refInSet ⟨"m", none⟩ (.strs ["w\n"])) (.within (.ref ⟨"m", none⟩) true)

def gateActions : Action :=
  .cond [.hasItem "Lamp"]
    [.sequence [.alter ⟨"a", none⟩ .add (.int 1), .swap ⟨"a", none⟩ ⟨"b", none⟩]]
    (some (.call "f" []))

theorem gateTree_floatless : gateTree.Floatless := by
  repeat' first
    | exact List.forall_mem_nil _
    | refine List.forall_mem_cons.2 ⟨?_, ?_⟩
    | refine Expr.Every.node trivial ?_

theorem gateActions_floatless : gateActions.Floatless := by
  refine .cond ?_ ?_ ?_
  · exact List.forall_mem_singleton.2 (.node trivial (List.forall_mem_nil _))
  · refine List.forall_mem_singleton.2 (.sequence (List.forall_mem_cons.2 ⟨.alter ?_, ?_⟩))
    · exact .node trivial (List.forall_mem_nil _)
    · exact List.forall_mem_singleton.2 .swap
  · rintro _ ⟨⟩
    exact .call (List.forall_mem_nil _)

end AccessRules
