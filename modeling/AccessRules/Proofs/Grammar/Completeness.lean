import AccessRules.Proofs.Grammar.Derivation
import AccessRules.Proofs.Grammar.ReaderRules
import AccessRules.Proofs.Grammar.Unparse

set_option autoImplicit false

/-! # Every expression of the grammar is read back

Tokens that spell an expression which the grammar derives are read as that expression, at the level
at which it is derived, if what follows them does not go on with it. Each level has its list of
words that would go on; the lists grow from the atoms to whole expressions. Expressions inside
others are read by a reader with a bound on its depth, so the induction over derivations carries a
bound by the number of tokens: `readsDeep_of_derives`. The result is `reads_expr`. -/

namespace AccessRules

open Parse

/-! ## Words that start or end nothing -/

theorem IsIdent.ne_of_head {s w : String} (h : IsIdent s)
    (hw : w.toList.head?.any Cursor.isIdentStart = false) : s ≠ w := by
  rintro rfl
  obtain ⟨c, cs, hlist, hstart, -⟩ := h
  rw [hlist, List.head?_cons, Option.any_some, hstart] at hw
  cases hw

theorem IsName.word_ne {name w : String} (h : IsName name)
    (hw : w.toList.head?.any Cursor.isIdentStart = false) : (Lexeme.ident name).word ≠ w :=
  h.1.ne_of_head hw

theorem IsName.ne_keyword {s w : String} (h : IsName s) (hw : w ∈ keywords) : s ≠ w := by
  rintro rfl
  exact h.2 hw

theorem wordText_ne {w : String} (hw : readWord? w.toList = none) (n : Int64) : wordText n ≠ w := by
  rintro rfl
  rw [readWord?_wordText] at hw
  cases hw

namespace Grammar

/-! ## Parts of expressions -/

theorem reads_reference {r : Reference} (hr : r.WellFormed) :
    Reads (Stops ["@"]) reference r.lexemes r := by
  obtain ⟨name, qualifier⟩ := r
  obtain ⟨hname, hqualifier⟩ := hr
  unfold reference
  rcases qualifier with _ | ⟨q | path⟩
  · refine (takes_expect rfl).then ((takes_ident hname).then (Reads.word_end fun w hw => ?_))
    exact .ite_neg (by simpa using hw) .pure
  · have hq : IsName q := hqualifier _ rfl
    refine (takes_expect rfl).then ((takes_ident hname).then (Reads.word (.ite_pos rfl ?_)))
    refine takes_advance.then (Reads.kind (.ite_neg (by decide) ?_))
    exact (takes_expect rfl).then (takes_ident hq).reads.map
  · refine (takes_expect rfl).then ((takes_ident hname).then (Reads.word (.ite_pos rfl ?_)))
    exact takes_advance.then (Reads.kind (.ite_pos rfl (takes_place path).reads.map))

theorem exists_lexemes_eq_cons (r : Reference) : ∃ ls, r.lexemes = .symbol "^" :: ls := by
  unfold Reference.lexemes
  split <;> exact ⟨_, rfl⟩

theorem reads_threshold {t : Threshold} (ht : t.WellFormed) :
    Reads (Stops ["@"]) threshold t.lexemes t := by
  unfold threshold
  cases t with
  | count n =>
      refine Reads.current fun tok hkind _ => ?_
      rw [hkind]
      exact (takes_int n).reads.map
  | setting name =>
      obtain ⟨hname, hitem⟩ := ht
      refine Reads.current fun tok hkind _ => ?_
      rw [hkind]
      exact (takes_ident hname).then (.ite_neg (by simp [hitem]) .pure)
  | ref r =>
      have hread := reads_reference ht
      obtain ⟨ls, hls⟩ := exists_lexemes_eq_cons r
      show Reads _ _ r.lexemes _
      rw [hls] at hread ⊢
      refine Reads.current fun tok hkind htext => ?_
      rw [hkind, htext]
      exact .ite_pos rfl hread.map

theorem takes_number (n : Int64) : Takes number (.int n) (.int n) := by
  refine Reads.takes (Reads.current fun t _ htext => ?_)
  rw [htext, Lexeme.int, readWord?_wordText]
  exact takes_advance.then .pure

theorem takes_caseLiteral {lit : Literal} (h : lit.NoFloat) :
    Takes caseLiteral lit.lexeme lit := by
  refine Reads.takes (Reads.current fun t hkind htext => ?_)
  rw [hkind, htext]
  cases lit with
  | bool b =>
      cases b with
      | true => exact .ite_pos rfl (takes_advance.then .pure)
      | false => exact .ite_neg (by decide) (.ite_pos rfl (takes_advance.then .pure))
  | int n => exact (takes_number n).reads
  | float x => exact absurd h id
  | str s => exact (takes_string s).reads.map
  | place path => exact (takes_place path).reads.map

/-! ## Lists -/

/-- An element that is one token. -/
theorem readsElement_of_takes {α : Type} {closing : String} {p : Parse α} {x : Lexeme} {a : α}
    (h : Takes p x a) (hx : x.word ≠ closing) : ReadsElement closing p [x] a :=
  ⟨⟨x, [], rfl, hx⟩, h.reads, h.reads⟩

/-- A list of elements that are one token each, up to and with the closing token. -/
theorem reads_tokenList {α β : Type} {closing list : String} {p : Parse β} {token : α → Lexeme}
    {v : α → β} {elements : List α} {γ : Type} {f : List β → Parse γ} {c : γ}
    {S : Tokens → Prop} (hcomma : closing ≠ ",")
    (hp : ∀ e ∈ elements, Takes p (token e) (v e))
    (hne : ∀ e ∈ elements, (token e).word ≠ closing)
    (hf : Reads S (f (elements.map v)) [.symbol closing] c) :
    Reads S (listUntil closing list p >>= f)
      (commaLexemes (elements.map fun e => [token e]) ++ [.symbol closing]) c := by
  have hlist := reads_listUntil list (elements.map fun e => ([token e], v e)) hcomma
    (by
      intro q hq
      obtain ⟨e, he, rfl⟩ := List.mem_map.1 hq
      exact readsElement_of_takes (hp e he) (hne e he))
  rw [List.map_map, List.map_map] at hlist
  exact hlist.bind hf fun mid rest hspells _ => at_of_spells hspells rfl rfl

theorem reads_listedItem {name : String} (hname : IsName name) (hitem : isItemName name = true)
    {S : Tokens → Prop} : Reads S listedItem [.ident name] name := by
  refine (takes_ident hname).then (.ite_neg ?_ .pure)
  simp [hitem]

theorem reads_itemList {names : List String} (hnames : ∀ name ∈ names, IsName name)
    (hitems : ∀ name ∈ names, isItemName name = true) {S : Tokens → Prop} :
    Reads S itemList (.symbol "[" :: commaLexemes (names.map fun name => [.ident name])
      ++ [.symbol "]"]) names := by
  unfold itemList
  refine (takes_expect rfl).then (reads_tokenList (v := id) (by decide) (fun name hname => ?_)
    (fun name hname => (hnames name hname).word_ne (by decide)) ?_)
  · exact (reads_listedItem (hnames name hname) (hitems name hname)).takes
  · rw [List.map_id]
    exact takes_advance.then .pure

theorem gather?_items (names : List String) :
    Member.gather? (names.map Member.item) = some (.items names) := by
  simp [Member.gather?, List.filterMap_map]

theorem gather?_strs {texts : List String} (h : texts ≠ []) :
    Member.gather? (texts.map Member.str) = some (.strs texts) := by
  obtain ⟨text, more, rfl⟩ := List.exists_cons_of_ne_nil h
  simp [Member.gather?, List.filterMap_map]

theorem gather?_places {paths : List String} (h : paths ≠ []) :
    Member.gather? (paths.map Member.place) = some (.places paths) := by
  obtain ⟨path, more, rfl⟩ := List.exists_cons_of_ne_nil h
  simp [Member.gather?, List.filterMap_map]

theorem reads_set {ms : Members} (hms : ms.WellFormed) {S : Tokens → Prop} :
    Reads S set (.symbol "[" :: ms.lexemes ++ [.symbol "]"]) ms := by
  unfold set
  refine (takes_expect rfl).then ?_
  cases ms with
  | items names =>
      refine reads_tokenList (v := Member.item) (by decide) (fun name hname => ?_)
        (fun name hname => (hms name hname).word_ne (by decide)) (takes_advance.then ?_)
      · exact Reads.takes (Reads.kind (takes_ident (hms name hname)).reads.map)
      · rw [gather?_items]
        exact .pure
  | strs texts =>
      refine reads_tokenList (v := Member.str) (by decide) (fun text _ => ?_)
        (fun text _ => by simp [Lexeme.word, Lexeme.string]) (takes_advance.then ?_)
      · exact Reads.takes (Reads.kind (takes_string text).reads.map)
      · rw [gather?_strs hms]
        exact .pure
  | places paths =>
      refine reads_tokenList (v := Member.place) (by decide) (fun path _ => ?_)
        (fun path _ => by simp [Lexeme.word, Lexeme.place]) (takes_advance.then ?_)
      · exact Reads.takes (Reads.kind (takes_place path).reads.map)
      · rw [gather?_places hms.1]
        exact .pure

/-! ## Calls, conditionals and choices -/

/-- The words that go on with an expression of the level. -/
def atomStops : List String := ["\x7b", "@", "(", "ELSE"]

def productStops : List String := ["*", "/"] ++ atomStops

def sumStops : List String := ["+", "-"] ++ productStops

def comparisonStops : List String :=
  ["==", "!=", "<", "<=", ">", ">=", "&", "IN"] ++ sumStops

def conjunctionStops : List String := "&&" :: comparisonStops

def disjunctionStops : List String := "||" :: conjunctionStops

def wholeStops : List String := "?" :: disjunctionStops

/-- The words that close a list or a block. -/
def closers : List String := [")", "]", "\x7d"]

/-- There are tokens, and they start with none of the words. -/
def Opens (words : List String) (ls : List Lexeme) : Prop :=
  ∃ x more, ls = x :: more ∧ x.word ∉ words

variable {inner : Inner}

theorem readsElement_of_stops {α : Type} {closing : String} {p : Parse α} {ls : List Lexeme}
    {a : α} (h : Reads (Stops wholeStops) p ls a) (hls : Opens closers ls)
    (hclosing : closing ∈ closers) : ReadsElement closing p ls a := by
  obtain ⟨x, more, rfl, hx⟩ := hls
  refine ⟨⟨x, more, rfl, fun heq => hx (heq ▸ hclosing)⟩, ?_, ?_⟩
  · exact h.mono fun ts hts => hts.stops (by decide)
  · refine h.mono fun ts hts => hts.stops ?_
    simp only [closers, List.mem_cons, List.not_mem_nil, or_false] at hclosing
    rcases hclosing with rfl | rfl | rfl <;> decide

theorem reads_args {args : List Expr} {S : Tokens → Prop}
    (hargs : ∀ a ∈ args, Reads (Stops wholeStops) (inner .value) a.lexemes a)
    (hopens : ∀ a ∈ args, Opens closers a.lexemes) :
    Reads S (Grammar.args inner)
      (.symbol "(" :: commaLexemes (args.map Expr.lexemes) ++ [.symbol ")"]) args := by
  unfold Grammar.args
  refine Reads.word (.ite_pos rfl (takes_advance.then ?_))
  have hlist := reads_listUntil "argument list" (args.map fun a => (a.lexemes, a))
    (show ")" ≠ "," by decide)
    (by
      intro q hq
      obtain ⟨a, ha, rfl⟩ := List.mem_map.1 hq
      exact readsElement_of_stops (hargs a ha) (hopens a ha) (by decide))
  rw [List.map_map, List.map_map] at hlist
  have hid : args.map ((·.2) ∘ fun a => (a.lexemes, a)) = args := List.map_id args
  rw [hid] at hlist
  exact hlist.bind (takes_advance.then .pure) fun mid rest hspells _ => at_of_spells hspells rfl rfl

theorem armLexemes_append (cond branch tail : List Lexeme) :
    armLexemes cond branch ++ tail = .symbol "(" :: (cond ++ .symbol ")" :: .symbol "\x7b" ::
      (branch ++ .symbol "\x7d" :: tail)) := by
  simp [armLexemes]

section Conditional

variable {α : Type} {branch : Parse α} {words : List String}

theorem reads_arm {c : Expr} {b : α} {ls : List Lexeme} {S : Tokens → Prop}
    (hc : Reads (Stops wholeStops) (inner .truth) c.lexemes c)
    (hb : Reads (Stops words) branch ls b) (hwords : "\x7d" ∉ words) :
    Reads S (arm inner branch) (armLexemes c.lexemes ls) (c, b) := by
  have happend := armLexemes_append c.lexemes ls []
  rw [List.append_nil] at happend
  rw [happend]
  unfold arm
  refine (takes_expect rfl).then (hc.before ?_ rfl (by decide))
  refine (takes_expect rfl).then ((takes_expect rfl).then (hb.before ?_ rfl hwords))
  exact (takes_expect rfl).then .pure

/-- The round in which another arm of a conditional is read. -/
def armRound (inner : Inner) (branch : Parse α) (arms : List (Expr × α)) :
    Parse (Round (List (Expr × α)) (List (Expr × α) × Option α)) := do
  let a ← arm inner branch
  let arms := arms ++ [a]
  if (← word) ≠ "ELSE" then return .done (arms, none)
  advance
  if (← word) = "IF" then
    advance
    return .again arms
  expect "\x7b" "to start ELSE branch"
  let otherwise ← branch
  expect "\x7d" "to end ELSE branch"
  return .done (arms, some otherwise)

/-- What is needed of the arms and of the last branch of a conditional. -/
structure ReadsArms (inner : Inner) (branch : Parse α) (words : List String)
    (ls : α → List Lexeme) (arms : List (Expr × α)) (otherwise : Option α) : Prop where
  conds : ∀ a ∈ arms, Reads (Stops wholeStops) (inner .truth) a.1.lexemes a.1
  branches : ∀ a ∈ arms, Reads (Stops words) branch (ls a.2) a.2
  otherwise : ∀ o ∈ otherwise, Reads (Stops words) branch (ls o) o

/-- The arms and the last branch of a conditional as tokens. -/
def armsLexemes (ls : α → List Lexeme) (arms : List (Expr × α)) (otherwise : Option α) :
    List Lexeme :=
  chainLexemes (arms.map fun a => (a.1.lexemes, ls a.2)) (otherwise.map ls)

variable {ls : α → List Lexeme} {arms : List (Expr × α)} {otherwise : Option α}

theorem ReadsArms.last_arm {a : Expr × α} (h : ReadsArms inner branch words ls [a] otherwise)
    (hwords : "\x7d" ∉ words) (before : List (Expr × α)) :
    Reads (Stops ["ELSE"]) (armRound inner branch before) (armsLexemes ls [a] otherwise)
      (.done (before ++ [a], otherwise)) := by
  have harm : ∀ S, Reads S (arm inner branch) (armLexemes a.1.lexemes (ls a.2)) a := fun S =>
    reads_arm (h.conds a (by simp)) (h.branches a (by simp)) hwords
  cases otherwise with
  | none =>
      rw [armsLexemes, List.map_singleton, Option.map_none, chainLexemes, chainLexemes,
        List.append_nil]
      refine (harm (Stops ["ELSE"])).bind_nil (Reads.word_end fun w hw => ?_)
      exact .ite_pos (by simpa using hw) .pure
  | some o =>
      refine (harm fun _ => True).bind (Reads.word (.ite_neg (fun h => h rfl) ?_))
        fun _ _ _ _ => trivial
      refine takes_advance.then (Reads.word (.ite_neg (by decide) ?_))
      refine (takes_expect rfl).then ((h.otherwise o rfl).before ?_ rfl hwords)
      exact (takes_expect rfl).then .pure

theorem ReadsArms.next_arm {a : Expr × α}
    (h : ReadsArms inner branch words ls (a :: arms) otherwise) (hwords : "\x7d" ∉ words)
    (before : List (Expr × α)) :
    Reads (fun _ => True) (armRound inner branch before)
      (armLexemes a.1.lexemes (ls a.2) ++ [.ident "ELSE", .ident "IF"])
      (.again (before ++ [a])) := by
  have harm : Reads (fun _ => True) (arm inner branch) (armLexemes a.1.lexemes (ls a.2)) a :=
    reads_arm (h.conds a (by simp)) (h.branches a (by simp)) hwords
  refine harm.bind (Reads.word (.ite_neg (fun h => h rfl) ?_)) fun _ _ _ _ => trivial
  exact takes_advance.then (Reads.word (.ite_pos rfl (takes_advance.then .pure)))

theorem armsLexemes_cons (a a' : Expr × α) (arms : List (Expr × α)) (otherwise : Option α) :
    armsLexemes ls (a :: a' :: arms) otherwise
      = (armLexemes a.1.lexemes (ls a.2) ++ [.ident "ELSE", .ident "IF"])
        ++ armsLexemes ls (a' :: arms) otherwise := by
  rw [List.append_assoc]
  rfl

theorem reads_conditional (hne : arms ≠ []) (h : ReadsArms inner branch words ls arms otherwise)
    (hwords : "\x7d" ∉ words) :
    Reads (Stops ["ELSE"]) (conditional inner branch) (armsLexemes ls arms otherwise)
      (arms, otherwise) := by
  -- the arms read so far are carried along
  have hrounds : ∀ (before : List (Expr × α)) (ts rest : Tokens),
      ts.Spells (armsLexemes ls arms otherwise) rest → Legible rest → Stops ["ELSE"] rest →
      iterate (armRound inner branch) before ts = .ok ((before ++ arms, otherwise), rest) := by
    induction arms with
    | nil => exact absurd rfl hne
    | cons a arms ih =>
        intro before ts rest hspells hlegible hS
        cases arms with
        | nil => exact iterate_done (h.last_arm hwords before ts rest hspells hlegible hS)
        | cons a' arms =>
            rw [armsLexemes_cons] at hspells
            obtain ⟨mid, hfirst, hmore⟩ := hspells.append_inv
            have hmid : Legible mid := legible_of_spells hmore hlegible
            refine iterate_again (h.next_arm hwords before ts mid hfirst hmid trivial) ?_ ?_
            · rw [hfirst.length_eq, List.length_append]
              simp only [List.length_cons]
              omega
            · have htail : ReadsArms inner branch words ls (a' :: arms) otherwise :=
                ⟨fun x hx => h.conds x (List.mem_cons_of_mem a hx),
                  fun x hx => h.branches x (List.mem_cons_of_mem a hx), h.otherwise⟩
              have hrest := ih (by simp) htail (before ++ [a]) mid rest hmore hlegible hS
              rw [hrest]
              simp
  intro ts rest hspells hlegible hS
  exact hrounds [] ts rest hspells hlegible hS

end Conditional

/-! ### Choices -/

section Choice

variable {κ : Type} {key : Parse κ} {cases : List (κ × Expr)} {d : Expr}

theorem reads_choiceCase {x : Lexeme} {k : κ} {e : Expr} (hkey : Takes key x k)
    (hword : x.word ≠ "_") (he : Reads (Stops wholeStops) (inner .value) e.lexemes e) :
    Reads (Stops wholeStops) (choiceCase inner key) (x :: .symbol "=>" :: e.lexemes)
      (some k, e) :=
  Reads.word (.ite_neg hword (hkey.then ((takes_expect rfl).then he.map)))

theorem reads_defaultCase (hd : Reads (Stops wholeStops) (inner .value) d.lexemes d) :
    Reads (Stops wholeStops) (choiceCase inner key) (.ident "_" :: .symbol "=>" :: d.lexemes)
      (none, d) :=
  Reads.word (.ite_pos rfl (takes_advance.then ((takes_expect rfl).then hd.map)))

/-- The default of the cases as they are read is the one that is written last. -/
theorem getLast?_default (cases : List (κ × Expr)) (d : Expr) :
    ((cases.map (fun c : κ × Expr => (some c.1, c.2)) ++ [(none, d)]).filter
      fun c : Option κ × Expr => c.1.isNone).getLast? = some (none, d) := by
  simp

theorem reads_choiceCases (token : κ → Lexeme) {S : Tokens → Prop}
    (hkeys : ∀ c ∈ cases, Takes key (token c.1) c.1)
    (hwords : ∀ c ∈ cases, (token c.1).word ∉ "_" :: closers)
    (hcases : ∀ c ∈ cases, Reads (Stops wholeStops) (inner .value) c.2.lexemes c.2)
    (hd : Reads (Stops wholeStops) (inner .value) d.lexemes d) :
    Reads S (choiceCases inner key) (.symbol "\x7b" ::
      commaLexemes (cases.map (fun c => token c.1 :: .symbol "=>" :: c.2.lexemes)
        ++ [.ident "_" :: .symbol "=>" :: d.lexemes]) ++ [.symbol "\x7d"]) (cases, d) := by
  unfold choiceCases
  refine (takes_expect rfl).then ?_
  have hlist := reads_listUntil "PER cases"
    (cases.map (fun c => (token c.1 :: Lexeme.symbol "=>" :: c.2.lexemes, (some c.1, c.2)))
      ++ [(.ident "_" :: .symbol "=>" :: d.lexemes, ((none : Option κ), d))])
    (show "\x7d" ≠ "," by decide)
    (by
      intro q hq
      rcases List.mem_append.1 hq with hq | hq
      · obtain ⟨c, hc, rfl⟩ := List.mem_map.1 hq
        obtain ⟨hunderscore, hcloser⟩ := not_or.1 (mt List.mem_cons.2 (hwords c hc))
        exact readsElement_of_stops (reads_choiceCase (hkeys c hc) hunderscore (hcases c hc))
          ⟨_, _, rfl, hcloser⟩ (by decide)
      · obtain rfl := List.mem_singleton.1 hq
        exact readsElement_of_stops (reads_defaultCase hd) ⟨_, _, rfl, by decide⟩ (by decide))
  simp only [List.map_append, List.map_map, List.map_cons, List.map_nil, Function.comp_def] at hlist
  refine hlist.bind ?_ fun mid rest hspells _ => at_of_spells hspells rfl rfl
  rw [getLast?_default]
  refine takes_advance.then ?_
  simpa [List.filterMap_map, Function.comp_def] using (Reads.pure (a := (cases, d)))

end Choice

/-! ## Expressions -/

/-- The words at which no expression of the level starts. -/
def Level.outside : Level → List String
  | .atom | .product | .sum | .comparison => ["NOT", "!"] ++ closers
  | _ => closers

theorem Opens.append {words : List String} {ls : List Lexeme} (h : Opens words ls)
    (ms : List Lexeme) : Opens words (ls ++ ms) := by
  obtain ⟨x, more, rfl, hx⟩ := h
  exact ⟨x, more ++ ms, rfl, hx⟩

theorem Opens.mono {words words' : List String} {ls : List Lexeme} (h : Opens words ls)
    (hsub : words' ⊆ words) : Opens words' ls := by
  obtain ⟨x, more, rfl, hx⟩ := h
  exact ⟨x, more, rfl, fun hmem => hx (hsub hmem)⟩

/-- A word that is no name is not at the start of one. -/
theorem opens_name {name : String} (h : IsName name) (more : List Lexeme) :
    Opens (Level.outside .atom) (.ident name :: more) := by
  refine ⟨_, more, rfl, fun hmem => ?_⟩
  simp only [Level.outside, closers, List.cons_append, List.nil_append, List.mem_cons,
    List.not_mem_nil, or_false] at hmem
  rcases hmem with hw | hw | hw | hw | hw
  · exact h.ne_keyword (by decide) hw
  · exact h.word_ne (by decide) hw
  · exact h.word_ne (by decide) hw
  · exact h.word_ne (by decide) hw
  · exact h.word_ne (by decide) hw

theorem int_word_notMem {words : List String}
    (h : words.all (fun w => (readWord? w.toList).isNone) = true) (n : Int64) :
    (Lexeme.int n).word ∉ words := by
  intro hmem
  have hread := List.all_eq_true.1 h _ hmem
  exact wordText_ne (Option.isNone_iff_eq_none.1 hread) n rfl

theorem opens_reference (r : Reference) (more : List Lexeme) :
    Opens (Level.outside .atom) (r.lexemes ++ more) := by
  obtain ⟨ls, hls⟩ := exists_lexemes_eq_cons r
  rw [hls]
  exact ⟨_, _, rfl, by decide⟩

/-- Where the tokens of an expression can start. -/
theorem opens_of_derives {L : Level} {e : Expr} (h : Derives False L e) :
    Opens L.outside e.lexemes := by
  induction h with
  | bool b => cases b <;> exact ⟨_, [], rfl, by decide⟩
  | int n => exact ⟨_, [], rfl, int_word_notMem (by decide) n⟩
  | float hF x => exact hF.elim
  | str s => exact ⟨_, [], rfl, by simp [Lexeme.word, Lexeme.string, Level.outside, closers]⟩
  | place hpath => exact ⟨_, [], rfl, by simp [Lexeme.word, Lexeme.place, Level.outside, closers]⟩
  | @ref r hr =>
      have hopens := opens_reference r []
      rwa [List.append_nil] at hopens
  | const hname hconst => exact opens_name hname []
  | hasItem hname hconst hitem => exact opens_name hname []
  | setting hname hitem => exact opens_name hname []
  | itemAtLeast hitem ht => exact ⟨_, _, rfl, by decide⟩
  | hasArgItem hr => exact ⟨_, _, rfl, by decide⟩
  | within hp => exact ⟨_, _, rfl, by decide⟩
  | items hnames hitems => exact ⟨_, _, rfl, by decide⟩
  | paren _ ih => exact ⟨_, _, rfl, by decide⟩
  | call hfunc _ ih => exact ⟨_, _, rfl, by decide⟩
  | ifThenElse hne _ _ _ ihconds ihbranches ihotherwise =>
      rw [Expr.lexemes_ifThenElse]
      exact ⟨_, _, rfl, by decide⟩
  | perItem hname hitem _ _ ihcases ihd => exact ⟨_, _, rfl, by decide⟩
  | perSetting hname hitem hkeys _ _ ihcases ihd => exact ⟨_, _, rfl, by decide⟩
  | ofAtom _ ih => exact ih
  | product _ hop _ ihl ihr => exact ihl.append _
  | ofProduct _ ih => exact ih
  | sum _ hop _ ihl ihr => exact ihl.append _
  | ofSum _ ih => exact ih
  | compared _ op _ ihl ihr =>
      rw [Expr.lexemes_compared]
      exact ihl.append _
  | flagMatch _ mask ih => exact ih.append _
  | @refInSet r ms hr hms =>
      rw [Expr.lexemes, List.append_assoc]
      exact opens_reference r _
  | ofComparison _ ih => exact ih.mono (by decide)
  | negation _ ih =>
      rw [Expr.lexemes_negate]
      exact ⟨_, _, rfl, by decide⟩
  | ofNegation _ ih => exact ih
  | conjunction _ _ ihl ihr =>
      rw [Expr.lexemes, Expr.lexemes_asPredicate]
      exact ihl.append _
  | ofConjunction _ ih => exact ih
  | disjunction _ _ ihl ihr =>
      rw [Expr.lexemes, Expr.lexemes_asPredicate]
      exact ihl.append _
  | value _ ih => exact ih
  | truth _ ih =>
      rw [Expr.lexemes_asPredicate]
      exact ih
  | ternary _ _ _ ihc ihy ihn =>
      rw [Expr.lexemes, Expr.lexemes_asPredicate, List.append_assoc]
      exact ihc.append _

/-! ### Atoms -/

theorem reads_bool (b : Bool) :
    Reads (Stops atomStops) (atom inner) (Expr.bool b).lexemes (.bool b) := by
  cases b with
  | true =>
      refine Reads.kind (Reads.following_end fun next _ => Reads.word (.ite_pos rfl ?_))
      exact takes_advance.then .pure
  | false =>
      refine Reads.kind (Reads.following_end fun next _ => Reads.word ?_)
      exact .ite_neg (by decide) (.ite_pos rfl (takes_advance.then .pure))

/-- A name that stands for itself. -/
theorem reads_name {name : String} {e : Expr} (hname : IsName name)
    (hnamed : Reads (Stops atomStops) named [.ident name] e) :
    Reads (Stops atomStops) (atom inner) [.ident name] e := by
  refine Reads.kind (Reads.following_end fun next hnext => Reads.word ?_)
  have hparen : (decide (next.text = "(")) = false := by
    rw [decide_eq_false_iff_not]
    rintro heq
    exact hnext (heq ▸ by decide)
  refine .ite_neg (hname.ne_keyword (by decide)) (.ite_neg (hname.ne_keyword (by decide)) ?_)
  refine .ite_neg (hname.ne_keyword (by decide)) (.ite_neg (hname.ne_keyword (by decide)) ?_)
  refine .ite_neg (hname.ne_keyword (by decide)) (.ite_neg ?_ (.ite_neg ?_ hnamed))
  · simp [hparen]
  · simp [hparen]

theorem reads_const {name : String} (hname : IsName name) (hconst : isConstName name = true) :
    Reads (Stops atomStops) (atom inner) (Expr.const name).lexemes (.const name) :=
  reads_name hname ((takes_ident hname).then (.ite_pos hconst .pure))

theorem reads_hasItem {name : String} (hname : IsName name) (hconst : isConstName name = false)
    (hitem : isItemName name = true) :
    Reads (Stops atomStops) (atom inner) (Expr.hasItem name).lexemes (.hasItem name) := by
  refine reads_name hname ((takes_ident hname).then (.ite_neg (by simp [hconst]) ?_))
  refine .ite_pos hitem (Reads.word_end fun w hw => .ite_neg ?_ .pure)
  rintro rfl
  exact hw (by decide)

theorem isConstName_of_isItemName {name : String} (hitem : isItemName name = false) :
    isConstName name = false := by
  have hupper : startsUpper name = false := hitem
  simp [isConstName, hupper]

theorem reads_setting {name : String} (hname : IsName name) (hitem : isItemName name = false) :
    Reads (Stops atomStops) (atom inner) (Expr.setting name).lexemes (.setting name) := by
  refine reads_name hname ((takes_ident hname).then (.ite_neg ?_ (.ite_neg ?_ .pure)))
  · simp [isConstName_of_isItemName hitem]
  · simp [hitem]

theorem reads_itemAtLeast {item : String} {t : Threshold} (hitem : IsName item)
    (ht : t.WellFormed) :
    Reads (Stops atomStops) (atom inner) (Expr.itemAtLeast item t).lexemes
      (.itemAtLeast item t) := by
  have hthreshold := (reads_threshold ht).mono fun ts (hts : Stops atomStops ts) =>
    hts.mono (by decide)
  refine Reads.kind (Reads.following fun next hnext => Reads.word ?_)
  refine .ite_neg (by decide) (.ite_neg (by decide) (.ite_neg (by decide) ?_))
  refine .ite_neg (by decide) (.ite_neg (by decide) (.ite_pos ?_ ?_))
  · rw [hnext]
    decide
  · refine takes_advance.then ((takes_expect rfl).then ((takes_ident hitem).then ?_))
    exact (takes_expect rfl).then ((takes_expect rfl).then hthreshold.map)

theorem reads_hasArgItem {r : Reference} (hr : r.WellFormed) :
    Reads (Stops atomStops) (atom inner) (Expr.hasArgItem r).lexemes (.hasArgItem r) := by
  refine Reads.kind (Reads.following fun next hnext => Reads.word ?_)
  rw [hnext]
  refine .ite_neg (by decide) (.ite_neg (by decide) (.ite_neg (by decide) ?_))
  refine .ite_neg (by decide) (.ite_neg (by decide) (.ite_neg (by decide) (.ite_pos rfl ?_)))
  refine takes_advance.then ((takes_expect rfl).then ((reads_reference hr).before ?_ rfl ?_))
  · exact (takes_expect rfl).then .pure
  · decide

theorem reads_within {p : PlaceArg} (hp : p.WellFormed) :
    Reads (Stops atomStops) (atom inner) (Expr.within p false).lexemes (.within p false) := by
  cases p with
  | literal path =>
      refine Reads.kind (Reads.following fun next _ => Reads.word ?_)
      refine .ite_neg (by decide) (.ite_neg (by decide) (.ite_neg (by decide) ?_))
      refine .ite_neg (by decide) (.ite_pos rfl (takes_advance.then ?_))
      exact Reads.kind (.ite_pos rfl (takes_place path).reads.map)
  | ref r =>
      have hread := (reads_reference hp).mono fun ts (hts : Stops atomStops ts) =>
        hts.mono (by decide)
      obtain ⟨ls, hls⟩ := exists_lexemes_eq_cons r
      show Reads _ _ (.ident "WITHIN" :: r.lexemes) _
      rw [hls] at hread ⊢
      refine Reads.kind (Reads.following fun next _ => Reads.word ?_)
      refine .ite_neg (by decide) (.ite_neg (by decide) (.ite_neg (by decide) ?_))
      refine .ite_neg (by decide) (.ite_pos rfl (takes_advance.then ?_))
      exact Reads.kind (.ite_neg (by decide) hread.map)

theorem reads_ref {r : Reference} (hr : r.WellFormed) :
    Reads (Stops atomStops) (atom inner) (Expr.ref r).lexemes (.ref r) := by
  have hread := (reads_reference hr).mono fun ts (hts : Stops atomStops ts) =>
    hts.mono (by decide)
  obtain ⟨ls, hls⟩ := exists_lexemes_eq_cons r
  show Reads _ _ r.lexemes _
  rw [hls] at hread ⊢
  exact Reads.kind (Reads.word (.ite_neg (by decide) (.ite_pos rfl hread.map)))

theorem reads_items {names : List String} (hnames : ∀ name ∈ names, IsName name)
    (hitems : ∀ name ∈ names, isItemName name = true) :
    Reads (Stops atomStops) (atom inner) (Expr.items names).lexemes (.items names) := by
  refine Reads.kind (Reads.word ?_)
  refine .ite_neg (by decide) (.ite_neg (by decide) (.ite_neg (by decide) ?_))
  exact .ite_pos rfl (reads_itemList hnames hitems).map

theorem reads_paren {e : Expr} (he : Reads (Stops wholeStops) (inner .value) e.lexemes e) :
    Reads (Stops atomStops) (atom inner) (Expr.paren e).lexemes (.paren e) := by
  refine Reads.kind (Reads.word (.ite_pos rfl (takes_advance.then ?_)))
  exact he.before ((takes_expect rfl).then .pure) rfl (by decide)

theorem reads_call {func : String} {args : List Expr} (hfunc : IsName func)
    (hargs : ∀ a ∈ args, Reads (Stops wholeStops) (inner .value) a.lexemes a)
    (hopens : ∀ a ∈ args, Opens closers a.lexemes) :
    Reads (Stops atomStops) (atom inner) (Expr.call func args).lexemes (.call func args) := by
  rw [Expr.lexemes, lexemesAll_eq_map]
  refine Reads.kind (Reads.word ?_)
  refine .ite_neg (by decide) (.ite_neg (by decide) (.ite_pos rfl ?_))
  exact takes_advance.then ((takes_ident hfunc).then (reads_args hargs hopens).map)

/-- The tokens of a conditional from its arms. -/
theorem zip_lexemes {α : Type} (ls : α → List Lexeme) (arms : List (Expr × α)) :
    ((arms.map (·.1)).map Expr.lexemes).zip ((arms.map (·.2)).map ls)
      = arms.map fun a => (a.1.lexemes, ls a.2) := by
  rw [List.map_map, List.map_map, List.zip_map']
  rfl

theorem reads_ifThenElse {arms : List (Expr × Expr)} {otherwise : Option Expr} (hne : arms ≠ [])
    (h : ReadsArms inner (inner .value) wholeStops Expr.lexemes arms otherwise) :
    Reads (Stops atomStops) (atom inner)
      (Expr.ifThenElse (arms.map (·.1)) (arms.map (·.2)) otherwise).lexemes
      (.ifThenElse (arms.map (·.1)) (arms.map (·.2)) otherwise) := by
  have hread := (reads_conditional hne h (by decide)).mono fun ts (hts : Stops atomStops ts) =>
    hts.mono (by decide)
  obtain ⟨x, ls, hls⟩ : ∃ x ls, armsLexemes Expr.lexemes arms otherwise = x :: ls := by
    obtain ⟨a, arms, rfl⟩ := List.exists_cons_of_ne_nil hne
    cases arms <;> exact ⟨_, _, rfl⟩
  rw [Expr.lexemes_ifThenElse, zip_lexemes]
  show Reads _ _ (.ident "IF" :: armsLexemes Expr.lexemes arms otherwise) _
  rw [hls] at hread ⊢
  refine Reads.kind (Reads.following fun next _ => Reads.word ?_)
  refine .ite_neg (by decide) (.ite_neg (by decide) (.ite_pos rfl ?_))
  exact takes_advance.then hread.map

/-- A choice after its `PER`. -/
theorem reads_choice {subject : String} {ls : List Lexeme} {e : Expr}
    (h : Reads (Stops atomStops) (choice inner) (.ident subject :: ls) e) :
    Reads (Stops atomStops) (atom inner) (.ident "PER" :: .ident subject :: ls) e := by
  refine Reads.kind (Reads.following fun next _ => Reads.word ?_)
  refine .ite_neg (by decide) (.ite_neg (by decide) (.ite_neg (by decide) ?_))
  exact .ite_pos rfl (takes_advance.then h)

theorem reads_perItem {item : String} {cases : List (Int64 × Expr)} {d : Expr}
    (hname : IsName item) (hitem : isItemName item = true)
    (hcases : ∀ c ∈ cases, Reads (Stops wholeStops) (inner .value) c.2.lexemes c.2)
    (hd : Reads (Stops wholeStops) (inner .value) d.lexemes d) :
    Reads (Stops atomStops) (atom inner) (Expr.perItem item cases d).lexemes
      (.perItem item cases d) := by
  rw [Expr.lexemes, lexemesCounts_eq_map, choiceLexemes, List.map_map]
  refine reads_choice ((takes_ident hname).then (.ite_pos hitem ?_))
  exact (reads_choiceCases Lexeme.int (fun c _ => takes_int c.1)
    (fun c _ => int_word_notMem (by decide) c.1) hcases hd).map

theorem literal_word_notMem {lit : Literal} (h : lit.NoFloat) :
    lit.lexeme.word ∉ "_" :: closers := by
  cases lit with
  | bool b => cases b <;> decide
  | int n => exact int_word_notMem (by decide) n
  | float x => exact absurd h id
  | str s =>
      show "" ∉ "_" :: closers
      decide
  | place path =>
      show "" ∉ "_" :: closers
      decide

theorem reads_perSetting {setting : String} {cases : List (Literal × Expr)} {d : Expr}
    (hname : IsName setting) (hitem : isItemName setting = false)
    (hkeys : ∀ c ∈ cases, c.1.NoFloat)
    (hcases : ∀ c ∈ cases, Reads (Stops wholeStops) (inner .value) c.2.lexemes c.2)
    (hd : Reads (Stops wholeStops) (inner .value) d.lexemes d) :
    Reads (Stops atomStops) (atom inner) (Expr.perSetting setting cases d).lexemes
      (.perSetting setting cases d) := by
  rw [Expr.lexemes, lexemesOptions_eq_map, choiceLexemes, List.map_map]
  refine reads_choice ((takes_ident hname).then (.ite_neg (by simp [hitem]) ?_))
  exact (reads_choiceCases Literal.lexeme (fun c hc => takes_caseLiteral (hkeys c hc))
    (fun c hc => literal_word_notMem (hkeys c hc)) hcases hd).map

/-! ### Operators -/

theorem reads_term {e : Expr}
    (h : ReadsChain (Stops atomStops) product? (atom inner) e.lexemes e) :
    Reads (Stops productStops) (term inner) e.lexemes e := by
  refine h.reads (by decide) fun w hw => ?_
  unfold product?
  split
  · exact absurd (by decide) hw
  · exact absurd (by decide) hw
  · rfl

theorem reads_arith {e : Expr}
    (h : ReadsChain (Stops productStops) sum? (term inner) e.lexemes e) :
    Reads (Stops sumStops) (arith inner) e.lexemes e := by
  refine h.reads (by decide) fun w hw => ?_
  unfold sum?
  split
  · exact absurd (by decide) hw
  · exact absurd (by decide) hw
  · rfl

theorem comparison?_text (op : CmpOp) : comparison? op.text = some op := by
  cases op <;> rfl

theorem comparison?_eq_none {w : String} (hw : w ∉ comparisonStops) : comparison? w = none := by
  unfold comparison?
  split <;> first | rfl | exact absurd (by decide) hw

theorem reads_compared {l r : Expr} {op : CmpOp}
    (hl : Reads (Stops sumStops) (arith inner) l.lexemes l)
    (hr : Reads (Stops sumStops) (arith inner) r.lexemes r) :
    Reads (Stops comparisonStops) (comparison inner) (compared l op r).lexemes
      (compared l op r) := by
  rw [Expr.lexemes_compared]
  refine hl.before (Reads.word ?_) rfl ?_
  · rw [show (Lexeme.symbol op.text).word = op.text from rfl, comparison?_text]
    exact takes_advance.then (hr.mono fun ts hts => hts.mono (by decide)).map
  · cases op <;> decide

theorem reads_flagMatch {e : Expr} (mask : Int64)
    (he : Reads (Stops sumStops) (arith inner) e.lexemes e) :
    Reads (Stops comparisonStops) (comparison inner) (Expr.flagMatch e mask).lexemes
      (.flagMatch e mask) := by
  refine he.before (Reads.word ?_) rfl (by decide)
  exact .ite_pos rfl (takes_advance.then (takes_int mask).reads.map)

theorem reads_refInSet {r : Reference} {ms : Members} (hr : r.WellFormed) (hms : ms.WellFormed) :
    Reads (Stops comparisonStops) (comparison inner) (Expr.refInSet r ms).lexemes
      (.refInSet r ms) := by
  have hlhs : Reads (Stops sumStops) (arith inner) r.lexemes (.ref r) :=
    reads_arith (.first (reads_term (.first (reads_ref hr))))
  rw [Expr.lexemes, List.append_assoc]
  refine hlhs.before (Reads.word ?_) rfl (by decide)
  exact .ite_neg (by decide) (.ite_pos rfl (takes_advance.then (reads_set hms).map))

theorem reads_uncompared {e : Expr} (he : Reads (Stops sumStops) (arith inner) e.lexemes e) :
    Reads (Stops comparisonStops) (comparison inner) e.lexemes e := by
  refine (he.mono fun ts hts => hts.mono (by decide)).bind_nil (Reads.word_end fun w hw => ?_)
  rw [comparison?_eq_none hw]
  refine .ite_neg ?_ (.ite_neg ?_ .pure)
  · rintro rfl
    exact hw (by decide)
  · rintro rfl
    exact hw (by decide)

/-- The round in which another negation is read. -/
def negationRound (count : Nat) : Parse (Round Nat Nat) := do
  let w ← word
  if w = "NOT" || w = "!" then
    advance
    return .again (count + 1)
  return .done count

/-- Something stands here that is no negation. -/
def Positive (ts : Tokens) : Prop :=
  ∃ ls rest, ts.Spells ls rest ∧ Opens ["NOT", "!"] ls

theorem Positive.negationRound {ts : Tokens} (h : Positive ts) (count : Nat) :
    negationRound count ts = .ok (.done count, ts) := by
  obtain ⟨ls, rest, hspells, x, more, rfl, hx⟩ := h
  obtain ⟨t, after, rfl, hkind, htext, -⟩ := hspells
  rw [Grammar.negationRound, word_bind, bind_ok (current_cons t after),
    wordOf_eq_word hkind htext, if_neg]
  · rfl
  · simpa using hx

/-- The negations before a comparison are counted. -/
theorem reads_negations (k : Nat) :
    Reads Positive (iterate negationRound 0) (List.replicate k (.ident "NOT")) k := by
  -- the count so far is carried along
  have hrounds : ∀ (count : Nat) (ts rest : Tokens),
      ts.Spells (List.replicate k (.ident "NOT")) rest → Legible rest → Positive rest →
      iterate negationRound count ts = .ok (count + k, rest) := by
    induction k with
    | zero =>
        intro count ts rest hspells hlegible hpositive
        obtain rfl : ts = rest := hspells
        exact iterate_done (hpositive.negationRound count)
    | succ k ih =>
        intro count ts rest hspells hlegible hpositive
        rw [List.replicate_succ, ← List.singleton_append] at hspells
        obtain ⟨mid, hfirst, hmore⟩ := hspells.append_inv
        have hround : Reads (fun _ => True) (negationRound count) [.ident "NOT"]
            (.again (count + 1)) :=
          Reads.word (.ite_pos rfl (takes_advance.then .pure))
        have hmid : Legible mid := legible_of_spells hmore hlegible
        refine iterate_again (hround ts mid hfirst hmid trivial) ?_ ?_
        · rw [hfirst.length_eq]
          simp
        · rw [ih (count + 1) mid rest hmore hlegible hpositive, Nat.succ_add_eq_add_succ]
  intro ts rest hspells hlegible hpositive
  rw [hrounds 0 ts rest hspells hlegible hpositive, Nat.zero_add]

theorem lexemes_repeat_negate (k : Nat) (e : Expr) :
    (Nat.repeat Expr.negate k e).lexemes = List.replicate k (.ident "NOT") ++ e.lexemes := by
  induction k with
  | zero => rfl
  | succ k ih => rw [Nat.repeat, Expr.lexemes_negate, ih, List.replicate_succ, List.cons_append]

theorem reads_negated {e : Expr} (k : Nat)
    (he : Reads (Stops comparisonStops) (comparison inner) e.lexemes e)
    (hopens : Opens ["NOT", "!"] e.lexemes) :
    Reads (Stops comparisonStops) (negated inner) (Nat.repeat Expr.negate k e).lexemes
      (Nat.repeat Expr.negate k e) := by
  rw [lexemes_repeat_negate]
  exact (reads_negations k).bind he.map fun mid rest hspells _ => ⟨_, rest, hspells, hopens⟩

theorem reads_conjunction {e : Expr}
    (h : ReadsChain (Stops comparisonStops) conjunction? (negated inner) e.lexemes e) :
    Reads (Stops conjunctionStops) (conjunction inner) e.lexemes e := by
  refine h.reads (by decide) fun w hw => ?_
  unfold conjunction?
  split
  · exact absurd (by decide) hw
  · rfl

theorem reads_disjunction {e : Expr}
    (h : ReadsChain (Stops conjunctionStops) disjunction? (conjunction inner) e.lexemes e) :
    Reads (Stops disjunctionStops) (disjunction inner) e.lexemes e := by
  refine h.reads (by decide) fun w hw => ?_
  unfold disjunction?
  split
  · exact absurd (by decide) hw
  · rfl

theorem reads_value {e : Expr}
    (he : Reads (Stops disjunctionStops) (disjunction inner) e.lexemes e) :
    Reads (Stops wholeStops) (exprWith inner .value) e.lexemes e := by
  refine (he.mono fun ts hts => hts.mono (by decide)).bind_nil (Reads.word_end fun w hw => ?_)
  exact .ite_neg (fun heq => hw (heq ▸ by decide)) .pure

theorem reads_truth {e : Expr}
    (he : Reads (Stops disjunctionStops) (disjunction inner) e.lexemes e) :
    Reads (Stops wholeStops) (exprWith inner .truth) e.lexemes e.asPredicate := by
  refine (he.mono fun ts hts => hts.mono (by decide)).bind_nil (Reads.word_end fun w hw => ?_)
  exact .ite_neg (fun heq => hw (heq ▸ by decide)) .pure

theorem reads_ternary {position : Position} {c y n : Expr}
    (hc : Reads (Stops disjunctionStops) (disjunction inner) c.lexemes c)
    (hy : Reads (Stops wholeStops) (inner position) y.lexemes y)
    (hn : Reads (Stops wholeStops) (inner position) n.lexemes n) :
    Reads (Stops wholeStops) (exprWith inner position) (Expr.ternary c.asPredicate y n).lexemes
      (.ternary c.asPredicate y n) := by
  rw [Expr.lexemes, Expr.lexemes_asPredicate, List.append_assoc]
  refine hc.before (Reads.word (.ite_pos rfl (takes_advance.then ?_))) rfl (by decide)
  exact hy.before ((takes_expect rfl).then hn.map) rfl (by decide)

/-! ### All levels -/

/-- What is needed of an expression of the level when the parts inside are read by `inner`. -/
def ReadsAt (inner : Inner) : Level → Expr → Prop
  | .atom, e => Reads (Stops atomStops) (atom inner) e.lexemes e
  | .product, e => ReadsChain (Stops atomStops) product? (atom inner) e.lexemes e
  | .sum, e => ReadsChain (Stops productStops) sum? (term inner) e.lexemes e
  | .comparison, e => Reads (Stops comparisonStops) (comparison inner) e.lexemes e
  | .negation, e => ∃ k e₀, e = Nat.repeat Expr.negate k e₀ ∧ Opens ["NOT", "!"] e₀.lexemes ∧
    Reads (Stops comparisonStops) (comparison inner) e₀.lexemes e₀
  | .conjunction, e =>
    ReadsChain (Stops comparisonStops) conjunction? (negated inner) e.lexemes e
  | .disjunction, e =>
    ReadsChain (Stops conjunctionStops) disjunction? (conjunction inner) e.lexemes e
  | .whole position, e => Reads (Stops wholeStops) (exprWith inner position) e.lexemes e

theorem length_le_intercalate (sep : List Lexeme) {ls : List Lexeme}
    {parts : List (List Lexeme)} (h : ls ∈ parts) : ls.length ≤ (sep.intercalate parts).length := by
  induction parts with
  | nil => cases h
  | cons part parts ih =>
      cases parts with
      | nil =>
          obtain rfl := List.mem_singleton.1 h
          simp
      | cons next parts =>
          rw [List.intercalate_cons_cons, List.length_append]
          rcases List.mem_cons.1 h with rfl | h
          · simp only [List.length_append]
            omega
          · have hle := ih h
            omega

theorem length_le_chainLexemes {arms : List (List Lexeme × List Lexeme)}
    {arm : List Lexeme × List Lexeme} (h : arm ∈ arms) (otherwise : Option (List Lexeme)) :
    arm.1.length + arm.2.length ≤ (chainLexemes arms otherwise).length := by
  fun_induction chainLexemes arms otherwise with
  | case1 => cases h
  | case2 => cases h
  | case3 c b o ih =>
      obtain rfl := List.mem_singleton.1 h
      simp only [armLexemes, List.length_append, List.length_cons]
      omega
  | case4 c b arms o hne ih =>
      simp only [armLexemes, List.length_append, List.length_cons]
      rcases List.mem_cons.1 h with rfl | h
      · simp only
        omega
      · have hle := ih h
        omega

theorem length_otherwise_le (arms : List (List Lexeme × List Lexeme)) (o : List Lexeme) :
    o.length ≤ (chainLexemes arms (some o)).length := by
  induction arms with
  | nil =>
      simp only [chainLexemes, List.length_append, List.length_cons]
      omega
  | cons arm arms ih =>
      cases arms with
      | nil =>
          simp only [chainLexemes, List.length_append, List.length_cons]
          omega
      | cons next arms =>
          rw [chainLexemes, List.length_append, List.length_cons, List.length_cons]
          · omega
          · simp

theorem length_le_of_choiceLexemes {subject : String} {cases : List (Lexeme × List Lexeme)}
    {d : List Lexeme} {n : Nat} (h : (choiceLexemes subject cases d).length ≤ n + 1) :
    (∀ c ∈ cases, c.2.length ≤ n) ∧ d.length ≤ n := by
  simp only [choiceLexemes, commaLexemes, List.length_append, List.length_cons] at h
  refine ⟨fun c hc => ?_, ?_⟩
  · have hle := length_le_intercalate [.symbol ","] (List.mem_append_left
      [Lexeme.ident "_" :: .symbol "=>" :: d]
      (List.mem_map_of_mem (f := fun c => c.1 :: Lexeme.symbol "=>" :: c.2) hc))
    simp only [List.length_cons] at hle
    omega
  · have hle := length_le_intercalate [.symbol ","] (List.mem_append_right
      (cases.map fun c => c.1 :: Lexeme.symbol "=>" :: c.2)
      (List.mem_singleton_self (Lexeme.ident "_" :: .symbol "=>" :: d)))
    simp only [List.length_cons] at hle
    omega

theorem ReadsAt.negated {e : Expr} (h : ReadsAt inner .negation e) :
    Reads (Stops comparisonStops) (Grammar.negated inner) e.lexemes e := by
  obtain ⟨k, e₀, rfl, hopens, he⟩ := h
  exact reads_negated k he hopens

/-- The expression is read at its level by a reader that has a depth of one less than there are
    tokens. -/
def ReadsDeep (L : Level) (e : Expr) : Prop :=
  ∀ d, e.lexemes.length ≤ d + 1 → ReadsAt (nestedTo exprWith d) L e

/-- An expression inside another one, which has more tokens. -/
theorem ReadsDeep.inside {position : Position} {e : Expr} (h : ReadsDeep (.whole position) e)
    (hopens : Opens closers e.lexemes) {d : Nat} (hlen : e.lexemes.length ≤ d) :
    Reads (Stops wholeStops) (nestedTo exprWith d position) e.lexemes e := by
  obtain ⟨x, more, hls, -⟩ := hopens
  obtain ⟨d, rfl⟩ : ∃ d', d = d' + 1 := Nat.exists_eq_succ_of_ne_zero (by
    rw [hls, List.length_cons] at hlen
    omega)
  exact h d hlen

theorem readsDeep_of_derives {L : Level} {e : Expr} (h : Derives False L e) : ReadsDeep L e := by
  induction h with
  | bool b => exact fun d _ => reads_bool b
  | int n => exact fun d _ => Reads.kind (takes_number n).reads.map
  | float hF x => exact hF.elim
  | str s => exact fun d _ => Reads.kind (takes_string s).reads.map
  | @place path hpath => exact fun d _ => Reads.kind (takes_place path).reads.map
  | ref hr => exact fun d _ => reads_ref hr
  | const hname hconst => exact fun d _ => reads_const hname hconst
  | hasItem hname hconst hitem => exact fun d _ => reads_hasItem hname hconst hitem
  | setting hname hitem => exact fun d _ => reads_setting hname hitem
  | itemAtLeast hitem ht => exact fun d _ => reads_itemAtLeast hitem ht
  | hasArgItem hr => exact fun d _ => reads_hasArgItem hr
  | within hp => exact fun d _ => reads_within hp
  | items hnames hitems => exact fun d _ => reads_items hnames hitems
  | paren he ih =>
      intro d hlen
      refine reads_paren (ih.inside (opens_of_derives he) ?_)
      simp only [Expr.lexemes, List.length_append, List.length_cons] at hlen
      omega
  | @call func args hfunc hargs ih =>
      intro d hlen
      refine reads_call hfunc (fun a ha => (ih a ha).inside (opens_of_derives (hargs a ha)) ?_)
        fun a ha => opens_of_derives (hargs a ha)
      have hle := length_le_intercalate [.symbol ","] (List.mem_map_of_mem (f := Expr.lexemes) ha)
      simp only [Expr.lexemes, lexemesAll_eq_map, callLexemes, commaLexemes, List.length_append,
        List.length_cons] at hlen
      omega
  | @ifThenElse arms otherwise hne hconds hbranches hotherwise ihconds ihbranches ihotherwise =>
      intro d hlen
      rw [Expr.lexemes_ifThenElse, zip_lexemes, List.length_cons] at hlen
      have harms : ∀ a ∈ arms, a.1.lexemes.length + a.2.lexemes.length ≤ d := by
        intro a ha
        have hle := length_le_chainLexemes
          (List.mem_map_of_mem (f := fun a : Expr × Expr => (a.1.lexemes, a.2.lexemes)) ha)
          (otherwise.map Expr.lexemes)
        simp only at hle
        omega
      refine reads_ifThenElse hne ⟨fun a ha => ?_, fun a ha => ?_, fun o ho => ?_⟩
      · refine (ihconds a ha).inside (opens_of_derives (hconds a ha)) ?_
        have hle := harms a ha
        omega
      · refine (ihbranches a ha).inside (opens_of_derives (hbranches a ha)) ?_
        have hle := harms a ha
        omega
      · refine (ihotherwise o ho).inside (opens_of_derives (hotherwise o ho)) ?_
        obtain rfl : otherwise = some o := ho
        have hle := length_otherwise_le (arms.map fun a => (a.1.lexemes, a.2.lexemes)) o.lexemes
        rw [Option.map_some] at hlen
        omega
  | perItem hname hitem hcases he ihcases ihe =>
      intro d hlen
      rw [Expr.lexemes, lexemesCounts_eq_map] at hlen
      obtain ⟨hle, hled⟩ := length_le_of_choiceLexemes hlen
      refine reads_perItem hname hitem (fun c hc => ?_) (ihe.inside (opens_of_derives he) hled)
      exact (ihcases c hc).inside (opens_of_derives (hcases c hc)) (hle _ (List.mem_map_of_mem hc))
  | perSetting hname hitem hkeys hcases he ihcases ihe =>
      intro d hlen
      rw [Expr.lexemes, lexemesOptions_eq_map] at hlen
      obtain ⟨hle, hled⟩ := length_le_of_choiceLexemes hlen
      refine reads_perSetting hname hitem (fun c hc => (hkeys c hc).2.resolve_left id)
        (fun c hc => ?_) (ihe.inside (opens_of_derives he) hled)
      exact (ihcases c hc).inside (opens_of_derives (hcases c hc)) (hle _ (List.mem_map_of_mem hc))
  | ofAtom _ ih => exact fun d hlen => .first (ih d hlen)
  | product _ hop _ ihl ihr =>
      intro d hlen
      rw [Expr.lexemes, List.length_append, List.length_cons] at hlen
      have hl := ihl d (by omega)
      have hr := ihr d (by omega)
      rcases hop with rfl | rfl
      · exact ReadsChain.step "*" rfl (by decide) hl hr
      · exact ReadsChain.step "/" rfl (by decide) hl hr
  | ofProduct _ ih => exact fun d hlen => .first (reads_term (ih d hlen))
  | sum _ hop _ ihl ihr =>
      intro d hlen
      rw [Expr.lexemes, List.length_append, List.length_cons] at hlen
      have hl := ihl d (by omega)
      have hr := reads_term (ihr d (by omega))
      rcases hop with rfl | rfl
      · exact ReadsChain.step "+" rfl (by decide) hl hr
      · exact ReadsChain.step "-" rfl (by decide) hl hr
  | ofSum _ ih => exact fun d hlen => reads_uncompared (reads_arith (ih d hlen))
  | compared _ op _ ihl ihr =>
      intro d hlen
      rw [Expr.lexemes_compared, List.length_append, List.length_cons] at hlen
      exact reads_compared (reads_arith (ihl d (by omega))) (reads_arith (ihr d (by omega)))
  | flagMatch _ mask ih =>
      intro d hlen
      rw [Expr.lexemes, List.length_append, List.length_cons] at hlen
      exact reads_flagMatch mask (reads_arith (ih d (by omega)))
  | refInSet hr hms => exact fun d _ => reads_refInSet hr hms
  | ofComparison he ih =>
      exact fun d hlen => ⟨0, _, rfl, (opens_of_derives he).mono (by decide), ih d hlen⟩
  | negation _ ih =>
      intro d hlen
      rw [Expr.lexemes_negate, List.length_cons] at hlen
      obtain ⟨k, e₀, rfl, hopens, he⟩ := ih d (by omega)
      exact ⟨k + 1, e₀, rfl, hopens, he⟩
  | ofNegation _ ih => exact fun d hlen => .first (ih d hlen).negated
  | conjunction _ _ ihl ihr =>
      intro d hlen
      rw [ReadsAt, Expr.lexemes, Expr.lexemes_asPredicate, Expr.lexemes_asPredicate]
      rw [Expr.lexemes, Expr.lexemes_asPredicate, Expr.lexemes_asPredicate, List.length_append,
        List.length_cons] at hlen
      have hstep := ReadsChain.step "&&" (show conjunction? "&&" = some _ from rfl) (by decide)
        (ihl d (by omega)) (ihr d (by omega)).negated
      exact hstep
  | ofConjunction _ ih => exact fun d hlen => .first (reads_conjunction (ih d hlen))
  | disjunction _ _ ihl ihr =>
      intro d hlen
      rw [ReadsAt, Expr.lexemes, Expr.lexemes_asPredicate, Expr.lexemes_asPredicate]
      rw [Expr.lexemes, Expr.lexemes_asPredicate, Expr.lexemes_asPredicate, List.length_append,
        List.length_cons] at hlen
      have hstep := ReadsChain.step "||" (show disjunction? "||" = some _ from rfl) (by decide)
        (ihl d (by omega)) (reads_conjunction (ihr d (by omega)))
      exact hstep
  | value _ ih => exact fun d hlen => reads_value (reads_disjunction (ih d hlen))
  | truth _ ih =>
      intro d hlen
      rw [Expr.lexemes_asPredicate] at hlen
      have hread := reads_truth (reads_disjunction (ih d hlen))
      rwa [← Expr.lexemes_asPredicate] at hread
  | ternary _ hy hn ihc ihy ihn =>
      intro d hlen
      simp only [Expr.lexemes, Expr.lexemes_asPredicate, List.length_append, List.length_cons]
        at hlen
      exact reads_ternary (reads_disjunction (ihc d (by omega)))
        (ihy.inside (opens_of_derives hy) (by omega)) (ihn.inside (opens_of_derives hn) (by omega))

/-- The tokens of an expression are read as that expression. -/
theorem reads_expr {position : Position} {e : Expr} (h : Derives False (.whole position) e) :
    Reads (Stops wholeStops) (expr position) e.lexemes e := by
  intro ts rest hspells hlegible hS
  have hlen : e.lexemes.length ≤ ts.length + 1 := by
    rw [hspells.length_eq]
    omega
  exact readsDeep_of_derives h ts.length hlen ts rest hspells hlegible hS

end Grammar

end AccessRules
