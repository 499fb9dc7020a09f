import AccessRules.Proofs.Token.Respacing

set_option autoImplicit false

/-! # Rules for readers

There are two things to say of a reader. `Parse.Gives p P` says that whatever `p` gives has the
property `P`. `Parse.Reads S p ls a` says that on tokens spelled as `ls` the reader `p` does give
`a` and stops right after them, provided that what follows satisfies `S`: most readers look one
token ahead, and `S` says that this token does not go on with what was read. For each of the two
there is one rule for every way in which readers are built. -/

namespace AccessRules

namespace Tokens.Spells

variable {ts rest : Tokens} {x : Lexeme} {ls ms : List Lexeme}

theorem append_inv (h : ts.Spells (ls ++ ms) rest) :
    ∃ mid, ts.Spells ls mid ∧ mid.Spells ms rest := by
  induction ls generalizing ts with
  | nil => exact ⟨ts, rfl, h⟩
  | cons x ls ih =>
      obtain ⟨t, more, rfl, hkind, htext, hmore⟩ := h
      obtain ⟨mid, hls, hms⟩ := ih hmore
      exact ⟨mid, ⟨t, more, rfl, hkind, htext, hls⟩, hms⟩

theorem length_eq (h : ts.Spells ls rest) : ts.length = ls.length + rest.length := by
  induction ls generalizing ts with
  | nil =>
      obtain rfl : ts = rest := h
      simp
  | cons x ls ih =>
      obtain ⟨t, more, rfl, -, -, hmore⟩ := h
      rw [Tokens.length, ih hmore, List.length_cons]
      omega

end Tokens.Spells

namespace Parse

/-! ## What a reader gives -/

section Gives

variable {α β σ ι : Type} {P : α → Prop} {Q : β → Prop} {ts : Tokens}

/-- From these tokens on, whatever the reader gives has the property, and what it leaves is well
    formed if the tokens are. -/
def GivesAt (ts : Tokens) (p : Parse α) (P : α → Prop) : Prop :=
  ts.WellFormed → ∀ a rest, p ts = .ok (a, rest) → P a ∧ rest.WellFormed

/-- Whatever the reader gives has the property. -/
def Gives (p : Parse α) (P : α → Prop) : Prop :=
  ∀ ts, GivesAt ts p P

theorem bind_eq_ok {p : Parse α} {f : α → Parse β} {b : β} {rest : Tokens}
    (h : (p >>= f) ts = .ok (b, rest)) :
    ∃ a mid, p ts = .ok (a, mid) ∧ f a mid = .ok (b, rest) := by
  change (p ts >>= fun r => f r.1 r.2) = .ok (b, rest) at h
  cases hp : p ts with
  | error e => rw [hp] at h; cases h
  | ok r => rw [hp] at h; exact ⟨r.1, r.2, rfl, h⟩

theorem current_eq_ok {t : Token} {mid : Tokens} (h : current ts = .ok (t, mid)) :
    peek ts = .ok t ∧ mid = ts := by
  cases hpeek : peek ts with
  | error e =>
      simp only [current, hpeek] at h
      cases h
  | ok t' =>
      simp only [current, hpeek] at h
      cases h
      exact ⟨rfl, rfl⟩

theorem GivesAt.bind {p : Parse α} {f : α → Parse β} (hp : GivesAt ts p P)
    (hf : ∀ a, P a → Gives (f a) Q) : GivesAt ts (p >>= f) Q := by
  intro hts b rest h
  obtain ⟨a, mid, hpa, hfa⟩ := bind_eq_ok h
  obtain ⟨ha, hmid⟩ := hp hts a mid hpa
  exact hf a ha mid hmid b rest hfa

theorem Gives.bind {p : Parse α} {f : α → Parse β} (hp : Gives p P)
    (hf : ∀ a, P a → Gives (f a) Q) : Gives (p >>= f) Q :=
  fun ts => (hp ts).bind hf

theorem GivesAt.here {p : Parse α} (hp : Gives p P) (ts : Tokens) : GivesAt ts p P :=
  hp ts

theorem Gives.pure {a : α} (ha : P a) : Gives (pure a) P := by
  intro ts hts b rest h
  cases h
  exact ⟨ha, hts⟩

theorem Gives.map {p : Parse α} {f : α → β} (hp : Gives p P) (h : ∀ a, P a → Q (f a)) :
    Gives (p >>= fun a => Pure.pure (f a)) Q :=
  hp.bind fun a ha => .pure (h a ha)

theorem Gives.ite {c : Prop} [Decidable c] {p q : Parse α} (hp : c → Gives p P)
    (hq : ¬ c → Gives q P) : Gives (if c then p else q) P := by
  split
  · exact hp ‹_›
  · exact hq ‹_›

/-! ### The current token -/

theorem peek_wellFormed {t : Token} (hts : ts.WellFormed) (h : peek ts = .ok t) : t.WellFormed := by
  cases ts with
  | eof t' => cases h; exact hts
  | fault f => cases h
  | cons t' rest => cases h; exact hts.1

theorem tail_wellFormed (hts : ts.WellFormed) : (tail ts).WellFormed := by
  cases ts with
  | cons t rest => exact hts.2
  | _ => exact hts

theorem kind_bind (f : TokenKind → Parse β) :
    (kind >>= f) = current >>= fun t => f t.kind := by
  funext ts
  simp [kind]

theorem word_bind (f : String → Parse β) :
    (word >>= f) = current >>= fun t => f (wordOf t) := by
  funext ts
  simp [word]

theorem GivesAt.current {f : Token → Parse β}
    (hf : ∀ t, peek ts = .ok t → t.WellFormed → GivesAt ts (f t) Q) :
    GivesAt ts (current >>= f) Q := by
  intro hts b rest h
  obtain ⟨t, mid, ht, hb⟩ := bind_eq_ok h
  obtain ⟨hpeek, rfl⟩ := current_eq_ok ht
  exact hf _ hpeek (peek_wellFormed hts hpeek) hts b rest hb

theorem Gives.current {f : Token → Parse β} (hf : ∀ t, t.WellFormed → Gives (f t) Q) :
    Gives (Parse.current >>= f) Q :=
  fun _ => GivesAt.current fun t _ ht => hf t ht _

theorem GivesAt.kind {f : TokenKind → Parse β}
    (hf : ∀ t, peek ts = .ok t → t.WellFormed → GivesAt ts (f t.kind) Q) :
    GivesAt ts (Parse.kind >>= f) Q := by
  rw [kind_bind]
  exact GivesAt.current hf

theorem Gives.word {f : String → Parse β} (hf : ∀ w, Gives (f w) Q) :
    Gives (Parse.word >>= f) Q := by
  rw [word_bind]
  exact Gives.current fun t _ => hf (wordOf t)

theorem Gives.fail {cause : ParseCause} : Gives (fail cause : Parse α) P := by
  refine Gives.current fun t _ => ?_
  intro ts hts a rest h
  cases h

theorem Gives.fail_bind {cause : ParseCause} {f : α → Parse β} :
    Gives (Parse.fail cause >>= f) Q :=
  Gives.bind (P := fun _ => False) .fail fun _ h => h.elim

theorem Gives.failAt {t : Token} {cause : ParseCause} : Gives (failAt t cause : Parse α) P := by
  intro ts hts a rest h
  cases h

theorem Gives.advance : Gives advance fun _ => True := by
  intro ts hts a rest h
  cases hpeek : peek (tail ts) with
  | error e => simp only [Parse.advance, hpeek] at h; cases h
  | ok t =>
      simp only [Parse.advance, hpeek] at h
      cases h
      exact ⟨trivial, tail_wellFormed hts⟩

theorem Gives.expect {text context : String} : Gives (expect text context) fun _ => True := by
  unfold Parse.expect
  exact .word fun w => .ite (fun _ => .advance) fun _ => .fail

/-! ### Repetition -/

/-- What holds of another state or of a result. -/
def Round.Ensures (I : σ → Prop) (Q : β → Prop) : Round σ β → Prop
  | .again state => I state
  | .done result => Q result

/-- What every round preserves holds of the result. -/
theorem Gives.iterate {round : σ → Parse (Round σ β)} {I : σ → Prop} {state : σ}
    (hround : ∀ s, I s → Gives (round s) (Round.Ensures I Q)) (hstate : I state) :
    Gives (iterate round state) Q := by
  have hrounds : ∀ bound s, I s → Gives (rounds round bound s) Q := by
    intro bound
    induction bound with
    | zero => exact fun s _ => .fail
    | succ bound ih =>
        intro s hs
        refine (hround s hs).bind fun r hr => ?_
        cases r with
        | again s' => exact ih s' hr
        | done b => exact .pure hr
  exact fun ts => hrounds _ _ hstate ts

theorem Gives.nested {reader : (ι → Parse α) → ι → Parse α} {R : ι → α → Prop}
    (hreader : ∀ inner, (∀ i, Gives (inner i) (R i)) → ∀ i, Gives (reader inner i) (R i)) (i : ι) :
    Gives (nested reader i) (R i) := by
  have hdepth : ∀ depth i, Gives (nestedTo reader depth i) (R i) := by
    intro depth
    induction depth with
    | zero => exact fun _ => .fail
    | succ depth ih => exact hreader _ ih
  exact fun ts => hdepth _ i ts

theorem Gives.listUntil {closing list : String} {element : Parse α} (he : Gives element P) :
    Gives (listUntil closing list element) fun es => ∀ e ∈ es, P e := by
  unfold Parse.listUntil
  refine .iterate (I := fun es => ∀ e ∈ es, P e) (fun es hes => ?_) (by simp)
  refine .word fun w => .ite (fun _ => .pure hes) fun _ => he.bind fun e hpe => .word fun w => ?_
  have hmore : ∀ x ∈ es ++ [e], P x := by
    intro x hx
    rcases List.mem_append.1 hx with hx | hx
    · exact hes x hx
    · exact List.mem_singleton.1 hx ▸ hpe
  refine .ite (fun _ => Gives.advance.bind fun _ _ => .pure hmore) fun _ => ?_
  exact .ite (fun _ => .pure hmore) fun _ => .fail

theorem Gives.leftAssociative {operator? : String → Option (α → α → α)} {operand : Parse α}
    {O : α → Prop} (hoperand : Gives operand O) (hfirst : ∀ a, O a → P a)
    (hcombine : ∀ w f l r, operator? w = some f → P l → O r → P (f l r)) :
    Gives (leftAssociative operator? operand) P := by
  refine hoperand.bind fun a ha => .iterate (I := P) (fun l hl => ?_) (hfirst a ha)
  refine .word fun w => ?_
  split
  · exact .pure hl
  · rename_i f hf
    exact Gives.advance.bind fun _ _ => hoperand.map fun r hr => hcombine w f l r hf hl hr

/-! ### Words with a meaning -/

theorem gives_ident : Gives ident IsName := by
  unfold ident
  refine .current fun t ht => .ite (fun hkind => .ite (fun _ => ?_) fun hkey => ?_) fun _ => .fail
  · exact .fail_bind
  · refine Gives.advance.map fun _ _ => ⟨ht.ident hkind, ?_⟩
    simpa using hkey

theorem givesAt_place {t : Token} (hpeek : peek ts = .ok t) (hkind : t.kind = .place) :
    GivesAt ts place IsPath := by
  unfold place
  refine .current fun t' hpeek' ht' => ?_
  obtain rfl : t = t' := Except.ok.inj (hpeek.symm.trans hpeek')
  exact (Gives.advance.map fun _ _ => ht'.place hkind) ts

theorem gives_int : Gives int fun _ => True := by
  unfold int
  refine .current fun t _ => ?_
  split
  · exact Gives.advance.map fun _ _ => trivial
  · exact .fail

theorem gives_string : Gives string fun _ => True := by
  unfold string
  refine .current fun t _ => ?_
  split
  · exact Gives.advance.map fun _ _ => trivial
  · exact .failAt

end Gives

/-! ## What a reader reads -/

section Reads

variable {α β σ : Type} {S S₁ : Tokens → Prop} {x : Lexeme} {ls l₁ l₂ : List Lexeme} {a : α} {b : β}

/-- The next token can be read. -/
def Legible (ts : Tokens) : Prop :=
  ∃ t, peek ts = .ok t

/-- The next token is recognised by its text, which is none of the given words. -/
def Stops (words : List String) (ts : Tokens) : Prop :=
  ∀ t, peek ts = .ok t → wordOf t = t.text ∧ t.text ∉ words

/-- On tokens spelled as `ls` before tokens that satisfy `S`, the reader gives `a` and leaves these
    tokens. -/
def Reads (S : Tokens → Prop) (p : Parse α) (ls : List Lexeme) (a : α) : Prop :=
  ∀ ts rest, ts.Spells ls rest → Legible rest → S rest → p ts = .ok (a, rest)

/-- The reader takes one token that is spelled as `x`, whatever follows. -/
def Takes (p : Parse α) (x : Lexeme) (a : α) : Prop :=
  ∀ t rest, t.kind = x.kind → t.text = x.text → Legible rest → p (.cons t rest) = .ok (a, rest)

theorem legible_of_spells {ts rest : Tokens} (h : ts.Spells ls rest) (hrest : Legible rest) :
    Legible ts := by
  cases ls with
  | nil =>
      obtain rfl : ts = rest := h
      exact hrest
  | cons x ls =>
      obtain ⟨t, more, rfl, -⟩ := h
      exact ⟨t, rfl⟩

theorem wordOf_eq_word {t : Token} (hkind : t.kind = x.kind) (htext : t.text = x.text) :
    wordOf t = x.word := by
  cases hx : x.kind <;> simp only [wordOf, Lexeme.word, hkind, htext, hx]

theorem Stops.mono {words words' : List String} {ts : Tokens} (h : Stops words ts)
    (hsub : words' ⊆ words) : Stops words' ts :=
  fun t ht => ⟨(h t ht).1, fun hmem => (h t ht).2 (hsub hmem)⟩

/-- Before a word that is not among the given ones, a reader that stops at them has come to its
    end. -/
theorem stops_of_spells {words : List String} {ts rest : Tokens} (h : ts.Spells (x :: ls) rest)
    (hword : x.word = x.text) (hnot : x.text ∉ words) : Stops words ts := by
  obtain ⟨t, more, rfl, hkind, htext, -⟩ := h
  intro t' ht'
  obtain rfl : t = t' := Except.ok.inj ht'
  rw [wordOf_eq_word hkind htext, htext]
  exact ⟨hword, hnot⟩

/-! ### Sequences -/

theorem bind_ok {p : Parse α} {f : α → Parse β} {ts mid : Tokens} (h : p ts = .ok (a, mid)) :
    (p >>= f) ts = f a mid := by
  change (p ts >>= fun r => f r.1 r.2) = f a mid
  rw [h]
  rfl

theorem Reads.pure : Reads S (pure a) [] a := by
  intro ts rest hspells _ _
  obtain rfl : ts = rest := hspells
  rfl

theorem Reads.bind {p : Parse α} {f : α → Parse β} (hp : Reads S₁ p l₁ a)
    (hf : Reads S (f a) l₂ b)
    (hnext : ∀ mid rest, mid.Spells l₂ rest → S rest → S₁ mid) :
    Reads S (p >>= f) (l₁ ++ l₂) b := by
  intro ts rest hspells hlegible hS
  obtain ⟨mid, h₁, h₂⟩ := hspells.append_inv
  rw [bind_ok (hp ts mid h₁ (legible_of_spells h₂ hlegible) (hnext mid rest h₂ hS))]
  exact hf mid rest h₂ hlegible hS

/-- The last reader of a sequence is followed by what follows the sequence. -/
theorem Reads.bind_nil {p : Parse α} {f : α → Parse β} (hp : Reads S p ls a)
    (hf : Reads S (f a) [] b) : Reads S (p >>= f) ls b := by
  intro ts rest hspells hlegible hS
  rw [bind_ok (hp ts rest hspells hlegible hS)]
  exact hf rest rest rfl hlegible hS

theorem Reads.map {p : Parse α} {f : α → β} (hp : Reads S p ls a) :
    Reads S (p >>= fun a => Pure.pure (f a)) ls (f a) :=
  hp.bind_nil .pure

/-- A reader before a given word. -/
theorem Reads.before {words : List String} {p : Parse α} {f : α → Parse β}
    (hp : Reads (Stops words) p l₁ a) (hf : Reads S (f a) (x :: l₂) b) (hword : x.word = x.text)
    (hnot : x.text ∉ words) : Reads S (p >>= f) (l₁ ++ x :: l₂) b :=
  hp.bind hf fun _ _ hspells _ => stops_of_spells hspells hword hnot

theorem Reads.mono {p : Parse α} (hp : Reads S₁ p ls a) (h : ∀ ts, S ts → S₁ ts) :
    Reads S p ls a :=
  fun ts rest hspells hlegible hS => hp ts rest hspells hlegible (h rest hS)

theorem Reads.ite_pos {c : Prop} [Decidable c] {p q : Parse α} (hc : c) (hp : Reads S p ls a) :
    Reads S (if c then p else q) ls a := by
  rwa [if_pos hc]

theorem Reads.ite_neg {c : Prop} [Decidable c] {p q : Parse α} (hc : ¬ c) (hq : Reads S q ls a) :
    Reads S (if c then p else q) ls a := by
  rwa [if_neg hc]

/-! ### Single tokens -/

theorem Takes.reads {p : Parse α} (hp : Takes p x a) : Reads S p [x] a := by
  intro ts rest hspells hlegible _
  obtain ⟨t, more, rfl, hkind, htext, hmore⟩ := hspells
  obtain rfl : more = rest := hmore
  exact hp t more hkind htext hlegible

theorem Reads.takes {p : Parse α} (hp : Reads (fun _ => True) p [x] a) : Takes p x a :=
  fun t rest hkind htext hlegible => hp _ rest ⟨t, rest, rfl, hkind, htext, rfl⟩ hlegible trivial

theorem Takes.then {p : Parse α} {f : α → Parse β} (hp : Takes p x a)
    (hf : Reads S (f a) ls b) : Reads S (p >>= f) (x :: ls) b := by
  have hfirst : Reads (fun _ => True) p [x] a := hp.reads
  exact hfirst.bind hf fun _ _ _ _ => trivial

theorem current_cons (t : Token) (rest : Tokens) :
    current (.cons t rest) = .ok (t, .cons t rest) :=
  rfl

theorem takes_advance : Takes advance x () := by
  rintro t rest - - ⟨next, hnext⟩
  simp only [advance, tail, hnext]
  rfl

theorem Reads.current {f : Token → Parse β}
    (hf : ∀ t, t.kind = x.kind → t.text = x.text → Reads S (f t) (x :: ls) b) :
    Reads S (Parse.current >>= f) (x :: ls) b := by
  intro ts rest hspells hlegible hS
  obtain ⟨t, more, rfl, hkind, htext, hmore⟩ := hspells
  rw [bind_ok (current_cons t more)]
  exact hf t hkind htext _ rest ⟨t, more, rfl, hkind, htext, hmore⟩ hlegible hS

theorem Reads.kind {f : TokenKind → Parse β} (hf : Reads S (f x.kind) (x :: ls) b) :
    Reads S (Parse.kind >>= f) (x :: ls) b := by
  rw [kind_bind]
  refine Reads.current fun t hkind _ => ?_
  rw [hkind]
  exact hf

theorem Reads.word {f : String → Parse β} (hf : Reads S (f x.word) (x :: ls) b) :
    Reads S (Parse.word >>= f) (x :: ls) b := by
  rw [word_bind]
  refine Reads.current fun t hkind htext => ?_
  rw [wordOf_eq_word hkind htext]
  exact hf

theorem current_of_legible {ts : Tokens} {t : Token} (h : peek ts = .ok t) :
    Parse.current ts = .ok (t, ts) := by
  simp only [Parse.current, h]
  rfl

/-- After the last token of what is read comes a word at which reading stops. -/
theorem Reads.word_end {words : List String} {f : String → Parse β}
    (hf : ∀ w, w ∉ words → Reads (Stops words) (f w) [] b) :
    Reads (Stops words) (Parse.word >>= f) [] b := by
  rw [word_bind]
  intro ts rest hspells hlegible hS
  obtain rfl : ts = rest := hspells
  obtain ⟨t, ht⟩ := hlegible
  obtain ⟨hword, hnot⟩ := hS t ht
  rw [bind_ok (current_of_legible ht)]
  exact hf _ (hword ▸ hnot) ts ts rfl ⟨t, ht⟩ hS

theorem following_cons {t next : Token} {rest : Tokens} (h : peek rest = .ok next) :
    following (.cons t rest) = .ok (next, .cons t rest) := by
  simp only [following, tail, h]
  rfl

theorem Reads.following {y : Lexeme} {f : Token → Parse β}
    (hf : ∀ next : Token, next.text = y.text → Reads S (f next) (x :: y :: ls) b) :
    Reads S (Parse.following >>= f) (x :: y :: ls) b := by
  intro ts rest hspells hlegible hS
  obtain ⟨t, more, rfl, hkind, htext, next, after, rfl, hnext⟩ := hspells
  rw [bind_ok (following_cons (show peek (.cons next after) = .ok next from rfl))]
  exact hf next hnext.2.1 _ rest ⟨t, _, rfl, hkind, htext, next, after, rfl, hnext⟩ hlegible hS

theorem Reads.following_end {words : List String} {f : Token → Parse β}
    (hf : ∀ next : Token, next.text ∉ words → Reads (Stops words) (f next) [x] b) :
    Reads (Stops words) (Parse.following >>= f) [x] b := by
  intro ts rest hspells hlegible hS
  obtain ⟨t, more, rfl, hkind, htext, hmore⟩ := hspells
  obtain rfl : more = rest := hmore
  obtain ⟨next, hnext⟩ := hlegible
  rw [bind_ok (following_cons hnext)]
  exact hf next (hS next hnext).2 _ more ⟨t, more, rfl, hkind, htext, rfl⟩ ⟨next, hnext⟩ hS

theorem takes_expect {text context : String} (h : x.word = text) :
    Takes (expect text context) x () := by
  intro t rest hkind htext hlegible
  have hword : wordOf t = text := (wordOf_eq_word hkind htext).trans h
  rw [expect, word_bind, bind_ok (current_cons t rest)]
  simp only [hword, if_true]
  exact takes_advance t rest hkind htext hlegible

theorem takes_ident {name : String} (h : IsName name) : Takes ident (.ident name) name := by
  rintro t rest hkind rfl hlegible
  have hkey : keywords.contains t.text = false := by
    rw [List.contains_eq_mem, decide_eq_false_iff_not]
    exact h.2
  rw [ident, bind_ok (current_cons t rest)]
  simp only [hkind, Lexeme.ident, if_true, hkey]
  exact bind_ok (takes_advance (x := .ident t.text) t rest hkind rfl hlegible)

theorem takes_int (n : Int64) : Takes int (.int n) n := by
  intro t rest hkind htext hlegible
  have hread : readWord? t.text.toList = some n := by
    rw [htext]
    exact readWord?_wordText n
  rw [int, bind_ok (current_cons t rest)]
  simp only [hkind, Lexeme.int, if_true, hread]
  exact bind_ok (takes_advance (x := .int n) t rest hkind htext hlegible)

theorem takes_string (s : String) : Takes string (.string s) s := by
  intro t rest hkind htext hlegible
  have hdecode : JsonString.decode t.text.toList = .ok s := by
    rw [htext, Lexeme.string, String.toList_ofList, decode_escaped]
  rw [string, bind_ok (current_cons t rest)]
  simp only [hdecode]
  exact bind_ok (takes_advance (x := .string s) t rest hkind htext hlegible)

theorem takes_place (path : String) : Takes place (.place path) path := by
  rintro t rest hkind rfl hlegible
  rw [place, bind_ok (current_cons t rest)]
  exact bind_ok (takes_advance (x := .place t.text) t rest hkind rfl hlegible)

/-! ### Repetition of what is spelled -/

theorem rounds_mono {round : σ → Parse (Round σ β)} {m n : Nat} (hmn : m ≤ n) {s : σ}
    {ts : Tokens} {out : β × Tokens} (h : rounds round m s ts = .ok out) :
    rounds round n s ts = .ok out := by
  obtain ⟨result, rest⟩ := out
  induction m generalizing n s ts with
  | zero =>
      obtain ⟨t, mid, -, hfail⟩ := bind_eq_ok h
      cases hfail
  | succ m ih =>
      obtain ⟨n, rfl⟩ := Nat.exists_eq_succ_of_ne_zero (Nat.ne_of_gt (Nat.zero_lt_of_lt hmn))
      obtain ⟨r, mid, hround, hrest⟩ := bind_eq_ok h
      rw [rounds, bind_ok hround]
      cases r with
      | again s' => exact ih (Nat.le_of_succ_le_succ hmn) hrest
      | done b => exact hrest

theorem iterate_done {round : σ → Parse (Round σ β)} {s : σ} {ts rest : Tokens}
    (h : round s ts = .ok (.done b, rest)) : iterate round s ts = .ok (b, rest) := by
  rw [iterate, rounds, bind_ok h]
  rfl

/-- A round that consumes a token and asks for another one. -/
theorem iterate_again {round : σ → Parse (Round σ β)} {s s' : σ} {ts mid : Tokens}
    {out : β × Tokens} (h : round s ts = .ok (.again s', mid)) (hlt : mid.length < ts.length)
    (hmore : iterate round s' mid = .ok out) : iterate round s ts = .ok out := by
  rw [iterate, rounds, bind_ok h]
  exact rounds_mono (Nat.succ_le_of_lt hlt) hmore

/-- The round in which another operand is read. -/
def chainRound (operator? : String → Option (α → α → α)) (operand : Parse α) (lhs : α) :
    Parse (Round α α) := do
  match operator? (← word) with
  | none => return .done lhs
  | some combine =>
    advance
    let rhs ← operand
    return .again (combine lhs rhs)

/-- Tokens spelled as `ls` are read as the operands so far, joined to `a`, and reading goes on from
    there. -/
def ReadsChain (S : Tokens → Prop) (operator? : String → Option (α → α → α)) (operand : Parse α)
    (ls : List Lexeme) (a : α) : Prop :=
  ∀ ts rest out, ts.Spells ls rest → Legible rest → S rest →
    iterate (chainRound operator? operand) a rest = .ok out →
    leftAssociative operator? operand ts = .ok out

section Chain

variable {operator? : String → Option (α → α → α)} {operand : Parse α} {words : List String}

theorem ReadsChain.first (h : Reads S operand ls a) : ReadsChain S operator? operand ls a := by
  intro ts rest out hspells hlegible hS hmore
  have hfirst := h ts rest hspells hlegible hS
  exact (bind_ok hfirst).trans hmore

theorem ReadsChain.step {a' : α} {combine : α → α → α} (w : String)
    (hoperator : operator? w = some combine) (hnot : w ∉ words)
    (h : ReadsChain (Stops words) operator? operand l₁ a)
    (hoperand : Reads (Stops words) operand l₂ a') :
    ReadsChain (Stops words) operator? operand (l₁ ++ .symbol w :: l₂) (combine a a') := by
  intro ts rest out hspells hlegible hS hmore
  obtain ⟨mid, h₁, h₂⟩ := hspells.append_inv
  refine h ts mid out h₁ (legible_of_spells h₂ hlegible) (stops_of_spells h₂ rfl hnot) ?_
  have hround : Reads (Stops words) (chainRound operator? operand a) (.symbol w :: l₂)
      (.again (combine a a')) := by
    refine Reads.word ?_
    rw [show (Lexeme.symbol w).word = w from rfl, hoperator]
    exact takes_advance.then hoperand.map
  refine iterate_again (hround mid rest h₂ hlegible hS) ?_ hmore
  rw [h₂.length_eq, List.length_cons]
  omega

/-- A chain ends at a word that is no operator. -/
theorem ReadsChain.reads {words' : List String}
    (h : ReadsChain (Stops words) operator? operand ls a) (hsub : words ⊆ words')
    (hend : ∀ w, w ∉ words' → operator? w = none) :
    Reads (Stops words') (leftAssociative operator? operand) ls a := by
  intro ts rest hspells hlegible hS
  refine h ts rest _ hspells hlegible (hS.mono hsub) (iterate_done ?_)
  have hround : Reads (Stops words') (chainRound operator? operand a) [] (.done a) := by
    refine Reads.word_end fun w hw => ?_
    rw [hend w hw]
    exact .pure
  exact hround rest rest rfl hlegible hS

end Chain

/-- The next token is the given word. -/
def At (w : String) (ts : Tokens) : Prop :=
  ∃ t, peek ts = .ok t ∧ wordOf t = w ∧ t.text = w

theorem at_of_spells {ts rest : Tokens} {w : String} (h : ts.Spells (x :: ls) rest)
    (hword : x.word = w) (htext : x.text = w) : At w ts := by
  obtain ⟨t, more, rfl, hkind, ht, -⟩ := h
  exact ⟨t, rfl, (wordOf_eq_word hkind ht).trans hword, ht.trans htext⟩

theorem At.stops {w : String} {words : List String} {ts : Tokens} (h : At w ts) (hw : w ∉ words) :
    Stops words ts := by
  obtain ⟨t, ht, hword, htext⟩ := h
  intro t' ht'
  obtain rfl : t = t' := Except.ok.inj (ht.symm.trans ht')
  exact ⟨hword.trans htext.symm, htext ▸ hw⟩

theorem Reads.word_at {w : String} {f : String → Parse β} (hf : Reads (At w) (f w) [] b) :
    Reads (At w) (Parse.word >>= f) [] b := by
  rw [word_bind]
  intro ts rest hspells hlegible hS
  obtain rfl : ts = rest := hspells
  obtain ⟨t, ht, hword, htext⟩ := hS
  rw [bind_ok (current_of_legible ht), hword]
  exact hf ts ts rfl hlegible ⟨t, ht, hword, htext⟩

/-- What is needed of an element of a list: it is read up to a comma or to the closing word, and it
    does not start with that word. -/
structure ReadsElement (closing : String) (element : Parse α) (ls : List Lexeme) (a : α) :
    Prop where
  start : ∃ x more, ls = x :: more ∧ x.word ≠ closing
  comma : Reads (At ",") element ls a
  last : Reads (At closing) element ls a

/-- An element and what divides it from the next one. -/
def elementRound (closing list : String) (element : Parse α) (elements : List α) :
    Parse (Round (List α) (List α)) := do
  let e ← element
  let w ← word
  if w = "," then
    advance
    return .again (elements ++ [e])
  else if w = closing then return .again (elements ++ [e])
  else fail (.separator closing list)

/-- The round in which another element is read. -/
def listRound (closing list : String) (element : Parse α) (elements : List α) :
    Parse (Round (List α) (List α)) := do
  if (← word) = closing then return .done elements
  elementRound closing list element elements

section Lists

variable {closing list : String} {element : Parse α}

theorem ReadsElement.listRound {r : Round (List α) (List α)} {elements : List α}
    (h : ReadsElement closing element ls a)
    (hmore : Reads S (elementRound closing list element elements) (ls ++ l₂) r) :
    Reads S (listRound closing list element elements) (ls ++ l₂) r := by
  obtain ⟨⟨x, more, rfl, hx⟩, -, -⟩ := h
  exact Reads.word (.ite_neg hx hmore)

theorem ReadsElement.round_comma (h : ReadsElement closing element ls a) (elements : List α) :
    Reads (fun _ => True) (Parse.listRound closing list element elements) (ls ++ [.symbol ","])
      (.again (elements ++ [a])) := by
  refine h.listRound (h.comma.bind (Reads.word (.ite_pos rfl ?_)) ?_)
  · exact takes_advance.then .pure
  · exact fun mid rest hspells _ => at_of_spells hspells rfl rfl

theorem ReadsElement.round_last (h : ReadsElement closing element ls a) (hcomma : closing ≠ ",")
    (elements : List α) :
    Reads (At closing) (Parse.listRound closing list element elements) (ls ++ [])
      (.again (elements ++ [a])) := by
  refine h.listRound (h.last.bind ?_ ?_)
  · exact Reads.word_at (.ite_neg hcomma (.ite_pos rfl .pure))
  · intro mid rest hspells hS
    obtain rfl : mid = rest := hspells
    exact hS

theorem listRound_closed {ts : Tokens} (h : At closing ts) (elements : List α) :
    iterate (listRound closing list element) elements ts = .ok (elements, ts) := by
  have hround : Reads (At closing) (listRound closing list element elements) []
      (.done elements) := Reads.word_at (.ite_pos rfl .pure)
  exact iterate_done (hround ts ts rfl ⟨h.choose, h.choose_spec.1⟩ h)

/-- A list is read up to its closing word. -/
theorem reads_listUntil (list : String) (parts : List (List Lexeme × α)) (hcomma : closing ≠ ",")
    (hparts : ∀ q ∈ parts, ReadsElement closing element q.1 q.2) :
    Reads (At closing) (listUntil closing list element)
      ([Lexeme.symbol ","].intercalate (parts.map (·.1))) (parts.map (·.2)) := by
  -- the elements read so far are carried along
  have hrounds : ∀ (elements : List α) (ts rest : Tokens),
      ts.Spells ([Lexeme.symbol ","].intercalate (parts.map (·.1))) rest → At closing rest →
      iterate (listRound closing list element) elements ts
        = .ok (elements ++ parts.map (·.2), rest) := by
    induction parts with
    | nil =>
        intro elements ts rest hspells hS
        obtain rfl : ts = rest := hspells
        rw [List.map_nil, List.append_nil]
        exact listRound_closed hS elements
    | cons q parts ih =>
        intro elements ts rest hspells hS
        have hq := hparts q List.mem_cons_self
        obtain ⟨x, more, hcons, -⟩ := hq.start
        have hlegible : Legible rest := ⟨hS.choose, hS.choose_spec.1⟩
        cases parts with
        | nil =>
            have hspells' : ts.Spells (q.1 ++ []) rest := by simpa using hspells
            refine iterate_again (hq.round_last hcomma elements ts rest hspells' hlegible hS) ?_ ?_
            · rw [hspells'.length_eq, hcons]
              simp
            · exact listRound_closed hS (elements ++ [q.2])
        | cons q' parts =>
            rw [List.map_cons, List.map_cons, List.intercalate_cons_cons] at hspells
            obtain ⟨mid, hfirst, hmore⟩ := hspells.append_inv
            have hmid : Legible mid := legible_of_spells hmore hlegible
            refine iterate_again (hq.round_comma elements ts mid hfirst hmid trivial) ?_ ?_
            · rw [hfirst.length_eq]
              simp
            · have hrest := ih (fun p hp => hparts p (List.mem_cons_of_mem q hp))
                (elements ++ [q.2]) mid rest hmore hS
              rw [hrest]
              simp
  intro ts rest hspells _ hS
  exact hrounds [] ts rest hspells hS

end Lists

end Reads

end Parse

/-! ## Whole texts -/

namespace Source

variable {α : Type} {s : Source} {p : Parse α} {a : α}

theorem parse_of_not_fits (h : ¬ s.Fits) : s.parse p = .error (.tooLarge s.file) :=
  if_neg h

theorem parse_eq_ok_iff : s.parse p = .ok a ↔ s.Fits ∧ ∃ rest, s.run p = .ok (a, rest) := by
  by_cases hfits : s.Fits
  · rw [parse, if_pos hfits]
    cases s.run p with
    | error f => simp
    | ok r => simp [hfits, Prod.ext_iff]
  · simp [parse_of_not_fits hfits, hfits]

theorem run_of_faulty {source : Source} {fault : ParseFault}
    (h : s.parse p = .error (.faulty source fault)) : s.run p = .error fault := by
  by_cases hfits : s.Fits
  · rw [parse, if_pos hfits] at h
    cases hrun : s.run p with
    | error f =>
        rw [hrun] at h
        cases h
        rfl
    | ok r =>
        rw [hrun] at h
        cases h
  · rw [parse_of_not_fits hfits] at h
    cases h

end Source

end AccessRules
