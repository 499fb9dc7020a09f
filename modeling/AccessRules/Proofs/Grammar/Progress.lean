import AccessRules.Proofs.Grammar.ActionCompleteness
import AccessRules.Proofs.Grammar.WholeText

set_option autoImplicit false

/-! # Reading comes to its end

Loops and readers that use themselves are bounded by the number of tokens left, and no text makes a
reader run into such a bound: `parsing_ends`. Every reader is compared with itself, where the
readers inside may differ on tokens that are not fewer than those it starts from. That the outcome
is the same says that it never uses them there. `Parse.Settles` is this comparison together with
the number of tokens that are consumed at least. As in `Agreement` there is one rule for every way
in which readers are built and one lemma for each reader.

The end of the text can be asked for again and again without being consumed. What tells a token
from the end is its kind or its word, so the rules carry along whether there is a token. -/

namespace AccessRules

/-- The tokens before the end are none for the end, and the end is one. -/
def Tokens.Ended : Tokens → Prop
  | .eof t => t.IsEnd
  | .fault _ => True
  | .cons t rest => t.kind ≠ .eof ∧ rest.Ended

theorem Cursor.Scans.ended {c : Cursor} {ts : Tokens} (h : c.Scans ts) : ts.Ended := by
  induction h with
  | fault _ => exact trivial
  | eof hnext hkind =>
      obtain ⟨gap, hstep⟩ := next_eq_ok hnext
      exact (hstep.isEnd hkind).1
  | cons _ hkind _ ih => exact ⟨hkind, ih⟩

namespace Parse

variable {α β σ ι : Type} {c : Prop} {m : Nat} {cost : α → Nat}

/-- The same outcome: `cost` tokens fewer at least, or a fault that is no reached bound. -/
inductive Settled (cost : α → Nat) (ts : Tokens) :
    Except ParseFault (α × Tokens) → Except ParseFault (α × Tokens) → Prop
  | ok {a : α} {rest : Tokens} (hrest : rest.Ended) (hcost : rest.length + cost a ≤ ts.length) :
      Settled cost ts (.ok (a, rest)) (.ok (a, rest))
  | error {f : ParseFault} (h : f.cause ≠ .endless) : Settled cost ts (.error f) (.error f)

theorem Settled.eq {ts : Tokens} {r r' : Except ParseFault (α × Tokens)}
    (h : Settled cost ts r r') : r = r' := by
  cases h with
  | ok _ _ => rfl
  | error _ => rfl

theorem Settled.relax {cost' : α → Nat} {ts ts' : Tokens} {r r' : Except ParseFault (α × Tokens)}
    (h : Settled cost ts r r') (hcost : ∀ a, ts.length + cost' a ≤ ts'.length + cost a) :
    Settled cost' ts' r r' := by
  cases h with
  | @ok a rest hrest hle =>
      have hmore := hcost a
      exact .ok hrest (by omega)
  | error h => exact .error h

/-- On fewer than `m` tokens, with a token in front if `c` holds, the readers have the same
    outcome. -/
def Settles (c : Prop) (m : Nat) (cost : α → Nat) (p q : Parse α) : Prop :=
  ∀ ts : Tokens, ts.Ended → (c → 0 < ts.length) → ts.length < m → Settled cost ts (p ts) (q ts)

/-- The number of tokens that a round has to consume: one if it asks for another round. -/
def Round.due : Round σ β → Nat
  | .again _ => 1
  | .done _ => 0

theorem Round.due_le_one (r : Round σ β) : r.due ≤ 1 := by
  cases r with
  | again state => exact Nat.le_refl 1
  | done result => exact Nat.zero_le 1

namespace Settles

variable {p q : Parse α} {f g : α → Parse β}

theorem mono {m' : Nat} (h : Settles c m cost p q) (hm : m' ≤ m) : Settles c m' cost p q :=
  fun ts hts hc hlt => h ts hts hc (Nat.lt_of_lt_of_le hlt hm)

/-- What tells of a token in front may be something else. -/
theorem known {d : Prop} (h : Settles d m cost p q) (hd : d → c) : Settles c m cost p q :=
  fun ts hts hc hlt => h ts hts (hc ∘ hd) hlt

theorem any (h : Settles False m cost p q) : Settles c m cost p q :=
  h.known False.elim

theorem relax {cost' : α → Nat} (h : Settles c m cost p q) (hcost : ∀ a, cost' a ≤ cost a) :
    Settles c m cost' p q :=
  fun ts hts hc hlt => (h ts hts hc hlt).relax fun a => Nat.add_le_add_left (hcost a) _

theorem free (h : Settles c m cost p q) : Settles c m (fun _ => 0) p q :=
  h.relax fun _ => Nat.zero_le _

theorem round {p q : Parse (Round σ β)} (h : Settles c m (fun _ => 1) p q) :
    Settles c m Round.due p q :=
  h.relax Round.due_le_one

theorem pure (a : α) : Settles c m (fun _ => 0) (pure a) (pure a) :=
  fun _ hts _ _ => .ok hts (Nat.le_refl _)

theorem done (b : β) :
    Settles c m Round.due (Pure.pure (.done b) : Parse (Round σ β)) (Pure.pure (.done b)) :=
  fun _ hts _ _ => .ok hts (Nat.le_refl _)

theorem ite {d : Prop} [Decidable d] {p' q' : Parse α} (hp : d → Settles c m cost p q)
    (hq : ¬ d → Settles c m cost p' q') :
    Settles c m cost (if d then p else p') (if d then q else q') := by
  split
  · exact hp ‹_›
  · exact hq ‹_›

/-! ## Sequences -/

/-- The second reader starts with the tokens that the first one leaves, and has the rest of the cost
    to consume. -/
theorem seq {cost' : β → Nat} (hp : Settles c m cost p q)
    (hf : ∀ a, Settles False (m - cost a) (fun b => cost' b - cost a) (f a) (g a)) :
    Settles c m cost' (p >>= f) (q >>= g) := by
  intro ts hts hc hlt
  have hfirst := hp ts hts hc hlt
  change Settled cost' ts (p ts >>= fun r => f r.1 r.2) (q ts >>= fun r => g r.1 r.2)
  generalize p ts = r at hfirst ⊢
  generalize q ts = r' at hfirst ⊢
  cases hfirst with
  | @ok a rest hrest hcost =>
      have hmore : rest.length < m - cost a := by omega
      refine (hf a rest hrest False.elim hmore).relax fun b => ?_
      omega
  | error h => exact .error h

/-- What the second reader consumes counts. -/
theorem bind {cost' : β → Nat} (hp : Settles c m cost p q)
    (hf : ∀ a, Settles False m cost' (f a) (g a)) : Settles c m cost' (p >>= f) (q >>= g) :=
  hp.free.seq hf

/-- What the first reader consumes counts. -/
theorem after (hp : Settles c m (fun _ => 1) p q)
    (hf : ∀ a, Settles False m (fun _ => 0) (f a) (g a)) :
    Settles c m (fun _ => 1) (p >>= f) (q >>= g) :=
  hp.seq fun a => (hf a).mono (Nat.sub_le m 1)

/-- What the first reader consumes makes room for the readers inside. -/
theorem next (hp : Settles c (m + 1) (fun _ => 1) p q)
    (hf : ∀ a, Settles False m (fun _ => 0) (f a) (g a)) :
    Settles c (m + 1) (fun _ => 1) (p >>= f) (q >>= g) :=
  hp.seq hf

theorem map {k : Nat} (hp : Settles c m (fun _ => k) p q) (f : α → β) :
    Settles c m (fun _ => k) (p >>= fun a => Pure.pure (f a)) (q >>= fun a => Pure.pure (f a)) := by
  refine hp.seq fun a => ?_
  rw [Nat.sub_self]
  exact pure (f a)

/-! ## The current token -/

theorem failAt (t : Token) {cause : ParseCause} (h : cause ≠ .endless) :
    Settles c m cost (Parse.failAt t cause) (Parse.failAt t cause) :=
  fun _ _ _ _ => .error h

/-- A token that is not the end is a token in front. -/
theorem token {f g : Token → Parse α} (hf : ∀ t, Settles (c ∨ ¬ t.IsEnd) m cost (f t) (g t)) :
    Settles c m cost (Parse.current >>= f) (Parse.current >>= g) := by
  intro ts hts hc hlt
  cases ts with
  | fault e => exact .error (by simp [LexFault.toParseFault])
  | eof t => exact hf t _ hts (fun h => hc (h.resolve_right (not_not_intro hts))) hlt
  | cons t rest => exact hf t _ hts (fun _ => Nat.succ_pos _) hlt

theorem current {f g : Token → Parse α}
    (hf : ∀ t, Settles (c ∨ t.kind ≠ .eof) m cost (f t) (g t)) :
    Settles c m cost (Parse.current >>= f) (Parse.current >>= g) :=
  token fun t => (hf t).known (Or.imp_right (mt And.left))

theorem kind {f g : TokenKind → Parse α} (hf : ∀ k, Settles (c ∨ k ≠ .eof) m cost (f k) (g k)) :
    Settles c m cost (Parse.kind >>= f) (Parse.kind >>= g) := by
  rw [kind_bind, kind_bind]
  exact current fun t => hf t.kind

theorem word {f g : String → Parse α} (hf : ∀ w, Settles (c ∨ w ≠ "") m cost (f w) (g w)) :
    Settles c m cost (Parse.word >>= f) (Parse.word >>= g) := by
  rw [word_bind, word_bind]
  refine token fun t => (hf (wordOf t)).known (Or.imp_right (mt fun hend => ?_))
  rw [wordOf, hend.1]
  exact hend.2

theorem peek_ne_endless {ts : Tokens} {e : ParseFault} (h : peek ts = .error e) :
    e.cause ≠ .endless := by
  cases ts with
  | fault f =>
      cases h
      simp [LexFault.toParseFault]
  | eof t => cases h
  | cons t rest => cases h

theorem following {f g : Token → Parse α} (hf : ∀ t, Settles c m cost (f t) (g t)) :
    Settles c m cost (Parse.following >>= f) (Parse.following >>= g) := by
  intro ts hts hc hlt
  change Settled cost ts ((peek (tail ts) >>= fun t => Pure.pure (t, ts)) >>= fun r => f r.1 r.2)
    ((peek (tail ts) >>= fun t => Pure.pure (t, ts)) >>= fun r => g r.1 r.2)
  cases h : peek (tail ts) with
  | error e => exact .error (peek_ne_endless h)
  | ok t => exact hf t ts hts hc hlt

theorem fail {cause : ParseCause} (h : cause ≠ .endless) :
    Settles c m cost (Parse.fail cause) (Parse.fail cause) :=
  current fun t => .failAt t h

theorem fail_bind {cause : ParseCause} (h : cause ≠ .endless) {f g : β → Parse α} :
    Settles c m cost (Parse.fail cause >>= f) (Parse.fail cause >>= g) := by
  have hassoc : ∀ f : β → Parse α, (Parse.fail cause >>= f) = Parse.fail cause := by
    intro f
    funext ts
    cases ts <;> rfl
  rw [hassoc, hassoc]
  exact fail h

theorem ended_tail {ts : Tokens} (hts : ts.Ended) : (tail ts).Ended := by
  cases ts with
  | cons t rest => exact hts.2
  | eof t => exact hts
  | fault f => exact trivial

theorem tail_length_le (ts : Tokens) : (tail ts).length ≤ ts.length := by
  cases ts with
  | cons t rest => exact Nat.le_succ _
  | eof t => exact Nat.le_refl _
  | fault f => exact Nat.le_refl _

theorem tail_length_lt {ts : Tokens} (h : 0 < ts.length) : (tail ts).length < ts.length := by
  cases ts with
  | cons t rest => exact Nat.lt_succ_self _
  | eof t => exact absurd h (Nat.lt_irrefl 0)
  | fault f => exact absurd h (Nat.lt_irrefl 0)

theorem advanceBy {k : Nat}
    (hk : ∀ ts : Tokens, (c → 0 < ts.length) → (tail ts).length + k ≤ ts.length) :
    Settles c m (fun _ => k) Parse.advance Parse.advance := by
  intro ts hts hc hlt
  change Settled _ ts (peek (tail ts) >>= fun _ => Pure.pure ((), tail ts))
    (peek (tail ts) >>= fun _ => Pure.pure ((), tail ts))
  cases h : peek (tail ts) with
  | error e => exact .error (peek_ne_endless h)
  | ok t => exact .ok (ended_tail hts) (hk ts hc)

theorem advance : Settles c m (fun _ => 0) Parse.advance Parse.advance :=
  advanceBy fun ts _ => tail_length_le ts

/-- A token in front is consumed. -/
theorem consume (hc : c) : Settles c m (fun _ => 1) Parse.advance Parse.advance :=
  advanceBy fun _ htoken => tail_length_lt (htoken hc)

theorem expect {text : String} (htext : text ≠ "") (context : String) :
    Settles c m (fun _ => 1) (Parse.expect text context) (Parse.expect text context) :=
  word fun _ => .ite (fun hw => consume (.inr (hw ▸ htext))) fun _ => .fail (by simp)

theorem expectEnd : Settles c m (fun _ => 0) Parse.expectEnd Parse.expectEnd :=
  kind fun _ => .ite (fun _ => pure ()) fun _ => .fail (by simp)

/-! ## Repetition -/

/-- On fewer tokens than both bounds, the bounds make no difference. -/
theorem rounds {round round' : σ → Parse (Round σ β)}
    (hround : ∀ s, Settles False m Round.due (round s) (round' s)) {n n' : Nat} (hn : m ≤ n)
    (hn' : m ≤ n') (s : σ) :
    Settles False m (fun _ => 0) (Parse.rounds round n s) (Parse.rounds round' n' s) := by
  induction m generalizing n n' s with
  | zero => exact fun ts _ _ hlt => absurd hlt (Nat.not_lt_zero _)
  | succ m ih =>
      obtain ⟨n, rfl⟩ := Nat.exists_eq_add_one_of_ne_zero (Nat.ne_zero_of_lt hn)
      obtain ⟨n', rfl⟩ := Nat.exists_eq_add_one_of_ne_zero (Nat.ne_zero_of_lt hn')
      refine (hround s).seq fun r => ?_
      -- another round starts with fewer tokens, and so with fewer than the bounds that are left
      cases r with
      | again s' =>
          have hround' := fun s => (hround s).mono (Nat.le_succ m)
          exact ih hround' (Nat.le_of_succ_le_succ hn) (Nat.le_of_succ_le_succ hn') s'
      | done b => exact pure b

theorem iterate {round round' : σ → Parse (Round σ β)}
    (hround : ∀ s, Settles False m Round.due (round s) (round' s)) (s : σ) :
    Settles c m (fun _ => 0) (Parse.iterate round s) (Parse.iterate round' s) := by
  intro ts hts hc hlt
  have hround' := fun s => (hround s).mono (Nat.succ_le_of_lt hlt)
  exact rounds hround' (Nat.le_refl _) (Nat.le_refl _) s ts hts False.elim (Nat.lt_succ_self _)

/-- On fewer tokens than both depths, the depths make no difference. -/
theorem nestedTo {reader : (ι → Parse α) → ι → Parse α}
    (hreader : ∀ m inner inner', (∀ i, Settles False m cost (inner i) (inner' i)) →
      ∀ i, Settles False (m + 1) cost (reader inner i) (reader inner' i))
    {n n' : Nat} (hn : m ≤ n) (hn' : m ≤ n') (i : ι) :
    Settles False m cost (Parse.nestedTo reader n i) (Parse.nestedTo reader n' i) := by
  induction m generalizing n n' i with
  | zero => exact fun ts _ _ hlt => absurd hlt (Nat.not_lt_zero _)
  | succ m ih =>
      obtain ⟨n, rfl⟩ := Nat.exists_eq_add_one_of_ne_zero (Nat.ne_zero_of_lt hn)
      obtain ⟨n', rfl⟩ := Nat.exists_eq_add_one_of_ne_zero (Nat.ne_zero_of_lt hn')
      -- inside, one token and one level are gone on both sides
      refine hreader m _ _ (fun i => ?_) i
      exact ih (Nat.le_of_succ_le_succ hn) (Nat.le_of_succ_le_succ hn') i

theorem nested {reader : (ι → Parse α) → ι → Parse α}
    (hreader : ∀ m inner inner', (∀ i, Settles False m cost (inner i) (inner' i)) →
      ∀ i, Settles False (m + 1) cost (reader inner i) (reader inner' i)) (i : ι) :
    Settles c m cost (Parse.nested reader i) (Parse.nested reader i) := by
  intro ts hts _ _
  exact nestedTo hreader (Nat.le_refl _) (Nat.le_refl _) i ts hts False.elim (Nat.lt_succ_self _)

theorem listRound {closing list : String} {element element' : Parse α}
    (helement : Settles False m (fun _ => 1) element element') (elements : List α) :
    Settles c m Round.due (Parse.listRound closing list element elements)
      (Parse.listRound closing list element' elements) := by
  refine word fun w => .ite (fun _ => done _) fun _ => ?_
  refine (helement.any.after fun e => word fun w => .ite (fun _ => advance.map _) fun _ => ?_).round
  exact .ite (fun _ => pure _) fun _ => .fail (by simp)

theorem listUntil {closing list : String} {element element' : Parse α}
    (helement : Settles False m (fun _ => 1) element element') :
    Settles c m (fun _ => 0) (Parse.listUntil closing list element)
      (Parse.listUntil closing list element') :=
  iterate (listRound helement) []

/-- Operators are words, so there is none at the end. -/
theorem chainRound {operator? : String → Option (α → α → α)} (hend : operator? "" = none)
    {operand operand' : Parse α} (hoperand : Settles False m (fun _ => 1) operand operand')
    (lhs : α) :
    Settles c m Round.due (Parse.chainRound operator? operand lhs)
      (Parse.chainRound operator? operand' lhs) := by
  refine word fun w => ?_
  cases hw : operator? w with
  | none => exact done lhs
  | some combine =>
      have hne : w ≠ "" := by
        rintro rfl
        rw [hend] at hw
        cases hw
      exact ((consume (.inr hne)).after fun _ => hoperand.free.map _).round

theorem leftAssociative {operator? : String → Option (α → α → α)} (hend : operator? "" = none)
    {operand operand' : Parse α} (hoperand : Settles False m (fun _ => 1) operand operand') :
    Settles c m (fun _ => 1) (Parse.leftAssociative operator? operand)
      (Parse.leftAssociative operator? operand') :=
  hoperand.any.after fun first => iterate (chainRound hend hoperand) first

end Settles

/-! ## Words with a meaning -/

theorem settles_ident : Settles c m (fun _ => 1) ident ident := by
  refine .current fun t => .ite (fun hkind => ?_) fun _ => .fail (by simp)
  refine .ite (fun _ => .fail_bind (by simp)) fun _ => ?_
  exact (Settles.consume (.inr (by simp [hkind]))).map _

theorem settles_int : Settles c m (fun _ => 1) int int := by
  refine .current fun t => ?_
  by_cases hkind : t.kind = .number
  · rw [if_pos hkind]
    cases readWord? t.text.toList with
    | some n => exact (Settles.consume (.inr (by simp [hkind]))).map _
    | none => exact .fail (by simp)
  · rw [if_neg hkind]
    exact .fail (by simp)

theorem settles_string (hc : c) : Settles c m (fun _ => 1) string string := by
  refine .current fun t => ?_
  cases JsonString.decode t.text.toList with
  | ok s => exact (Settles.consume (.inl hc)).map _
  | error fault => exact .failAt t (by simp)

theorem settles_place (hc : c) : Settles c m (fun _ => 1) place place :=
  .current fun _ => (Settles.consume (.inl hc)).map _

end Parse

namespace Grammar

open Parse

variable {c : Prop} {m : Nat}

/-! ## Parts of expressions -/

theorem settles_reference : Settles c m (fun _ => 1) reference reference := by
  refine (Settles.expect (by decide) _).after fun _ => settles_ident.bind fun name => ?_
  refine .word fun w => .ite (fun _ => Settles.advance.bind fun _ => ?_) fun _ => .pure _
  refine .kind fun k => .ite (fun hk => ?_) fun _ => ?_
  · exact (settles_place (.inr (by simp [hk]))).free.map _
  · exact (Settles.expect (by decide) _).bind fun _ => settles_ident.free.map _

theorem settles_number (hc : c) : Settles c m (fun _ => 1) number number := by
  refine .current fun t => ?_
  have hconsume := Settles.consume (m := m) (Or.inl hc : c ∨ t.kind ≠ .eof)
  cases readWord? t.text.toList with
  | some n => exact hconsume.map _
  | none =>
      cases Decimal.readFloat? t.text with
      | some x => exact hconsume.map _
      | none => exact .failAt t (by simp)

theorem settles_caseLiteral : Settles c m (fun _ => 1) caseLiteral caseLiteral := by
  refine .current fun t => ?_
  cases hkind : t.kind with
  | number => exact settles_number (.inr (by simp))
  | string => exact (settles_string (.inr (by simp))).map _
  | place => exact (settles_place (.inr (by simp))).map _
  | ident =>
      have hconsume : Settles (c ∨ TokenKind.ident ≠ .eof) m (fun _ => 1) advance advance :=
        .consume (.inr (by simp))
      exact .ite (fun _ => hconsume.map _) fun _ =>
        .ite (fun _ => hconsume.map _) fun _ => .fail (by simp)
  | symbol => exact .fail (by simp)
  | eof => exact .fail (by simp)

theorem settles_threshold : Settles c m (fun _ => 1) threshold threshold := by
  refine .current fun t => ?_
  cases t.kind with
  | number => exact settles_int.map _
  | ident =>
      exact settles_ident.after fun name => .ite (fun _ => .fail_bind (by simp)) fun _ => .pure _
  | symbol => exact .ite (fun _ => settles_reference.map _) fun _ => .fail (by simp)
  | string => exact .fail (by simp)
  | place => exact .fail (by simp)
  | eof => exact .fail (by simp)

theorem settles_listedItem : Settles c m (fun _ => 1) listedItem listedItem :=
  settles_ident.after fun _ => .ite (fun _ => .fail_bind (by simp)) fun _ => .pure _

theorem settles_itemList : Settles c m (fun _ => 1) itemList itemList :=
  (Settles.expect (by decide) _).after fun _ =>
    (Settles.listUntil settles_listedItem).bind fun _ => Settles.advance.map _

theorem settles_member : Settles c m (fun _ => 1) member member := by
  refine .kind fun k => ?_
  cases k with
  | string => exact (settles_string (.inr (by simp))).map _
  | place => exact (settles_place (.inr (by simp))).map _
  | ident => exact settles_ident.map _
  | number => exact .fail (by simp)
  | symbol => exact .fail (by simp)
  | eof => exact .fail (by simp)

theorem settles_set : Settles c m (fun _ => 1) set set := by
  refine (Settles.expect (by decide) _).after fun _ =>
    (Settles.listUntil settles_member).bind fun members => Settles.advance.bind fun _ => ?_
  cases Member.gather? members with
  | some set => exact .pure set
  | none => exact .fail (by simp)

theorem settles_named : Settles c m (fun _ => 1) named named := by
  refine settles_ident.after fun name => .ite (fun _ => .pure _) fun _ =>
    .ite (fun _ => ?_) fun _ => .pure _
  refine .word fun w => .ite (fun _ => Settles.advance.bind fun _ => ?_) fun _ => .pure _
  exact settles_threshold.bind fun t => (Settles.expect (by decide) _).free.map _

/-! ## Expressions -/

section Inner

variable {inner inner' : Inner}
  (hinner : ∀ position, Settles False m (fun _ => 1) (inner position) (inner' position))

include hinner

theorem settles_args : Settles c m (fun _ => 0) (args inner) (args inner') := by
  refine .word fun w => .ite (fun _ => Settles.advance.bind fun _ => ?_) fun _ => .pure _
  exact (Settles.listUntil (hinner .value)).bind fun es => Settles.advance.map _

theorem settles_arm {α : Type} {branch branch' : Parse α}
    (hbranch : Settles False m (fun _ => 0) branch branch') :
    Settles c m (fun _ => 1) (arm inner branch) (arm inner' branch') :=
  (Settles.expect (by decide) _).after fun _ => (hinner .truth).bind fun _ =>
    (Settles.expect (by decide) _).bind fun _ => (Settles.expect (by decide) _).bind fun _ =>
      hbranch.bind fun _ => (Settles.expect (by decide) _).free.map _

theorem settles_armRound {α : Type} {branch branch' : Parse α}
    (hbranch : Settles False m (fun _ => 0) branch branch') (arms : List (Expr × α)) :
    Settles c m Round.due (armRound inner branch arms) (armRound inner' branch' arms) := by
  refine ((settles_arm hinner hbranch).after fun a => ?_).round
  refine .word fun w => .ite (fun _ => .pure _) fun _ => Settles.advance.bind fun _ => ?_
  refine .word fun w => .ite (fun _ => Settles.advance.map _) fun _ => ?_
  exact (Settles.expect (by decide) _).bind fun _ => hbranch.bind fun _ =>
    (Settles.expect (by decide) _).free.map _

theorem settles_conditional {α : Type} {branch branch' : Parse α}
    (hbranch : Settles False m (fun _ => 0) branch branch') :
    Settles c m (fun _ => 0) (conditional inner branch) (conditional inner' branch') :=
  Settles.iterate (settles_armRound hinner hbranch) []

theorem settles_choiceCase {κ : Type} {key : Parse κ}
    (hkey : ∀ {c}, Settles c m (fun _ => 1) key key) :
    Settles c m (fun _ => 1) (choiceCase inner key) (choiceCase inner' key) := by
  refine .word fun w => .ite (fun hw => ?_) fun _ => ?_
  · exact (Settles.consume (.inr (by simp [hw]))).after fun _ =>
      (Settles.expect (by decide) _).bind fun _ => (hinner .value).free.map _
  · exact hkey.after fun k => (Settles.expect (by decide) _).bind fun _ =>
      (hinner .value).free.map _

theorem settles_choiceCases {κ : Type} {key : Parse κ}
    (hkey : ∀ {c}, Settles c m (fun _ => 1) key key) :
    Settles c m (fun _ => 0) (choiceCases inner key) (choiceCases inner' key) := by
  refine (Settles.expect (by decide) _).bind fun _ =>
    (Settles.listUntil (settles_choiceCase hinner hkey)).bind fun cases => ?_
  cases (cases.filter (·.1.isNone)).getLast? with
  | none => exact .fail (by simp)
  | some last => exact Settles.advance.map _

theorem settles_choice : Settles c m (fun _ => 0) (choice inner) (choice inner') := by
  refine settles_ident.bind fun subject => .ite (fun _ => ?_) fun _ => ?_
  · exact (settles_choiceCases hinner settles_int).map _
  · exact (settles_choiceCases hinner settles_caseLiteral).map _

/-- The word comes before everything that is read inside. -/
theorem settles_wordAtom : Settles c (m + 1) (fun _ => 1) (wordAtom inner) (wordAtom inner') := by
  have hconsume : ∀ {w : String}, w ≠ "" →
      Settles (c ∨ w ≠ "") (m + 1) (fun _ => 1) advance advance := fun hw => .consume (.inr hw)
  refine .following fun next => .word fun w => ?_
  refine .ite (fun hw => (hconsume (by simp [hw])).map _) fun _ => ?_
  refine .ite (fun hw => (hconsume (by simp [hw])).map _) fun _ => ?_
  refine .ite (fun hw => (hconsume (by simp [hw])).next fun _ => ?_) fun _ => ?_
  · exact (settles_conditional hinner (hinner .value).free).map _
  refine .ite (fun hw => (hconsume (by simp [hw])).next fun _ => settles_choice hinner) fun _ => ?_
  refine .ite (fun hw => (hconsume (by simp [hw])).next fun _ => .kind fun k => ?_) fun _ => ?_
  · refine .ite (fun hk => ?_) fun _ => settles_reference.free.map _
    exact (settles_place (.inr (by simp [hk]))).free.map _
  refine .ite (fun hw => ?_) fun _ => .ite (fun hw => ?_) fun _ => settles_named
  · have hne : w ≠ "" := by
      rintro rfl
      simp at hw
    exact (hconsume hne).next fun _ => (Settles.expect (by decide) _).bind fun _ =>
      settles_ident.bind fun item => (Settles.expect (by decide) _).bind fun _ =>
        (Settles.expect (by decide) _).bind fun _ => settles_threshold.free.map _
  · have hne : w ≠ "" := by
      rintro rfl
      simp at hw
    exact (hconsume hne).next fun _ => (Settles.expect (by decide) _).bind fun _ =>
      settles_reference.bind fun r => (Settles.expect (by decide) _).free.map _

theorem settles_symbolAtom :
    Settles c (m + 1) (fun _ => 1) (symbolAtom inner) (symbolAtom inner') := by
  refine .word fun w => .ite (fun hw => ?_) fun _ => ?_
  · exact (Settles.consume (.inr (by simp [hw]))).next fun _ => (hinner .value).bind fun e =>
      (Settles.expect (by decide) _).free.map _
  refine .ite (fun _ => settles_reference.map _) fun _ => .ite (fun hw => ?_) fun _ => ?_
  · exact (Settles.consume (.inr (by simp [hw]))).next fun _ => settles_ident.bind fun func =>
      (settles_args hinner).map _
  · exact .ite (fun _ => settles_itemList.map _) fun _ => .fail (by simp)

theorem settles_atom : Settles c (m + 1) (fun _ => 1) (atom inner) (atom inner') := by
  refine .kind fun k => ?_
  cases k with
  | number => exact (settles_number (.inr (by simp))).map _
  | string => exact (settles_string (.inr (by simp))).map _
  | place => exact (settles_place (.inr (by simp))).map _
  | ident => exact settles_wordAtom hinner
  | symbol => exact settles_symbolAtom hinner
  | eof => exact .fail (by simp)

theorem settles_term : Settles c (m + 1) (fun _ => 1) (term inner) (term inner') :=
  .leftAssociative rfl (settles_atom hinner)

theorem settles_arith : Settles c (m + 1) (fun _ => 1) (arith inner) (arith inner') :=
  .leftAssociative rfl (settles_term hinner)

theorem settles_comparison :
    Settles c (m + 1) (fun _ => 1) (comparison inner) (comparison inner') := by
  refine (settles_arith hinner).after fun lhs => .word fun w => ?_
  cases comparison? w with
  | some op => exact Settles.advance.bind fun _ => (settles_arith hinner).free.map _
  | none =>
      refine .ite (fun _ => Settles.advance.bind fun _ => settles_int.free.map _) fun _ =>
        .ite (fun _ => ?_) fun _ => .pure _
      cases lhs with
      | ref r => exact Settles.advance.bind fun _ => settles_set.free.map _
      | _ => exact .fail (by simp)

omit hinner in
theorem settles_negationRound (count : Nat) :
    Settles c m Round.due (negationRound count) (negationRound count) := by
  refine .word fun w => .ite (fun hw => ?_) fun _ => .done count
  have hne : w ≠ "" := by
    rintro rfl
    simp at hw
  exact ((Settles.consume (.inr hne)).map _).round

theorem settles_negated : Settles c (m + 1) (fun _ => 1) (negated inner) (negated inner') :=
  (Settles.iterate settles_negationRound 0).bind fun _ => (settles_comparison hinner).map _

theorem settles_conjunction :
    Settles c (m + 1) (fun _ => 1) (conjunction inner) (conjunction inner') :=
  .leftAssociative rfl (settles_negated hinner)

theorem settles_disjunction :
    Settles c (m + 1) (fun _ => 1) (disjunction inner) (disjunction inner') :=
  .leftAssociative rfl (settles_conjunction hinner)

theorem settles_exprWith (position : Position) :
    Settles c (m + 1) (fun _ => 1) (exprWith inner position) (exprWith inner' position) := by
  -- the condition of a ternary has been consumed when its branches are read
  refine (settles_disjunction hinner).next fun e => .word fun w => .ite (fun _ => ?_) fun _ => ?_
  · exact Settles.advance.bind fun _ => (hinner position).bind fun yes =>
      (Settles.expect (by decide) _).bind fun _ => (hinner position).free.map _
  · cases position with
    | truth => exact .pure _
    | value => exact .pure _

end Inner

theorem settles_expr (position : Position) :
    Settles c m (fun _ => 1) (expr position) (expr position) :=
  .nested (fun _ _ _ => settles_exprWith) position

theorem settles_requirement : Settles c m (fun _ => 1) requirement requirement :=
  (settles_expr .truth).after fun _ => Settles.expectEnd.map _

/-! ## Actions -/

theorem settles_assignment : Settles c m (fun _ => 1) assignment assignment := by
  refine settles_reference.after fun target => .word fun w => ?_
  cases assignment? w with
  | none => exact .fail (by simp)
  | some op =>
      refine Settles.advance.bind fun _ => (settles_expr .value).bind fun value => ?_
      cases op with
      | none => exact .pure _
      | some op => exact .pure _

theorem settles_swapped : Settles c m (fun _ => 1) swapped swapped :=
  (Settles.expect (by decide) _).after fun _ => settles_reference.bind fun _ =>
    (Settles.expect (by decide) _).bind fun _ => settles_reference.bind fun _ =>
      (Settles.expect (by decide) _).free.map _

section Block

variable {block block' : Parse Action} (hblock : Settles False m (fun _ => 0) block block')

include hblock

theorem settles_action : Settles c (m + 1) (fun _ => 1) (action block) (action block') := by
  refine .word fun w => .ite (fun _ => settles_assignment) fun _ => ?_
  refine .ite (fun hw => ?_) fun _ => .ite (fun hw => ?_) fun _ => .ite (fun hw => ?_) fun _ => ?_
  · exact (Settles.consume (.inr (by simp [hw]))).next fun _ => settles_swapped.free
  · exact (Settles.consume (.inr (by simp [hw]))).next fun _ =>
      (settles_conditional settles_expr hblock).map _
  · exact (Settles.consume (.inr (by simp [hw]))).next fun _ => settles_ident.bind fun func =>
      (settles_args settles_expr).map _
  · exact .fail (by simp)

theorem settles_stepRound (steps : List Action) :
    Settles c (m + 1) Round.due (stepRound block steps) (stepRound block' steps) := by
  refine .kind fun k => .word fun w => .ite (fun _ => .done steps) fun _ => ?_
  refine ((settles_action hblock).after fun a => .word fun w => ?_).round
  exact .ite (fun _ => Settles.advance.map _) fun _ => .pure _

theorem settles_blockWith :
    Settles c (m + 1) (fun _ => 0) (blockWith (fun _ => block) ())
      (blockWith (fun _ => block') ()) := by
  -- a block may have consumed nothing, and then there is no action in it
  refine Settles.bind (.iterate (settles_stepRound hblock) []) fun steps => ?_
  cases steps with
  | nil => exact .fail (by simp)
  | cons a more =>
      cases more with
      | nil => exact .pure a
      | cons b more => exact .pure _

end Block

theorem settles_block : Settles c m (fun _ => 0) block block :=
  .nested (fun _ _ _ hinner _ => settles_blockWith (hinner ())) ()

theorem settles_actionBody : Settles c m (fun _ => 0) actionBody actionBody :=
  settles_block.bind fun _ => Settles.expectEnd.map _

/-! ## Signatures -/

theorem settles_param : Settles c m (fun _ => 1) param param := by
  refine (Settles.expect (by decide) _).after fun _ => settles_ident.bind fun name => ?_
  refine .word fun w => .ite (fun _ => Settles.advance.bind fun _ => ?_) fun _ => .pure _
  refine .current fun t => settles_ident.bind fun typeName => ?_
  cases ArgType.ofName? typeName with
  | some type => exact .pure _
  | none => exact .failAt t (by simp)

theorem settles_signature : Settles c m (fun _ => 1) signature signature := by
  refine (Settles.expect (by decide) _).after fun _ => settles_ident.bind fun name => ?_
  refine .word fun w => .ite (fun _ => ?_) fun _ => ?_
  · exact Settles.advance.bind fun _ => (Settles.listUntil settles_param).bind fun params =>
      Settles.advance.bind fun _ => (Settles.pure params).bind fun _ => Settles.expectEnd.map _
  · exact (Settles.pure []).bind fun _ => Settles.expectEnd.map _

end Grammar

/-! ## Bounds that are not reached -/

namespace Parse

variable {α β σ ι : Type} {cost : α → Nat}

theorem Settles.ne_endless {p : Parse α} (h : ∀ m, Settles False m cost p p) {ts : Tokens}
    (hts : ts.Ended) {f : ParseFault} (hf : p ts = .error f) : f.cause ≠ .endless := by
  have hsettled := h _ ts hts False.elim (Nat.lt_succ_self _)
  rw [hf] at hsettled
  cases hsettled with
  | error hcause => exact hcause

/-- A loop that ends by itself: a round that asks for another one has consumed a token, so it makes
    no difference which bound above the number of tokens there is, and none is reached. -/
structure Consuming (round : σ → Parse (Round σ β)) : Prop where
  consumes : ∀ s s' ts rest, ts.Ended → round s ts = .ok (.again s', rest) →
    rest.length < ts.length
  unbounded : ∀ n s ts, ts.Ended → ts.length < n → rounds round n s ts = iterate round s ts
  ends : ∀ s ts f, ts.Ended → iterate round s ts = .error f → f.cause ≠ .endless

theorem consuming_of_settles {round : σ → Parse (Round σ β)}
    (h : ∀ m s, Settles False m Round.due (round s) (round s)) : Consuming round where
  consumes s s' ts rest hts hround := by
    have hsettled := h _ s ts hts False.elim (Nat.lt_succ_self _)
    rw [hround] at hsettled
    cases hsettled with
    | ok _ hdue => exact hdue
  unbounded n s ts hts hn := by
    have hsettled := Settles.rounds (h _) (Nat.succ_le_of_lt hn) (Nat.le_refl _) s ts hts False.elim
    exact (hsettled (Nat.lt_succ_self _)).eq
  ends s ts f hts := Settles.ne_endless (fun m => .iterate (h m) s) hts

/-- The reader, for use on fewer than `n` tokens. -/
def onFewer (n : Nat) (p : Parse α) : Parse α := fun ts =>
  if ts.length < n then p ts else fail .endless ts

/-- A recursion that ends by itself: the reader uses itself on fewer tokens only, so it makes no
    difference which depth above the number of tokens it has, and none is reached. -/
structure Grounded (reader : (ι → Parse α) → ι → Parse α) : Prop where
  reenters : ∀ i ts, ts.Ended →
    nested reader i ts = reader (fun j => onFewer ts.length (nested reader j)) i ts
  unbounded : ∀ n i ts, ts.Ended → ts.length < n → nestedTo reader n i ts = nested reader i ts
  ends : ∀ i ts f, ts.Ended → nested reader i ts = .error f → f.cause ≠ .endless

theorem grounded_of_settles {reader : (ι → Parse α) → ι → Parse α}
    (h : ∀ m inner inner', (∀ i, Settles False m cost (inner i) (inner' i)) →
      ∀ i, Settles False (m + 1) cost (reader inner i) (reader inner' i)) : Grounded reader where
  reenters i ts hts := by
    refine (h ts.length _ _ (fun j more hmore _ hlt => ?_) i ts hts False.elim
      (Nat.lt_succ_self _)).eq
    -- on fewer tokens nothing is refused, and both depths are above their number
    rw [onFewer, if_pos hlt, nested]
    exact Settles.nestedTo h (Nat.succ_le_of_lt hlt) (Nat.le_refl _) j more hmore False.elim
      (Nat.lt_succ_self _)
  unbounded n i ts hts hn := by
    have hsettled := Settles.nestedTo h (Nat.succ_le_of_lt hn) (Nat.le_refl _) i ts hts False.elim
    exact (hsettled (Nat.lt_succ_self _)).eq
  ends i ts f hts := Settles.ne_endless (fun m => .nested h i) hts

end Parse

theorem Source.parse_ne_endless {α : Type} {cost : α → Nat} {p : Parse α}
    (h : ∀ m, Parse.Settles False m cost p p) {s source : Source} {fault : ParseFault}
    (hfault : s.parse p = .error (.faulty source fault)) : fault.cause ≠ .endless :=
  Parse.Settles.ne_endless (fun m => .current fun _ => (h m).any) s.scans_tokens.ended
    (run_of_faulty hfault)

namespace Grammar

open Parse

/-- The rounds of the loops: in lists, in chains of operators, before a comparison, in conditionals
    and in blocks of actions. -/
structure LoopRounds : Prop where
  list : ∀ {α : Type} (closing list : String) (element : Parse α),
    listUntil closing list element = iterate (listRound closing list element) []
  chain : ∀ {α : Type} (operator? : String → Option (α → α → α)) (operand : Parse α),
    leftAssociative operator? operand = operand >>= iterate (chainRound operator? operand)
  negations : ∀ inner : Inner, negated inner = do
    let count ← iterate negationRound 0
    return Nat.repeat Expr.negate count (← comparison inner)
  arms : ∀ {α : Type} (inner : Inner) (branch : Parse α),
    conditional inner branch = iterate (armRound inner branch) []
  actions : ∀ block : Parse Action, actionList block = iterate (stepRound block) []

theorem loopRounds : LoopRounds where
  list _ _ _ := rfl
  chain _ _ := rfl
  negations _ := rfl
  arms _ _ := rfl
  actions _ := rfl

/-- Every loop of the grammar ends by itself. -/
structure LoopsConsume : Prop where
  args : Consuming (listRound ")" "argument list" (expr .value))
  items : Consuming (listRound "]" "list" listedItem)
  members : Consuming (listRound "]" "set" member)
  itemCases : Consuming (listRound "\x7d" "PER cases" (choiceCase expr int))
  settingCases : Consuming (listRound "\x7d" "PER cases" (choiceCase expr caseLiteral))
  params : Consuming (listRound ")" "parameter list" param)
  products : Consuming (chainRound product? (atom expr))
  sums : Consuming (chainRound sum? (term expr))
  conjunctions : Consuming (chainRound conjunction? (negated expr))
  disjunctions : Consuming (chainRound disjunction? (conjunction expr))
  negations : Consuming negationRound
  arms : Consuming (armRound expr (expr .value))
  actionArms : Consuming (armRound expr block)
  actions : Consuming (stepRound block)

theorem loopsConsume : LoopsConsume where
  args := consuming_of_settles fun _ => .listRound (settles_expr .value)
  items := consuming_of_settles fun _ => .listRound settles_listedItem
  members := consuming_of_settles fun _ => .listRound settles_member
  itemCases := consuming_of_settles fun _ =>
    .listRound (settles_choiceCase settles_expr settles_int)
  settingCases := consuming_of_settles fun _ =>
    .listRound (settles_choiceCase settles_expr settles_caseLiteral)
  params := consuming_of_settles fun _ => .listRound settles_param
  products := consuming_of_settles fun m =>
    .chainRound rfl ((settles_atom settles_expr).mono (Nat.le_succ m))
  sums := consuming_of_settles fun m =>
    .chainRound rfl ((settles_term settles_expr).mono (Nat.le_succ m))
  conjunctions := consuming_of_settles fun m =>
    .chainRound rfl ((settles_negated settles_expr).mono (Nat.le_succ m))
  disjunctions := consuming_of_settles fun m =>
    .chainRound rfl ((settles_conjunction settles_expr).mono (Nat.le_succ m))
  negations := consuming_of_settles fun _ => settles_negationRound
  arms := consuming_of_settles fun _ => settles_armRound settles_expr (settles_expr .value).free
  actionArms := consuming_of_settles fun _ => settles_armRound settles_expr settles_block
  actions := consuming_of_settles fun m steps =>
    (settles_stepRound settles_block steps).mono (Nat.le_succ m)

theorem grounded_exprWith : Grounded exprWith :=
  grounded_of_settles fun _ _ _ => settles_exprWith

theorem grounded_blockWith : Grounded blockWith :=
  grounded_of_settles fun _ _ _ hblock _ => settles_blockWith (hblock ())

end Grammar

/-- The loops and the recursions of the grammar end by themselves on tokens that end as those of
    every text do, so reading a text never stops at a bound. -/
theorem parsing_ends (file text : String) :
    (Source.mk file text).tokens.Ended ∧
    Parse.Grounded Grammar.exprWith ∧ Parse.Grounded Grammar.blockWith ∧
    Grammar.LoopRounds ∧ Grammar.LoopsConsume ∧
    (∀ source fault, parseRequirement file text = .error (.faulty source fault) →
      fault.cause ≠ .endless) ∧
    (∀ source fault, parseActions file text = .error (.faulty source fault) →
      fault.cause ≠ .endless) ∧
    (∀ source fault, parseSignature text = .error (.faulty source fault) →
      fault.cause ≠ .endless) := by
  refine ⟨(Source.scans_tokens _).ended, Grammar.grounded_exprWith, Grammar.grounded_blockWith,
    Grammar.loopRounds, Grammar.loopsConsume, ?_, ?_, ?_⟩
  · exact fun _ _ => Source.parse_ne_endless fun _ => Grammar.settles_requirement
  · exact fun _ _ => Source.parse_ne_endless fun _ => Grammar.settles_actionBody
  · exact fun _ _ => Source.parse_ne_endless fun _ => Grammar.settles_signature

end AccessRules
