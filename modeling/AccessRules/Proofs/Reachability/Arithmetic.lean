import AccessRules.Proofs.Corpus
import AccessRules.Proofs.Number.WordText
import AccessRules.Proofs.Reachability.Evaluation

set_option autoImplicit false

/-! # Arithmetic on static integers

Arithmetic in rules is meant over the integers, but its operands and results are words of 64 bits.
An `IntTree` is a tree of arithmetic with words as leaves; `IntTree.value?` evaluates it over the
unbounded integers and `IntTree.results` lists what its operations give on the way. The relation
`Knowledge.Computes` says which expressions are such a tree: those built from integers, from
constants and references that static data makes integers, and from the builtin functions `max` and
`min`.

The evaluator has a certain value for such an expression exactly if nothing is divided by zero and
no operation leaves the words, and then it is the value over the unbounded integers:
`static_arithmetic_exact`. So a result that does not fit is never wrapped, however far below the
top it arises. -/

namespace AccessRules

/-! ## Operations on words -/

theorem toInt_ofInt_of_fitsWord {z : Int} (h : FitsWord z) : (Int64.ofInt z).toInt = z := by
  obtain ⟨hle, hge⟩ := h
  exact Int64.toInt_ofInt_of_le (by omega) (by omega)

theorem word?_eq_some_iff {z : Int} {n : Int64} : word? z = some n ↔ n.toInt = z := by
  unfold word?
  constructor
  · intro h
    split at h
    · rename_i hfits
      rw [← Option.some.inj h, toInt_ofInt_of_fitsWord hfits]
    · cases h
  · rintro rfl
    rw [if_pos (fitsWord_toInt n), Int64.ofInt_toInt]

/-- The result of arithmetic on unbounded integers, where there is one; quotients are cut towards
    zero. -/
def ArithOp.onInts? (op : ArithOp) (a b : Int) : Option Int :=
  match op with
  | .add => some (a + b)
  | .sub => some (a - b)
  | .mul => some (a * b)
  | .div => if b = 0 then none else some (a.tdiv b)

/-- Arithmetic on words is arithmetic on integers, as far as the result fits. -/
theorem ArithOp.onWords?_eq (op : ArithOp) (a b : Int64) :
    op.onWords? a b = (op.onInts? a.toInt b.toInt).bind word? := by
  cases op with
  | div =>
      have hzero : b = 0 ↔ b.toInt = 0 := Int64.toInt_inj.symm
      simp only [onWords?, onInts?, hzero]
      split <;> rfl
  | _ => rfl

/-- The builtin functions that pick one of two integers. -/
inductive Extremum where
  | max | min

namespace Extremum

def name : Extremum → String
  | .max => "max"
  | .min => "min"

def ofInts : Extremum → Int → Int → Int
  | .max, a, b => Max.max a b
  | .min, a, b => Min.min a b

def ofWords : Extremum → Int64 → Int64 → Int64
  | .max, a, b => if a < b then b else a
  | .min, a, b => if b < a then b else a

theorem toInt_ofWords (x : Extremum) (a b : Int64) :
    (x.ofWords a b).toInt = x.ofInts a.toInt b.toInt := by
  cases x with
  | max =>
      simp only [ofWords, ofInts, Int64.lt_iff_toInt_lt]
      split <;> omega
  | min =>
      simp only [ofWords, ofInts, Int64.lt_iff_toInt_lt]
      split <;> omega

end Extremum

/-! ## Trees of arithmetic -/

inductive IntTree where
  | word (n : Int64)
  | operation (lhs : IntTree) (op : ArithOp) (rhs : IntTree)
  | extremum (x : Extremum) (lhs rhs : IntTree)

namespace IntTree

/-- The value over the unbounded integers. There is none if something is divided by zero. -/
def value? : IntTree → Option Int
  | .word n => some n.toInt
  | .operation l op r => l.value?.bind fun a => r.value?.bind fun b => op.onInts? a b
  | .extremum x l r => l.value?.bind fun a => r.value?.map fun b => x.ofInts a b

/-- The results of all operations of the tree over the unbounded integers. -/
def results : IntTree → List Int
  | .word _ => []
  | .operation l op r => l.results ++ r.results ++ (operation l op r).value?.toList
  | .extremum _ l r => l.results ++ r.results

/-- The value over the words, where every operation needs a result that fits. -/
def word? : IntTree → Option Int64
  | .word n => some n
  | .operation l op r => l.word?.bind fun a => r.word?.bind fun b => op.onWords? a b
  | .extremum x l r => l.word?.bind fun a => r.word?.map fun b => x.ofWords a b

/-- A value over the words is the value over the integers, and everything on the way fits. -/
theorem value?_of_word? {t : IntTree} {n : Int64} (h : t.word? = some n) :
    t.value? = some n.toInt ∧ ∀ z ∈ t.results, FitsWord z := by
  induction t generalizing n with
  | word m =>
      obtain rfl := Option.some.inj h
      exact ⟨rfl, by simp [results]⟩
  | operation l op r ihl ihr =>
      obtain ⟨a, ha, h⟩ := Option.bind_eq_some_iff.1 h
      obtain ⟨b, hb, h⟩ := Option.bind_eq_some_iff.1 h
      rw [ArithOp.onWords?_eq] at h
      obtain ⟨z, hz, hword⟩ := Option.bind_eq_some_iff.1 h
      obtain rfl := word?_eq_some_iff.1 hword
      obtain ⟨hla, hl⟩ := ihl ha
      obtain ⟨hrb, hr⟩ := ihr hb
      have hvalue : (operation l op r).value? = some n.toInt := by
        simp only [value?, hla, hrb, Option.bind_some, hz]
      refine ⟨hvalue, fun z hmem => ?_⟩
      rw [results, hvalue, List.mem_append, List.mem_append] at hmem
      rcases hmem with (hmem | hmem) | hmem
      · exact hl z hmem
      · exact hr z hmem
      · rw [List.mem_singleton.1 hmem]
        exact fitsWord_toInt n
  | extremum x l r ihl ihr =>
      obtain ⟨a, ha, h⟩ := Option.bind_eq_some_iff.1 h
      obtain ⟨b, hb, rfl⟩ := Option.map_eq_some_iff.1 h
      obtain ⟨hla, hl⟩ := ihl ha
      obtain ⟨hrb, hr⟩ := ihr hb
      refine ⟨?_, fun z hmem => (List.mem_append.1 hmem).elim (hl z) (hr z)⟩
      simp only [value?, hla, hrb, Option.bind_some, Option.map_some, x.toInt_ofWords]

/-- As long as all results fit, nothing is lost by working on words. -/
theorem exists_word?_of_fitsWord {t : IntTree} {z : Int} (hvalue : t.value? = some z)
    (hfits : ∀ y ∈ t.results, FitsWord y) : ∃ n, t.word? = some n ∧ n.toInt = z := by
  induction t generalizing z with
  | word m => exact ⟨m, rfl, Option.some.inj hvalue⟩
  | operation l op r ihl ihr =>
      have hz : FitsWord z := hfits z (by simp [results, hvalue])
      obtain ⟨a, ha, h⟩ := Option.bind_eq_some_iff.1 hvalue
      obtain ⟨b, hb, h⟩ := Option.bind_eq_some_iff.1 h
      obtain ⟨m, hm, rfl⟩ := ihl ha fun y hy => hfits y (by simp [results, hy])
      obtain ⟨n, hn, rfl⟩ := ihr hb fun y hy => hfits y (by simp [results, hy])
      refine ⟨Int64.ofInt z, ?_, toInt_ofInt_of_fitsWord hz⟩
      simp only [word?, hm, hn, Option.bind_some, ArithOp.onWords?_eq, h]
      exact word?_eq_some_iff.2 (toInt_ofInt_of_fitsWord hz)
  | extremum x l r ihl ihr =>
      obtain ⟨a, ha, h⟩ := Option.bind_eq_some_iff.1 hvalue
      obtain ⟨b, hb, rfl⟩ := Option.map_eq_some_iff.1 h
      obtain ⟨m, hm, rfl⟩ := ihl ha fun y hy => hfits y (List.mem_append_left _ hy)
      obtain ⟨n, hn, rfl⟩ := ihr hb fun y hy => hfits y (List.mem_append_right _ hy)
      refine ⟨x.ofWords m n, ?_, x.toInt_ofWords m n⟩
      simp only [word?, hm, hn, Option.bind_some, Option.map_some]

theorem word?_eq_none_iff {t : IntTree} :
    t.word? = none ↔ t.value? = none ∨ ∃ z ∈ t.results, ¬ FitsWord z := by
  constructor
  · intro hnone
    by_contra hneither
    push Not at hneither
    obtain ⟨z, hz⟩ := Option.ne_none_iff_exists'.1 hneither.1
    obtain ⟨n, hn, -⟩ := exists_word?_of_fitsWord hz hneither.2
    rw [hnone] at hn
    cases hn
  · intro hfault
    by_contra hsome
    obtain ⟨n, hn⟩ := Option.ne_none_iff_exists'.1 hsome
    obtain ⟨hvalue, hfits⟩ := value?_of_word? hn
    rcases hfault with hnone | ⟨z, hz, hbig⟩
    · rw [hvalue] at hnone
      cases hnone
    · exact hbig (hfits z hz)

end IntTree

/-! ## Expressions that are trees of arithmetic -/

namespace Knowledge

/-- A reference reads an integer: one that its name is bound to, or one of static data at the spot
    or at the place of its qualifier. -/
inductive HoldsInt (k : Knowledge) (f : Frame) : Reference → Int64 → Prop
  | bound {name : String} {n : Int64} (h : f.bindings.find? name = some (.int n)) :
      HoldsInt k f { name } n
  | here {name path : String} {n : Int64} (hfree : f.bindings.find? name = none)
      (hpath : f.rule.resolve? k.catalog name = some path)
      (h : k.statics.lookup f.spot path = .int n) : HoldsInt k f { name } n
  | atPlace {name path p : String} {n : Int64}
      (hpath : f.rule.resolve? k.catalog name = some path)
      (h : k.statics.lookup p path = .int n) :
      HoldsInt k f { name, qualifier := some (.place p) } n
  | atRef {name path q p : String} {n : Int64}
      (hpath : f.rule.resolve? k.catalog name = some path)
      (hq : k.lookupName f q = .place p) (hp : p ≠ "")
      (h : k.statics.lookup p path = .int n) :
      HoldsInt k f { name, qualifier := some (.ref q) } n

/-- The expression is a tree of arithmetic on static integers. The functions `max` and `min` are
    the builtin ones as long as no helper has their name. -/
inductive Computes (k : Knowledge) (f : Frame) : Expr → IntTree → Prop
  | int (n : Int64) : Computes k f (.int n) (.word n)
  | const {name : String} {m : JsonNumber} {n : Int64}
      (h : k.catalog.consts.find? name = some (.num m)) (hm : m.word? = some n) :
      Computes k f (.const name) (.word n)
  | ref {r : Reference} {n : Int64} (h : k.HoldsInt f r n) : Computes k f (.ref r) (.word n)
  | paren {e : Expr} {t : IntTree} (h : Computes k f e t) : Computes k f (.paren e) t
  | binOp {l r : Expr} {t u : IntTree} (op : ArithOp) (hl : Computes k f l t)
      (hr : Computes k f r u) : Computes k f (.binOp l op r) (.operation t op u)
  | call {l r : Expr} {t u : IntTree} (x : Extremum) (hfree : k.corpus.helpers.find? x.name = none)
      (hl : Computes k f l t) (hr : Computes k f r u) :
      Computes k f (.call x.name [l, r]) (.extremum x t u)
  | invoke {l r : Expr} {t u : IntTree} (x : Extremum)
      (hfree : k.corpus.helpers.find? x.name = none) (hl : Computes k f l t)
      (hr : Computes k f r u) :
      Computes k f (.invoke x.name [l, r] false) (.extremum x t u)

variable {k : Knowledge} {f : Frame}

theorem lookup_of_holdsInt {r : Reference} {n : Int64} (h : k.HoldsInt f r n) :
    k.lookup f r = pure (.int n) := by
  cases h with
  | bound h => simp only [lookup, lookupName, h]
  | here hfree hpath h => simp only [lookup, lookupName, hfree, hpath, Option.elim_some, h]
  | atPlace hpath h => simp only [lookup, hpath, h]
  | atRef hpath hq hp h => simp only [lookup, hpath, hq, if_neg hp, h]

/-- The value of an integer that may be missing. -/
def intValue (n : Option Int64) : Value :=
  n.elim .uncertain .int

theorem arith_intValue (a b : Option Int64) (op : ArithOp) :
    (intValue a).arith op (intValue b)
      = intValue (a.bind fun m => b.bind fun n => op.onWords? m n) := by
  cases a with
  | none => cases b <;> rfl
  | some m => cases b <;> rfl

/-- A call of `max` or `min` with two arguments that come out as integers or uncertain. -/
theorem callFunction_extremum (x : Extremum) (hfree : k.corpus.helpers.find? x.name = none)
    (expand : Expand) {p q : Pending} {a b : Option Int64}
    (hp : p .unknown = pure (intValue a)) (hq : q .unknown = pure (intValue b))
    (expect : Expect) :
    k.callFunction f expand x.name [p, q] expect
      = pure (intValue (a.bind fun m => b.map fun n => x.ofWords m n)) := by
  have hresolve : ∃ c, k.corpus.resolve x.name = .builtin c ∧ c.name = x.name := by
    cases x with
    | max => exact ⟨_, Corpus.resolve_eq_builtin_iff.2 ⟨hfree, rfl⟩, rfl⟩
    | min => exact ⟨_, Corpus.resolve_eq_builtin_iff.2 ⟨hfree, rfl⟩, rfl⟩
  obtain ⟨c, hc, hname⟩ := hresolve
  have hargs : evalArgs [p, q] = pure [intValue a, intValue b] := by
    simp only [evalArgs, hp, hq]
    rfl
  simp only [callFunction, hc, hname, callBuiltin, hargs]
  cases x <;> cases a <;> cases b <;> rfl

/-- The value of a tree of arithmetic is its value over the words, whatever is expected. -/
theorem eval_of_computes {e : Expr} {t : IntTree} (h : k.Computes f e t) (expand : Expand)
    (expect : Expect) : eval k f expand e expect = pure (intValue t.word?) := by
  induction h generalizing expect with
  | int n => rfl
  | const h hm =>
      simp only [eval, h, Option.elim_some, Value.ofJson, Literal.ofJson?, hm]
      rfl
  | ref h =>
      rw [eval, lookup_of_holdsInt h]
      rfl
  | paren _ ih => exact ih expect
  | binOp op _ _ ihl ihr =>
      simp only [eval, ihl, ihr, IntTree.word?, ← arith_intValue]
      rfl
  | call x hfree _ _ ihl ihr =>
      rw [eval_call]
      exact callFunction_extremum x hfree expand (ihl _) (ihr _) expect
  | invoke x hfree _ _ ihl ihr =>
      rw [eval_invoke, List.map_cons, List.map_cons, List.map_nil,
        callFunction_extremum x hfree expand (ihl _) (ihr _) expect]
      rfl

theorem evalWithin_of_computes {e : Expr} {t : IntTree} (h : k.Computes f e t) (depth : Nat)
    (expect : Expect) : k.evalWithin depth f e expect = pure (intValue t.word?) := by
  cases depth with
  | zero => exact eval_of_computes h _ expect
  | succ depth => exact eval_of_computes h _ expect

end Knowledge

/-- The value of a tree of arithmetic is certain exactly if over the unbounded integers nothing is
    divided by zero and no operation has a result beyond the words. Then it is the value over the
    unbounded integers. -/
theorem static_arithmetic_exact (k : Knowledge) {f : Frame} {e : Expr} {t : IntTree}
    (h : k.Computes f e t) (depth : Nat) (expect : Expect) :
    (∀ z : Int, (∃ n : Int64, n.toInt = z ∧ k.evalWithin depth f e expect = pure (.int n)) ↔
      t.value? = some z ∧ ∀ y ∈ t.results, FitsWord y) ∧
    (k.evalWithin depth f e expect = pure .uncertain ↔
      t.value? = none ∨ ∃ y ∈ t.results, ¬ FitsWord y) := by
  have hint : ∀ n : Int64,
      (pure (Knowledge.intValue t.word?) : Report Value) = pure (.int n) ↔ t.word? = some n := by
    intro n
    cases t.word? <;> simp [Knowledge.intValue, pure]
  have huncertain :
      (pure (Knowledge.intValue t.word?) : Report Value) = pure .uncertain ↔ t.word? = none := by
    cases t.word? <;> simp [Knowledge.intValue, pure]
  rw [Knowledge.evalWithin_of_computes h]
  refine ⟨fun z => ?_, huncertain.trans IntTree.word?_eq_none_iff⟩
  simp only [hint]
  constructor
  · rintro ⟨n, rfl, hn⟩
    exact IntTree.value?_of_word? hn
  · rintro ⟨hvalue, hfits⟩
    obtain ⟨n, hn, hz⟩ := IntTree.exists_word?_of_fitsWord hvalue hfits
    exact ⟨n, hz, hn⟩

/-- A constant that is the greatest word, and a datum below zero. -/
def tallyCatalog : Catalog where
  consts := NameMap.insert ∅ "LIMIT" (.num (.int 9223372036854775807))
  data := NameMap.insert ∅ "depth" (.num (.int (-7)))

def tally : Knowledge where
  catalog := tallyCatalog
  corpus := {}
  contexts := ∅
  statics := .ofCatalog tallyCatalog

def tallyFrame : Frame where
  rule := { name := "rules:dive", body := .requirement (.bool true) }
  spot := "Cave > Entry > Door"

/-- Half of the lesser of two integers, cut towards zero, and a tree whose value would fit but for
    a sum on the way. -/
theorem tally_exact :
    tally.evalWithin 0 tallyFrame
        (.binOp (.call "min" [.const "LIMIT", .ref { name := "depth" }]) .div (.int 2)) .int
      = pure (.int (-3)) ∧
    tally.evalWithin 0 tallyFrame
        (.call "max" [.int 1,
          .binOp (.paren (.binOp (.const "LIMIT") .add (.int 1))) .sub (.int 2)]) .int
      = pure .uncertain := by
  have hlimit : tally.Computes tallyFrame (.const "LIMIT") (.word 9223372036854775807) :=
    .const (m := .int 9223372036854775807) rfl rfl
  have hpath : tallyFrame.rule.resolve? tally.catalog "depth" = some "depth" := rfl
  have hdepth : tally.Computes tallyFrame (.ref { name := "depth" }) (.word (-7)) :=
    .ref (.here rfl hpath rfl)
  have hhalf := Knowledge.Computes.binOp .div
    (.call .min (show tally.corpus.helpers.find? "min" = none from rfl) hlimit hdepth) (.int 2)
  have hsum := Knowledge.Computes.call .max
    (show tally.corpus.helpers.find? "max" = none from rfl) (.int 1)
    (.binOp .sub (.paren (.binOp .add hlimit (.int 1))) (.int 2))
  obtain ⟨n, hn, hvalue⟩ := ((static_arithmetic_exact tally hhalf 0 .int).1 (-3)).2
    ⟨by decide, by decide⟩
  obtain rfl : n = -3 := Int64.toInt_inj.1 hn
  exact ⟨hvalue, (static_arithmetic_exact tally hsum 0 .int).2.2
    (.inr ⟨9223372036854775808, by decide, by decide⟩)⟩

end AccessRules
