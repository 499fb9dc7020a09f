import AccessRules.Proofs.BuildOrder

set_option autoImplicit false

/-! # Building in place

A corpus may be kept in one place, to which definitions are written one after the other. A helper
takes two writes, its body and then its signature. The body is written as a rule, which may be
refused because there is one of its name; and what is written before a failure stays.
`Definition.write` works in this way, and `Definition.run_write` says that a failure leaves nothing
behind: the corpus becomes what `Definition.addTo` gives, or stays as it was. So it is coherent
after any attempts, by `Corpus.built_attempts` and `Corpus.Built.coherent`. -/

namespace AccessRules

namespace Corpus

/-! ## Writing rules and helpers -/

/-- Work on a corpus in place. What is written before a failure stays. -/
abbrev Edit := EStateM CorpusError Corpus

def writeRule (r : Rule) : Edit Unit := do
  if (← get).rules.contains r.name then throw (.duplicateRule r.name)
  modify fun c => { c with rules := c.rules.insert r.name r }

def writeHelper (signature : String) (body : Body) : Edit Unit := do
  let s ← ofExcept ((parseSignature signature).mapError .parse)
  if (← get).helpers.contains s.name then throw (.duplicateHelper s.name)
  writeRule { name := s.ruleName, body }
  modify fun c => { c with helpers := c.helpers.insert s.name s }

def writeHelperText (signature text : String) (isAction : Bool) : Edit Unit := do
  let body ← ofExcept (parseBody signature text isAction)
  writeHelper signature body

/-- The end of work that changes the corpus only if it succeeds. -/
def settle (c : Corpus) : Except CorpusError Corpus → EStateM.Result CorpusError Corpus Unit
  | .ok c' => .ok () c'
  | .error e => .error e c

theorem run_writeRule (r : Rule) (c : Corpus) : (writeRule r).run c = c.settle (c.addRule r) := by
  unfold writeRule addRule
  cases h : c.rules.contains r.name <;> simp [h, settle]

theorem addHelper_of_parseSignature {signature : String} {s : Signature} (body : Body) (c : Corpus)
    (hs : parseSignature signature = .ok s) :
    c.addHelper signature body =
      if c.helpers.contains s.name then .error (.duplicateHelper s.name)
      else (c.addRule { name := s.ruleName, body }).map
        fun c' => { c' with helpers := c'.helpers.insert s.name s } := by
  unfold addHelper
  rw [hs]
  show (if c.helpers.contains s.name then _ else _) = _
  split
  · rfl
  · cases c.addRule { name := s.ruleName, body } <;> rfl

theorem run_writeHelper (signature : String) (body : Body) (c : Corpus) :
    (writeHelper signature body).run c = c.settle (c.addHelper signature body) := by
  cases hs : parseSignature signature with
  | error e =>
      unfold writeHelper addHelper
      rw [hs]
      rfl
  | ok s =>
      have hrule := run_writeRule { name := s.ruleName, body } c
      rw [addHelper_of_parseSignature body c hs, writeHelper, hs]
      cases hhelper : c.helpers.contains s.name with
      | true => simp [Except.mapError, ofExcept, hhelper, settle]
      | false =>
          -- the rule is refused before anything is written, or both writes are made
          cases hadd : c.addRule { name := s.ruleName, body } <;>
            simp [Except.mapError, ofExcept, hhelper, hrule, hadd, settle, Except.map]

theorem run_writeHelperText (signature text : String) (isAction : Bool) (c : Corpus) :
    (writeHelperText signature text isAction).run c
      = c.settle (c.parseHelper signature text isAction) := by
  unfold writeHelperText parseHelper
  cases parseBody signature text isAction with
  | error e => rfl
  | ok body => exact run_writeHelper signature body c

end Corpus

namespace Definition

def write : Definition → Corpus.Edit Unit
  | .rule r => Corpus.writeRule r
  | .helper signature body => Corpus.writeHelper signature body
  | .helperText signature text isAction => Corpus.writeHelperText signature text isAction

/-- A definition is written as a whole or not at all. -/
theorem run_write (d : Definition) (c : Corpus) : d.write.run c = c.settle (d.addTo c) := by
  cases d with
  | rule r => exact Corpus.run_writeRule r c
  | helper signature body => exact Corpus.run_writeHelper signature body c
  | helperText signature text isAction => exact Corpus.run_writeHelperText signature text isAction c

theorem built_addTo {d : Definition} {c c' : Corpus} (hc : c.Built) (h : d.addTo c = .ok c') :
    c'.Built := by
  cases d with
  | rule r => exact hc.rule h
  | helper signature body => exact hc.helper h
  | helperText signature text isAction =>
      obtain ⟨body, -, hadd⟩ := Corpus.parseHelper_eq_ok_iff.1 h
      exact hc.helper hadd

/-- The corpus that an attempt leaves, whether or not the definition is refused. -/
def attempt (c : Corpus) (d : Definition) : Corpus :=
  match d.write.run c with
  | .ok _ c' => c'
  | .error _ c' => c'

theorem built_attempt {c : Corpus} (hc : c.Built) (d : Definition) : (attempt c d).Built := by
  rw [attempt, run_write]
  cases h : d.addTo c with
  | ok c' => exact built_addTo hc h
  | error e => exact hc

end Definition

/-! ## Coherence -/

namespace Corpus

/-- The corpus that attempts one after the other leave, starting from nothing. -/
def attempts (ds : List Definition) : Corpus :=
  ds.foldl Definition.attempt {}

theorem built_attempts (ds : List Definition) : (attempts ds).Built :=
  List.foldlRecOn ds Definition.attempt .empty fun _ hc d _ => Definition.built_attempt hc d

/-- Names stand for what has them, and signatures and bodies of helpers for each other. -/
structure Coherent (c : Corpus) : Prop where
  rule_name : ∀ name r, c.rules.find? name = some r → r.name = name
  helper_name : ∀ name s, c.helpers.find? name = some s → s.name = name
  helper_body : ∀ name s, c.helpers.find? name = some s →
    ∃ r, c.rules.find? s.ruleName = some r ∧ c.helperOf? r = some s

/-- A call of a helper finds a body, and the body is that of the helper. -/
theorem Coherent.body_of_resolve {c : Corpus} (h : c.Coherent) {func : String} {s : Signature}
    (hs : c.resolve func = .helper s) :
    ∃ r, c.rules.find? s.ruleName = some r ∧ c.helperOf? r = some s :=
  h.helper_body func s (find?_helpers_of_resolve hs)

theorem Built.coherent {c : Corpus} (h : c.Built) : c.Coherent where
  rule_name _ _ := h.rule_name
  helper_name _ _ := h.helper_name
  helper_body name s hs := by
    obtain ⟨body, hbody⟩ := h.helper_rule hs
    refine ⟨_, hbody, ?_⟩
    rw [helperOf?_of_name rfl, h.helper_name hs, hs]

end Corpus

/-- Whatever definitions are attempted, the corpus is coherent afterwards, so that a call of a
    helper always finds its body. Each attempt ends as the addition does: with the corpus that it
    gives, or with its error and the corpus as it was. -/
theorem coherent_attempts (ds : List Definition) :
    (Corpus.attempts ds).Coherent ∧
    (∀ func s, (Corpus.attempts ds).resolve func = .helper s →
      ∃ r, (Corpus.attempts ds).rules.find? s.ruleName = some r ∧
        (Corpus.attempts ds).helperOf? r = some s) ∧
    ∀ (c : Corpus) (d : Definition),
      (∃ c', d.addTo c = .ok c' ∧ d.write.run c = .ok () c') ∨
      (∃ e, d.addTo c = .error e ∧ d.write.run c = .error e c) := by
  have hcoherent := (Corpus.built_attempts ds).coherent
  refine ⟨hcoherent, fun func s hs => hcoherent.body_of_resolve hs, fun c d => ?_⟩
  rw [d.run_write]
  cases d.addTo c with
  | ok c' => exact .inl ⟨c', rfl, rfl⟩
  | error e => exact .inr ⟨e, rfl, rfl⟩

/-- A rule that has the name of a helper's body keeps the helper out, and a later one goes in. -/
example :
    let c := Corpus.attempts [.rule { name := "helpers:open", body := .requirement (.bool true) },
      .helper "$open(^n)" (.requirement (.bool false)), .helper "$shut" (.requirement (.bool true))]
    c.helpers.keys = ["shut"] ∧ c.rules.keys = ["helpers:open", "helpers:shut"] :=
  ⟨rfl, rfl⟩

end AccessRules
