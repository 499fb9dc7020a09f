import AccessRules.Corpus
import AccessRules.Proofs.Collection.NameMap

set_option autoImplicit false

/-! # How corpora come about

A corpus is built by adding rules and helpers one after the other, each under a name that is new.
So every rule stands under its own name, and the body of every helper is a rule of the corpus that
has no short names and no spot. `Corpus.Parsed` is the same with bodies that all come from texts. -/

namespace AccessRules

/-! ## Names of helper rules -/

@[simp] theorem Rule.splitName?_ruleName (s : Signature) :
    Rule.splitName? s.ruleName = some (Signature.helperNamespace, s.name) := by
  have hlist : s.ruleName.toList = "helpers".toList ++ ':' :: s.name.toList := by
    simp [Signature.ruleName, Signature.helperNamespace]
  have htake : ("helpers".toList ++ ':' :: s.name.toList).takeWhile (· != ':')
      = "helpers".toList := by simp
  have hdrop : ("helpers".toList ++ ':' :: s.name.toList).dropWhile (· != ':')
      = ':' :: s.name.toList := by simp
  rw [splitName?, hlist, htake, hdrop, if_pos (by simp)]
  simp [Signature.helperNamespace]

theorem Signature.name_eq_of_ruleName_eq {s t : Signature} (h : s.ruleName = t.ruleName) :
    s.name = t.name := by
  have hsplit := Rule.splitName?_ruleName s
  rw [h, Rule.splitName?_ruleName t] at hsplit
  exact (Prod.mk.inj (Option.some.inj hsplit)).2.symm

namespace Corpus

variable {c c' : Corpus} {r : Rule} {s : Signature} {signature text name : String} {body : Body}
  {isAction : Bool}

/-! ## What a step does -/

theorem addRule_eq_ok_iff : c.addRule r = .ok c' ↔
    c.rules.find? r.name = none ∧ c' = { c with rules := c.rules.insert r.name r } := by
  unfold addRule
  cases hfind : c.rules.find? r.name <;> simp [NameMap.contains, hfind, eq_comm]

theorem addHelper_eq_ok_iff : c.addHelper signature body = .ok c' ↔
    ∃ s, parseSignature signature = .ok s ∧ c.helpers.find? s.name = none ∧
      c.rules.find? s.ruleName = none ∧
      c' = ⟨c.rules.insert s.ruleName { name := s.ruleName, body }, c.helpers.insert s.name s⟩ := by
  unfold addHelper
  cases parseSignature signature with
  | error e => simp [Except.mapError, bind, Except.bind]
  | ok s =>
      cases hhelper : c.helpers.find? s.name with
      | some t => simp [Except.mapError, bind, Except.bind, NameMap.contains, hhelper, throw,
          throwThe, MonadExceptOf.throw]
      | none =>
          cases hrule : c.rules.find? s.ruleName <;>
            simp [Except.mapError, bind, Except.bind, NameMap.contains, hhelper, addRule, hrule,
              pure, Except.pure, eq_comm]

theorem parseHelper_eq_ok_iff : c.parseHelper signature text isAction = .ok c' ↔
    ∃ body, parseBody signature text isAction = .ok body ∧
      c.addHelper signature body = .ok c' := by
  unfold parseHelper
  cases parseBody signature text isAction <;> simp [bind, Except.bind]

/-! ## Corpora that are built -/

/-- The corpora that adding rules and helpers leads to. -/
inductive Built : Corpus → Prop
  | empty : Built {}
  | rule {c c' : Corpus} {r : Rule} (hc : Built c) (h : c.addRule r = .ok c') : Built c'
  | helper {c c' : Corpus} {signature : String} {body : Body} (hc : Built c)
      (h : c.addHelper signature body = .ok c') : Built c'

/-- Every rule stands under its own name. -/
theorem Built.rule_name (h : c.Built) (hr : c.rules.find? name = some r) : r.name = name := by
  induction h with
  | empty => simp at hr
  | rule _ h ih =>
      obtain ⟨-, rfl⟩ := addRule_eq_ok_iff.1 h
      rw [NameMap.find?_insert] at hr
      split at hr
      · next hname => rw [← Option.some.inj hr, hname]
      · exact ih hr
  | helper _ h ih =>
      obtain ⟨s, -, -, -, rfl⟩ := addHelper_eq_ok_iff.1 h
      rw [NameMap.find?_insert] at hr
      split at hr
      · next hname => rw [← Option.some.inj hr, hname]
      · exact ih hr

theorem Built.mem_values_iff (h : c.Built) :
    r ∈ c.rules.values ↔ c.rules.find? r.name = some r := by
  refine ⟨fun hr => ?_, NameMap.mem_values_of_find?⟩
  obtain ⟨name, hfind⟩ := NameMap.exists_find?_of_mem_values hr
  rwa [h.rule_name hfind]

/-- No two rules have the same name. -/
theorem Built.pairwise_names (h : c.Built) :
    c.rules.values.Pairwise fun r r' => r.name ≠ r'.name := by
  refine List.pairwise_map.2 (c.rules.sorted.imp_of_mem fun {a b} ha hb hlt => ?_)
  rw [h.rule_name (NameMap.find?_eq_some_iff.2 ha), h.rule_name (NameMap.find?_eq_some_iff.2 hb)]
  exact String.ne_of_lt hlt

theorem Built.eq_of_name_eq (h : c.Built) {r r' : Rule} (hr : r ∈ c.rules.values)
    (hr' : r' ∈ c.rules.values) (hname : r.name = r'.name) : r = r' := by
  have hfind := h.mem_values_iff.1 hr
  rw [hname, h.mem_values_iff.1 hr'] at hfind
  exact (Option.some.inj hfind).symm

/-- Every helper stands under its own name. -/
theorem Built.helper_name (h : c.Built) (hs : c.helpers.find? name = some s) : s.name = name := by
  induction h with
  | empty => simp at hs
  | rule _ h ih =>
      obtain ⟨-, rfl⟩ := addRule_eq_ok_iff.1 h
      exact ih hs
  | helper _ h ih =>
      obtain ⟨t, -, -, -, rfl⟩ := addHelper_eq_ok_iff.1 h
      rw [NameMap.find?_insert] at hs
      split at hs
      · next hname => rw [← Option.some.inj hs, hname]
      · exact ih hs

/-- The body of a helper is a rule of the corpus. It has no short names and no spot. -/
theorem Built.helper_rule (h : c.Built) (hs : c.helpers.find? name = some s) :
    ∃ body, c.rules.find? s.ruleName = some { name := s.ruleName, body } := by
  induction h with
  | empty => simp at hs
  | rule _ h ih =>
      obtain ⟨hnew, rfl⟩ := addRule_eq_ok_iff.1 h
      obtain ⟨body, hbody⟩ := ih hs
      refine ⟨body, ?_⟩
      rw [NameMap.find?_insert, if_neg, hbody]
      -- the name of the new rule was not taken before
      intro hname
      rw [hname, hnew] at hbody
      cases hbody
  | @helper c _ _ added _ h ih =>
      obtain ⟨t, -, -, hnew, rfl⟩ := addHelper_eq_ok_iff.1 h
      rw [NameMap.find?_insert] at hs
      split at hs
      · obtain rfl := Option.some.inj hs
        exact ⟨added, by rw [NameMap.find?_insert, if_pos rfl]⟩
      · obtain ⟨body, hbody⟩ := ih hs
        refine ⟨body, ?_⟩
        rw [NameMap.find?_insert, if_neg, hbody]
        intro hname
        rw [hname, hnew] at hbody
        cases hbody

theorem helperOf?_of_name (hname : r.name = s.ruleName) :
    c.helperOf? r = c.helpers.find? s.name := by
  have hsplit : Rule.splitName? r.name = some (Signature.helperNamespace, s.name) := by
    rw [hname, Rule.splitName?_ruleName]
  simp [helperOf?, Rule.isHelper, Rule.category, Rule.namespaceName, Rule.shortName, hsplit]

/-- A call of a helper is a call of one that the corpus has under this name. -/
theorem find?_helpers_of_resolve {func : String} (h : c.resolve func = .helper s) :
    c.helpers.find? func = some s := by
  unfold resolve at h
  cases hs : c.helpers.find? func with
  | some t =>
      rw [hs] at h
      exact congrArg some (Callee.helper.inj h)
  | none =>
      -- neither a builtin nor a rule is a helper
      rw [hs] at h
      simp only at h
      split at h
      · cases h
      · split at h <;> cases h

theorem resolve_eq_helper_iff {func : String} :
    c.resolve func = .helper s ↔ c.helpers.find? func = some s := by
  refine ⟨find?_helpers_of_resolve, fun h => ?_⟩
  rw [resolve, h]

theorem resolve_eq_builtin_iff {func : String} {b : Builtin} : c.resolve func = .builtin b ↔
    c.helpers.find? func = none ∧ builtin? func = some b := by
  unfold resolve
  cases c.helpers.find? func with
  | some t => simp
  | none =>
      cases builtin? func with
      | some b' => simp
      | none =>
          simp only
          split <;> simp

/-- A call of something unknown names no helper, no builtin function and no other rule. -/
theorem resolve_eq_unknown_iff {func : String} : c.resolve func = .unknown ↔
    c.helpers.find? func = none ∧ builtin? func = none ∧
      ∀ r ∈ c.rules.values, r.isHelper = false → r.shortName ≠ func := by
  have hrules : (c.rules.values.find? fun r => !r.isHelper && r.shortName == func) = none ↔
      ∀ r ∈ c.rules.values, r.isHelper = false → r.shortName ≠ func := by
    simp [List.find?_eq_none]
  unfold resolve
  rw [← hrules]
  cases c.helpers.find? func with
  | some t => simp
  | none =>
      cases builtin? func with
      | some b => simp
      | none =>
          simp only
          split <;> simp_all

/-! ## Corpora from texts -/

/-- The corpora that come about from texts: the body of each rule and each helper is one that a
    text stands for. -/
inductive Parsed : Corpus → Prop
  | empty : Parsed {}
  | rule {c c' : Corpus} {r : Rule} {file text : String} {isAction : Bool} (hc : Parsed c)
      (hbody : parseBody file text isAction = .ok r.body) (h : c.addRule r = .ok c') : Parsed c'
  | helper {c c' : Corpus} {signature text : String} {isAction : Bool} (hc : Parsed c)
      (h : c.parseHelper signature text isAction = .ok c') : Parsed c'

theorem Parsed.body_parsed (h : c.Parsed) (hr : c.rules.find? name = some r) :
    ∃ file text isAction, parseBody file text isAction = .ok r.body := by
  induction h with
  | empty => simp at hr
  | @rule _ _ _ file text isAction _ hbody h ih =>
      obtain ⟨-, rfl⟩ := addRule_eq_ok_iff.1 h
      rw [NameMap.find?_insert] at hr
      split at hr
      · obtain rfl := Option.some.inj hr
        exact ⟨file, text, isAction, hbody⟩
      · exact ih hr
  | @helper _ _ signature text isAction _ h ih =>
      obtain ⟨body, hbody, h⟩ := parseHelper_eq_ok_iff.1 h
      obtain ⟨s, -, -, -, rfl⟩ := addHelper_eq_ok_iff.1 h
      rw [NameMap.find?_insert] at hr
      split at hr
      · obtain rfl := Option.some.inj hr
        exact ⟨signature, text, isAction, hbody⟩
      · exact ih hr

end Corpus

end AccessRules
