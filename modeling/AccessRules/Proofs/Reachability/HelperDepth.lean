import AccessRules.Proofs.Corpus
import AccessRules.Proofs.Reachability.Closure
import Mathlib.Data.List.Chain
import Mathlib.Data.List.Perm.Subperm
import Mathlib.Logic.Relation

set_option autoImplicit false

/-! # When evaluation is abandoned

Evaluation has a value unless helpers are expanded too deeply, and it is abandoned only for a chain
of calls that is really there: `evaluate_ok_or_call_chain` reads it off the bodies of the rule and
of the helpers, one call longer than the limit. Where no helper reaches itself such a chain visits
each helper at most once, so a corpus with as many helpers as the limit allows is always evaluated
to the end. -/

namespace AccessRules

/-! ## The call graph -/

namespace Corpus

/-- The body of the rule contains a call of the helper. -/
def RuleCalls (c : Corpus) (r : Rule) (s : Signature) : Prop :=
  c.NodesCall r.body.reached s

/-- The body of the first helper contains a call of the second. -/
def HelperCalls (c : Corpus) (s t : Signature) : Prop :=
  ∃ r, c.rules.find? s.ruleName = some r ∧ c.RuleCalls r t

/-- No helper reaches itself by calls. -/
def Acyclic (c : Corpus) : Prop :=
  ∀ s, ¬ Relation.TransGen c.HelperCalls s s

variable {c : Corpus}

theorem NodesCall.mem_helpers {nodes : List Expr} {s : Signature} (h : c.NodesCall nodes s) :
    s ∈ c.helpers.values := by
  obtain ⟨e, _, call, _, hfunc⟩ := h
  exact NameMap.mem_values_of_find? (find?_helpers_of_resolve hfunc)

/-- A chain of calls of a corpus without cycles is no longer than the number of its helpers. -/
theorem Acyclic.length_le (hc : c.Acyclic) {r : Rule} {s : Signature} {ss : List Signature}
    (hs : c.RuleCalls r s) (hchain : (s :: ss).IsChain c.HelperCalls) :
    (s :: ss).length ≤ c.helpers.size := by
  have hlater : (s :: ss).Pairwise (Relation.TransGen c.HelperCalls) :=
    (hchain.imp fun _ _ h => Relation.TransGen.single h).pairwise
  have hnodup : (s :: ss).Nodup := by
    refine hlater.imp fun {a b} hab heq => ?_
    subst heq
    exact hc a hab
  have hmem : ∀ t ∈ s :: ss, t ∈ c.helpers.values := by
    intro t ht
    rcases List.mem_cons.1 ht with rfl | ht
    · exact hs.mem_helpers
    · obtain ⟨u, _, hut⟩ := Relation.TransGen.tail'_iff.1 ((List.pairwise_cons.1 hlater).1 t ht)
      obtain ⟨r, _, hr⟩ := hut
      exact hr.mem_helpers
  calc (s :: ss).length ≤ c.helpers.values.length := (hnodup.subperm hmem).length_le
    _ = c.helpers.size := List.length_map ..

end Corpus

/-! ## Work that is abandoned for a reason -/

namespace Report

variable {α β : Type} {P : Defect → Prop}

/-- If the work is abandoned, then for a defect with the property. -/
def FailsOnlyBy (P : Defect → Prop) (m : Report α) : Prop :=
  ∀ d, m.outcome = .error d → P d

theorem failsOnlyBy_of_ok {m : Report α} {a : α} (h : m.outcome = .ok a) : m.FailsOnlyBy P := by
  intro d hd
  rw [h] at hd
  cases hd

theorem failsOnlyBy_pure (a : α) : (pure a : Report α).FailsOnlyBy P :=
  failsOnlyBy_of_ok rfl

theorem FailsOnlyBy.bind {m : Report α} {f : α → Report β} (hm : m.FailsOnlyBy P)
    (hf : ∀ a, (f a).FailsOnlyBy P) : (m >>= f).FailsOnlyBy P := by
  intro d hd
  rw [outcome_bind] at hd
  cases hout : m.outcome with
  | error d' =>
      rw [hout] at hd
      obtain rfl := Except.error.inj hd
      exact hm d' hout
  | ok a =>
      rw [hout] at hd
      exact hf a d hd

theorem FailsOnlyBy.map {m : Report α} (hm : m.FailsOnlyBy P) (g : α → β) :
    (g <$> m).FailsOnlyBy P := by
  intro d hd
  rw [outcome_map] at hd
  cases hout : m.outcome with
  | error d' =>
      rw [hout] at hd
      obtain rfl := Except.error.inj hd
      exact hm d' hout
  | ok a =>
      rw [hout] at hd
      cases hd

end Report

/-! ## Where evaluation is abandoned -/

/-- Evaluation is not abandoned by itself, only by the expansion of helpers. -/
theorem Report.closed_failsOnlyBy (P : Defect → Prop) :
    Report.Closed fun _ m => m.FailsOnlyBy P where
  pure := Report.failsOnlyBy_pure
  bind := Report.FailsOnlyBy.bind
  warnDefault _ := Report.failsOnlyBy_of_ok rfl
  warnQualifier _ _ _ := Report.failsOnlyBy_of_ok rfl

namespace Knowledge

variable {k : Knowledge}

/-- From the rule on helpers were expanded one in the other, as deep as `depth`, and the last body
    calls one more helper. -/
def EndsChain (c : Corpus) (r : Rule) (depth : Nat) (d : Defect) : Prop :=
  ∃ s ss caller last, ss.length = depth ∧ c.RuleCalls r s ∧ (s :: ss).IsChain c.HelperCalls ∧
    (s :: ss).getLast? = some last ∧ c.RuleCalls caller last ∧
    d = .endlessHelpers caller.name last.name

theorem failsOnlyBy_evalWithin (depth : Nat) (f : Frame) (e : Expr)
    (hbody : f.rule.body = .requirement e) :
    Always (fun _ m => m.FailsOnlyBy (EndsChain k.corpus f.rule depth))
      (k.evalWithin depth f e) := by
  have hcalls : ∀ s, k.corpus.NodesCall e.preorder s → k.corpus.RuleCalls f.rule s := by
    intro s hs
    rw [Corpus.RuleCalls, hbody, Body.reached_requirement]
    exact hs
  -- on the depth: a call whose expansion is abandoned comes before the chain that starts in the
  -- body of its helper
  induction depth generalizing f e with
  | zero =>
      refine closed_eval (Report.closed_failsOnlyBy _) e fun s hs args _ expect d hd => ?_
      obtain rfl := Except.error.inj hd
      exact ⟨s, [], f.rule, s, rfl, hcalls s hs, .singleton s, rfl, hcalls s hs, rfl⟩
  | succ depth ih =>
      rw [evalWithin_succ]
      refine closed_eval (Report.closed_failsOnlyBy _) e fun s hs args hargs expect => ?_
      unfold expandBy
      cases hrule : k.corpus.rules.find? s.ruleName with
      | none => exact Report.failsOnlyBy_pure _
      | some r =>
          refine (closed_bindParams (Report.closed_failsOnlyBy _) s.params hargs).bind
            fun bindings => ?_
          cases hr : r.body with
          | actions a => exact Report.failsOnlyBy_pure _
          | requirement body =>
              intro d hd
              have hinner : ∀ t, k.corpus.NodesCall body.preorder t → k.corpus.RuleCalls r t := by
                intro t ht
                rw [Corpus.RuleCalls, hr, Body.reached_requirement]
                exact ht
              obtain ⟨t, ts, caller, last, hlen, hcall, hchain, hlast, hcaller, hdefect⟩ :=
                ih ⟨r, f.spot, bindings⟩ body hr hinner expect d hd
              refine ⟨s, t :: ts, caller, last, ?_, hcalls s hs, ?_, hlast, hcaller, hdefect⟩
              · rw [List.length_cons, hlen]
              · exact hchain.cons_cons ⟨r, hrule, hcall⟩

theorem failsOnlyBy_evaluate (k : Knowledge) (r : Rule) (spot : String) :
    (k.evaluate r spot).FailsOnlyBy (EndsChain k.corpus r maxHelperDepth) := by
  unfold evaluate
  cases hbody : r.body with
  | actions a => exact Report.failsOnlyBy_pure _
  | requirement e =>
      exact failsOnlyBy_evalWithin maxHelperDepth { rule := r, spot } e hbody .bool

end Knowledge

/-- Evaluation of a rule at a spot has a value, or it is abandoned at the end of a chain of 65 calls
    of helpers that starts in the rule. Without cycles among at most 64 helpers there is no such
    chain, and so there is a value. -/
theorem evaluate_ok_or_call_chain (k : Knowledge) (r : Rule) (spot : String) :
    ((∃ v, (k.evaluate r spot).outcome = .ok v) ∨
      ∃ s ss caller last, (s :: ss).length = 65 ∧ k.corpus.RuleCalls r s ∧
        (s :: ss).IsChain k.corpus.HelperCalls ∧
        (s :: ss).getLast? = some last ∧ k.corpus.RuleCalls caller last ∧
        (k.evaluate r spot).outcome = .error (.endlessHelpers caller.name last.name) ∧
        (Defect.endlessHelpers caller.name last.name).message
          = "helper expansion exceeded 64 frames in " ++ caller.name ++ " (at $" ++ last.name
            ++ ")") ∧
    (k.corpus.Acyclic → k.corpus.helpers.size ≤ 64 →
      ∃ v, (k.evaluate r spot).outcome = .ok v) := by
  cases hout : (k.evaluate r spot).outcome with
  | ok v => exact ⟨Or.inl ⟨v, rfl⟩, fun _ _ => ⟨v, rfl⟩⟩
  | error d =>
      obtain ⟨s, ss, caller, last, hlen, hcall, hchain, hlast, hcaller, rfl⟩ :=
        Knowledge.failsOnlyBy_evaluate k r spot d hout
      have hlength : (s :: ss).length = 65 := by rw [List.length_cons, hlen, maxHelperDepth]
      refine ⟨Or.inr ?_, fun hacyclic hsize => ?_⟩
      · exact ⟨s, ss, caller, last, hlength, hcall, hchain, hlast, hcaller, rfl, rfl⟩
      · have hle := hacyclic.length_le hcall hchain
        omega

/-- Two helpers, of which one calls the other. -/
def lampCorpus : Corpus where
  rules := .ofList [
    ("helpers:lit", { name := "helpers:lit",
                      body := .requirement (.argFlag { name := "lamp" } false) }),
    ("helpers:see", { name := "helpers:see", body := .requirement (.invoke "lit" [] false) })]
  helpers := .ofList [("lit", ⟨"lit", []⟩), ("see", ⟨"see", []⟩)]

theorem lampCorpus_helperCalls {s t : Signature} (h : lampCorpus.HelperCalls s t) :
    s.ruleName = "helpers:see" ∧ t = ⟨"lit", []⟩ := by
  obtain ⟨r, hr, e, he, call, hcall, ht⟩ := h
  rw [← Body.nodes_eq] at he
  have hentries : (s.ruleName, r) ∈ lampCorpus.rules.entries := NameMap.find?_eq_some_iff.1 hr
  rcases List.mem_cons.1 hentries with heq | hentries
  · obtain ⟨-, rfl⟩ := Prod.mk.inj heq
    obtain rfl := List.mem_singleton.1 he
    cases hcall
  · obtain ⟨hname, rfl⟩ := Prod.mk.inj (List.mem_singleton.1 hentries)
    obtain rfl := List.mem_singleton.1 he
    obtain rfl := List.mem_singleton.1 hcall
    exact ⟨hname, (Callee.helper.inj ht).symm⟩

theorem lampCorpus_evaluates :
    lampCorpus.Acyclic ∧ lampCorpus.helpers.size ≤ 64 ∧
      ∃ v, ((⟨⟨{}, lampCorpus⟩, ∅, {}⟩ : Knowledge).evaluate
        { name := "rules:look", body := .requirement (.invoke "see" [] false) } "").outcome
          = .ok v := by
  have hacyclic : lampCorpus.Acyclic := by
    intro s hs
    obtain ⟨t, -, hts⟩ := Relation.TransGen.tail'_iff.1 hs
    obtain ⟨u, hsu, -⟩ := Relation.TransGen.head'_iff.1 hs
    have hlit : s.ruleName = "helpers:lit" := by rw [(lampCorpus_helperCalls hts).2]; rfl
    rw [(lampCorpus_helperCalls hsu).1] at hlit
    exact absurd hlit (by decide)
  have hsize : lampCorpus.helpers.size ≤ 64 := by decide
  exact ⟨hacyclic, hsize, (evaluate_ok_or_call_chain _ _ _).2 hacyclic hsize⟩

/-- A helper that calls itself. -/
def spinCorpus : Corpus where
  rules := .ofList [
    ("helpers:spin", { name := "helpers:spin", body := .requirement (.invoke "spin" [] false) })]
  helpers := .ofList [("spin", ⟨"spin", []⟩)]

set_option maxRecDepth 4000 in
example : ((⟨⟨{}, spinCorpus⟩, ∅, {}⟩ : Knowledge).evaluate
    { name := "rules:turn", body := .requirement (.invoke "spin" [] false) } "").outcome
      = .error (.endlessHelpers "helpers:spin" "spin") := rfl

end AccessRules
