import AccessRules.Compile
import AccessRules.Proofs.Collection.NameMap
import AccessRules.Proofs.Report

set_option autoImplicit false

/-! # What a compilation consists of

Inversion of compilation: each output stems from a rule of the corpus, evaluated with the static
data of the catalog and the contexts that the compilation found. -/

namespace AccessRules

theorem Body.defect?_eq_none_iff {b : Body} {rule : String} :
    b.defect? rule = none ↔ b.misshapen? = none := by
  simp [defect?]

namespace Workspace

variable {w : Workspace} {o : CompileOptions} {k : Knowledge} {r : Rule}

/-- The notes around a compilation leave its outcome as it is. -/
theorem outcome_compile (w : Workspace) (o : CompileOptions) :
    (w.compile o).outcome = (w.compileAll o).outcome := by
  unfold compile
  cases h : w.compileAll o with
  | mk outcome events => cases outcome <;> rfl

/-- A compilation gets past the shapes if every body is of the right shape. -/
theorem checkShapes_ok_iff {w : Workspace} :
    w.checkShapes.outcome = .ok () ↔ ∀ r ∈ w.corpus.rules.values, r.body.misshapen? = none := by
  have hfind : w.corpus.rules.values.findSome? (fun r => r.body.defect? r.name) = none ↔
      ∀ r ∈ w.corpus.rules.values, r.body.misshapen? = none := by
    simp only [List.findSome?_eq_none_iff, Body.defect?_eq_none_iff]
  rw [← hfind, checkShapes]
  cases w.corpus.rules.values.findSome? fun r => r.body.defect? r.name with
  | none => exact iff_of_true rfl rfl
  | some d => simp [Report.abandon]

/-- What the analyses find. -/
def analysed (w : Workspace) : Compilation where
  contexts := (w.resolveContext (ContextTable.ofCatalog w.catalog).1).1
  items := w.countItems.1
  settings := w.surveySettings.1
  helpers := (w.helperTypes (w.resolveContext (ContextTable.ofCatalog w.catalog).1).1).1
  layout := .pack (flagEntries (w.resolveContext (ContextTable.ofCatalog w.catalog).1).1 w.catalog
    w.countItems.1)
  rules := ∅

/-- What rules are evaluated and rendered with. -/
def knowledge (w : Workspace) : Knowledge :=
  ⟨w, w.analysed.contexts, .ofCatalog w.catalog⟩

/-- The analyses never have to be abandoned. -/
theorem outcome_analyse (w : Workspace) : w.analyse.outcome = .ok w.analysed := rfl

/-- Only the shapes and the outputs of rules decide whether a compilation is abandoned. -/
theorem outcome_compile_eq (w : Workspace) (o : CompileOptions) :
    (w.compile o).outcome = w.checkShapes.outcome.bind fun _ =>
      (compileRules o w.knowledge w.corpus.rules.values).outcome.map fun outputs =>
        { w.analysed with rules := .ofList outputs } := by
  rw [outcome_compile, compileAll, Report.outcome_bind]
  congr
  funext _
  rw [Report.outcome_bind, outcome_analyse]
  exact Report.outcome_map _ _

/-- A compilation that is not abandoned has the outputs of all rules. -/
theorem compile_eq_ok_iff {comp : Compilation} : (w.compile o).outcome = .ok comp ↔
    (∀ r ∈ w.corpus.rules.values, r.body.misshapen? = none) ∧
      ∃ outputs, (compileRules o w.knowledge w.corpus.rules.values).outcome = .ok outputs ∧
        { w.analysed with rules := .ofList outputs } = comp := by
  rw [outcome_compile_eq, ← checkShapes_ok_iff]
  cases w.checkShapes.outcome with
  | error d => simp [Except.bind]
  | ok u =>
      cases (compileRules o w.knowledge w.corpus.rules.values).outcome <;>
        simp [Except.bind, Except.map]

theorem exists_rule_of_mem_outputs {rules : List Rule} {outputs : List (String × RuleOutput)}
    (h : (compileRules o k rules).outcome = .ok outputs) {name : String} {out : RuleOutput}
    (hmem : (name, out) ∈ outputs) :
    ∃ r ∈ rules, r.name = name ∧ (compileRule o k r).outcome = .ok out := by
  induction rules generalizing outputs with
  | nil =>
      obtain rfl := Except.ok.inj h
      cases hmem
  | cons r rules ih =>
      obtain ⟨output, houtput, hrest⟩ := Report.bind_eq_ok_iff.1 h
      obtain ⟨rest, hrules, hpure⟩ := Report.bind_eq_ok_iff.1 hrest
      obtain rfl := Except.ok.inj hpure
      rcases List.mem_cons.1 hmem with heq | hmem
      · obtain ⟨rfl, rfl⟩ := Prod.mk.inj heq
        exact ⟨r, List.mem_cons_self .., rfl, houtput⟩
      · obtain ⟨r', hr', hname, hcompile⟩ := ih hrules hmem
        exact ⟨r', List.mem_cons_of_mem _ hr', hname, hcompile⟩

theorem exists_rule_of_output {comp : Compilation} (h : (w.compile o).outcome = .ok comp)
    {name : String} {out : RuleOutput} (hout : comp.rules.find? name = some out) :
    ∃ r ∈ w.corpus.rules.values, r.name = name ∧
      (compileRule o ⟨w, comp.contexts, .ofCatalog w.catalog⟩ r).outcome = .ok out := by
  rw [outcome_compile] at h
  obtain ⟨_, _, h⟩ := Report.bind_eq_ok_iff.1 h
  obtain ⟨c, _, h⟩ := Report.bind_eq_ok_iff.1 h
  obtain ⟨outputs, houtputs, h⟩ := Report.bind_eq_ok_iff.1 h
  obtain rfl := Except.ok.inj h
  exact exists_rule_of_mem_outputs houtputs (NameMap.mem_of_find?_ofList hout)

/-- The code of a rule with a reachability, if code is rendered. -/
def ruleCode (o : CompileOptions) (k : Knowledge) (r : Rule) (reach : Option Value) :
    Report (Option String) :=
  if !o.executable then pure none
  else if o.prunes reach then pure (some prunedCode)
  else some <$> .ofExcept (CodeScope.body ⟨k.toWorkspace, k.contexts, o.accessors, r⟩)

/-- The output for a rule is put together from its reachability and its code. -/
theorem compileRule_eq (o : CompileOptions) (k : Knowledge) (r : Rule) :
    compileRule o k r = reachability k r >>= fun reach => ruleCode o k r reach >>= fun code =>
      pure { code, outline := if o.debug then some r.body.outline else none, reachability := reach,
             pruned := o.prunes reach } := by
  unfold compileRule ruleCode
  congr
  funext reach
  by_cases hexecutable : (!o.executable) = true
  · simp only [if_pos hexecutable]
  · simp only [if_neg hexecutable]
    by_cases hpruned : o.prunes reach = true
    · simp only [if_pos hpruned]
    · simp only [if_neg hpruned]

/-- A rule is pruned for its reachability alone. -/
theorem compileRule_pruned {out : RuleOutput} (h : (compileRule o k r).outcome = .ok out) :
    (reachability k r).outcome = .ok out.reachability ∧
      out.pruned = o.prunes out.reachability := by
  rw [compileRule_eq] at h
  obtain ⟨reach, hreach, h⟩ := Report.bind_eq_ok_iff.1 h
  obtain ⟨code, -, h⟩ := Report.bind_eq_ok_iff.1 h
  obtain rfl := Except.ok.inj h
  exact ⟨hreach, rfl⟩

/-- A rule that is pruned is attached to a spot and false there. -/
theorem false_of_pruned {out : RuleOutput} (h : (compileRule o k r).outcome = .ok out)
    (hpruned : out.pruned = true) :
    ∃ spot v, r.spot = some spot ∧ (k.evaluate r spot).outcome = .ok v ∧ v.isFalse = true := by
  obtain ⟨hreach, hprunes⟩ := compileRule_pruned h
  rw [hpruned] at hprunes
  unfold reachability at hreach
  cases hspot : r.spot with
  | none =>
      rw [hspot] at hreach
      rw [← Except.ok.inj hreach] at hprunes
      simp [CompileOptions.prunes] at hprunes
  | some spot =>
      rw [hspot] at hreach
      obtain ⟨v, hv, hsome⟩ := Report.map_eq_ok_iff.1 hreach
      rw [← hsome] at hprunes
      refine ⟨spot, v, rfl, hv, ?_⟩
      have hboth : o.prune = true ∧ v.isFalse = true := by
        simpa [CompileOptions.prunes] using hprunes.symm
      exact hboth.2

end Workspace

end AccessRules
