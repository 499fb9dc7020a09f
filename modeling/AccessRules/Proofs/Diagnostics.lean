import AccessRules.Proofs.Compile
import AccessRules.Proofs.Corpus
import AccessRules.Proofs.Reachability.Closure
import Mathlib.Data.List.Count

set_option autoImplicit false

/-! # Which pass reports what

Every pass of a compilation reports problems of a few kinds, and hardly any kind belongs to two of
them. So what a compilation says of some kind is what one pass says, whatever the others do:
`Workspace.passes` lists the passes in order, `OfKinds` bounds each of them, and
`Workspace.filter_compile` leaves only those that can speak of a kind. -/

namespace AccessRules

/-! ## Diagnostics among events -/

namespace Event

@[simp] theorem diagnostics_nil : diagnostics [] = [] := rfl

@[simp] theorem diagnostics_append (xs ys : List Event) :
    diagnostics (xs ++ ys) = diagnostics xs ++ diagnostics ys :=
  List.filterMap_append

@[simp] theorem diagnostics_debug (text : String) (events : List Event) :
    diagnostics (.debug text :: events) = diagnostics events := rfl

@[simp] theorem diagnostics_info (text : String) (events : List Event) :
    diagnostics (.info text :: events) = diagnostics events := rfl

@[simp] theorem diagnostics_problem (rule : String) (p : Problem) (events : List Event) :
    diagnostics (.problem rule p :: events) = ⟨rule, p⟩ :: diagnostics events := rfl

@[simp] theorem diagnostics_problems (rule : String) (ps : List Problem) :
    diagnostics (ps.map (problem rule)) = ps.map (Diagnostic.mk rule) := by
  induction ps with
  | nil => rfl
  | cons p ps ih => rw [List.map_cons, diagnostics_problem, ih, List.map_cons]

theorem diagnostics_flatMap {α : Type} (f : α → List Event) (as : List α) :
    diagnostics (as.flatMap f) = as.flatMap fun a => diagnostics (f a) :=
  List.filterMap_flatMap

end Event

/-- All diagnostics among the events are of these kinds. -/
def OfKinds (ks : List DiagnosticKind) (events : List Event) : Prop :=
  ∀ d ∈ Event.diagnostics events, d.problem.kind ∈ ks

namespace OfKinds

variable {ks : List DiagnosticKind} {xs ys : List Event}

theorem nil : OfKinds ks [] := by simp [OfKinds]

theorem mono {ks' : List DiagnosticKind} (h : OfKinds ks xs) (hks : ks ⊆ ks') : OfKinds ks' xs :=
  fun d hd => hks (h d hd)

theorem append (hx : OfKinds ks xs) (hy : OfKinds ks ys) : OfKinds ks (xs ++ ys) := by
  unfold OfKinds
  rw [Event.diagnostics_append]
  exact List.forall_mem_append.2 ⟨hx, hy⟩

theorem debug (h : OfKinds ks xs) (text : String) : OfKinds ks (.debug text :: xs) := by
  unfold OfKinds
  rw [Event.diagnostics_debug]
  exact h

theorem one {rule : String} {p : Problem} (h : p.kind ∈ ks) : OfKinds ks [.problem rule p] :=
  List.forall_mem_singleton.2 h

theorem problems {rule : String} {ps : List Problem} (h : ∀ p ∈ ps, p.kind ∈ ks) :
    OfKinds ks (ps.map (Event.problem rule)) := by
  unfold OfKinds
  rw [Event.diagnostics_problems]
  exact List.forall_mem_map.2 h

/-- What is said at every step is said on the whole way. -/
theorem accumulate {σ α : Type} {step : σ → α → σ × List Event} {as : List α}
    (h : ∀ s, ∀ a ∈ as, OfKinds ks (step s a).2) (s : σ) :
    OfKinds ks (accumulate step s as).2 := by
  induction as generalizing s with
  | nil => exact nil
  | cons a as ih =>
      refine append (h s a (List.mem_cons_self ..)) (ih (fun s a ha => ?_) _)
      exact h s a (List.mem_cons_of_mem _ ha)

theorem filter_eq_self {kind : DiagnosticKind} (h : OfKinds [kind] xs) :
    (Event.diagnostics xs).filter (·.problem.kind = kind) = Event.diagnostics xs :=
  List.filter_eq_self.2 fun d hd => decide_eq_true (List.mem_singleton.1 (h d hd))

theorem filter_eq_nil {kind : DiagnosticKind} (h : OfKinds ks xs) (hkind : kind ∉ ks) :
    (Event.diagnostics xs).filter (·.problem.kind = kind) = [] := by
  refine List.filter_eq_nil_iff.2 fun d hd heq => hkind ?_
  rw [← of_decide_eq_true heq]
  exact h d hd

end OfKinds

/-- A diagnostic counts among those of its kind as it does among all. -/
theorem Diagnostic.count_filter_kind (d : Diagnostic) (ds : List Diagnostic) :
    (ds.filter (·.problem.kind = d.problem.kind)).count d = ds.count d :=
  List.count_filter (by simp)

/-! ## Problems rule by rule -/

/-- The diagnostics of the problems of each rule. -/
def Corpus.diagnosed (c : Corpus) (problems : Rule → List Problem) : List Diagnostic :=
  c.rules.values.flatMap fun r => (problems r).map (Diagnostic.mk r.name)

section Diagnosed

variable {c : Corpus} {problems : Rule → List Problem}

/-- If nothing is said twice of a rule, nothing is said twice. -/
theorem Corpus.Built.nodup_diagnosed (h : c.Built) (hnodup : ∀ r, (problems r).Nodup) :
    (c.diagnosed problems).Nodup := by
  refine List.nodup_flatMap.2 ⟨fun r _ => ?_, h.pairwise_names.imp fun hne => ?_⟩
  · exact (hnodup r).map fun a b hab => (Diagnostic.mk.inj hab).2
  · intro d hd hd'
    obtain ⟨_, -, rfl⟩ := List.mem_map.1 hd
    obtain ⟨_, -, hd'⟩ := List.mem_map.1 hd'
    exact hne (Diagnostic.mk.inj hd').1.symm

theorem Corpus.Built.mem_diagnosed_iff (h : c.Built) {r : Rule} (hr : r ∈ c.rules.values)
    {problem : Problem} : ⟨r.name, problem⟩ ∈ c.diagnosed problems ↔ problem ∈ problems r := by
  rw [Corpus.diagnosed, List.mem_flatMap]
  constructor
  · rintro ⟨r', hr', hmem⟩
    obtain ⟨problem', hproblem, heq⟩ := List.mem_map.1 hmem
    obtain ⟨hname, rfl⟩ := Diagnostic.mk.inj heq
    rwa [← h.eq_of_name_eq hr' hr hname]
  · exact fun hproblem => ⟨r, hr, List.mem_map.2 ⟨problem, hproblem, rfl⟩⟩

/-- What is said of a rule is said as often as its own problems have it. -/
theorem Corpus.Built.count_diagnosed (h : c.Built) {r : Rule} (hr : r ∈ c.rules.values)
    (problem : Problem) :
    (c.diagnosed problems).count ⟨r.name, problem⟩ = (problems r).count problem := by
  have hother : ∀ rs : List Rule, (∀ r' ∈ rs, r'.name ≠ r.name) →
      (rs.flatMap fun r' => (problems r').map (Diagnostic.mk r'.name)).count ⟨r.name, problem⟩
        = 0 := by
    intro rs hne
    refine List.count_eq_zero_of_not_mem fun hmem => ?_
    obtain ⟨r', hr', hmem⟩ := List.mem_flatMap.1 hmem
    obtain ⟨_, -, heq⟩ := List.mem_map.1 hmem
    exact hne r' hr' (Diagnostic.mk.inj heq).1
  have hinj : Function.Injective (Diagnostic.mk r.name) := fun _ _ heq => (Diagnostic.mk.inj heq).2
  have hnames := h.pairwise_names
  obtain ⟨before, after, hsplit⟩ := List.append_of_mem hr
  rw [hsplit, List.pairwise_append, List.pairwise_cons] at hnames
  obtain ⟨-, ⟨hafter, -⟩, hbefore⟩ := hnames
  rw [Corpus.diagnosed, hsplit, List.flatMap_append, List.flatMap_cons, List.count_append,
    List.count_append, List.count_map_of_injective _ _ hinj, hother before fun r' hr' =>
      hbefore r' hr' r (List.mem_cons_self ..), hother after fun r' hr' => (hafter r' hr').symm,
    Nat.zero_add, Nat.add_zero]

end Diagnosed

/-! ## Passes -/

theorem Workspace.diagnostics_checkPlaces (w : Workspace) :
    Event.diagnostics w.checkPlaces = w.corpus.diagnosed w.placeProblems := by
  simp [checkPlaces, Corpus.diagnosed, Event.diagnostics_flatMap]

theorem Workspace.ofKinds_checkPlaces (w : Workspace) : OfKinds [.unknownPlace] w.checkPlaces := by
  intro d hd
  rw [diagnostics_checkPlaces] at hd
  obtain ⟨r, -, hd⟩ := List.mem_flatMap.1 hd
  obtain ⟨problem, hproblem, rfl⟩ := List.mem_map.1 hd
  rcases List.mem_append.1 hproblem with hmem | hmem
  · obtain ⟨fault, -, rfl⟩ := List.mem_map.1 hmem
    exact List.mem_singleton_self _
  · obtain ⟨path, -, rfl⟩ := List.mem_map.1 hmem
    exact List.mem_singleton_self _

theorem ContextTable.ofKinds_ofCatalog (c : Catalog) :
    OfKinds [.typeConflict] (ofCatalog c).2 := by
  refine OfKinds.accumulate (fun t entry _ => ?_) ∅
  obtain ⟨name, decl⟩ := entry
  simp only [ContextVar.ofDecl]
  split
  · exact OfKinds.one (by simp [Problem.kind])
  · exact OfKinds.nil

theorem ContextTable.ofKinds_observe (t : ContextTable) (rule var : String) (kind : ContextKind) :
    OfKinds [.typeConflict] (t.observe rule var kind).2 := by
  unfold observe
  split
  · exact OfKinds.nil
  · simp only
    split
    · exact OfKinds.nil
    · exact OfKinds.one (by simp [Problem.kind])

theorem ContextTable.ofKinds_unify (t : ContextTable) (rule a b : String) :
    OfKinds [.typeConflict] (t.unify rule a b).2 := by
  unfold unify
  split
  all_goals try exact OfKinds.nil
  simp only
  split
  · exact OfKinds.nil
  · exact OfKinds.one (by simp [Problem.kind])

theorem ContextTable.ofKinds_record (rule : String) (t : ContextTable) (u : Use) :
    OfKinds [.typeConflict] (record rule t u).2 := by
  cases u with
  | mention var => exact OfKinds.nil
  | shows var kind => exact t.ofKinds_observe rule var kind
  | assign var lit =>
      simp only [record]
      split
      · exact t.ofKinds_observe rule var _
      · exact OfKinds.nil
  | copy var source => exact t.ofKinds_unify rule var source
  | swap a b => exact t.ofKinds_unify rule a b

namespace Workspace

theorem ofKinds_resolveContext (w : Workspace) (t : ContextTable) :
    OfKinds [.undefinedReference, .typeConflict] (w.resolveContext t).2 := by
  refine OfKinds.accumulate (fun t r _ => ?_) t
  have hundefined : OfKinds [.undefinedReference, .typeConflict]
      ((w.undefinedNames r).map fun name => Event.problem r.name (.undefinedReference name)) := by
    rw [show ((w.undefinedNames r).map fun name => Event.problem r.name (.undefinedReference name))
      = ((w.undefinedNames r).map Problem.undefinedReference).map (Event.problem r.name) by simp]
    exact OfKinds.problems (List.forall_mem_map.2 fun name _ => by simp [Problem.kind])
  refine (hundefined.debug _).append (OfKinds.accumulate (fun t u _ => ?_) t)
  exact (t.ofKinds_record r.name u).mono (by simp)

theorem ofKinds_countItems (w : Workspace) :
    OfKinds [.dynamicCount, .missingSettingMax, .unknownItem] w.countItems.2 := by
  refine OfKinds.append (OfKinds.accumulate (fun c r _ => ?_) ∅) OfKinds.nil
  refine OfKinds.append (OfKinds.problems fun p hp => ?_) ?_
  · obtain ⟨demand, -, hdemand⟩ := List.mem_filterMap.1 hp
    unfold Demand.problem? at hdemand
    split at hdemand
    · obtain rfl := Option.some.inj hdemand
      simp [Problem.kind]
    · obtain rfl := Option.some.inj hdemand
      simp [Problem.kind]
    · cases hdemand
  · intro d hd
    obtain ⟨event, hevent, hd⟩ := List.mem_filterMap.1 hd
    obtain ⟨item, -, rfl⟩ := List.mem_map.1 hevent
    obtain rfl := Option.some.inj hd
    simp only
    split <;> simp [Problem.kind]

theorem ofKinds_surveySettings (w : Workspace) :
    OfKinds [.unknownSetting, .unknownOption] w.surveySettings.2 := by
  refine OfKinds.append (OfKinds.accumulate (fun c r _ => ?_) ∅) OfKinds.nil
  show OfKinds _ (accumulate (w.recordSetting r) { census := c } (settingUses r)).2
  refine OfKinds.accumulate (fun state use _ => ?_) _
  obtain ⟨setting, option⟩ := use
  simp only [recordSetting]
  split
  · split
    · exact OfKinds.nil
    · exact OfKinds.one (by simp [Problem.kind])
  · refine OfKinds.problems fun p hp => ?_
    unfold optionProblem? at hp
    split at hp
    · obtain ⟨options, -, hp⟩ := Option.bind_eq_some_iff.1 (Option.mem_toList.1 hp)
      split at hp
      · cases hp
      · obtain rfl := Option.some.inj hp
        simp [Problem.kind]
    · cases hp

/-- The kinds of problems with calls. -/
def callKinds : List DiagnosticKind :=
  [.unknownFunction, .helperArity, .placeDepth, .typeConflict]

/-- The kinds of problems with the types of arguments. -/
def typeKinds : List DiagnosticKind :=
  [.placeDepth, .typeConflict]

theorem ofKinds_passArgument (r : Rule) (s : Signature) (index : Nat) (param : String) (arg : Expr)
    (used : ArgType) (types : HelperTypes) :
    OfKinds typeKinds (passArgument r s index param arg used types).2 := by
  unfold passArgument
  split
  · exact OfKinds.one (by simp [Problem.kind, typeKinds])
  · split
    · exact OfKinds.nil
    · simp only
      split
      · exact OfKinds.nil
      · refine OfKinds.one ?_
        unfold argumentProblem
        split <;> simp [Problem.kind, typeKinds]

theorem ofKinds_helperTypes (w : Workspace) (t : ContextTable) :
    OfKinds callKinds (w.helperTypes t).2 := by
  refine OfKinds.append (OfKinds.accumulate (fun types r _ => ?_) _) OfKinds.nil
  refine OfKinds.accumulate (fun types call _ => ?_) types
  unfold checkCall
  simp only
  split
  · exact OfKinds.one (by simp [Problem.kind, callKinds])
  · exact OfKinds.nil
  · split
    · exact OfKinds.nil
    · exact OfKinds.one (by simp [Problem.kind, callKinds])
  · split
    · refine OfKinds.accumulate (fun types argument _ => ?_) types
      obtain ⟨⟨index, param⟩, arg⟩ := argument
      simp only
      split
      · exact (ofKinds_passArgument _ _ _ _ _ _ _).mono (by simp [typeKinds, callKinds])
      · exact OfKinds.nil
    · exact OfKinds.one (by simp [Problem.kind, callKinds])

end Workspace

/-! ## Evaluation -/

/-- The kinds of problems with evaluation. -/
def evaluationKinds : List DiagnosticKind :=
  [.unresolvedDefault, .unresolvedQualifier]

theorem Report.closed_ofKinds : Report.Closed fun _ m => OfKinds evaluationKinds m.events where
  pure _ := OfKinds.nil
  bind {_ _ m f} hm hf := by
    cases h : m.outcome with
    | ok a =>
        rw [Report.events_bind_of_ok h]
        exact hm.append (hf a)
    | error d =>
        rw [Report.events_bind_of_error h]
        exact hm
  warnDefault _ := OfKinds.one (by simp [Problem.kind, evaluationKinds])
  warnQualifier _ _ _ := OfKinds.one (by simp [Problem.kind, evaluationKinds])

namespace Workspace

theorem ofKinds_compileRules (o : CompileOptions) (k : Knowledge) (rules : List Rule) :
    OfKinds evaluationKinds (compileRules o k rules).events := by
  have hclosed := Report.closed_ofKinds
  induction rules with
  | nil => exact hclosed.pure _
  | cons r rules ih =>
      rw [compileRules]
      refine hclosed.bind ?_ fun out => hclosed.bind ih fun outs => hclosed.pure _
      rw [compileRule_eq]
      refine hclosed.bind ?_ fun reach => hclosed.bind ?_ fun code => hclosed.pure _
      · unfold reachability
        cases r.spot with
        | none => exact hclosed.pure _
        | some spot =>
            exact hclosed.map (k.closed_evaluate hclosed r spot fun _ _ => OfKinds.nil) _
      · unfold ruleCode
        split
        · exact hclosed.pure _
        · split
          · exact hclosed.pure _
          · exact hclosed.map (m := Report.ofExcept _) OfKinds.nil _

/-! ## Compilation -/

/-- The passes of a compilation in order, each with the kinds of problems that it may report. -/
def passes (w : Workspace) (o : CompileOptions) : List (List DiagnosticKind × List Event) := [
  ([.unknownPlace], w.checkPlaces),
  ([.typeConflict], (ContextTable.ofCatalog w.catalog).2),
  ([.undefinedReference, .typeConflict],
    (w.resolveContext (ContextTable.ofCatalog w.catalog).1).2),
  ([.dynamicCount, .missingSettingMax, .unknownItem], w.countItems.2),
  ([.unknownSetting, .unknownOption], w.surveySettings.2),
  (callKinds, (w.helperTypes w.analysed.contexts).2),
  (evaluationKinds, (compileRules o w.knowledge w.corpus.rules.values).events)]

theorem ofKinds_passes (w : Workspace) (o : CompileOptions) :
    ∀ pass ∈ w.passes o, OfKinds pass.1 pass.2 := by
  simp only [passes, List.forall_mem_cons]
  exact ⟨w.ofKinds_checkPlaces, ContextTable.ofKinds_ofCatalog _, w.ofKinds_resolveContext _,
    w.ofKinds_countItems, w.ofKinds_surveySettings, w.ofKinds_helperTypes _,
    ofKinds_compileRules o _ _, List.forall_mem_nil _⟩

/-- The diagnostics of a compilation of rules of the right shape, pass by pass. -/
theorem diagnostics_compile {w : Workspace} (o : CompileOptions)
    (hshape : ∀ r ∈ w.corpus.rules.values, r.body.misshapen? = none) :
    Event.diagnostics (w.compile o).events
      = (w.passes o).flatMap fun pass => Event.diagnostics pass.2 := by
  have hcheck : w.checkShapes = pure () := by
    unfold checkShapes
    rw [List.findSome?_eq_none_iff.2 fun r hr => Body.defect?_eq_none_iff.2 (hshape r hr)]
  have hall : Event.diagnostics (w.compile o).events
      = Event.diagnostics (w.compileAll o).events := by
    unfold compile
    cases h : w.compileAll o with
    | mk outcome events => cases outcome <;> simp
  have hanalyse : w.analyse.events = w.checkPlaces ++ ((ContextTable.ofCatalog w.catalog).2
      ++ ((w.resolveContext (ContextTable.ofCatalog w.catalog).1).2
      ++ ([.debug (toString w.analysed.contexts.size ++ " context variables")]
      ++ (w.countItems.2 ++ (w.surveySettings.2 ++ ((w.helperTypes w.analysed.contexts).2
      ++ ([.debug ("packed " ++ toString w.analysed.layout.size ++ " flags into "
        ++ toString w.analysed.layout.groups.length ++ " groups")] ++ []))))))) := rfl
  have houtputs : (w.compileAll o).events
      = w.analyse.events ++ (compileRules o w.knowledge w.corpus.rules.values).events := by
    rw [compileAll, hcheck, Report.events_bind_of_ok rfl,
      Report.events_bind_of_ok w.outcome_analyse]
    exact congrArg (w.analyse.events ++ ·) (Report.events_map _ _)
  rw [hall, houtputs, hanalyse]
  simp [passes]

/-- What a compilation says of a kind is what the passes that may report it say. -/
theorem filter_compile {w : Workspace} (o : CompileOptions)
    (hshape : ∀ r ∈ w.corpus.rules.values, r.body.misshapen? = none) (kind : DiagnosticKind) :
    (Event.diagnostics (w.compile o).events).filter (·.problem.kind = kind)
      = ((w.passes o).filter fun pass => kind ∈ pass.1).flatMap fun pass =>
          (Event.diagnostics pass.2).filter (·.problem.kind = kind) := by
  have hpasses := w.ofKinds_passes o
  rw [diagnostics_compile o hshape, List.filter_flatMap]
  generalize w.passes o = passes at hpasses
  induction passes with
  | nil => rfl
  | cons pass passes ih =>
      obtain ⟨hpass, hpasses⟩ := List.forall_mem_cons.1 hpasses
      rw [List.flatMap_cons, ih hpasses]
      by_cases hkind : kind ∈ pass.1
      · rw [List.filter_cons_of_pos (by simpa using hkind), List.flatMap_cons]
      · rw [List.filter_cons_of_neg (by simpa using hkind), hpass.filter_eq_nil hkind,
          List.nil_append]

/-- What only one pass may report is said as often as that pass says it. -/
theorem count_compile_of_pass {w : Workspace} {o : CompileOptions}
    (hshape : ∀ r ∈ w.corpus.rules.values, r.body.misshapen? = none) {d : Diagnostic}
    {pass : List DiagnosticKind × List Event}
    (hpass : ((w.passes o).filter fun pass => d.problem.kind ∈ pass.1) = [pass]) :
    (Event.diagnostics (w.compile o).events).count d = (Event.diagnostics pass.2).count d := by
  rw [← d.count_filter_kind, filter_compile o hshape, hpass, List.flatMap_singleton,
    d.count_filter_kind]

end Workspace

end AccessRules
