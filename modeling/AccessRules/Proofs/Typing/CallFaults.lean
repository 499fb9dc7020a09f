import AccessRules.Proofs.Typing.Run

set_option autoImplicit false

/-! # Calls of nothing and calls with the wrong number of arguments

`Corpus.CallFault` says what is wrong with a call: there is nothing of that name to call, or what
there is takes another number of arguments. Such a fault does not depend on the types that are known
when the call is looked at, so a compilation reports it once for each occurrence of the call. -/

namespace AccessRules

/-! ## Faults -/

namespace Corpus

variable {c : Corpus} {call : CallSite} {problem problem' : Problem}

/-- What is wrong with a call. A helper hides a builtin function of its name, and both hide rules;
    a rule can be called with any arguments. -/
inductive CallFault (c : Corpus) (call : CallSite) : Problem → Prop
  | unknown (hhelper : c.helpers.find? call.func = none) (hbuiltin : builtin? call.func = none)
      (hrule : ∀ r ∈ c.rules.values, r.isHelper = false → r.shortName ≠ call.func) :
      CallFault c call (.unknownFunction call.func)
  | helper {s : Signature} (hhelper : c.helpers.find? call.func = some s)
      (harity : s.params.length ≠ call.args.length) :
      CallFault c call (.helperArity s.name s.params.length call.args.length)
  | builtin {b : Builtin} (hhelper : c.helpers.find? call.func = none)
      (hbuiltin : builtin? call.func = some b) (harity : b.arity ≠ call.args.length) :
      CallFault c call (.builtinArity call.func b.arity call.args.length)

/-- The fault of a call, by what the call refers to. -/
def callFault? (c : Corpus) (call : CallSite) : Option Problem :=
  match c.resolve call.func with
  | .unknown => some (.unknownFunction call.func)
  | .rule _ => none
  | .builtin b =>
    if b.arity = call.args.length then none
    else some (.builtinArity call.func b.arity call.args.length)
  | .helper s =>
    if s.params.length = call.args.length then none
    else some (.helperArity s.name s.params.length call.args.length)

theorem callFault?_eq_some_iff : c.callFault? call = some problem ↔ c.CallFault call problem := by
  unfold callFault?
  constructor
  · intro h
    cases hcallee : c.resolve call.func with
    | unknown =>
        obtain ⟨hhelper, hbuiltin, hrule⟩ := resolve_eq_unknown_iff.1 hcallee
        simp only [hcallee, Option.some.injEq] at h
        exact h ▸ .unknown hhelper hbuiltin hrule
    | rule r => simp [hcallee] at h
    | builtin b =>
        obtain ⟨hhelper, hbuiltin⟩ := resolve_eq_builtin_iff.1 hcallee
        simp only [hcallee, Option.ite_none_left_eq_some, Option.some.injEq] at h
        exact h.2 ▸ .builtin hhelper hbuiltin h.1
    | helper s =>
        simp only [hcallee, Option.ite_none_left_eq_some, Option.some.injEq] at h
        exact h.2 ▸ .helper (resolve_eq_helper_iff.1 hcallee) h.1
  · intro h
    cases h with
    | unknown hhelper hbuiltin hrule =>
        rw [resolve_eq_unknown_iff.2 ⟨hhelper, hbuiltin, hrule⟩]
    | helper hhelper harity => simp only [resolve_eq_helper_iff.2 hhelper, if_neg harity]
    | builtin hhelper hbuiltin harity =>
        simp only [resolve_eq_builtin_iff.2 ⟨hhelper, hbuiltin⟩, if_neg harity]

instance (c : Corpus) (call : CallSite) (problem : Problem) :
    Decidable (c.CallFault call problem) :=
  decidable_of_iff _ callFault?_eq_some_iff

/-- There is at most one thing wrong with a call. -/
theorem CallFault.unique (h : c.CallFault call problem) (h' : c.CallFault call problem') :
    problem = problem' := by
  rw [← callFault?_eq_some_iff] at h h'
  exact Option.some.inj (h.symm.trans h')

theorem CallFault.severity (h : c.CallFault call problem) : problem.severity = .error := by
  cases h <;> rfl

end Corpus

/-! ## The run -/

namespace Workspace

/-- The kinds of problems that faults of calls are. -/
def faultKinds : List DiagnosticKind :=
  [.unknownFunction, .helperArity]

end Workspace

/-- The diagnostics about faults of calls. -/
def Event.callFaults (events : List Event) : List Diagnostic :=
  (diagnostics events).filter fun d => d.problem.kind ∈ Workspace.faultKinds

theorem Event.callFaults_append (xs ys : List Event) :
    callFaults (xs ++ ys) = callFaults xs ++ callFaults ys := by
  rw [callFaults, diagnostics_append, List.filter_append, callFaults, callFaults]

namespace Workspace

variable (w : Workspace) (contexts : ContextTable)

/-- Arguments of any types are no fault of a call. -/
theorem callFaults_passArguments (r : Rule) (s : Signature) (types : HelperTypes)
    (args : List Expr) : Event.callFaults (w.passArguments contexts r s types args).2 = [] := by
  rw [passArguments_eq, Event.callFaults, ← typeErrors_accumulate_pass, Event.typeErrors,
    List.filter_filter]
  refine List.filter_eq_nil_iff.2 fun d _ => ?_
  cases d.problem.kind <;> decide

theorem callFaults_checkCall (r : Rule) (types : HelperTypes) (call : CallSite) :
    Event.callFaults (w.checkCall contexts r types call).2
      = (w.corpus.callFault? call).toList.map (Diagnostic.mk r.name) := by
  unfold checkCall Corpus.callFault?
  cases w.corpus.resolve call.func with
  | unknown => rfl
  | rule r' => rfl
  | builtin b =>
      simp only
      split <;> rfl
  | helper s =>
      simp only
      split
      · exact w.callFaults_passArguments contexts r s types call.args
      · rfl

/-- The faults of the calls of a rule. -/
def callProblems (r : Rule) : List Problem :=
  r.body.calls.filterMap w.corpus.callFault?

/-- The run reports the faults of every call, whatever types it has come to know. -/
theorem callFaults_helperTypes :
    Event.callFaults (w.helperTypes contexts).2 = w.corpus.diagnosed w.callProblems := by
  have hrule (types : HelperTypes) (r : Rule) :
      Event.callFaults (accumulate (w.checkCall contexts r) types r.body.calls).2
        = (w.callProblems r).map (Diagnostic.mk r.name) := by
    rw [accumulate_snd_part Event.callFaults_append (w.callFaults_checkCall contexts r),
      callProblems, List.filterMap_eq_flatMap_toList, List.map_flatMap]
  show Event.callFaults (_ ++ [Event.debug _]) = _
  rw [Event.callFaults_append]
  refine (List.append_nil _).trans ?_
  exact accumulate_snd_part Event.callFaults_append hrule _ _

theorem count_compile_of_faultKind {w : Workspace} (o : CompileOptions)
    (hshape : ∀ r ∈ w.corpus.rules.values, r.body.misshapen? = none) {d : Diagnostic}
    (hkind : d.problem.kind ∈ faultKinds) :
    (Event.diagnostics (w.compile o).events).count d
      = (w.corpus.diagnosed w.callProblems).count d := by
  have hfaults : (Event.callFaults (w.helperTypes w.analysed.contexts).2).count d
      = (Event.diagnostics (w.helperTypes w.analysed.contexts).2).count d :=
    List.count_filter (decide_eq_true hkind)
  rw [← callFaults_helperTypes w w.analysed.contexts, hfaults]
  rcases List.mem_pair.1 hkind with hkind | hkind
  · exact count_compile_of_pass hshape (by rw [hkind]; rfl)
  · exact count_compile_of_pass hshape (by rw [hkind]; rfl)

end Workspace

/-- Every occurrence of a call with a fault is an error of its rule: a call of what is no helper, no
    builtin function and no other rule, or one with the wrong number of arguments for a helper or a
    builtin function. There is one error for each occurrence, and there are no other such errors. -/
theorem call_faults_exact {w : Workspace} (o : CompileOptions) (hbuilt : w.corpus.Built)
    (hshape : ∀ r ∈ w.corpus.rules.values, r.body.misshapen? = none) :
    (∀ r ∈ w.corpus.rules.values, ∀ problem : Problem,
      problem.kind = .unknownFunction ∨ problem.kind = .helperArity →
      (Event.diagnostics (w.compile o).events).count ⟨r.name, problem⟩
        = r.body.callCount fun call => w.corpus.CallFault call problem) ∧
    (∀ call problem problem', w.corpus.CallFault call problem →
      w.corpus.CallFault call problem' → problem = problem') ∧
    ∀ d ∈ Event.diagnostics (w.compile o).events,
      d.problem.kind = .unknownFunction ∨ d.problem.kind = .helperArity →
      d.severity = .error ∧ ∃ r ∈ w.corpus.rules.values, d.rule = r.name ∧
        ∃ func args, r.body.HasCall func args ∧ w.corpus.CallFault ⟨func, args⟩ d.problem := by
  refine ⟨fun r hr problem hkind => ?_, fun _ _ _ => Corpus.CallFault.unique, ?_⟩
  · have hfault : r.body.callCount (fun call => w.corpus.CallFault call problem)
        = r.body.calls.countP fun call => w.corpus.callFault? call == some problem := by
      rw [← Body.countP_callsInOrder _ (Body.paired_of_shape (hshape r hr)), Body.calls_eq]
      refine List.countP_congr fun call _ => ?_
      rw [decide_eq_true_eq, beq_iff_eq, Corpus.callFault?_eq_some_iff]
    rw [Workspace.count_compile_of_faultKind o hshape (List.mem_pair.2 hkind),
      hbuilt.count_diagnosed hr, hfault, Workspace.callProblems, List.count_filterMap]
  · intro d hd hkind
    have hcount := List.count_pos_iff.2 hd
    rw [Workspace.count_compile_of_faultKind o hshape (List.mem_pair.2 hkind),
      List.count_pos_iff] at hcount
    obtain ⟨r, hr, hd⟩ := List.mem_flatMap.1 hcount
    obtain ⟨problem, hproblem, rfl⟩ := List.mem_map.1 hd
    obtain ⟨⟨func, args⟩, hcall, hfault⟩ := List.mem_filterMap.1 hproblem
    rw [Body.calls_eq, Body.mem_callsInOrder_iff (Body.paired_of_shape (hshape r hr))] at hcall
    have hfault := Corpus.callFault?_eq_some_iff.1 hfault
    exact ⟨hfault.severity, r, hr, rfl, func, args, hcall, hfault⟩

/-- A condition and an action that both call a helper, each with another call in an argument. -/
def leverRule : Rule where
  name := "rules:lever"
  body := .actions (.cond [.invoke "pull" [.call "nope" []] false]
    [.call "pull" [.int 1, .call "nope" []]] none)

def pullBody : Body := .requirement (.bool true)

def pullSignature : Signature where
  name := "pull"
  params := [{ name := "n", type := none }]

def levers : Workspace where
  catalog := {}
  corpus :=
    { rules := .ofList [("rules:lever", leverRule),
        ("helpers:pull", { name := "helpers:pull", body := pullBody })]
      helpers := .ofList [("pull", pullSignature)] }

theorem levers_built : levers.corpus.Built := by
  have hlever : Corpus.Built { rules := .ofList [("rules:lever", leverRule)] } :=
    .rule (r := leverRule) .empty rfl
  have hpull : Corpus.addHelper { rules := .ofList [("rules:lever", leverRule)] } "$pull(^n)"
      pullBody = .ok levers.corpus :=
    Corpus.addHelper_eq_ok_iff.2 ⟨pullSignature, rfl, rfl, rfl, rfl⟩
  exact .helper hlever hpull

theorem levers_shape : ∀ r ∈ levers.corpus.rules.values, r.body.misshapen? = none :=
  List.forall_mem_cons.2 ⟨rfl, List.forall_mem_singleton.2 rfl⟩

/-- Only the call with two arguments has the wrong number, and both inner calls are found. -/
theorem levers_faults :
    levers.corpus.Built ∧ (∀ r ∈ levers.corpus.rules.values, r.body.misshapen? = none) ∧
      (Event.diagnostics (levers.compile {}).events).count
        ⟨"rules:lever", .unknownFunction "nope"⟩ = 2 ∧
      (Event.diagnostics (levers.compile {}).events).count
        ⟨"rules:lever", .helperArity "pull" 1 2⟩ = 1 := by
  have hrule : leverRule ∈ levers.corpus.rules.values :=
    List.mem_cons_of_mem _ (List.mem_cons_self ..)
  obtain ⟨hcount, -, -⟩ := call_faults_exact {} levers_built levers_shape
  refine ⟨levers_built, levers_shape, ?_, ?_⟩
  · refine (hcount leverRule hrule _ (.inl rfl)).trans ?_
    rw [← Body.countP_callsInOrder _ (Body.paired_of_shape (levers_shape _ hrule)), ← Body.calls_eq]
    rfl
  · refine (hcount leverRule hrule _ (.inr rfl)).trans ?_
    rw [← Body.countP_callsInOrder _ (Body.paired_of_shape (levers_shape _ hrule)), ← Body.calls_eq]
    rfl

end AccessRules
