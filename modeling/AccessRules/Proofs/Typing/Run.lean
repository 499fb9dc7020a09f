import AccessRules.Proofs.Accumulate
import AccessRules.Proofs.Corpus
import AccessRules.Proofs.Diagnostics
import AccessRules.Proofs.Expr.Calls

set_option autoImplicit false

/-! # Arguments one after the other

The types of parameters come out of a run over rules, over the calls of each rule, and over the
arguments of each call. `Workspace.passings` lists all the arguments in the order in which they are
looked at, each with the parameter that it is passed for, and `Workspace.pass` is what one of them
does. So the run is one over a flat list: `Workspace.helperTypes_fst`, and
`Workspace.typeErrors_helperTypes` for what it says. -/

namespace AccessRules

/-! ## Arguments -/

/-- An argument that a rule passes for a parameter of a helper. -/
structure Passing where
  rule : Rule
  helper : Signature
  index : Nat
  param : Param
  arg : Expr

/-- The arguments of a call of a helper with its parameters. -/
def Signature.passings (s : Signature) (r : Rule) (args : List Expr) : List Passing :=
  ((List.range s.params.length).zip s.params |>.zip args).map fun a => ⟨r, s, a.1.1, a.1.2, a.2⟩

/-- The arguments that a call passes to a helper: none if there are too few or too many of them. -/
def Corpus.passings (c : Corpus) (r : Rule) (call : CallSite) : List Passing :=
  match c.helpers.find? call.func with
  | some s => if s.params.length = call.args.length then s.passings r call.args else []
  | none => []

/-- All arguments that rules pass to helpers: rule by rule in the order of their names, and in a
    rule call by call. -/
def Workspace.passings (w : Workspace) : List Passing :=
  w.corpus.rules.values.flatMap fun r => r.body.callsInOrder.flatMap (w.corpus.passings r)

theorem Signature.mem_passings_iff {s : Signature} {r : Rule} {args : List Expr} {p : Passing} :
    p ∈ s.passings r args ↔ p.rule = r ∧ p.helper = s ∧ s.params[p.index]? = some p.param ∧
      args[p.index]? = some p.arg := by
  rw [passings, List.mem_map]
  simp only [List.mem_iff_getElem?, List.getElem?_zip_eq_some]
  constructor
  · rintro ⟨⟨⟨index, param⟩, arg⟩, ⟨n, ⟨hindex, hparam⟩, harg⟩, rfl⟩
    obtain ⟨hn, hindex⟩ := List.getElem?_eq_some_iff.1 hindex
    obtain rfl : n = index := by simpa using hindex
    exact ⟨rfl, rfl, hparam, harg⟩
  · obtain ⟨rule, helper, index, param, arg⟩ := p
    rintro ⟨rfl, rfl, hparam, harg⟩
    have hindex : index < helper.params.length := (List.getElem?_eq_some_iff.1 hparam).1
    exact ⟨((index, param), arg), ⟨index, ⟨List.getElem?_range hindex, hparam⟩, harg⟩, rfl⟩

/-- The arguments that are passed are those of the calls of helpers with the right number of
    them. -/
theorem Workspace.mem_passings_iff {w : Workspace} {p : Passing} :
    p ∈ w.passings ↔ p.rule ∈ w.corpus.rules.values ∧ ∃ func args,
      ⟨func, args⟩ ∈ p.rule.body.callsInOrder ∧ w.corpus.helpers.find? func = some p.helper ∧
      p.helper.params.length = args.length ∧ p.helper.params[p.index]? = some p.param ∧
      args[p.index]? = some p.arg := by
  simp only [passings, List.mem_flatMap, Corpus.passings]
  constructor
  · rintro ⟨r, hr, ⟨func, args⟩, hcall, hp⟩
    cases hs : w.corpus.helpers.find? func with
    | none => simp [hs] at hp
    | some s =>
        simp only [hs] at hp
        split at hp
        · rename_i hlength
          obtain ⟨rfl, rfl, hparam, harg⟩ := Signature.mem_passings_iff.1 hp
          exact ⟨hr, func, args, hcall, hs, hlength, hparam, harg⟩
        · cases hp
  · rintro ⟨hr, func, args, hcall, hs, hlength, hparam, harg⟩
    refine ⟨p.rule, hr, ⟨func, args⟩, hcall, ?_⟩
    simp only [hs, if_pos hlength]
    exact Signature.mem_passings_iff.2 ⟨rfl, rfl, hparam, harg⟩

/-- The parameter that an argument is passed for is one of a helper of the corpus. -/
structure Passing.Fits (c : Corpus) (p : Passing) : Prop where
  helper : c.helpers.find? p.helper.name = some p.helper
  param : p.helper.params[p.index]? = some p.param

theorem Workspace.fits_of_mem_passings {w : Workspace} (h : w.corpus.Built) {p : Passing}
    (hp : p ∈ w.passings) : p.Fits w.corpus := by
  obtain ⟨-, func, args, -, hs, -, hparam, -⟩ := mem_passings_iff.1 hp
  exact ⟨by rw [h.helper_name hs, hs], hparam⟩

theorem Corpus.passings_eq_nil {c : Corpus} {r : Rule} {call : CallSite}
    (h : ∀ s, c.resolve call.func ≠ .helper s) : c.passings r call = [] := by
  unfold passings
  cases hs : c.helpers.find? call.func with
  | none => rfl
  | some s => exact absurd (by simp [resolve, hs]) (h s)

/-! ## The run -/

/-- The diagnostics about types that do not fit together. -/
def Event.typeErrors (events : List Event) : List Diagnostic :=
  (diagnostics events).filter fun d => d.problem.kind ∈ Workspace.typeKinds

theorem Event.typeErrors_append (xs ys : List Event) :
    typeErrors (xs ++ ys) = typeErrors xs ++ typeErrors ys := by
  rw [typeErrors, diagnostics_append, List.filter_append, typeErrors, typeErrors]

namespace Workspace

variable (w : Workspace) (contexts : ContextTable)

/-- The types after an argument is passed. -/
def pass (types : HelperTypes) (p : Passing) : HelperTypes × List Event :=
  match w.argType? contexts types p.rule p.arg with
  | some used => passArgument p.rule p.helper p.index p.param.name p.arg used types
  | none => (types, [])

theorem passArguments_eq (r : Rule) (s : Signature) (types : HelperTypes) (args : List Expr) :
    w.passArguments contexts r s types args
      = accumulate (w.pass contexts) types (s.passings r args) := by
  rw [Signature.passings, accumulate_map]
  rfl

/-- Of the checks of a call only those of its arguments bear on types. -/
theorem checkCall_eq_run (r : Rule) (types : HelperTypes) (call : CallSite) :
    (w.checkCall contexts r types call).1
        = (accumulate (w.pass contexts) types (w.corpus.passings r call)).1 ∧
      Event.typeErrors (w.checkCall contexts r types call).2
        = Event.typeErrors (accumulate (w.pass contexts) types (w.corpus.passings r call)).2 := by
  cases h : w.corpus.resolve call.func with
  | helper s =>
      simp only [checkCall, h, Corpus.passings, Corpus.find?_helpers_of_resolve h]
      split
      · rw [passArguments_eq]
        exact ⟨rfl, rfl⟩
      · exact ⟨rfl, rfl⟩
  | builtin b =>
      rw [Corpus.passings_eq_nil (by simp [h])]
      simp only [checkCall, h]
      split <;> exact ⟨rfl, rfl⟩
  | rule r' =>
      rw [Corpus.passings_eq_nil (by simp [h])]
      simp only [checkCall, h]
      exact ⟨rfl, rfl⟩
  | unknown =>
      rw [Corpus.passings_eq_nil (by simp [h])]
      simp only [checkCall, h]
      exact ⟨rfl, rfl⟩

/-- The types known after some of the arguments. -/
def typesAfter (n : Nat) : HelperTypes :=
  (accumulate (w.pass contexts) (HelperTypes.ofCorpus w.corpus) (w.passings.take n)).1

/-- What is said of the argument at a position. -/
def saidAt (n : Nat) : List Diagnostic :=
  ((w.passings[n]?).map fun p =>
    Event.diagnostics (w.pass contexts (w.typesAfter contexts n) p).2).getD []

theorem typesAfter_zero : w.typesAfter contexts 0 = HelperTypes.ofCorpus w.corpus := rfl

theorem typesAfter_succ {n : Nat} {p : Passing} (hp : w.passings[n]? = some p) :
    w.typesAfter contexts (n + 1) = (w.pass contexts (w.typesAfter contexts n) p).1 := by
  unfold typesAfter
  rw [List.take_add_one, hp, accumulate_append_fst]
  rfl

theorem typesAfter_succ_of_none {n : Nat} (hp : w.passings[n]? = none) :
    w.typesAfter contexts (n + 1) = w.typesAfter contexts n := by
  unfold typesAfter
  rw [List.take_add_one, hp, Option.toList_none, List.append_nil]

/-- The types after the calls of a rule. -/
theorem checkCalls_eq_run (r : Rule) (types : HelperTypes) :
    (accumulate (w.checkCall contexts r) types r.body.calls).1 = (accumulate (w.pass contexts) types
        (r.body.callsInOrder.flatMap (w.corpus.passings r))).1 ∧
      Event.typeErrors (accumulate (w.checkCall contexts r) types r.body.calls).2
        = Event.typeErrors (accumulate (w.pass contexts) types
            (r.body.callsInOrder.flatMap (w.corpus.passings r))).2 := by
  have hcall types call := w.checkCall_eq_run contexts r types call
  rw [r.body.calls_eq]
  exact ⟨accumulate_flatMap_fst (fun types call => (hcall types call).1) _ _,
    accumulate_flatMap_snd Event.typeErrors_append (fun types call => (hcall types call).1)
      (fun types call => (hcall types call).2) _ _⟩

theorem helperTypes_fst :
    (w.helperTypes contexts).1 = w.typesAfter contexts w.passings.length := by
  unfold typesAfter passings
  rw [List.take_length]
  exact accumulate_flatMap_fst (fun types r => (w.checkCalls_eq_run contexts r types).1) _ _

theorem typeErrors_accumulate_pass (types : HelperTypes) (ps : List Passing) :
    Event.typeErrors (accumulate (w.pass contexts) types ps).2
      = Event.diagnostics (accumulate (w.pass contexts) types ps).2 := by
  have hkinds : OfKinds typeKinds (accumulate (w.pass contexts) types ps).2 := by
    refine OfKinds.accumulate (fun types p _ => ?_) types
    unfold pass
    split
    · exact ofKinds_passArgument _ _ _ _ _ _ _
    · exact OfKinds.nil
  exact List.filter_eq_self.2 fun d hd => decide_eq_true (hkinds d hd)

/-- The run speaks of types exactly where arguments are passed. -/
theorem typeErrors_helperTypes : Event.typeErrors (w.helperTypes contexts).2
    = (List.range w.passings.length).flatMap (w.saidAt contexts) := by
  have hrun : Event.typeErrors (w.helperTypes contexts).2 = Event.typeErrors
      (accumulate (w.pass contexts) (HelperTypes.ofCorpus w.corpus) w.passings).2 := by
    show Event.typeErrors (_ ++ [Event.debug _]) = _
    rw [Event.typeErrors_append]
    refine (List.append_nil _).trans ?_
    exact accumulate_flatMap_snd Event.typeErrors_append
      (fun types r => (w.checkCalls_eq_run contexts r types).1)
      (fun types r => (w.checkCalls_eq_run contexts r types).2) _ _
  rw [hrun, typeErrors_accumulate_pass, accumulate_snd_range, Event.diagnostics_flatMap]
  refine List.flatMap_congr fun n _ => ?_
  unfold saidAt
  cases w.passings[n]? <;> rfl

end Workspace

end AccessRules
