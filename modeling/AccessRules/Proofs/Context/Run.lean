import AccessRules.Proofs.Context.KindAgreement
import AccessRules.Proofs.Diagnostics

set_option autoImplicit false

/-! # Uses one after the other

The table of a corpus comes out of a run over rules and over the uses in each rule. It is one run
over the flat list `Workspace.allUses`, with `Workspace.tableAfter` for the tables on the way. What
the run says is of two kinds: each rule reports its undefined names, whatever the table, and each
use may report a conflict of kinds with the table at that moment. -/

namespace AccessRules

theorem ContextTable.ofKinds_recordAll (t : ContextTable) (uses : List (String × Use)) :
    OfKinds [.typeConflict] (t.recordAll uses).2 :=
  OfKinds.accumulate (fun t u _ => t.ofKinds_record u.1 u.2) t

namespace Workspace

variable (w : Workspace)

/-- The uses of all rules in the order in which they count, each with the name of its rule. -/
def allUses : List (String × Use) :=
  w.corpus.rules.values.flatMap w.namedUses

/-- The table after some of the uses. -/
def tableAfter (n : Nat) : ContextTable :=
  ((ContextTable.ofCatalog w.catalog).1.recordAll (w.allUses.take n)).1

theorem contextRun_fst : w.contextRun.1 = w.tableAfter w.allUses.length := by
  rw [contextRun, resolveContext, accumulate_resolveRule_fst, tableAfter, List.take_length]
  rfl

theorem tableAfter_succ {n : Nat} {u : String × Use} (hu : w.allUses[n]? = some u) :
    w.tableAfter (n + 1) = (ContextTable.record u.1 (w.tableAfter n) u.2).1 := by
  unfold tableAfter
  rw [List.take_add_one, hu, ContextTable.recordAll_append_fst]
  rfl

theorem tableAfter_succ_of_none {n : Nat} (hu : w.allUses[n]? = none) :
    w.tableAfter (n + 1) = w.tableAfter n := by
  unfold tableAfter
  rw [List.take_add_one, hu, Option.toList_none, List.append_nil]

/-! ## What is reported -/

/-- What is said about the names of a rule that stand for nothing. -/
def undefinedProblems (r : Rule) : List Problem :=
  (w.undefinedNames r).map .undefinedReference

theorem diagnostics_resolveRule (t : ContextTable) (r : Rule) :
    Event.diagnostics (w.resolveRule t r).2 = (w.undefinedProblems r).map (Diagnostic.mk r.name)
      ++ Event.diagnostics (t.recordAll (w.namedUses r)).2 := by
  have hevents : (w.resolveRule t r).2 = .debug ("resolving context references in " ++ r.name)
      :: ((w.undefinedProblems r).map (Event.problem r.name)
        ++ (accumulate (ContextTable.record r.name) t (w.uses r)).2) := by
    rw [undefinedProblems, List.map_map]
    rfl
  rw [hevents, Event.diagnostics_debug, Event.diagnostics_append, Event.diagnostics_problems,
    namedUses, ← accumulate_record]

theorem ofKinds_undefinedProblems (r : Rule) :
    OfKinds [.undefinedReference] ((w.undefinedProblems r).map (Event.problem r.name)) :=
  OfKinds.problems (List.forall_mem_map.2 fun name _ => by simp [Problem.kind])

/-- Of what is said about a rule, undefined names do not depend on the table. -/
theorem filter_undefinedReference_resolveRule (t : ContextTable) (r : Rule) :
    (Event.diagnostics (w.resolveRule t r).2).filter (·.problem.kind = .undefinedReference)
      = (w.undefinedProblems r).map (Diagnostic.mk r.name) := by
  have hnames := (w.ofKinds_undefinedProblems r).filter_eq_self
  rw [Event.diagnostics_problems] at hnames
  rw [diagnostics_resolveRule, List.filter_append, hnames,
    (t.ofKinds_recordAll _).filter_eq_nil (by decide), List.append_nil]

/-- Of what is said about a rule, conflicts of kinds are those of its uses. -/
theorem filter_typeConflict_resolveRule (t : ContextTable) (r : Rule) :
    (Event.diagnostics (w.resolveRule t r).2).filter (·.problem.kind = .typeConflict)
      = (Event.diagnostics (t.recordAll (w.namedUses r)).2).filter
          (·.problem.kind = .typeConflict) := by
  have hnames := (w.ofKinds_undefinedProblems r).filter_eq_nil
    (show DiagnosticKind.typeConflict ∉ _ by decide)
  rw [Event.diagnostics_problems] at hnames
  rw [diagnostics_resolveRule, List.filter_append, hnames, List.nil_append]

theorem filter_undefinedReference_contextRun :
    (Event.diagnostics w.contextRun.2).filter (·.problem.kind = .undefinedReference)
      = w.corpus.diagnosed w.undefinedProblems := by
  let part (events : List Event) : List Diagnostic :=
    (Event.diagnostics events).filter (·.problem.kind = .undefinedReference)
  have happend : ∀ xs ys, part (xs ++ ys) = part xs ++ part ys := by simp [part]
  exact accumulate_snd_part happend w.filter_undefinedReference_resolveRule
    (ContextTable.ofCatalog w.catalog).1 w.corpus.rules.values

theorem filter_typeConflict_contextRun :
    (Event.diagnostics w.contextRun.2).filter (·.problem.kind = .typeConflict)
      = Event.diagnostics ((ContextTable.ofCatalog w.catalog).1.recordAll w.allUses).2 := by
  let part (events : List Event) : List Diagnostic :=
    (Event.diagnostics events).filter (·.problem.kind = .typeConflict)
  have happend : ∀ xs ys, part (xs ++ ys) = part xs ++ part ys := by simp [part]
  rw [← (ContextTable.ofKinds_recordAll _ w.allUses).filter_eq_self]
  exact accumulate_flatMap_snd happend w.resolveRule_fst w.filter_typeConflict_resolveRule
    (ContextTable.ofCatalog w.catalog).1 w.corpus.rules.values

/-- A conflict of kinds is reported by a use, with the table at that moment. -/
theorem mem_contextRun_iff_of_typeConflict {d : Diagnostic}
    (hkind : d.problem.kind = .typeConflict) :
    d ∈ Event.diagnostics w.contextRun.2 ↔ ∃ n u, w.allUses[n]? = some u ∧
      d ∈ Event.diagnostics (ContextTable.record u.1 (w.tableAfter n) u.2).2 := by
  have hfilter : d ∈ Event.diagnostics w.contextRun.2
      ↔ d ∈ (Event.diagnostics w.contextRun.2).filter (·.problem.kind = .typeConflict) := by
    rw [List.mem_filter, hkind]
    simp
  rw [hfilter, filter_typeConflict_contextRun, ContextTable.recordAll, accumulate_snd_range,
    Event.diagnostics_flatMap, List.mem_flatMap]
  constructor
  · rintro ⟨n, -, hd⟩
    rcases hu : w.allUses[n]? with _ | u
    · rw [hu] at hd
      cases hd
    · rw [hu] at hd
      exact ⟨n, u, hu, hd⟩
  · rintro ⟨n, u, hu, hd⟩
    refine ⟨n, List.mem_range.2 (List.getElem?_eq_some_iff.1 hu).1, ?_⟩
    rw [hu]
    exact hd

end Workspace

end AccessRules
