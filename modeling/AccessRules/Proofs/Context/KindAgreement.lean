import AccessRules.Context.Uses
import AccessRules.Proofs.Accumulate
import AccessRules.Proofs.Collection.Roster
import AccessRules.Proofs.Expr.Nodes

set_option autoImplicit false

/-! # Kinds of variables that are assigned from one another

A table keeps the first kind that a variable shows. An assignment from another variable makes the
two kinds agree, or reports that they do not, as far as they are known when the assignment is read.
It is not read again: `copies_agree_iff_known` says exactly which assignments are settled whatever
comes later. Two variables without a kind may get different ones afterwards, and a swap of a float
with an integer is taken although the integer cannot hold the float. -/

namespace AccessRules

/-! ## Kinds -/

namespace ContextKind

def isEnum : ContextKind → Bool
  | .enum _ => true
  | _ => false

theorem accepts_self (kind : ContextKind) : kind.accepts kind = true := by
  simp [accepts]

/-- Acceptance is mutual, but for a float that holds an integer. -/
theorem accepts_symm {a b : ContextKind} (h : a.accepts b = true)
    (hne : ¬ (a = .float ∧ b = .int)) : b.accepts a = true := by
  have hab : a = b ∨ (a = .float ∧ b = .int) := by simpa [accepts] using h
  rcases hab with rfl | hab
  · exact accepts_self a
  · exact absurd hab hne

end ContextKind

namespace ContextTable

variable {t : ContextTable} {rule var a b : String} {kind ka kb : ContextKind}

/-! ## What a step does to kinds -/

theorem kind?_modify (t : ContextTable) (var key : String) (f : ContextVar → ContextVar) :
    (t.modify var f).kind? key
      = if key = var then (f ((t.find? var).getD { name := var })).kind else t.kind? key := by
  unfold kind? modify
  rw [Roster.find?_insert]
  split <;> rfl

/-- A change that leaves the kind of a variable leaves all kinds. -/
theorem kind?_modify_of_kind (t : ContextTable) (var key : String) {f : ContextVar → ContextVar}
    (hf : ∀ v, (f v).kind = v.kind) : (t.modify var f).kind? key = t.kind? key := by
  rw [kind?_modify, hf]
  split
  · rename_i hkey
    subst hkey
    unfold kind?
    cases t.find? key <;> rfl
  · rfl

theorem kind?_modify_set (t : ContextTable) (var key : String) (kind : ContextKind) :
    (t.modify var fun v => { v with kind := some kind }).kind? key
      = if key = var then some kind else t.kind? key :=
  kind?_modify t var key _

theorem kind_takeLiteral (v : ContextVar) (lit : Literal) (rule : String) :
    (v.takeLiteral lit rule).kind = v.kind := by
  cases lit <;> rfl

theorem kind?_observe (t : ContextTable) (rule var key : String) (kind : ContextKind) :
    (t.observe rule var kind).1.kind? key
      = if key = var then (t.kind? var).or (some kind) else t.kind? key := by
  unfold observe
  cases hvar : t.kind? var with
  | none => exact kind?_modify_set t var key kind
  | some known =>
      simp only [Option.some_or]
      split
      · rename_i hkey
        rw [hkey, hvar]
      · rfl

theorem observe_unknown (rule : String) (kind : ContextKind) (h : t.kind? var = none) :
    t.observe rule var kind = (t.modify var fun v => { v with kind := some kind }, []) := by
  unfold observe
  rw [h]

theorem unify_known (rule : String) (ha : t.kind? a = some ka) (hb : t.kind? b = some kb) :
    t.unify rule a b = (t, if (ka.isEnum && kb.isEnum) || ka.accepts kb then []
      else [.problem rule (.copyConflict a ka b kb)]) := by
  unfold unify
  rw [ha, hb]
  cases ka <;> cases kb <;> rfl

theorem unify_first_known (rule : String) (ha : t.kind? a = some ka) (hb : t.kind? b = none) :
    t.unify rule a b = (t.modify b fun v => { v with kind := some ka }, []) := by
  unfold unify
  rw [ha, hb]
  cases ka <;> rfl

theorem unify_second_known (rule : String) (ha : t.kind? a = none) (hb : t.kind? b = some kb) :
    t.unify rule a b = (t.modify a fun v => { v with kind := some kb }, []) := by
  unfold unify
  rw [ha, hb]

theorem unify_unknown (rule : String) (ha : t.kind? a = none) (hb : t.kind? b = none) :
    t.unify rule a b = (t, []) := by
  unfold unify
  rw [ha, hb]

/-- Unification gives a kind to a variable that has none, and changes no other. -/
theorem kind?_unify_of_some (rule a b : String) (h : t.kind? var = some kind) :
    (t.unify rule a b).1.kind? var = some kind := by
  cases ha : t.kind? a with
  | none =>
      cases hb : t.kind? b with
      | none => rw [unify_unknown rule ha hb, h]
      | some kb =>
          have hne : var ≠ a := by
            rintro rfl
            rw [ha] at h
            cases h
          rw [unify_second_known rule ha hb, kind?_modify_set, if_neg hne, h]
  | some ka =>
      cases hb : t.kind? b with
      | none =>
          have hne : var ≠ b := by
            rintro rfl
            rw [hb] at h
            cases h
          rw [unify_first_known rule ha hb, kind?_modify_set, if_neg hne, h]
      | some kb => rw [unify_known rule ha hb, h]

theorem kind_addVarSetter (v : ContextVar) (source rule : String) :
    (v.addVarSetter source rule).kind = v.kind := rfl

theorem kind?_record_copy (t : ContextTable) (rule a b key : String) :
    (record rule t (.copy a b)).1.kind? key = (t.unify rule a b).1.kind? key := by
  simp only [record]
  exact kind?_modify_of_kind _ a key fun v => kind_addVarSetter v b rule

theorem kind?_record_swap (t : ContextTable) (rule a b key : String) :
    (record rule t (.swap a b)).1.kind? key = (t.unify rule a b).1.kind? key := by
  simp only [record]
  rw [kind?_modify_of_kind _ b key fun v => kind_addVarSetter v a rule]
  exact kind?_modify_of_kind _ a key fun v => kind_addVarSetter v b rule

/-- A variable keeps the first kind that it shows. -/
theorem kind?_record_of_some (rule : String) (u : Use) (h : t.kind? var = some kind) :
    (record rule t u).1.kind? var = some kind := by
  have hobserve : ∀ v k, (t.observe rule v k).1.kind? var = some kind := by
    intro v k
    rw [kind?_observe]
    split
    · rename_i hvar
      rw [← hvar, h, Option.some_or]
    · exact h
  cases u with
  | mention v => exact (kind?_modify_of_kind t v var fun _ => rfl).trans h
  | shows v k => exact hobserve v k
  | assign v lit =>
      have hkeep : ∀ t' : ContextTable, t'.kind? var = some kind →
          (t'.modify v fun v => v.takeLiteral lit rule).kind? var = some kind := by
        intro t' ht'
        rw [kind?_modify_of_kind _ v var fun v => kind_takeLiteral v lit rule, ht']
      simp only [record]
      cases ContextKind.ofLiteral? lit v with
      | none => exact hkeep t h
      | some k => exact hkeep _ (hobserve v k)
  | copy v source => rw [kind?_record_copy, kind?_unify_of_some rule v source h]
  | swap first second => rw [kind?_record_swap, kind?_unify_of_some rule first second h]

/-! ## Runs over uses -/

/-- A table after uses in rules, each given with the name of its rule. -/
def recordAll (t : ContextTable) (uses : List (String × Use)) : ContextTable × List Event :=
  accumulate (fun t u => record u.1 t u.2) t uses

theorem recordAll_append_fst (t : ContextTable) (us vs : List (String × Use)) :
    (t.recordAll (us ++ vs)).1 = ((t.recordAll us).1.recordAll vs).1 :=
  accumulate_append_fst _ t us vs

theorem recordAll_append_snd (t : ContextTable) (us vs : List (String × Use)) :
    (t.recordAll (us ++ vs)).2 = (t.recordAll us).2 ++ ((t.recordAll us).1.recordAll vs).2 :=
  accumulate_append_snd _ t us vs

theorem kind?_recordAll_of_some (uses : List (String × Use)) (h : t.kind? var = some kind) :
    (t.recordAll uses).1.kind? var = some kind := by
  induction uses generalizing t with
  | nil => exact h
  | cons u uses ih => exact ih (kind?_record_of_some u.1 u.2 h)

end ContextTable

/-! ## Agreement -/

/-- The variables whose kinds a problem is about. -/
def Problem.kindVars : Problem → List String
  | .kindConflict var _ _ => [var]
  | .copyConflict var _ source _ => [var, source]
  | _ => []

/-- Among the events is an error about the kind of one of the two variables. -/
def ConflictReported (events : List Event) (a b : String) : Prop :=
  ∃ rule p, Event.problem rule p ∈ events ∧ p.kind = .typeConflict ∧ p.severity = .error ∧
    (a ∈ p.kindVars ∨ b ∈ p.kindVars)

/-- If both variables have kinds in the table, not both of them enumerations, then the first can
    hold the values of the second, or a conflict about one of them was reported. -/
def KindsAgree (run : ContextTable × List Event) (a b : String) : Prop :=
  ∀ ka kb, run.1.kind? a = some ka → run.1.kind? b = some kb →
    ¬ (ka.isEnum = true ∧ kb.isEnum = true) →
    ka.accepts kb = true ∨ ConflictReported run.2 a b

theorem ConflictReported.mono {events events' : List Event} {a b : String}
    (h : ConflictReported events a b) (hsub : events ⊆ events') : ConflictReported events' a b := by
  obtain ⟨rule, p, hp, hrest⟩ := h
  exact ⟨rule, p, hsub hp, hrest⟩

theorem KindsAgree.mono {run run' : ContextTable × List Event} {a b : String}
    (h : KindsAgree run a b) (htable : run.1 = run'.1) (hevents : run.2 ⊆ run'.2) :
    KindsAgree run' a b := by
  intro ka kb ha hb henum
  rw [← htable] at ha hb
  exact (h ka kb ha hb henum).imp id fun hc => hc.mono hevents

theorem kindsAgree_self (run : ContextTable × List Event) (a : String) : KindsAgree run a a := by
  intro ka kb ha hb _
  obtain rfl := Option.some.inj (ha.symm.trans hb)
  exact Or.inl ka.accepts_self

theorem ConflictReported.symm {events : List Event} {a b : String}
    (h : ConflictReported events a b) : ConflictReported events b a := by
  obtain ⟨rule, p, hp, hkind, hsev, hvars⟩ := h
  exact ⟨rule, p, hp, hkind, hsev, hvars.symm⟩

/-- The use makes the first variable hold the values of the second. -/
def Use.Unifies (u : Use) (a b : String) : Prop :=
  u = .copy a b ∨ u = .swap a b

namespace ContextTable

variable {t : ContextTable} {rule a b : String} {u : Use}

/-- One of the two variables has a kind. -/
def OneKnown (t : ContextTable) (a b : String) : Prop :=
  (t.kind? a).isSome ∨ (t.kind? b).isSome

theorem kind?_record_of_unifies (t : ContextTable) (rule : String) (hu : u.Unifies a b)
    (key : String) :
    (record rule t u).1.kind? key = (t.unify rule a b).1.kind? key := by
  rcases hu with rfl | rfl
  · exact kind?_record_copy t rule a b key
  · exact kind?_record_swap t rule a b key

theorem events_record_of_unifies (t : ContextTable) (rule : String) (hu : u.Unifies a b) :
    (record rule t u).2 = (t.unify rule a b).2 := by
  rcases hu with rfl | rfl <;> rfl

/-- Where one kind is known, unification leaves two known kinds that agree or are reported. They are
    the same unless both were known before. -/
theorem unify_settles (rule : String) (h : t.OneKnown a b) :
    ∃ ka kb, (t.unify rule a b).1.kind? a = some ka ∧ (t.unify rule a b).1.kind? b = some kb ∧
      (ka = kb ∨ t.kind? a = some ka ∧ t.kind? b = some kb) ∧
      ((ka.isEnum = true ∧ kb.isEnum = true) ∨ ka.accepts kb = true ∨
        ConflictReported (t.unify rule a b).2 a b) := by
  cases ha : t.kind? a with
  | none =>
      cases hb : t.kind? b with
      | none =>
          rcases h with h | h
          · rw [ha] at h; cases h
          · rw [hb] at h; cases h
      | some kb =>
          refine ⟨kb, kb, ?_, kind?_unify_of_some rule a b hb, Or.inl rfl,
            Or.inr (Or.inl kb.accepts_self)⟩
          rw [unify_second_known rule ha hb, kind?_modify_set, if_pos rfl]
  | some ka =>
      cases hb : t.kind? b with
      | none =>
          refine ⟨ka, ka, kind?_unify_of_some rule a b ha, ?_, Or.inl rfl,
            Or.inr (Or.inl ka.accepts_self)⟩
          rw [unify_first_known rule ha hb, kind?_modify_set, if_pos rfl]
      | some kb =>
          refine ⟨ka, kb, kind?_unify_of_some rule a b ha, kind?_unify_of_some rule a b hb,
            Or.inr ⟨rfl, rfl⟩, ?_⟩
          rw [unify_known rule ha hb]
          by_cases hagree : ((ka.isEnum && kb.isEnum) || ka.accepts kb) = true
          · rcases Bool.or_eq_true _ _ ▸ hagree with henum | haccepts
            · exact Or.inl (Bool.and_eq_true _ _ ▸ henum)
            · exact Or.inr (Or.inl haccepts)
          · refine Or.inr (Or.inr ⟨rule, .copyConflict a ka b kb, ?_, rfl, rfl, Or.inl ?_⟩)
            · rw [if_neg hagree]
              exact List.mem_singleton_self _
            · exact List.mem_cons_self ..

/-- What is settled when an assignment is read stays so. -/
theorem kindsAgree_of_oneKnown (rule : String) (hu : u.Unifies a b) (h : t.OneKnown a b)
    (later : List (String × Use)) :
    KindsAgree (t.recordAll ((rule, u) :: later)) a b ∧
      (¬ (t.kind? a = some .float ∧ t.kind? b = some .int) →
        KindsAgree (t.recordAll ((rule, u) :: later)) b a) := by
  obtain ⟨ka, kb, ha, hb, hbefore, hsettled⟩ := unify_settles rule h
  rw [← kind?_record_of_unifies t rule hu] at ha hb
  have hfa := kind?_recordAll_of_some later ha
  have hfb := kind?_recordAll_of_some later hb
  have hreport : ConflictReported (t.unify rule a b).2 a b →
      ConflictReported (t.recordAll ((rule, u) :: later)).2 a b := by
    rw [← events_record_of_unifies t rule hu]
    exact fun hc => hc.mono (List.subset_append_left _ _)
  refine ⟨fun ka' kb' hka' hkb' henum => ?_, fun hfloat kb' ka' hkb' hka' henum => ?_⟩
  · obtain rfl := Option.some.inj (hfa.symm.trans hka')
    obtain rfl := Option.some.inj (hfb.symm.trans hkb')
    rcases hsettled with hboth | haccepts | hc
    · exact absurd hboth henum
    · exact Or.inl haccepts
    · exact Or.inr (hreport hc)
  · obtain rfl := Option.some.inj (hfa.symm.trans hka')
    obtain rfl := Option.some.inj (hfb.symm.trans hkb')
    have hne : ¬ (ka = .float ∧ kb = .int) := by
      rintro ⟨rfl, rfl⟩
      rcases hbefore with heq | hknown
      · cases heq
      · exact hfloat hknown
    rcases hsettled with hboth | haccepts | hc
    · exact absurd hboth.symm henum
    · exact Or.inl (ContextKind.accepts_symm haccepts hne)
    · exact Or.inr (hreport hc).symm

/-- Two variables without a kind may get two that do not agree after they are unified. -/
theorem not_kindsAgree_of_unknown (rule : String) (hu : u.Unifies a b) (hne : a ≠ b)
    (h : ¬ t.OneKnown a b) :
    ¬ KindsAgree (t.recordAll [(rule, u), (rule, .shows a .int), (rule, .shows b .bool)]) a b := by
  have ha : t.kind? a = none := by
    by_contra hsome
    exact h (Or.inl (Option.isSome_iff_ne_none.2 hsome))
  have hb : t.kind? b = none := by
    by_contra hsome
    exact h (Or.inr (Option.isSome_iff_ne_none.2 hsome))
  let t₁ := (record rule t u).1
  have hkind₁ : ∀ key, t₁.kind? key = t.kind? key := by
    intro key
    rw [kind?_record_of_unifies t rule hu, unify_unknown rule ha hb]
  have hstep₁ : record rule t u = (t₁, []) := by
    refine Prod.ext rfl ?_
    rw [events_record_of_unifies t rule hu, unify_unknown rule ha hb]
  let t₂ := t₁.modify a fun v => { v with kind := some .int }
  have hstep₂ : record rule t₁ (.shows a .int) = (t₂, []) :=
    observe_unknown rule _ ((hkind₁ a).trans ha)
  have hb₂ : t₂.kind? b = none := by
    rw [kind?_modify_set, if_neg hne.symm, hkind₁, hb]
  let t₃ := t₂.modify b fun v => { v with kind := some .bool }
  have hstep₃ : record rule t₂ (.shows b .bool) = (t₃, []) := observe_unknown rule _ hb₂
  have hrun : t.recordAll [(rule, u), (rule, .shows a .int), (rule, .shows b .bool)]
      = (t₃, []) := by
    simp only [recordAll, accumulate, hstep₁, hstep₂, hstep₃, List.append_nil]
  intro hagree
  rw [hrun] at hagree
  have hka : t₃.kind? a = some .int := by
    rw [kind?_modify_set, if_neg hne, kind?_modify_set, if_pos rfl]
  have hkb : t₃.kind? b = some .bool := by
    rw [kind?_modify_set, if_pos rfl]
  rcases hagree .int .bool hka hkb (by simp [ContextKind.isEnum]) with haccepts | hreport
  · exact absurd haccepts (by decide)
  · obtain ⟨_, _, hmem, _⟩ := hreport
    cases hmem

/-- A float and an integer are swapped without a word. -/
theorem not_kindsAgree_of_float_int (rule : String) (hu : u.Unifies a b)
    (ha : t.kind? a = some .float) (hb : t.kind? b = some .int) :
    ¬ KindsAgree (t.recordAll [(rule, u)]) b a := by
  intro hagree
  have hevents : (t.recordAll [(rule, u)]).2 = [] := by
    show (record rule t u).2 ++ [] = []
    rw [events_record_of_unifies t rule hu, unify_known rule ha hb]
    rfl
  have hka := kind?_record_of_some rule u ha
  have hkb := kind?_record_of_some rule u hb
  rcases hagree .int .float hkb hka (by simp [ContextKind.isEnum]) with haccepts | hreport
  · exact absurd haccepts (by decide)
  · obtain ⟨_, _, hmem, _⟩ := hreport
    rw [hevents] at hmem
    cases hmem

end ContextTable

/-! ## Runs over a corpus -/

namespace Workspace

variable {w : Workspace} {start t : ContextTable} {r : Rule} {act : Action}

theorem uses_eq (w : Workspace) (r : Rule) :
    w.uses r = w.mentions r ++ r.body.reached.flatMap (w.exprUses r)
      ++ r.body.actionsInOrder.flatMap (w.actionUses r) := by
  rw [uses, Body.nodes_eq, Body.actionNodes_eq]

/-- The uses of a rule with its name. -/
def namedUses (w : Workspace) (r : Rule) : List (String × Use) :=
  (w.uses r).map fun u => (r.name, u)

/-- The uses of a rule that come before its actions. -/
def usesBeforeActions (w : Workspace) (r : Rule) : List Use :=
  w.mentions r ++ r.body.reached.flatMap (w.exprUses r)

/-- The run over the corpus comes to the action with the table `t`. -/
def ReadAt (w : Workspace) (start : ContextTable) (r : Rule) (act : Action) (t : ContextTable) :
    Prop :=
  ∃ before after earlier later, w.corpus.rules.values = before ++ r :: after ∧
    r.body.actionsInOrder = earlier ++ act :: later ∧
    t = (accumulate (ContextTable.record r.name) (accumulate w.resolveRule start before).1
      (w.usesBeforeActions r ++ earlier.flatMap (w.actionUses r))).1

theorem accumulate_record (rule : String) (t : ContextTable) (us : List Use) :
    accumulate (ContextTable.record rule) t us = t.recordAll (us.map fun u => (rule, u)) := by
  induction us generalizing t with
  | nil => rfl
  | cons u us ih =>
      simp only [ContextTable.recordAll, accumulate, List.map_cons] at ih ⊢
      rw [ih]

theorem resolveRule_fst (w : Workspace) (t : ContextTable) (r : Rule) :
    (w.resolveRule t r).1 = (t.recordAll (w.namedUses r)).1 := by
  rw [namedUses, ← accumulate_record, resolveRule]

theorem subset_events_resolveRule (w : Workspace) (t : ContextTable) (r : Rule) :
    (t.recordAll (w.namedUses r)).2 ⊆ (w.resolveRule t r).2 := by
  rw [namedUses, ← accumulate_record]
  exact List.subset_append_right _ _

theorem accumulate_resolveRule_fst (w : Workspace) (t : ContextTable) (rs : List Rule) :
    (accumulate w.resolveRule t rs).1 = (t.recordAll (rs.flatMap w.namedUses)).1 := by
  induction rs generalizing t with
  | nil => rfl
  | cons r rs ih =>
      rw [List.flatMap_cons, ContextTable.recordAll_append_fst, ← resolveRule_fst,
        accumulate_cons_fst]
      exact ih _

theorem subset_events_accumulate (w : Workspace) (t : ContextTable) (rs : List Rule) :
    (t.recordAll (rs.flatMap w.namedUses)).2 ⊆ (accumulate w.resolveRule t rs).2 := by
  induction rs generalizing t with
  | nil => exact List.Subset.refl _
  | cons r rs ih =>
      rw [List.flatMap_cons, ContextTable.recordAll_append_snd, ← resolveRule_fst,
        accumulate_cons_snd]
      exact List.append_subset.2 ⟨List.Subset.trans (subset_events_resolveRule w t r)
        (List.subset_append_left _ _), List.Subset.trans (ih _) (List.subset_append_right _ _)⟩

/-- From an action on, the run over the corpus goes through the uses of the action and some more. -/
theorem ReadAt.exists_run (h : w.ReadAt start r act t) :
    ∃ later, (t.recordAll ((w.actionUses r act).map (fun u => (r.name, u)) ++ later)).1
        = (w.resolveContext start).1 ∧
      (t.recordAll ((w.actionUses r act).map (fun u => (r.name, u)) ++ later)).2
        ⊆ (w.resolveContext start).2 := by
  obtain ⟨before, after, earlier, later, hrules, hacts, rfl⟩ := h
  rw [accumulate_record, accumulate_resolveRule_fst, ← ContextTable.recordAll_append_fst]
  have hall : w.corpus.rules.values.flatMap w.namedUses
      = (before.flatMap w.namedUses
          ++ (w.usesBeforeActions r ++ earlier.flatMap (w.actionUses r)).map fun u => (r.name, u))
        ++ ((w.actionUses r act).map (fun u => (r.name, u))
          ++ ((later.flatMap (w.actionUses r)).map (fun u => (r.name, u))
            ++ after.flatMap w.namedUses)) := by
    rw [hrules, List.flatMap_append, List.flatMap_cons, namedUses, uses_eq, hacts]
    simp [usesBeforeActions]
  refine ⟨(later.flatMap (w.actionUses r)).map (fun u => (r.name, u))
    ++ after.flatMap w.namedUses, ?_, ?_⟩
  · rw [resolveContext, accumulate_resolveRule_fst, hall,
      ContextTable.recordAll_append_fst _ (before.flatMap _ ++ _)]
  · have hevents := subset_events_accumulate w start w.corpus.rules.values
    rw [hall, ContextTable.recordAll_append_snd _ (before.flatMap _ ++ _)] at hevents
    exact List.Subset.trans (List.subset_append_right _ _) hevents

/-- The table of a corpus after all rules, and the events on the way, from the declarations of the
    catalog on. -/
def contextRun (w : Workspace) : ContextTable × List Event :=
  w.resolveContext (ContextTable.ofCatalog w.catalog).1

theorem ReadAt.kindsAgree {u : Use} {a b : String} (h : w.ReadAt start r act t)
    (huses : w.actionUses r act = [u]) (hu : u.Unifies a b) (hknown : t.OneKnown a b) :
    KindsAgree (w.resolveContext start) a b ∧
      (¬ (t.kind? a = some .float ∧ t.kind? b = some .int) →
        KindsAgree (w.resolveContext start) b a) := by
  obtain ⟨later, htable, hevents⟩ := h.exists_run
  rw [huses] at htable hevents
  obtain ⟨hab, hba⟩ := ContextTable.kindsAgree_of_oneKnown r.name hu hknown later
  exact ⟨hab.mono htable hevents, fun hne => (hba hne).mono htable hevents⟩

theorem actionUses_copy {first second : Reference} {a b : String}
    (ha : w.target? r first = some a) (hb : w.target? r second = some b) :
    w.actionUses r (.set first (.ref second)) = [.copy a b] := by
  simp [actionUses, assignmentUses, Expr.literal?, ha, hb]

theorem actionUses_swap {first second : Reference} {a b : String}
    (ha : w.target? r first = some a) (hb : w.target? r second = some b) :
    w.actionUses r (.swap first second) = [.swap a b] := by
  simp [actionUses, ha, hb]

end Workspace

/-- Variables that a corpus assigns from one another agree on their kinds, or a conflict is
    reported, if one of them has a kind when the action is read; a float and an integer may be
    swapped all the same. This is exact: of an assignment or swap that is read with any table,
    agreement is certain whatever comes later only under these conditions. -/
theorem copies_agree_iff_known (t : ContextTable) (a b : String) :
    (∀ (w : Workspace) (r : Rule) (act : Action) (first second : Reference),
      w.ReadAt (ContextTable.ofCatalog w.catalog).1 r act t →
      w.target? r first = some a → w.target? r second = some b → a = b ∨ t.OneKnown a b →
      (act = .set first (.ref second) → KindsAgree w.contextRun a b) ∧
      (act = .swap first second → KindsAgree w.contextRun a b ∧
        (KindsAgree w.contextRun b a ∨ t.kind? a = some .float ∧ t.kind? b = some .int))) ∧
    ∀ rule : String,
      ((∀ later, KindsAgree (t.recordAll ((rule, .copy a b) :: later)) a b) ↔
        a = b ∨ t.OneKnown a b) ∧
      ((∀ later, KindsAgree (t.recordAll ((rule, .swap a b) :: later)) a b ∧
          KindsAgree (t.recordAll ((rule, .swap a b) :: later)) b a) ↔
        a = b ∨ t.OneKnown a b ∧ ¬ (t.kind? a = some .float ∧ t.kind? b = some .int)) := by
  refine ⟨?_, fun rule => ⟨⟨fun h => ?_, fun h later => ?_⟩, ⟨fun h => ?_, fun h later => ?_⟩⟩⟩
  · intro w r act first second hread ha hb hknown
    refine ⟨?_, ?_⟩
    · rintro rfl
      rcases hknown with rfl | hknown
      · exact kindsAgree_self _ a
      · exact (hread.kindsAgree (Workspace.actionUses_copy ha hb) (Or.inl rfl) hknown).1
    · rintro rfl
      rcases hknown with rfl | hknown
      · exact ⟨kindsAgree_self _ a, Or.inl (kindsAgree_self _ a)⟩
      · obtain ⟨hab, hba⟩ :=
          hread.kindsAgree (Workspace.actionUses_swap ha hb) (Or.inr rfl) hknown
        refine ⟨hab, ?_⟩
        by_cases hfloat : t.kind? a = some .float ∧ t.kind? b = some .int
        · exact Or.inr hfloat
        · exact Or.inl (hba hfloat)
  · by_contra hnot
    obtain ⟨hne, hunknown⟩ := not_or.1 hnot
    exact ContextTable.not_kindsAgree_of_unknown rule (Or.inl rfl) hne hunknown (h _)
  · rcases h with rfl | hknown
    · exact kindsAgree_self _ a
    · exact (ContextTable.kindsAgree_of_oneKnown rule (Or.inl rfl) hknown later).1
  · by_contra hnot
    obtain ⟨hne, hbad⟩ := not_or.1 hnot
    by_cases hknown : t.OneKnown a b
    · have hfloat : t.kind? a = some .float ∧ t.kind? b = some .int := by
        by_contra hnotfloat
        exact hbad ⟨hknown, hnotfloat⟩
      exact ContextTable.not_kindsAgree_of_float_int rule (Or.inr rfl) hfloat.1 hfloat.2 (h []).2
    · exact ContextTable.not_kindsAgree_of_unknown rule (Or.inr rfl) hne hknown (h _).1
  · rcases h with rfl | ⟨hknown, hfloat⟩
    · exact ⟨kindsAgree_self _ a, kindsAgree_self _ a⟩
    · obtain ⟨hab, hba⟩ := ContextTable.kindsAgree_of_oneKnown rule (Or.inr rfl) hknown later
      exact ⟨hab, hba hfloat⟩

/-- A corpus of one rule with the actions, for variables of the given declarations. -/
def ledger (decls : List (String × ContextDecl)) (acts : List Action) : Workspace where
  catalog := { context := .ofList decls }
  corpus := { rules := .ofList [("rules:act",
    { name := "rules:act", body := .actions (.sequence acts) })] }

/-- The integer `gold` is assigned from `debt`, which is then assigned a truth value. -/
def debtLedger : Workspace :=
  ledger [("gold", { type := some "int" }), ("debt", {})]
    [.set { name := "gold" } (.ref { name := "debt" }), .set { name := "debt" } (.bool true)]

theorem debtLedger_kinds_agree :
    debtLedger.contextRun.1.kind? "gold" = some .int ∧
      debtLedger.contextRun.1.kind? "debt" = some .int ∧
      KindsAgree debtLedger.contextRun "gold" "debt" := by
  have hread : debtLedger.ReadAt (ContextTable.ofCatalog debtLedger.catalog).1
      { name := "rules:act", body := .actions (.sequence
        [.set { name := "gold" } (.ref { name := "debt" }), .set { name := "debt" } (.bool true)]) }
      (.set { name := "gold" } (.ref { name := "debt" })) _ :=
    ⟨[], [], [_], [_], rfl, (Body.actionNodes_eq _).symm.trans rfl, rfl⟩
  refine ⟨rfl, rfl, ((copies_agree_iff_known _ "gold" "debt").1 _ _ _ _ _ hread rfl rfl ?_).1 rfl⟩
  refine Or.inr (Or.inl ?_)
  rw [Workspace.usesBeforeActions, ← Body.nodes_eq]
  rfl

/-- The variables are first assigned from one another and then to values of two kinds. -/
def driftLedger : Workspace :=
  ledger [("a", {}), ("b", {})]
    [.set { name := "a" } (.ref { name := "b" }), .set { name := "a" } (.int 1),
      .set { name := "b" } (.bool true)]

/-- A float is swapped with an integer. -/
def swapLedger : Workspace :=
  ledger [("x", { type := some "float" }), ("n", { type := some "int" })]
    [.swap { name := "x" } { name := "n" }]

/-- Neither assignments nor swaps always leave kinds that agree. -/
theorem ledgers_disagree :
    (¬ ∀ (w : Workspace) (r : Rule) (first second : Reference) (a b : String),
      r ∈ w.corpus.rules.values → r.body.HasAction (.set first (.ref second)) →
      w.target? r first = some a → w.target? r second = some b → KindsAgree w.contextRun a b) ∧
    ¬ ∀ (w : Workspace) (r : Rule) (first second : Reference) (a b : String),
      r ∈ w.corpus.rules.values → r.body.HasAction (.swap first second) →
      w.target? r first = some a → w.target? r second = some b →
      KindsAgree w.contextRun a b ∧ KindsAgree w.contextRun b a := by
  have hsilent : ∀ (events : List Event) (a b : String), Event.diagnostics events = [] →
      ¬ ConflictReported events a b := by
    rintro events a b hnone ⟨rule, p, hp, -⟩
    have hmem : (⟨rule, p⟩ : Diagnostic) ∈ Event.diagnostics events :=
      List.mem_filterMap.2 ⟨_, hp, rfl⟩
    rw [hnone] at hmem
    cases hmem
  refine ⟨fun h => ?_, fun h => ?_⟩
  · have hagree := h driftLedger _ { name := "a" } { name := "b" } "a" "b" (List.mem_cons_self ..)
      (.inside (List.mem_cons_self ..) .here) rfl rfl
    rcases hagree .int .bool rfl rfl (by decide) with haccepts | hreport
    · exact absurd haccepts (by decide)
    · exact hsilent _ _ _ rfl hreport
  · have hagree := (h swapLedger _ { name := "x" } { name := "n" } "x" "n" (List.mem_cons_self ..)
      (.inside (List.mem_cons_self ..) .here) rfl rfl).2
    rcases hagree .int .float rfl rfl (by decide) with haccepts | hreport
    · exact absurd haccepts (by decide)
    · exact hsilent _ _ _ rfl hreport

end AccessRules
