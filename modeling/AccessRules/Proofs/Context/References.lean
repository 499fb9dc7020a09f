import AccessRules.Proofs.Census.Items
import AccessRules.Proofs.Context.Observation
import AccessRules.Proofs.Context.OwnParam

set_option autoImplicit false

/-! # Which references stand for something, and in which order they come

`Body.Mentions` says without a walk which names a body refers to. A rule that is no helper reports
each of them that stands for nothing once. The others stand for static data or for context
variables, and the table has just these variables and the declared ones.

The order of the table is that in which names are read. In a requirement this is the order in which
they are written, `Expr.namesInOrder`. In an action body the expressions of all actions are read
before the targets of any, `Body.namesRead`, so a variable that is assigned comes after one that a
later action reads. -/

namespace AccessRules

/-- In a body of the right shape no name is overlooked. -/
theorem Body.mem_namesRead_iff_mentions {b : Body} (h : b.misshapen? = none) {name : String} :
    name ∈ b.namesRead ↔ b.Mentions name := by
  simp only [mem_namesRead_iff, mem_reached_iff (paired_of_shape h), Mentions]

/-! ## Keys of the table -/

namespace ContextTable

variable {t : ContextTable} {rule var a b : String}

theorem keys_modify (t : ContextTable) (var : String) (f : ContextVar → ContextVar) :
    (t.modify var f).keys = enter t.keys var :=
  Roster.keys_insert ..

theorem keys_modify_of_mem (h : var ∈ t.keys) (f : ContextVar → ContextVar) :
    (t.modify var f).keys = t.keys := by
  rw [keys_modify, enter_of_mem h]

theorem keys_observe_of_mem (rule : String) (kind : ContextKind) (h : var ∈ t.keys) :
    (t.observe rule var kind).1.keys = t.keys := by
  unfold observe
  split
  · exact keys_modify_of_mem h _
  · rfl

theorem keys_unify_of_mem (rule : String) (ha : a ∈ t.keys) (hb : b ∈ t.keys) :
    (t.unify rule a b).1.keys = t.keys := by
  unfold unify
  split
  · rfl
  · rfl
  · exact keys_modify_of_mem hb _
  · exact keys_modify_of_mem ha _
  · rfl

/-- A use of variables that are in the table leaves its keys. -/
theorem keys_record_of_mem (rule : String) {u : Use} (h : ∀ v ∈ u.vars, v ∈ t.keys) :
    (record rule t u).1.keys = t.keys := by
  cases u with
  | mention v => exact keys_modify_of_mem (h v (List.mem_singleton_self v)) _
  | shows v kind => exact keys_observe_of_mem rule kind (h v (List.mem_singleton_self v))
  | assign v lit =>
      have hv := h v (List.mem_singleton_self v)
      simp only [record]
      split
      · rename_i kind _
        have hobserve := keys_observe_of_mem rule kind hv
        rw [keys_modify_of_mem (hobserve ▸ hv), hobserve]
      · exact keys_modify_of_mem hv _
  | copy v source =>
      have hv := h v (List.mem_cons_self ..)
      have hunify := keys_unify_of_mem rule hv (h source (by simp [Use.vars]))
      simp only [record]
      rw [keys_modify_of_mem (hunify ▸ hv), hunify]
  | swap first second =>
      have hfirst := h first (List.mem_cons_self ..)
      have hsecond := h second (by simp [Use.vars])
      have hunify := keys_unify_of_mem rule hfirst hsecond
      simp only [record]
      rw [keys_modify_of_mem, keys_modify_of_mem (hunify ▸ hfirst), hunify]
      rw [keys_modify_of_mem (hunify ▸ hfirst), hunify]
      exact hsecond

theorem keys_recordAll_of_mem {uses : List (String × Use)}
    (h : ∀ u ∈ uses, ∀ v ∈ u.2.vars, v ∈ t.keys) : (t.recordAll uses).1.keys = t.keys := by
  induction uses generalizing t with
  | nil => rfl
  | cons u uses ih =>
      obtain ⟨hu, huses⟩ := List.forall_mem_cons.1 h
      have hstep := keys_record_of_mem u.1 hu
      exact (ih fun u' hu' v hv => hstep ▸ huses u' hu' v hv).trans hstep

theorem keys_recordAll_mentions (t : ContextTable) (rule : String) (paths : List String) :
    (t.recordAll (paths.map fun path => (rule, .mention path))).1.keys
      = paths.foldl enter t.keys := by
  induction paths generalizing t with
  | nil => rfl
  | cons path paths ih =>
      refine (ih _).trans (congrArg (paths.foldl enter) ?_)
      exact keys_modify t path id

theorem keys_accumulate_declare (t : ContextTable) (entries : List (String × ContextDecl)) :
    (accumulate declare t entries).1.keys = (entries.map (·.1)).foldl enter t.keys := by
  induction entries generalizing t with
  | nil => rfl
  | cons entry entries ih =>
      refine (ih _).trans (congrArg ((entries.map (·.1)).foldl enter) ?_)
      exact Roster.keys_insert ..

theorem keys_ofCatalog (c : Catalog) : (ofCatalog c).1.keys = c.context.keys := by
  have hnodup : ([] ++ c.context.keys).Nodup := c.context.nodup
  rw [ofCatalog_eq, keys_accumulate_declare]
  exact foldl_enter_of_nodup hnodup

end ContextTable

theorem Rule.isHelper_eq_false_iff {r : Rule} :
    r.isHelper = false ↔ r.namespaceName ≠ "helpers" := by
  unfold Rule.isHelper Rule.category
  split
  · rename_i h
    exact iff_of_false (by simp) fun hne => hne h
  · rename_i h
    refine iff_of_true ?_ h
    split <;> simp

/-! ## Variables of a rule -/

namespace Workspace

variable {w : Workspace} {r : Rule} {var name path : String} {u : Use}

/-- The context variables that names stand for in a rule, in the order of the names. Parameters and
    static data are left out. -/
def pathsOf (w : Workspace) (r : Rule) (names : List String) : List String :=
  ((names.filter fun name => !w.corpus.isParam r name).filterMap (r.resolve? w.catalog)).filter
    fun path => !w.catalog.isStatic path

theorem mem_pathsOf_iff {names : List String} :
    path ∈ w.pathsOf r names ↔ ∃ name ∈ names, w.corpus.isParam r name = false ∧
      r.resolve? w.catalog name = some path ∧ w.catalog.isStatic path = false := by
  simp only [pathsOf, List.mem_filter, List.mem_filterMap, Bool.not_eq_true']
  constructor
  · rintro ⟨⟨name, ⟨hname, hfree⟩, hpath⟩, hlive⟩
    exact ⟨name, hname, hfree, hpath, hlive⟩
  · rintro ⟨name, hname, hfree, hpath, hlive⟩
    exact ⟨⟨name, ⟨hname, hfree⟩, hpath⟩, hlive⟩

theorem mentions_eq (w : Workspace) (r : Rule) :
    w.mentions r = (w.pathsOf r r.body.namesRead).map .mention := by
  rw [mentions, referredNames_eq, pathsOf]
  generalize List.filterMap (r.resolve? w.catalog) _ = paths
  induction paths with
  | nil => rfl
  | cons path paths ih => by_cases h : w.catalog.isStatic path = true <;> simp [h, ih]

theorem IsTarget.mem_pathsOf (h : w.IsTarget r var) : var ∈ w.pathsOf r r.body.namesRead := by
  obtain ⟨ref, hname, htarget⟩ := h
  rw [referredNames_eq] at hname
  have href := target?_eq_some_iff.1 htarget
  exact mem_pathsOf_iff.2 ⟨ref.name, (List.mem_filter.1 hname).1, href.free, href.resolved,
    href.live⟩

/-- The uses of a rule are all about variables that its names stand for. -/
theorem vars_subset_pathsOf (hu : u ∈ w.uses r) (hvar : var ∈ u.vars) :
    var ∈ w.pathsOf r r.body.namesRead := by
  rw [uses_eq] at hu
  rcases List.mem_append.1 hu with hu | hu
  · rcases List.mem_append.1 hu with hu | hu
    · rw [mentions_eq] at hu
      obtain ⟨path, hpath, rfl⟩ := List.mem_map.1 hu
      rwa [List.mem_singleton.1 hvar]
    · obtain ⟨e, he, hu⟩ := List.mem_flatMap.1 hu
      exact (isTarget_of_exprUses he hu var hvar).mem_pathsOf
  · obtain ⟨a, ha, hu⟩ := List.mem_flatMap.1 hu
    exact (isTarget_of_actionUses (Body.mem_actionsInOrder_iff.1 ha) hu var hvar).mem_pathsOf

/-- A rule enters the variables that its names stand for, in the order in which they are read. -/
theorem keys_resolveRule (w : Workspace) (t : ContextTable) (r : Rule) :
    (w.resolveRule t r).1.keys = (w.pathsOf r r.body.namesRead).foldl enter t.keys := by
  -- all entries come from the mentions, which are read first
  let later := r.body.reached.flatMap (w.exprUses r)
    ++ r.body.actionsInOrder.flatMap (w.actionUses r)
  have huses : w.namedUses r
      = (w.pathsOf r r.body.namesRead).map (fun path => (r.name, Use.mention path))
        ++ later.map fun u => (r.name, u) := by
    simp [namedUses, uses_eq, mentions_eq, later]
  rw [resolveRule_fst, huses, ContextTable.recordAll_append_fst,
    ContextTable.keys_recordAll_of_mem, ContextTable.keys_recordAll_mentions]
  intro u hu v hv
  obtain ⟨use, huse, rfl⟩ := List.mem_map.1 hu
  rw [ContextTable.keys_recordAll_mentions, mem_foldl_enter]
  refine Or.inl (vars_subset_pathsOf (u := use) ?_ hv)
  rw [uses_eq, List.append_assoc]
  exact List.mem_append_right _ huse

/-- The context variables that the names of all rules stand for, in the order in which `names` lists
    those of a body. -/
def pathsBy (w : Workspace) (names : Body → List String) : List String :=
  w.corpus.rules.values.flatMap fun r => w.pathsOf r (names r.body)

/-- Rules enter the variables that their names stand for, in the order in which they are read. -/
theorem keys_accumulate_resolveRule (w : Workspace) (t : ContextTable) (rules : List Rule) :
    (accumulate w.resolveRule t rules).1.keys = t.keys
      ++ ((rules.flatMap fun r => w.pathsOf r r.body.namesRead).filter (· ∉ t.keys)).eraseDups := by
  rw [accumulate_fst_foldl_view (v := Roster.keys) (fun t r _ => w.keys_resolveRule t r),
    foldl_enter]

theorem keys_contextRun (w : Workspace) :
    w.contextRun.1.keys = w.catalog.context.keys
      ++ ((w.pathsBy Body.namesRead).filter (· ∉ w.catalog.context.keys)).eraseDups := by
  rw [contextRun, resolveContext, keys_accumulate_resolveRule, ContextTable.keys_ofCatalog]
  rfl

/-! ## Names that stand for nothing -/

theorem isParam_of_not_helper (h : r.isHelper = false) (name : String) :
    w.corpus.isParam r name = false := by
  simp [Corpus.isParam, Corpus.helperOf?, h]

theorem mem_undefinedNames_iff (hshape : r.body.misshapen? = none) :
    name ∈ w.undefinedNames r ↔
      r.isHelper = false ∧ r.body.Mentions name ∧ r.resolve? w.catalog name = none := by
  unfold undefinedNames
  by_cases hhelper : r.isHelper = true
  · simp [hhelper]
  · have hfalse := eq_false_of_ne_true hhelper
    rw [if_neg hhelper, List.mem_eraseDups, referredNames_eq]
    simp [isParam_of_not_helper hfalse, hfalse, Body.mem_namesRead_iff_mentions hshape]

theorem nodup_undefinedProblems (w : Workspace) (r : Rule) : (w.undefinedProblems r).Nodup := by
  have hnames : (w.undefinedNames r).Nodup := by
    unfold undefinedNames
    split
    · exact List.nodup_nil
    · exact nodup_eraseDups _
  exact hnames.map fun _ _ => Problem.undefinedReference.inj

/-- A compilation says of undefined names what the run over the uses says. -/
theorem filter_undefinedReference_compile (o : CompileOptions)
    (hshape : ∀ r ∈ w.corpus.rules.values, r.body.misshapen? = none) :
    (Event.diagnostics (w.compile o).events).filter (·.problem.kind = .undefinedReference)
      = w.corpus.diagnosed w.undefinedProblems := by
  rw [filter_compile o hshape, ← filter_undefinedReference_contextRun]
  exact List.append_nil _

theorem onceIf_undefinedReference (o : CompileOptions) (hbuilt : w.corpus.Built)
    (hshape : ∀ r ∈ w.corpus.rules.values, r.body.misshapen? = none)
    (hr : r ∈ w.corpus.rules.values) (name : String) :
    OnceIf ((Event.diagnostics (w.compile o).events).count ⟨r.name, .undefinedReference name⟩)
      (r.namespaceName ≠ "helpers" ∧ r.body.Mentions name ∧ r.resolve? w.catalog name = none) := by
  have hmem : ⟨r.name, .undefinedReference name⟩ ∈ w.corpus.diagnosed w.undefinedProblems ↔
      r.namespaceName ≠ "helpers" ∧ r.body.Mentions name ∧ r.resolve? w.catalog name = none := by
    rw [hbuilt.mem_diagnosed_iff hr, undefinedProblems,
      List.mem_map_of_injective fun _ _ => Problem.undefinedReference.inj,
      mem_undefinedNames_iff (hshape r hr), Rule.isHelper_eq_false_iff]
  have hcount : (Event.diagnostics (w.compile o).events).count ⟨r.name, .undefinedReference name⟩
      = (w.corpus.diagnosed w.undefinedProblems).count ⟨r.name, .undefinedReference name⟩ := by
    rw [← Diagnostic.count_filter_kind, ← filter_undefinedReference_compile o hshape]
    rfl
  rw [hcount, ← hmem]
  exact onceIf_count (hbuilt.nodup_diagnosed w.nodup_undefinedProblems) _

end Workspace

/-! ## As it is written -/

mutual

/-- The names in an action in the order in which they are written: a target comes before what is
    assigned to it, and a condition before its branch. -/
def Action.namesWritten : Action → List String
  | .set target value => target.mentioned ++ value.namesInOrder
  | .alter target _ delta => target.mentioned ++ delta.namesInOrder
  | .swap first second => first.mentioned ++ second.mentioned
  | .cond conds branches none =>
    (List.zipWith (· ++ ·) (conds.map Expr.namesInOrder) (writtenSteps branches)).flatten
  | .cond conds branches (some o) =>
    (List.zipWith (· ++ ·) (conds.map Expr.namesInOrder) (writtenSteps branches)).flatten
      ++ o.namesWritten
  | .call _ args => args.flatMap Expr.namesInOrder
  | .sequence steps => (writtenSteps steps).flatten

/-- One list of names for each action. -/
def writtenSteps : List Action → List (List String)
  | [] => []
  | a :: as => a.namesWritten :: writtenSteps as

end

/-- The names in a body in the order in which they are written. -/
def Body.namesWritten : Body → List String
  | .requirement e => e.namesInOrder
  | .actions a => a.namesWritten

/-- Where all rules are requirements, the names are read as they are written. -/
theorem Workspace.keys_contextRun_of_requirements {w : Workspace}
    (h : ∀ r ∈ w.corpus.rules.values, ∃ e, r.body = .requirement e) :
    w.contextRun.1.keys = w.catalog.context.keys
      ++ ((w.pathsBy Body.namesWritten).filter (· ∉ w.catalog.context.keys)).eraseDups := by
  have hpaths : w.pathsBy Body.namesWritten = w.pathsBy Body.namesRead := by
    refine List.flatMap_congr fun r hr => ?_
    obtain ⟨e, he⟩ := h r hr
    have hnames : (Body.requirement e).namesRead = e.namesInOrder := by
      simp [Body.namesRead, Body.tops, Body.actionsInOrder]
    rw [he, hnames, Body.namesWritten]
  rw [keys_contextRun, hpaths]

/-- Of rules of the right shape: a name that stands for nothing is one error of each rule that
    refers to it, helpers apart, and there are no other such errors. The table has the declared
    variables in order, and after them each other variable that a name stands for, in the order in
    which the names are first read. Where all rules are requirements, this is the order in which the
    names are written. -/
theorem references_resolved_in_order {w : Workspace} (o : CompileOptions) (hbuilt : w.corpus.Built)
    (hshape : ∀ r ∈ w.corpus.rules.values, r.body.misshapen? = none) :
    (∀ r ∈ w.corpus.rules.values, ∀ name,
      OnceIf ((Event.diagnostics (w.compile o).events).count ⟨r.name, .undefinedReference name⟩)
        (r.namespaceName ≠ "helpers" ∧ r.body.Mentions name ∧ r.resolve? w.catalog name = none)) ∧
    (∀ d ∈ Event.diagnostics (w.compile o).events, d.problem.kind = .undefinedReference →
      d.severity = .error ∧ ∃ r ∈ w.corpus.rules.values, ∃ name,
        d = ⟨r.name, .undefinedReference name⟩) ∧
    w.contextRun.1.keys = w.catalog.context.keys
      ++ ((w.pathsBy Body.namesRead).filter (· ∉ w.catalog.context.keys)).eraseDups ∧
    (∀ path, path ∈ w.pathsBy Body.namesRead ↔ ∃ r ∈ w.corpus.rules.values, ∃ name,
      r.body.Mentions name ∧ w.corpus.isParam r name = false ∧
        r.resolve? w.catalog name = some path ∧ w.catalog.isStatic path = false) ∧
    ((∀ r ∈ w.corpus.rules.values, ∃ e, r.body = .requirement e) →
      w.contextRun.1.keys = w.catalog.context.keys
        ++ ((w.pathsBy Body.namesWritten).filter (· ∉ w.catalog.context.keys)).eraseDups) := by
  refine ⟨fun r hr => Workspace.onceIf_undefinedReference o hbuilt hshape hr, ?_,
    w.keys_contextRun, fun path => ?_, Workspace.keys_contextRun_of_requirements⟩
  · intro d hd hkind
    have hmem : d ∈ (Event.diagnostics (w.compile o).events).filter
        (·.problem.kind = .undefinedReference) := List.mem_filter.2 ⟨hd, decide_eq_true hkind⟩
    rw [Workspace.filter_undefinedReference_compile o hshape] at hmem
    obtain ⟨r, hr, hmem⟩ := List.mem_flatMap.1 hmem
    obtain ⟨problem, hproblem, rfl⟩ := List.mem_map.1 hmem
    obtain ⟨name, -, rfl⟩ := List.mem_map.1 hproblem
    exact ⟨rfl, r, hr, name, rfl⟩
  · rw [Workspace.pathsBy, List.mem_flatMap]
    refine exists_congr fun r => and_congr_right fun hr => ?_
    rw [Workspace.mem_pathsOf_iff]
    simp only [Body.mem_namesRead_iff_mentions (hshape r hr)]

/-- `a` is assigned from `b` and from a name that stands for nothing. -/
def tideRule : Rule where
  name := "rules:act"
  locals := .ofList [("a", "x.a"), ("b", "x.b")]
  body := .actions (.set { name := "a" } (.binOp (.ref { name := "b" }) .add
    (.ref { name := "nope" })))

def tide : Workspace where
  catalog := { context := .ofList [("gold", {})] }
  corpus := { rules := .ofList [("rules:act", tideRule)] }

theorem tide_built : tide.corpus.Built :=
  .rule (r := tideRule) .empty rfl

theorem tide_shape : ∀ r ∈ tide.corpus.rules.values, r.body.misshapen? = none :=
  List.forall_mem_singleton.2 rfl

theorem tide_references :
    tide.corpus.Built ∧ (∀ r ∈ tide.corpus.rules.values, r.body.misshapen? = none) ∧
      (Event.diagnostics (tide.compile {}).events).count
        ⟨"rules:act", .undefinedReference "nope"⟩ = 1 ∧
      tide.contextRun.1.keys = ["gold", "x.b", "x.a"] ∧
      "x.b" ∈ tide.pathsBy Body.namesRead := by
  have hrule : tideRule ∈ tide.corpus.rules.values := List.mem_cons_self ..
  obtain ⟨honce, -, -, hpaths, -⟩ := references_resolved_in_order {} tide_built tide_shape
  have hroot : ∀ n, n ∈ [Expr.ref { name := "b" }, Expr.ref { name := "nope" }] →
      tideRule.body.HasNode n :=
    fun n hn => ⟨_, .here, _, List.mem_singleton_self _, .inside hn .here⟩
  have hname : ∀ name, Expr.ref { name } ∈ [Expr.ref { name := "b" }, Expr.ref { name := "nope" }] →
      tideRule.body.Mentions name :=
    fun name hn => Body.mentions_of_node (hroot _ hn) (List.mem_singleton_self _)
  refine ⟨tide_built, tide_shape, ?_, rfl, (hpaths "x.b").2 ⟨tideRule, hrule, "b", ?_⟩⟩
  · refine (honce tideRule hrule "nope").1 ⟨by decide, hname "nope" ?_, rfl⟩
    exact List.mem_cons_of_mem _ (List.mem_cons_self ..)
  · exact ⟨hname "b" (List.mem_cons_self ..), rfl, rfl, rfl⟩

/-- The rule of an assignment alone. -/
def ebbRule : Rule where
  name := "rules:act"
  locals := .ofList [("a", "x.a"), ("b", "x.b")]
  body := .actions (.set { name := "a" } (.ref { name := "b" }))

def ebb : Workspace where
  catalog := {}
  corpus := { rules := .ofList [("rules:act", ebbRule)] }

/-- New variables do not always come in the order in which they are written: what is assigned comes
    after what it is assigned from. -/
theorem ebb_keys_not_as_written :
    ¬ ∀ w : Workspace, w.corpus.Built →
      (∀ r ∈ w.corpus.rules.values, r.body.misshapen? = none) →
      w.contextRun.1.keys = w.catalog.context.keys
        ++ ((w.pathsBy Body.namesWritten).filter (· ∉ w.catalog.context.keys)).eraseDups := by
  intro h
  have hkeys := h ebb (.rule (r := ebbRule) .empty rfl) (List.forall_mem_singleton.2 rfl)
  have hrule : ebb.pathsBy Body.namesWritten = ebb.pathsOf ebbRule ebbRule.body.namesWritten :=
    List.append_nil _
  have hnames : ebbRule.body.namesWritten = ["a", "b"] := by
    show "a" :: (Expr.ref { name := "b" }).namesInOrder = _
    rw [Expr.namesInOrder, Expr.preorder_eq]
    rfl
  rw [hrule, hnames] at hkeys
  have hread : ebb.contextRun.1.keys = ["x.b", "x.a"] := rfl
  rw [hread] at hkeys
  exact absurd hkeys (by decide)

end AccessRules
