import AccessRules.Proofs.Context.Table
import AccessRules.Proofs.Corpus
import AccessRules.Proofs.Expr.Nodes

set_option autoImplicit false

/-! # Parameters and the table of context variables

A parameter of a helper may have the name of a context variable. If the name is mentioned in the
body of the helper alone, `Corpus.OwnParam`, then no use of a context variable is about it. So two
catalogs that differ in the declaration of this name lead to tables that differ in this entry, and
the entry itself is the declaration, as it was before any rule. -/

namespace AccessRules

/-! ## Mentions -/

/-- A reference of the body mentions the name: in a node, or as a target of an action. -/
def Body.Mentions (b : Body) (name : String) : Prop :=
  (∃ e, b.HasNode e ∧ ∃ r ∈ e.references, name ∈ r.mentioned) ∨
    ∃ a, b.HasAction a ∧ ∃ r ∈ a.assigned, name ∈ r.mentioned

/-- The rule mentions the name in its body, as a short name or as what a short name stands for. -/
def Rule.Mentions (r : Rule) (name : String) : Prop :=
  r.body.Mentions name ∨
    ∃ short path, r.locals.find? short = some path ∧ (short = name ∨ path = name)

/-- The names in an expression in pre-order: those of the expression itself come before those of its
    parts. -/
def Expr.namesInOrder (e : Expr) : List String :=
  e.preorder.flatMap fun n => n.references.flatMap Reference.mentioned

/-- The names in a body in the order in which they are read: those in expressions before those that
    actions assign to. -/
def Body.namesRead (b : Body) : List String :=
  b.tops.flatMap Expr.namesInOrder
    ++ b.actionsInOrder.flatMap fun a => a.assigned.flatMap Reference.mentioned

theorem Body.flatMap_namesInOrder (b : Body) : b.tops.flatMap Expr.namesInOrder
    = b.reached.flatMap fun e => e.references.flatMap Reference.mentioned := by
  rw [reached, List.flatMap_assoc]
  rfl

theorem Body.mem_namesRead_iff {b : Body} {name : String} :
    name ∈ b.namesRead ↔ (∃ e ∈ b.reached, ∃ r ∈ e.references, name ∈ r.mentioned) ∨
      ∃ a, b.HasAction a ∧ ∃ r ∈ a.assigned, name ∈ r.mentioned := by
  simp only [namesRead, flatMap_namesInOrder, List.mem_append, List.mem_flatMap,
    mem_actionsInOrder_iff]

theorem Reference.name_mem_mentioned (r : Reference) : r.name ∈ r.mentioned := by
  obtain ⟨name, _ | q | path⟩ := r <;> simp [mentioned]

theorem Body.mentions_of_node {b : Body} {e : Expr} {r : Reference} (he : b.HasNode e)
    (hr : r ∈ e.references) : b.Mentions r.name :=
  Or.inl ⟨e, he, r, hr, r.name_mem_mentioned⟩

theorem Body.mentions_of_target {b : Body} {a : Action} {r : Reference} (ha : b.HasAction a)
    (hr : r ∈ a.assigned) : b.Mentions r.name :=
  Or.inr ⟨a, ha, r, hr, r.name_mem_mentioned⟩

/-- The parameter of the helper is mentioned in the body of the helper alone. -/
structure Corpus.OwnParam (c : Corpus) (s : Signature) (n : String) : Prop where
  built : c.Built
  helper : c.helpers.find? s.name = some s
  param : s.hasParam n = true
  only : ∀ r ∈ c.rules.values, r.name ≠ s.ruleName → ¬ r.Mentions n

/-- The catalogs differ in the declaration of one context variable at most. -/
structure Catalog.AgreeBut (n : String) (c c' : Catalog) : Prop where
  items : c'.items = c.items
  settings : c'.settings = c.settings
  consts : c'.consts = c.consts
  data : c'.data = c.data
  regions : c'.regions = c.regions
  context : ∀ name, name ≠ n → c'.context.find? name = c.context.find? name

/-! ## What names stand for -/

section Names

variable {corpus : Corpus} {s : Signature} {n name : String} {c c' : Catalog} {r : Rule}

theorem Catalog.AgreeBut.isStatic (h : c.AgreeBut n c') (name : String) :
    c'.isStatic name = c.isStatic name := by
  rw [Catalog.isStatic, Catalog.isStatic, h.data]

theorem Catalog.AgreeBut.resolve? (h : c.AgreeBut n c') (r : Rule) (hname : name ≠ n) :
    r.resolve? c' name = r.resolve? c name := by
  have hcontext : c'.context.contains name = c.context.contains name := by
    rw [Roster.contains, Roster.contains, h.context name hname]
  unfold Rule.resolve?
  rw [hcontext, h.data]

namespace Corpus.OwnParam

theorem isParam (h : corpus.OwnParam s n) (hr : r.name = s.ruleName) :
    corpus.isParam r n = true := by
  rw [Corpus.isParam, helperOf?_of_name hr, h.helper]
  exact h.param

/-- A rule is the body of the helper, without short names and without a spot, or it does not
    mention the parameter. -/
theorem rule_cases (h : corpus.OwnParam s n) (hr : r ∈ corpus.rules.values) :
    (r.name = s.ruleName ∧ r.locals = ∅ ∧ r.spot = none) ∨
      (r.name ≠ s.ruleName ∧ ¬ r.Mentions n) := by
  by_cases hname : r.name = s.ruleName
  · obtain ⟨body, hbody⟩ := h.built.helper_rule h.helper
    have hfind := h.built.mem_values_iff.1 hr
    rw [hname, hbody] at hfind
    obtain rfl := Option.some.inj hfind
    exact Or.inl ⟨rfl, rfl, rfl⟩
  · exact Or.inr ⟨hname, h.only r hr hname⟩

/-- A name that a rule mentions is another one, or it is its parameter. -/
theorem ne_of_mentions (h : corpus.OwnParam s n) (hr : r ∈ corpus.rules.values)
    (hname : r.body.Mentions name) (hparam : corpus.isParam r name = false) : name ≠ n := by
  rintro rfl
  rcases h.rule_cases hr with ⟨hhelper, -⟩ | ⟨-, hnot⟩
  · rw [h.isParam hhelper] at hparam
    cases hparam
  · exact hnot (Or.inl hname)

/-- No short name is the parameter, and none stands for it. -/
theorem locals_ne (h : corpus.OwnParam s n) (hr : r ∈ corpus.rules.values) {path : String}
    (hlocal : r.locals.find? name = some path) : name ≠ n ∧ path ≠ n := by
  rcases h.rule_cases hr with ⟨-, hlocals, -⟩ | ⟨-, hnot⟩
  · rw [hlocals] at hlocal
    cases hlocal
  · exact ⟨fun heq => hnot (Or.inr ⟨name, path, hlocal, Or.inl heq⟩),
      fun heq => hnot (Or.inr ⟨name, path, hlocal, Or.inr heq⟩)⟩

theorem local_param (h : corpus.OwnParam s n) (hr : r ∈ corpus.rules.values) :
    r.locals.find? n = none := by
  cases hlocal : r.locals.find? n with
  | none => rfl
  | some path => exact absurd rfl (h.locals_ne hr hlocal).1

theorem path_ne (h : corpus.OwnParam s n) (hr : r ∈ corpus.rules.values) (hname : name ≠ n) :
    (r.locals.find? name).getD name ≠ n := by
  cases hlocal : r.locals.find? name with
  | none => exact hname
  | some path => exact (h.locals_ne hr hlocal).2

/-- No other name stands for the context variable of this name. -/
theorem resolve?_ne (h : corpus.OwnParam s n) (c : Catalog) (hr : r ∈ corpus.rules.values)
    (hname : name ≠ n) : r.resolve? c name ≠ some n := by
  unfold Rule.resolve?
  cases hlocal : r.locals.find? name with
  | some path => exact fun heq => (h.locals_ne hr hlocal).2 (Option.some.inj heq)
  | none =>
      simp only
      split
      · exact fun heq => hname (Option.some.inj heq)
      · exact fun heq => by cases heq

theorem target?_eq (h : corpus.OwnParam s n) (hagree : c.AgreeBut n c')
    (hr : r ∈ corpus.rules.values) {ref : Reference} (href : r.body.Mentions ref.name) :
    (⟨c', corpus⟩ : Workspace).target? r ref = (⟨c, corpus⟩ : Workspace).target? r ref := by
  unfold Workspace.target?
  by_cases hparam : corpus.isParam r ref.name = true
  · simp [hparam]
  · have hne := h.ne_of_mentions hr href (Bool.eq_false_iff.2 hparam)
    simp only [hagree.resolve? r hne, hagree.isStatic]

theorem target?_ne (h : corpus.OwnParam s n) (c : Catalog) (hr : r ∈ corpus.rules.values)
    {ref : Reference} (href : r.body.Mentions ref.name) :
    (⟨c, corpus⟩ : Workspace).target? r ref ≠ some n := by
  unfold Workspace.target?
  intro htarget
  split at htarget
  · cases htarget
  · next hparam =>
      have hparam : corpus.isParam r ref.name = false := by
        simp only [Bool.or_eq_true, not_or, Bool.not_eq_true] at hparam
        exact hparam.2
      have hresolve := (Option.filter_eq_some_iff.1 htarget).1
      exact h.resolve?_ne c hr (h.ne_of_mentions hr href hparam) hresolve

end Corpus.OwnParam

end Names

/-! ## Uses -/

/-- The variables that a use is about. -/
def Use.vars : Use → List String
  | .mention var => [var]
  | .shows var _ => [var]
  | .assign var _ => [var]
  | .copy var source => [var, source]
  | .swap first second => [first, second]

namespace Workspace

variable {w : Workspace} {r : Rule}

/-- A rule refers to the names that are read in its body, its own parameters apart. -/
theorem referredNames_eq (w : Workspace) (r : Rule) :
    w.referredNames r = r.body.namesRead.filter fun name => !w.corpus.isParam r name := by
  have hnames : r.body.reached.flatMap Expr.refNames = r.body.tops.flatMap Expr.namesInOrder := by
    rw [Body.flatMap_namesInOrder, funext Expr.refNames_eq]
  have htargets : (fun a : Action => a.targets.flatMap Reference.names)
      = fun a => a.assigned.flatMap Reference.mentioned := by
    funext a
    rw [a.targets_eq_assigned, funext Reference.names_eq]
  rw [referredNames, Body.nodes_eq, Body.actionNodes_eq, hnames, htargets]
  rfl

theorem mentions_of_referredNames {name : String} (h : name ∈ w.referredNames r) :
    r.body.Mentions name ∧ w.corpus.isParam r name = false := by
  rw [referredNames_eq] at h
  obtain ⟨hmem, hparam⟩ := List.mem_filter.1 h
  refine ⟨?_, by simpa using hparam⟩
  rcases Body.mem_namesRead_iff.1 hmem with ⟨e, he, hname⟩ | hname
  · exact Or.inl ⟨e, Body.hasNode_of_mem_reached he, hname⟩
  · exact Or.inr hname

/-- The variable is what a reference that is read in the body stands for. -/
def IsTarget (w : Workspace) (r : Rule) (var : String) : Prop :=
  ∃ ref : Reference, ref.name ∈ w.referredNames r ∧ w.target? r ref = some var

theorem isParam_of_target? {ref : Reference} {var : String} (h : w.target? r ref = some var) :
    w.corpus.isParam r ref.name = false := by
  unfold target? at h
  split at h
  · cases h
  · next hnot =>
      simp only [Bool.or_eq_true, not_or, Bool.not_eq_true] at hnot
      exact hnot.2

theorem isTarget_of_node {e : Expr} {ref : Reference} {var : String} (he : e ∈ r.body.reached)
    (href : ref ∈ e.references) (h : w.target? r ref = some var) : w.IsTarget r var := by
  refine ⟨ref, ?_, h⟩
  rw [referredNames_eq]
  refine List.mem_filter.2 ⟨Body.mem_namesRead_iff.2 (Or.inl ?_), by simp [isParam_of_target? h]⟩
  exact ⟨e, he, ref, href, ref.name_mem_mentioned⟩

theorem isTarget_of_action {a : Action} {ref : Reference} {var : String}
    (ha : r.body.HasAction a) (href : ref ∈ a.assigned) (h : w.target? r ref = some var) :
    w.IsTarget r var := by
  refine ⟨ref, ?_, h⟩
  rw [referredNames_eq]
  refine List.mem_filter.2 ⟨Body.mem_namesRead_iff.2 (Or.inr ?_), by simp [isParam_of_target? h]⟩
  exact ⟨a, ha, ref, href, ref.name_mem_mentioned⟩

theorem isTarget_of_comparisonUse {side other : Expr} (hside : side ∈ r.body.reached) {u : Use}
    (hu : u ∈ w.comparisonUse r side other) : ∀ var ∈ u.vars, w.IsTarget r var := by
  unfold comparisonUse at hu
  split at hu
  · next ref =>
      have htarget : ∀ var, w.target? r ref = some var → w.IsTarget r var := fun var h =>
        isTarget_of_node hside (by simp [Expr.references]) h
      split at hu
      · next h =>
          obtain rfl := List.mem_singleton.1 hu
          exact List.forall_mem_singleton.2 (htarget _ h)
      · next h =>
          obtain rfl := List.mem_singleton.1 hu
          exact List.forall_mem_singleton.2 (htarget _ h)
      · cases hu
  · cases hu

/-- What expressions show is about the variables that their references stand for. -/
theorem isTarget_of_exprUses {e : Expr} (he : e ∈ r.body.reached) {u : Use}
    (hu : u ∈ w.exprUses r e) : ∀ var ∈ u.vars, w.IsTarget r var := by
  have hchild : ∀ c ∈ e.visited, c ∈ r.body.reached :=
    fun c hc => Body.mem_reached_of_visited he hc
  unfold exprUses at hu
  split at hu
  · rcases List.mem_append.1 hu with hu | hu
    · exact isTarget_of_comparisonUse (hchild _ (by simp [Expr.visited, Expr.children])) hu
    · exact isTarget_of_comparisonUse (hchild _ (by simp [Expr.visited, Expr.children])) hu
  · next ref _ _ =>
      obtain ⟨var, htarget, hu⟩ := List.mem_flatMap.1 hu
      obtain ⟨kind, -, rfl⟩ := List.mem_map.1 hu
      have href : .ref ref ∈ r.body.reached := hchild _ (by simp [Expr.visited, Expr.children])
      exact List.forall_mem_singleton.2
        (isTarget_of_node href (by simp [Expr.references]) (Option.mem_toList.1 htarget))
  · next ref _ =>
      obtain ⟨var, htarget, rfl⟩ := List.mem_map.1 hu
      have href : .ref ref ∈ r.body.reached := hchild _ (by simp [Expr.visited, Expr.children])
      exact List.forall_mem_singleton.2
        (isTarget_of_node href (by simp [Expr.references]) (Option.mem_toList.1 htarget))
  · obtain ⟨var, htarget, hu⟩ := List.mem_flatMap.1 hu
    obtain ⟨kind, -, rfl⟩ := List.mem_map.1 hu
    exact List.forall_mem_singleton.2
      (isTarget_of_node he (by simp [Expr.references]) (Option.mem_toList.1 htarget))
  · cases hu

/-- What actions show is about the variables that their references stand for. -/
theorem isTarget_of_actionUses {a : Action} (ha : r.body.HasAction a) {u : Use}
    (hu : u ∈ w.actionUses r a) : ∀ var ∈ u.vars, w.IsTarget r var := by
  unfold actionUses at hu
  split at hu
  · obtain ⟨var, hvar, huse⟩ := List.mem_flatMap.1 hu
    have hassigned : w.IsTarget r var :=
      isTarget_of_action ha (by simp [Action.assigned]) (Option.mem_toList.1 hvar)
    unfold assignmentUses at huse
    split at huse
    · obtain rfl := List.mem_singleton.1 huse
      exact List.forall_mem_singleton.2 hassigned
    · next source _ =>
        obtain ⟨path, hpath, rfl⟩ := List.mem_map.1 huse
        have hnode : .ref source ∈ r.body.reached :=
          Body.mem_reached_of_held ha (by simp [Action.held])
        refine List.forall_mem_cons.2 ⟨hassigned, List.forall_mem_singleton.2 ?_⟩
        exact isTarget_of_node hnode (by simp [Expr.references]) (Option.mem_toList.1 hpath)
    · cases huse
  · obtain ⟨var, hvar, rfl⟩ := List.mem_map.1 hu
    exact List.forall_mem_singleton.2
      (isTarget_of_action ha (by simp [Action.assigned]) (Option.mem_toList.1 hvar))
  · split at hu
    · next hfirst hsecond =>
        obtain rfl := List.mem_singleton.1 hu
        refine List.forall_mem_cons.2 ⟨?_, List.forall_mem_singleton.2 ?_⟩
        · exact isTarget_of_action ha (by simp [Action.assigned]) hfirst
        · exact isTarget_of_action ha (by simp [Action.assigned]) hsecond
    · cases hu
  · cases hu

end Workspace

section Uses

variable {corpus : Corpus} {s : Signature} {n : String} {c c' : Catalog} {r : Rule}

namespace Corpus.OwnParam

/-- No use of a context variable is about the parameter. -/
theorem notMem_vars (h : corpus.OwnParam s n) (c : Catalog) (hr : r ∈ corpus.rules.values)
    {u : Use} (hu : u ∈ (⟨c, corpus⟩ : Workspace).uses r) : n ∉ u.vars := by
  have htargets : (∀ var ∈ u.vars, (⟨c, corpus⟩ : Workspace).IsTarget r var) → n ∉ u.vars := by
    intro htargets hn
    obtain ⟨ref, href, htarget⟩ := htargets n hn
    exact h.target?_ne c hr (Workspace.mentions_of_referredNames href).1 htarget
  rw [Workspace.uses_eq] at hu
  rcases List.mem_append.1 hu with hu | hu
  · rcases List.mem_append.1 hu with hu | hu
    · obtain ⟨path, hpath, hu⟩ := List.mem_filterMap.1 hu
      obtain ⟨name, hname, hresolve⟩ := List.mem_filterMap.1 hpath
      obtain ⟨hmentions, hparam⟩ := Workspace.mentions_of_referredNames hname
      split at hu
      · cases hu
      · obtain rfl := Option.some.inj hu
        intro hn
        obtain rfl := List.mem_singleton.1 hn
        exact h.resolve?_ne c hr (h.ne_of_mentions hr hmentions hparam) hresolve
    · obtain ⟨e, he, hu⟩ := List.mem_flatMap.1 hu
      exact htargets (Workspace.isTarget_of_exprUses he hu)
  · obtain ⟨a, ha, hu⟩ := List.mem_flatMap.1 hu
    exact htargets (Workspace.isTarget_of_actionUses (Body.mem_actionsInOrder_iff.1 ha) hu)

theorem mentions_eq (h : corpus.OwnParam s n) (hagree : c.AgreeBut n c')
    (hr : r ∈ corpus.rules.values) :
    (⟨c', corpus⟩ : Workspace).mentions r = (⟨c, corpus⟩ : Workspace).mentions r := by
  have hnames : ((⟨c', corpus⟩ : Workspace).referredNames r).filterMap (r.resolve? c')
      = ((⟨c, corpus⟩ : Workspace).referredNames r).filterMap (r.resolve? c) := by
    refine List.filterMap_congr fun name hname => hagree.resolve? r ?_
    obtain ⟨hmentions, hparam⟩ := Workspace.mentions_of_referredNames hname
    exact h.ne_of_mentions hr hmentions hparam
  simp only [Workspace.mentions, hnames, hagree.isStatic]

theorem exprUses_eq (h : corpus.OwnParam s n) (hagree : c.AgreeBut n c')
    (hr : r ∈ corpus.rules.values) {e : Expr} (he : r.body.HasNode e) :
    (⟨c', corpus⟩ : Workspace).exprUses r e = (⟨c, corpus⟩ : Workspace).exprUses r e := by
  -- the references of a node and of its children are mentioned
  have href : ∀ ref, r.body.HasNode (.ref ref) →
      (⟨c', corpus⟩ : Workspace).target? r ref = (⟨c, corpus⟩ : Workspace).target? r ref :=
    fun ref hnode => h.target?_eq hagree hr
      (Body.mentions_of_node hnode (by simp [Expr.references]))
  have hcompare : ∀ side other, r.body.HasNode side →
      (⟨c', corpus⟩ : Workspace).comparisonUse r side other
        = (⟨c, corpus⟩ : Workspace).comparisonUse r side other := by
    intro side other hside
    cases side with
    | ref ref => simp only [Workspace.comparisonUse, href ref hside]
    | _ => rfl
  cases e with
  | numCompare lhs op rhs =>
      simp only [Workspace.exprUses, hcompare lhs rhs (he.child (by simp [Expr.children])),
        hcompare rhs lhs (he.child (by simp [Expr.children]))]
  | strCompare lhs op lit =>
      cases lhs with
      | ref ref =>
          simp only [Workspace.exprUses, href ref (he.child (by simp [Expr.children]))]
      | _ => rfl
  | flagMatch value mask =>
      cases value with
      | ref ref =>
          simp only [Workspace.exprUses, href ref (he.child (by simp [Expr.children]))]
      | _ => rfl
  | refInSet ref members =>
      have htarget := h.target?_eq hagree hr (Body.mentions_of_node he (r := ref)
        (by simp [Expr.references]))
      simp only [Workspace.exprUses, htarget]
  | _ => rfl

theorem actionUses_eq (h : corpus.OwnParam s n) (hagree : c.AgreeBut n c')
    (hr : r ∈ corpus.rules.values) {a : Action} (ha : r.body.HasAction a) :
    (⟨c', corpus⟩ : Workspace).actionUses r a = (⟨c, corpus⟩ : Workspace).actionUses r a := by
  have htarget : ∀ ref ∈ a.assigned,
      (⟨c', corpus⟩ : Workspace).target? r ref = (⟨c, corpus⟩ : Workspace).target? r ref :=
    fun ref href => h.target?_eq hagree hr (Body.mentions_of_target ha href)
  cases a with
  | set target value =>
      have hassign : ∀ var, (⟨c', corpus⟩ : Workspace).assignmentUses r var value
          = (⟨c, corpus⟩ : Workspace).assignmentUses r var value := by
        intro var
        cases value with
        | ref source =>
            have hnode : r.body.HasNode (.ref source) :=
              Body.hasNode_of_mem_reached (Body.mem_reached_of_held ha (by simp [Action.held]))
            simp only [Workspace.assignmentUses, Expr.literal?, h.target?_eq hagree hr
              (Body.mentions_of_node hnode (r := source) (by simp [Expr.references]))]
        | _ => rfl
      simp only [Workspace.actionUses, htarget target (by simp [Action.assigned]), hassign]
  | alter target op delta =>
      simp only [Workspace.actionUses, htarget target (by simp [Action.assigned])]
  | swap first second =>
      simp only [Workspace.actionUses, htarget first (by simp [Action.assigned]),
        htarget second (by simp [Action.assigned])]
  | _ => rfl

theorem uses_eq (h : corpus.OwnParam s n) (hagree : c.AgreeBut n c')
    (hr : r ∈ corpus.rules.values) :
    (⟨c', corpus⟩ : Workspace).uses r = (⟨c, corpus⟩ : Workspace).uses r := by
  have hexprs : r.body.reached.flatMap ((⟨c', corpus⟩ : Workspace).exprUses r)
      = r.body.reached.flatMap ((⟨c, corpus⟩ : Workspace).exprUses r) :=
    List.flatMap_congr fun e he => h.exprUses_eq hagree hr (Body.hasNode_of_mem_reached he)
  have hactions : r.body.actionsInOrder.flatMap ((⟨c', corpus⟩ : Workspace).actionUses r)
      = r.body.actionsInOrder.flatMap ((⟨c, corpus⟩ : Workspace).actionUses r) :=
    List.flatMap_congr fun a ha => h.actionUses_eq hagree hr (Body.mem_actionsInOrder_iff.1 ha)
  rw [Workspace.uses_eq, Workspace.uses_eq, h.mentions_eq hagree hr, hexprs, hactions]

end Corpus.OwnParam

end Uses

/-! ## Tables -/

namespace ContextTable

variable {n var rule : String} {t t' : ContextTable}

/-- The tables differ in the entry of one variable at most. -/
def AgreeBut (n : String) (t t' : ContextTable) : Prop :=
  ∀ name, name ≠ n → t'.find? name = t.find? name

theorem find?_modify (t : ContextTable) (var key : String) (f : ContextVar → ContextVar) :
    (t.modify var f).find? key
      = if key = var then some (f ((t.find? var).getD { name := var })) else t.find? key := by
  rw [modify, Roster.find?_insert]

theorem AgreeBut.kind? (h : AgreeBut n t t') (hvar : var ≠ n) : t'.kind? var = t.kind? var := by
  rw [ContextTable.kind?, ContextTable.kind?, h var hvar]

theorem AgreeBut.modify (h : AgreeBut n t t') (hvar : var ≠ n) (f : ContextVar → ContextVar) :
    AgreeBut n (t.modify var f) (t'.modify var f) := by
  intro name hname
  rw [find?_modify, find?_modify, h var hvar, h name hname]

theorem AgreeBut.observe (h : AgreeBut n t t') (hvar : var ≠ n) (kind : ContextKind) :
    AgreeBut n (t.observe rule var kind).1 (t'.observe rule var kind).1 := by
  unfold ContextTable.observe
  rw [h.kind? hvar]
  cases t.kind? var with
  | none => exact h.modify hvar _
  | some known => exact h

theorem AgreeBut.unify {a b : String} (h : AgreeBut n t t') (ha : a ≠ n) (hb : b ≠ n) :
    AgreeBut n (t.unify rule a b).1 (t'.unify rule a b).1 := by
  unfold ContextTable.unify
  rw [h.kind? ha, h.kind? hb]
  split
  · exact h
  · exact h
  · exact h.modify hb _
  · exact h.modify ha _
  · exact h

theorem AgreeBut.record {u : Use} (h : AgreeBut n t t') (hu : n ∉ u.vars) :
    AgreeBut n (record rule t u).1 (ContextTable.record rule t' u).1 := by
  cases u with
  | mention var => exact h.modify (Ne.symm (List.ne_of_not_mem_cons hu)) _
  | shows var kind => exact h.observe (Ne.symm (List.ne_of_not_mem_cons hu)) kind
  | assign var lit =>
      have hvar : var ≠ n := Ne.symm (List.ne_of_not_mem_cons hu)
      simp only [ContextTable.record]
      split
      · exact (h.observe hvar _).modify hvar _
      · exact h.modify hvar _
  | copy var source =>
      have hvars : var ≠ n ∧ source ≠ n := by simpa [Use.vars, eq_comm] using hu
      exact (h.unify hvars.1 hvars.2).modify hvars.1 _
  | swap a b =>
      have hvars : a ≠ n ∧ b ≠ n := by simpa [Use.vars, eq_comm] using hu
      exact ((h.unify hvars.1 hvars.2).modify hvars.1 _).modify hvars.2 _

theorem AgreeBut.recordAll {uses : List (String × Use)} (h : AgreeBut n t t')
    (huses : ∀ u ∈ uses, n ∉ u.2.vars) :
    AgreeBut n (t.recordAll uses).1 (t'.recordAll uses).1 := by
  induction uses generalizing t t' with
  | nil => exact h
  | cons u uses ih =>
      exact ih (h.record (huses u (List.mem_cons_self ..))) fun v hv =>
        huses v (List.mem_cons_of_mem _ hv)

/-! ## Entries that no use is about -/

theorem find?_modify_of_ne (t : ContextTable) (hvar : var ≠ n) (f : ContextVar → ContextVar) :
    (t.modify var f).find? n = t.find? n := by
  rw [find?_modify, if_neg (Ne.symm hvar)]

theorem find?_observe_of_ne (t : ContextTable) (hvar : var ≠ n) (kind : ContextKind) :
    (t.observe rule var kind).1.find? n = t.find? n := by
  unfold observe
  split
  · exact t.find?_modify_of_ne hvar _
  · rfl

theorem find?_unify_of_ne (t : ContextTable) {a b : String} (ha : a ≠ n) (hb : b ≠ n) :
    (t.unify rule a b).1.find? n = t.find? n := by
  unfold unify
  split
  · rfl
  · rfl
  · exact t.find?_modify_of_ne hb _
  · exact t.find?_modify_of_ne ha _
  · rfl

theorem find?_record_of_notMem (t : ContextTable) {u : Use} (hu : n ∉ u.vars) :
    (record rule t u).1.find? n = t.find? n := by
  cases u with
  | mention var => exact t.find?_modify_of_ne (Ne.symm (List.ne_of_not_mem_cons hu)) _
  | shows var kind => exact t.find?_observe_of_ne (Ne.symm (List.ne_of_not_mem_cons hu)) kind
  | assign var lit =>
      have hvar : var ≠ n := Ne.symm (List.ne_of_not_mem_cons hu)
      simp only [record]
      rw [find?_modify_of_ne _ hvar]
      split
      · exact t.find?_observe_of_ne hvar _
      · rfl
  | copy var source =>
      have hvars : var ≠ n ∧ source ≠ n := by simpa [Use.vars, eq_comm] using hu
      exact (find?_modify_of_ne _ hvars.1 _).trans (t.find?_unify_of_ne hvars.1 hvars.2)
  | swap a b =>
      have hvars : a ≠ n ∧ b ≠ n := by simpa [Use.vars, eq_comm] using hu
      exact (find?_modify_of_ne _ hvars.2 _).trans
        ((find?_modify_of_ne _ hvars.1 _).trans (t.find?_unify_of_ne hvars.1 hvars.2))

theorem find?_recordAll_of_notMem (t : ContextTable) {uses : List (String × Use)}
    (huses : ∀ u ∈ uses, n ∉ u.2.vars) : (t.recordAll uses).1.find? n = t.find? n := by
  induction uses generalizing t with
  | nil => rfl
  | cons u uses ih =>
      show ((record u.1 t u.2).1.recordAll uses).1.find? n = _
      rw [ih _ fun v hv => huses v (List.mem_cons_of_mem _ hv),
        t.find?_record_of_notMem (huses u (List.mem_cons_self ..))]

end ContextTable

/-! ## The table of a corpus -/

namespace Corpus.OwnParam

variable {corpus : Corpus} {s : Signature} {n : String} {c c' : Catalog}

theorem notMem_namedUses (h : corpus.OwnParam s n) (c : Catalog) :
    ∀ u ∈ corpus.rules.values.flatMap (⟨c, corpus⟩ : Workspace).namedUses, n ∉ u.2.vars := by
  intro u hu
  obtain ⟨r, hr, hu⟩ := List.mem_flatMap.1 hu
  obtain ⟨use, huse, rfl⟩ := List.mem_map.1 hu
  exact h.notMem_vars c hr huse

/-- What the corpus finds of other variables does not depend on the declaration. -/
theorem contexts_agree (h : corpus.OwnParam s n) (hagree : c.AgreeBut n c') :
    ContextTable.AgreeBut n (⟨c, corpus⟩ : Workspace).contextRun.1
      (⟨c', corpus⟩ : Workspace).contextRun.1 := by
  have hstart : ContextTable.AgreeBut n (ContextTable.ofCatalog c).1
      (ContextTable.ofCatalog c').1 := by
    intro name hname
    rw [ContextTable.find?_ofCatalog, ContextTable.find?_ofCatalog, hagree.context name hname]
  have huses : corpus.rules.values.flatMap (⟨c', corpus⟩ : Workspace).namedUses
      = corpus.rules.values.flatMap (⟨c, corpus⟩ : Workspace).namedUses := by
    refine List.flatMap_congr fun r hr => ?_
    rw [Workspace.namedUses, Workspace.namedUses, h.uses_eq hagree hr]
  simp only [Workspace.contextRun, Workspace.resolveContext,
    Workspace.accumulate_resolveRule_fst, huses]
  exact hstart.recordAll (h.notMem_namedUses c)

/-- What the corpus finds of the context variable with the name of the parameter is its
    declaration. -/
theorem find?_contexts (h : corpus.OwnParam s n) (c : Catalog) :
    (⟨c, corpus⟩ : Workspace).contextRun.1.find? n
      = (c.context.find? n).map fun d => (ContextVar.ofDecl n d).1 := by
  rw [Workspace.contextRun, Workspace.resolveContext, Workspace.accumulate_resolveRule_fst,
    ContextTable.find?_recordAll_of_notMem _ (h.notMem_namedUses c),
    ContextTable.find?_ofCatalog]

end Corpus.OwnParam

end AccessRules
