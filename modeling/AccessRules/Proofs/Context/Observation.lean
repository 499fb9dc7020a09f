import AccessRules.Proofs.Context.Run
import AccessRules.Proofs.Expr.Nodes

set_option autoImplicit false

/-! # Every observation counts against one kind

A variable gets a kind once, from its declaration, from the first value it is seen with or from
another variable, and keeps it. `Workspace.Observes` says which kinds a rule shows a variable to
have. Each of them fits the kind that the variable has in the end, however early it is seen, or is
reported as a conflict with that kind, and nothing else is. -/

namespace AccessRules

/-! ## What a rule shows -/

/-- The literal as an expression. -/
def Literal.toExpr : Literal → Expr
  | .bool b => .bool b
  | .int n => .int n
  | .float x => .float x
  | .str s => .str s
  | .place path => .place path

/-- The value is of a kind. A string is a value of the enumeration of the variable. -/
inductive Literal.OfKind (var : String) : Literal → ContextKind → Prop
  | bool (b : Bool) : OfKind var (.bool b) .bool
  | int (n : Int64) : OfKind var (.int n) .int
  | float (x : Float) : OfKind var (.float x) .float
  | str (s : String) : OfKind var (.str s) (.enum (enumName var))
  | place {path : String} {kind : PlaceKind} (hpath : Place.kind? path = some kind) :
      OfKind var (.place path) (.place kind)

namespace Workspace

/-- The reference stands for a context variable in the rule. -/
structure Denotes (w : Workspace) (r : Rule) (ref : Reference) (var : String) : Prop where
  bare : ref.qualifier = none
  free : w.corpus.isParam r ref.name = false
  resolved : r.resolve? w.catalog ref.name = some var
  live : w.catalog.isStatic var = false

/-- The node shows the variable to have a kind. -/
inductive NodeShows (w : Workspace) (r : Rule) (var : String) : ContextKind → Expr → Prop
  | withInt {ref : Reference} (href : w.Denotes r ref var) (op : CmpOp) (n : Int64) :
      NodeShows w r var .int (.numCompare (.ref ref) op (.int n))
  | intWith {ref : Reference} (href : w.Denotes r ref var) (op : CmpOp) (n : Int64) :
      NodeShows w r var .int (.numCompare (.int n) op (.ref ref))
  | withFloat {ref : Reference} (href : w.Denotes r ref var) (op : CmpOp) (x : Float) :
      NodeShows w r var .float (.numCompare (.ref ref) op (.float x))
  | floatWith {ref : Reference} (href : w.Denotes r ref var) (op : CmpOp) (x : Float) :
      NodeShows w r var .float (.numCompare (.float x) op (.ref ref))
  | withLiteral {ref : Reference} {lit : Literal} {kind : ContextKind}
      (href : w.Denotes r ref var) (op : CmpOp) (hlit : lit.OfKind var kind) :
      NodeShows w r var kind (.strCompare (.ref ref) op lit)
  | masked {ref : Reference} (href : w.Denotes r ref var) (mask : Int64) :
      NodeShows w r var .int (.flagMatch (.ref ref) mask)
  | amongStrs {ref : Reference} (href : w.Denotes r ref var) (texts : List String) :
      NodeShows w r var (.enum (enumName var)) (.refInSet ref (.strs texts))
  /-- The first place stands for all of them. -/
  | amongPlaces {ref : Reference} {path : String} {kind : PlaceKind} (href : w.Denotes r ref var)
      (hpath : Place.kind? path = some kind) (paths : List String) :
      NodeShows w r var (.place kind) (.refInSet ref (.places (path :: paths)))

/-- The action shows the variable to have a kind. -/
inductive ActionShows (w : Workspace) (r : Rule) (var : String) : ContextKind → Action → Prop
  | set {ref : Reference} {lit : Literal} {kind : ContextKind} (href : w.Denotes r ref var)
      (hlit : lit.OfKind var kind) : ActionShows w r var kind (.set ref lit.toExpr)
  | alterByFloat {ref : Reference} (href : w.Denotes r ref var) (op : ArithOp) (x : Float) :
      ActionShows w r var .float (.alter ref op (.float x))
  | alter {ref : Reference} {delta : Expr} (href : w.Denotes r ref var) (op : ArithOp)
      (hdelta : ∀ x, delta ≠ .float x) : ActionShows w r var .int (.alter ref op delta)

/-- A node of the rule that a walk is to come to, or an action of the rule, shows the variable to
    have a kind. -/
def Observes (w : Workspace) (r : Rule) (var : String) (kind : ContextKind) : Prop :=
  (∃ e ∈ r.body.reached, w.NodeShows r var kind e) ∨
    ∃ a, r.body.HasAction a ∧ w.ActionShows r var kind a

end Workspace

/-! ## Uses that observe -/

theorem Expr.literal?_eq_some_iff {e : Expr} {lit : Literal} :
    e.literal? = some lit ↔ e = lit.toExpr := by
  cases e <;> cases lit <;> simp [literal?, Literal.toExpr]

theorem ContextKind.ofLiteral?_eq_some_iff {lit : Literal} {var : String} {kind : ContextKind} :
    ofLiteral? lit var = some kind ↔ lit.OfKind var kind := by
  constructor
  · intro h
    cases lit with
    | place path =>
        obtain ⟨k, hpath, rfl⟩ := Option.map_eq_some_iff.1 h
        exact .place hpath
    | bool b => exact Option.some.inj h ▸ .bool b
    | int n => exact Option.some.inj h ▸ .int n
    | float x => exact Option.some.inj h ▸ .float x
    | str s => exact Option.some.inj h ▸ .str s
  · intro h
    cases h with
    | place hpath => exact Option.map_eq_some_iff.2 ⟨_, hpath, rfl⟩
    | _ => rfl

/-- The use is the sight of a variable with a value of a kind. -/
inductive Use.Observes (var : String) (kind : ContextKind) : Use → Prop
  | shows : Observes var kind (.shows var kind)
  | assign {lit : Literal} (hlit : lit.OfKind var kind) : Observes var kind (.assign var lit)

namespace Workspace

variable {w : Workspace} {r : Rule} {var : String} {kind : ContextKind}

theorem target?_eq_some_iff {ref : Reference} :
    w.target? r ref = some var ↔ w.Denotes r ref var := by
  unfold target?
  split
  · rename_i h
    refine ⟨fun hnone => absurd hnone (by simp), fun href => ?_⟩
    simp [href.bare, href.free] at h
  · rename_i h
    obtain ⟨hbare, hfree⟩ : ref.qualifier = none ∧ w.corpus.isParam r ref.name = false := by
      simpa using h
    rw [Option.filter_eq_some_iff]
    constructor
    · rintro ⟨hresolved, hlive⟩
      exact ⟨hbare, hfree, hresolved, by simpa using hlive⟩
    · exact fun href => ⟨href.resolved, by simp [href.live]⟩

/-- What the sides of a comparison show about the first of them. -/
theorem observes_comparisonUse_iff {side other : Expr} :
    (∃ u ∈ w.comparisonUse r side other, u.Observes var kind) ↔
      ∃ ref, side = .ref ref ∧ w.Denotes r ref var ∧
        ((∃ n, other = .int n) ∧ kind = .int ∨ (∃ x, other = .float x) ∧ kind = .float) := by
  constructor
  · rintro ⟨u, hu, hobserves⟩
    unfold comparisonUse at hu
    split at hu
    · rename_i ref
      split at hu
      · rename_i v n hv
        obtain rfl := List.mem_singleton.1 hu
        cases hobserves
        exact ⟨ref, rfl, target?_eq_some_iff.1 hv, Or.inl ⟨⟨n, rfl⟩, rfl⟩⟩
      · rename_i v x hv
        obtain rfl := List.mem_singleton.1 hu
        cases hobserves
        exact ⟨ref, rfl, target?_eq_some_iff.1 hv, Or.inr ⟨⟨x, rfl⟩, rfl⟩⟩
      · cases hu
    · cases hu
  · rintro ⟨ref, rfl, href, hother⟩
    have htarget := target?_eq_some_iff.2 href
    rcases hother with ⟨⟨n, rfl⟩, rfl⟩ | ⟨⟨x, rfl⟩, rfl⟩
    · exact ⟨.shows var .int, by simp [comparisonUse, htarget], .shows⟩
    · exact ⟨.shows var .float, by simp [comparisonUse, htarget], .shows⟩

/-- A reference that may show a kind, if it is known which, shows it of what it stands for. -/
theorem observes_flatMap_iff {ref : Reference} {shown : String → Option ContextKind} :
    (∃ u ∈ (w.target? r ref).toList.flatMap fun v => (shown v).toList.map (Use.shows v),
      u.Observes var kind) ↔ w.Denotes r ref var ∧ shown var = some kind := by
  simp only [List.mem_flatMap, List.mem_map, Option.mem_toList, target?_eq_some_iff]
  constructor
  · rintro ⟨u, ⟨v, href, k, hk, rfl⟩, hobserves⟩
    cases hobserves
    exact ⟨href, hk⟩
  · rintro ⟨href, hshown⟩
    exact ⟨_, ⟨var, href, kind, hshown, rfl⟩, .shows⟩

theorem membersKind?_eq_some_iff {members : Members} :
    membersKind? var members = some kind ↔
      (∃ texts, members = .strs texts) ∧ kind = .enum (enumName var) ∨
      ∃ path paths k, members = .places (path :: paths) ∧ Place.kind? path = some k ∧
        kind = .place k := by
  rcases members with names | texts | paths
  · simp [membersKind?]
  · simp [membersKind?, eq_comm]
  · rcases paths with _ | ⟨path, paths⟩
    · simp [membersKind?]
    · show (Place.kind? path).map ContextKind.place = some kind ↔ _
      rw [Option.map_eq_some_iff]
      simp [eq_comm]

theorem observes_exprUses_iff {e : Expr} :
    (∃ u ∈ w.exprUses r e, u.Observes var kind) ↔ w.NodeShows r var kind e := by
  constructor
  · intro h
    unfold exprUses at h
    split at h
    · obtain ⟨u, hu, hobserves⟩ := h
      rcases List.mem_append.1 hu with hu | hu
      · obtain ⟨ref, rfl, href, ⟨⟨n, rfl⟩, rfl⟩ | ⟨⟨x, rfl⟩, rfl⟩⟩ :=
          observes_comparisonUse_iff.1 ⟨u, hu, hobserves⟩
        · exact .withInt href _ n
        · exact .withFloat href _ x
      · obtain ⟨ref, rfl, href, ⟨⟨n, rfl⟩, rfl⟩ | ⟨⟨x, rfl⟩, rfl⟩⟩ :=
          observes_comparisonUse_iff.1 ⟨u, hu, hobserves⟩
        · exact .intWith href _ n
        · exact .floatWith href _ x
    · obtain ⟨href, hlit⟩ := observes_flatMap_iff.1 h
      exact .withLiteral href _ (ContextKind.ofLiteral?_eq_some_iff.1 hlit)
    · obtain ⟨u, hu, hobserves⟩ := h
      obtain ⟨v, hv, rfl⟩ := List.mem_map.1 hu
      cases hobserves
      exact .masked (target?_eq_some_iff.1 (Option.mem_toList.1 hv)) _
    · obtain ⟨href, hmembers⟩ := observes_flatMap_iff.1 h
      rcases membersKind?_eq_some_iff.1 hmembers with
        ⟨⟨texts, rfl⟩, rfl⟩ | ⟨path, paths, k, rfl, hpath, rfl⟩
      · exact .amongStrs href texts
      · exact .amongPlaces href hpath paths
    · obtain ⟨u, hu, -⟩ := h
      cases hu
  · have hleft : ∀ {side other : Expr} {op : CmpOp},
        (∃ u ∈ w.comparisonUse r side other, u.Observes var kind) →
        ∃ u ∈ w.exprUses r (.numCompare side op other), u.Observes var kind := by
      rintro side other op ⟨u, hu, hobserves⟩
      exact ⟨u, List.mem_append_left _ hu, hobserves⟩
    have hright : ∀ {side other : Expr} {op : CmpOp},
        (∃ u ∈ w.comparisonUse r side other, u.Observes var kind) →
        ∃ u ∈ w.exprUses r (.numCompare other op side), u.Observes var kind := by
      rintro side other op ⟨u, hu, hobserves⟩
      exact ⟨u, List.mem_append_right _ hu, hobserves⟩
    intro h
    cases h with
    | withInt href op n =>
        exact hleft (observes_comparisonUse_iff.2 ⟨_, rfl, href, Or.inl ⟨⟨n, rfl⟩, rfl⟩⟩)
    | intWith href op n =>
        exact hright (observes_comparisonUse_iff.2 ⟨_, rfl, href, Or.inl ⟨⟨n, rfl⟩, rfl⟩⟩)
    | withFloat href op x =>
        exact hleft (observes_comparisonUse_iff.2 ⟨_, rfl, href, Or.inr ⟨⟨x, rfl⟩, rfl⟩⟩)
    | floatWith href op x =>
        exact hright (observes_comparisonUse_iff.2 ⟨_, rfl, href, Or.inr ⟨⟨x, rfl⟩, rfl⟩⟩)
    | withLiteral href op hlit =>
        exact observes_flatMap_iff.2 ⟨href, ContextKind.ofLiteral?_eq_some_iff.2 hlit⟩
    | masked href mask =>
        refine ⟨.shows var .int, List.mem_map.2 ⟨var, ?_, rfl⟩, .shows⟩
        exact Option.mem_toList.2 (target?_eq_some_iff.2 href)
    | amongStrs href texts => exact observes_flatMap_iff.2 ⟨href, rfl⟩
    | amongPlaces href hpath paths =>
        refine observes_flatMap_iff.2 ⟨href, membersKind?_eq_some_iff.2 (Or.inr ?_)⟩
        exact ⟨_, paths, _, rfl, hpath, rfl⟩

theorem observes_actionUses_iff {a : Action} :
    (∃ u ∈ w.actionUses r a, u.Observes var kind) ↔ w.ActionShows r var kind a := by
  constructor
  · rintro ⟨u, hu, hobserves⟩
    unfold actionUses at hu
    split at hu
    · obtain ⟨v, hv, hu⟩ := List.mem_flatMap.1 hu
      have href := target?_eq_some_iff.1 (Option.mem_toList.1 hv)
      unfold assignmentUses at hu
      split at hu
      · rename_i lit hvalue
        obtain rfl := List.mem_singleton.1 hu
        obtain rfl := Expr.literal?_eq_some_iff.1 hvalue
        cases hobserves with
        | assign hlit => exact .set href hlit
      · obtain ⟨source, -, rfl⟩ := List.mem_map.1 hu
        cases hobserves
      · cases hu
    · rename_i target op delta
      obtain ⟨v, hv, rfl⟩ := List.mem_map.1 hu
      cases hobserves
      have href := target?_eq_some_iff.1 (Option.mem_toList.1 hv)
      split
      · exact .alterByFloat href _ _
      · rename_i hdelta
        exact .alter href _ hdelta
    · split at hu
      · obtain rfl := List.mem_singleton.1 hu
        cases hobserves
      · cases hu
    · cases hu
  · intro h
    cases h with
    | @set ref lit _ href hlit =>
        refine ⟨.assign var lit, ?_, .assign hlit⟩
        simp [actionUses, assignmentUses, target?_eq_some_iff.2 href,
          Expr.literal?_eq_some_iff.2 rfl]
    | alterByFloat href op x =>
        refine ⟨.shows var .float, ?_, .shows⟩
        simp [actionUses, target?_eq_some_iff.2 href]
    | @alter ref delta href op hdelta =>
        refine ⟨.shows var .int, ?_, .shows⟩
        cases delta with
        | float x => exact absurd rfl (hdelta x)
        | _ => simp [actionUses, target?_eq_some_iff.2 href]

/-- The uses of a rule observe what its nodes and actions show. -/
theorem observes_uses_iff :
    (∃ u ∈ w.uses r, u.Observes var kind) ↔ w.Observes r var kind := by
  have hmention : ∀ u ∈ w.mentions r, ¬ u.Observes var kind := by
    intro u hu hobserves
    obtain ⟨path, -, hpath⟩ := List.mem_filterMap.1 hu
    split at hpath
    · cases hpath
    · cases hpath
      cases hobserves
  rw [uses_eq]
  constructor
  · rintro ⟨u, hu, hobserves⟩
    rcases List.mem_append.1 hu with hu | hu
    · rcases List.mem_append.1 hu with hu | hu
      · exact absurd hobserves (hmention u hu)
      · obtain ⟨e, he, hu⟩ := List.mem_flatMap.1 hu
        exact Or.inl ⟨e, he, observes_exprUses_iff.1 ⟨u, hu, hobserves⟩⟩
    · obtain ⟨a, ha, hu⟩ := List.mem_flatMap.1 hu
      exact Or.inr ⟨a, Body.mem_actionsInOrder_iff.1 ha,
        observes_actionUses_iff.1 ⟨u, hu, hobserves⟩⟩
  · rintro (⟨e, he, hshows⟩ | ⟨a, ha, hshows⟩)
    · obtain ⟨u, hu, hobserves⟩ := observes_exprUses_iff.2 hshows
      refine ⟨u, List.mem_append_left _ (List.mem_append_right _ ?_), hobserves⟩
      exact List.mem_flatMap.2 ⟨e, he, hu⟩
    · obtain ⟨u, hu, hobserves⟩ := observes_actionUses_iff.2 hshows
      refine ⟨u, List.mem_append_right _ (List.mem_flatMap.2 ⟨a, ?_, hu⟩), hobserves⟩
      exact Body.mem_actionsInOrder_iff.2 ha

end Workspace

/-! ## One use after the other -/

namespace ContextTable

variable {t : ContextTable} {rule var : String} {known kind : ContextKind} {u : Use}

/-- The conflict that is reported in a rule where a variable of a known kind shows another one. -/
def conflict (rule var : String) (known kind : ContextKind) : Diagnostic :=
  ⟨rule, .kindConflict var known kind⟩

theorem record_of_observes (t : ContextTable) (rule : String) (h : u.Observes var kind) :
    (record rule t u).2 = (t.observe rule var kind).2 ∧
      ∀ key, (record rule t u).1.kind? key = (t.observe rule var kind).1.kind? key := by
  cases h with
  | shows => exact ⟨rfl, fun _ => rfl⟩
  | @assign lit hlit =>
      have hrecord : record rule t (.assign var lit)
          = ((t.observe rule var kind).1.modify var fun v => v.takeLiteral lit rule,
            (t.observe rule var kind).2) := by
        simp only [record, ContextKind.ofLiteral?_eq_some_iff.2 hlit]
      rw [hrecord]
      exact ⟨rfl, fun key => kind?_modify_of_kind _ var key fun v => kind_takeLiteral v lit rule⟩

theorem mem_observe_iff {rule' var' : String} {kind' : ContextKind} :
    conflict rule var known kind ∈ Event.diagnostics (t.observe rule' var' kind').2 ↔
      rule = rule' ∧ var = var' ∧ kind = kind' ∧ t.kind? var' = some known ∧
        known.accepts kind' = false := by
  unfold observe
  rcases hvar : t.kind? var' with _ | known'
  · simp
  · by_cases haccepts : known'.accepts kind' = true
    · simp only [haccepts, if_true, Event.diagnostics_nil, List.not_mem_nil, false_iff]
      rintro ⟨-, -, -, hknown, hrefuses⟩
      obtain rfl := Option.some.inj hknown
      rw [haccepts] at hrefuses
      cases hrefuses
    · simp only [haccepts, conflict]
      simp only [Bool.false_eq_true, if_false, Event.diagnostics_problem, Event.diagnostics_nil,
        List.mem_singleton, Diagnostic.mk.injEq, Problem.kindConflict.injEq, Option.some.injEq]
      constructor
      · rintro ⟨rfl, rfl, rfl, rfl⟩
        exact ⟨rfl, rfl, rfl, rfl, eq_false_of_ne_true haccepts⟩
      · rintro ⟨rfl, rfl, rfl, rfl, -⟩
        exact ⟨rfl, rfl, rfl, rfl⟩

theorem conflict_not_mem_unify {rule' a b : String} :
    conflict rule var known kind ∉ Event.diagnostics (t.unify rule' a b).2 := by
  unfold unify
  split
  all_goals try exact List.not_mem_nil
  simp only
  split
  · exact List.not_mem_nil
  · simp [conflict]

/-- A use reports a variable exactly if it shows a kind that the known one does not accept. -/
theorem mem_record_iff {rule' : String} :
    conflict rule var known kind ∈ Event.diagnostics (record rule' t u).2 ↔
      rule = rule' ∧ u.Observes var kind ∧ t.kind? var = some known ∧
        known.accepts kind = false := by
  constructor
  · intro h
    cases u with
    | mention v => cases h
    | shows v k =>
        obtain ⟨rfl, rfl, rfl, hknown, hrefuses⟩ := mem_observe_iff.1 h
        exact ⟨rfl, .shows, hknown, hrefuses⟩
    | assign v lit =>
        simp only [record] at h
        split at h
        · rename_i k hlit
          obtain ⟨rfl, rfl, rfl, hknown, hrefuses⟩ := mem_observe_iff.1 h
          exact ⟨rfl, .assign (ContextKind.ofLiteral?_eq_some_iff.1 hlit), hknown, hrefuses⟩
        · cases h
    | copy v source => exact absurd h conflict_not_mem_unify
    | swap a b => exact absurd h conflict_not_mem_unify
  · rintro ⟨rfl, hobserves, hknown, hrefuses⟩
    rw [(record_of_observes t rule hobserves).1]
    exact mem_observe_iff.2 ⟨rfl, rfl, rfl, hknown, hrefuses⟩

end ContextTable

/-! ## All uses -/

namespace Workspace

variable {w : Workspace} {r : Rule} {rule var : String} {known kind : ContextKind}

/-- A variable that has a kind has the same ever after. -/
theorem kind?_tableAfter_of_le {n m : Nat} (hle : n ≤ m)
    (h : (w.tableAfter n).kind? var = some known) : (w.tableAfter m).kind? var = some known := by
  induction hle with
  | refl => exact h
  | @step m _ ih =>
      rcases hu : w.allUses[m]? with _ | u
      · rw [w.tableAfter_succ_of_none hu, ih]
      · rw [w.tableAfter_succ hu]
        exact ContextTable.kind?_record_of_some u.1 u.2 ih

/-- A variable that is seen with a value has a kind from then on. -/
theorem exists_kind_of_observes {n : Nat} {u : Use} (hu : w.allUses[n]? = some (rule, u))
    (h : u.Observes var kind) :
    ∃ final, (w.tableAfter (n + 1)).kind? var = some final ∧
      (final = kind ∨ (w.tableAfter n).kind? var = some final) := by
  rw [w.tableAfter_succ hu, (ContextTable.record_of_observes _ rule h).2,
    ContextTable.kind?_observe, if_pos rfl]
  rcases (w.tableAfter n).kind? var with _ | final
  · exact ⟨kind, rfl, Or.inl rfl⟩
  · exact ⟨final, rfl, Or.inr rfl⟩

theorem mem_allUses_iff {u : Use} :
    (rule, u) ∈ w.allUses ↔ ∃ r ∈ w.corpus.rules.values, r.name = rule ∧ u ∈ w.uses r := by
  simp only [allUses, namedUses, List.mem_flatMap, List.mem_map, Prod.mk.injEq]
  constructor
  · rintro ⟨r, hr, u, hu, hrule, rfl⟩
    exact ⟨r, hr, hrule, hu⟩
  · rintro ⟨r, hr, hrule, hu⟩
    exact ⟨r, hr, u, hu, hrule, rfl⟩

/-- What a use shows is measured by the kind that the variable has in the end. -/
theorem exists_final_of_mem_allUses {u : Use} (hu : (rule, u) ∈ w.allUses)
    (h : u.Observes var kind) :
    ∃ final, w.contextRun.1.kind? var = some final ∧ (final.accepts kind = true ∨
      ContextTable.conflict rule var final kind ∈ Event.diagnostics w.contextRun.2) := by
  obtain ⟨n, hn⟩ := List.mem_iff_getElem?.1 hu
  obtain ⟨final, hafter, hbefore⟩ := exists_kind_of_observes hn h
  have hle : n + 1 ≤ w.allUses.length := (List.getElem?_eq_some_iff.1 hn).1
  refine ⟨final, w.contextRun_fst ▸ kind?_tableAfter_of_le hle hafter, ?_⟩
  by_cases haccepts : final.accepts kind = true
  · exact Or.inl haccepts
  · rcases hbefore with rfl | hknown
    · exact Or.inl (ContextKind.accepts_self _)
    · refine Or.inr ((w.mem_contextRun_iff_of_typeConflict rfl).2 ⟨n, _, hn, ?_⟩)
      exact ContextTable.mem_record_iff.2
        ⟨rfl, h, hknown, eq_false_of_ne_true haccepts⟩

/-- A conflict is reported only where a use shows a kind that the final one does not accept. -/
theorem exists_use_of_conflict
    (h : ContextTable.conflict rule var known kind ∈ Event.diagnostics w.contextRun.2) :
    w.contextRun.1.kind? var = some known ∧ known.accepts kind = false ∧
      ∃ u, (rule, u) ∈ w.allUses ∧ u.Observes var kind := by
  obtain ⟨n, ⟨rule', u⟩, hn, hmem⟩ := (w.mem_contextRun_iff_of_typeConflict rfl).1 h
  obtain ⟨rfl, hobserves, hknown, hrefuses⟩ := ContextTable.mem_record_iff.1 hmem
  have hle : n ≤ w.allUses.length := Nat.le_of_lt (List.getElem?_eq_some_iff.1 hn).1
  refine ⟨w.contextRun_fst ▸ kind?_tableAfter_of_le hle hknown, hrefuses, u, ?_, hobserves⟩
  exact List.mem_iff_getElem?.2 ⟨n, hn⟩

end Workspace

/-- Of every catalog and corpus: the run starts with the kinds of the declarations, a variable gets
    a kind at most once, and what a rule shows of it fits the kind that it has in the end, or is
    reported as an error of that rule about that variable. Nothing else is. Where no condition and
    no branch of the rule lacks a partner, every node counts. -/
theorem observations_fit_or_conflict (w : Workspace) :
    (w.tableAfter 0 = (ContextTable.ofCatalog w.catalog).1 ∧
      w.tableAfter w.allUses.length = w.contextRun.1 ∧
      ∀ n rule u, w.allUses[n]? = some (rule, u) →
        w.tableAfter (n + 1) = (ContextTable.record rule (w.tableAfter n) u).1) ∧
    (∀ var n m, n ≤ m → (w.tableAfter n).kind? var = none ∨
      (w.tableAfter m).kind? var = (w.tableAfter n).kind? var) ∧
    (∀ r ∈ w.corpus.rules.values, ∀ var kind, w.Observes r var kind →
      ∃ final, w.contextRun.1.kind? var = some final ∧ (final.accepts kind = true ∨
        ⟨r.name, .kindConflict var final kind⟩ ∈ Event.diagnostics w.contextRun.2)) ∧
    (∀ r : Rule, r.body.Paired → ∀ e var kind, r.body.HasNode e →
      w.NodeShows r var kind e → w.Observes r var kind) ∧
    ∀ rule var known kind,
      (Problem.kindConflict var known kind).kind = .typeConflict ∧
      (Problem.kindConflict var known kind).severity = .error ∧
      (⟨rule, .kindConflict var known kind⟩ ∈ Event.diagnostics w.contextRun.2 →
        w.contextRun.1.kind? var = some known ∧ known.accepts kind = false ∧
          ∃ r ∈ w.corpus.rules.values, r.name = rule ∧ w.Observes r var kind) := by
  refine ⟨⟨rfl, w.contextRun_fst.symm, fun n rule u hu => w.tableAfter_succ hu⟩, ?_, ?_, ?_, ?_⟩
  · intro var n m hle
    rcases h : (w.tableAfter n).kind? var with _ | known
    · exact Or.inl rfl
    · exact Or.inr (Workspace.kind?_tableAfter_of_le hle h)
  · intro r hr var kind hobserves
    obtain ⟨u, hu, huse⟩ := Workspace.observes_uses_iff.2 hobserves
    exact Workspace.exists_final_of_mem_allUses
      (Workspace.mem_allUses_iff.2 ⟨r, hr, rfl, hu⟩) huse
  · intro r hpaired e var kind he hshows
    exact Or.inl ⟨e, (Body.mem_reached_iff hpaired).2 he, hshows⟩
  · refine fun rule var known kind => ⟨rfl, rfl, fun h => ?_⟩
    obtain ⟨hfinal, hrefuses, u, hu, huse⟩ := Workspace.exists_use_of_conflict h
    obtain ⟨r, hr, hname, hu⟩ := Workspace.mem_allUses_iff.1 hu
    exact ⟨hfinal, hrefuses, r, hr, hname, Workspace.observes_uses_iff.1 ⟨u, hu, huse⟩⟩

/-- The integer `gold` is assigned a truth value, and `mood`, of which nothing is declared, two
    numbers. -/
def moodLedger : Workspace :=
  ledger [("gold", { type := some "int" }), ("mood", {})]
    [.set { name := "gold" } (.bool true), .set { name := "mood" } (.float 0.5),
      .set { name := "mood" } (.int 2)]

theorem moodLedger_gold_conflict :
    moodLedger.contextRun.1.kind? "gold" = some .int ∧
      moodLedger.contextRun.1.kind? "mood" = some .float ∧
      ⟨"rules:act", .kindConflict "gold" .int .bool⟩
        ∈ Event.diagnostics moodLedger.contextRun.2 := by
  obtain ⟨-, -, hobserved, -⟩ := observations_fit_or_conflict moodLedger
  obtain ⟨final, hfinal, hfits⟩ := hobserved _ (List.mem_cons_self ..) "gold" .bool
    (Or.inr ⟨_, .inside (List.mem_cons_self ..) .here,
      @Workspace.ActionShows.set _ _ _ _ (.bool true) _ ⟨rfl, rfl, rfl, rfl⟩ (.bool true)⟩)
  obtain rfl : ContextKind.int = final := Option.some.inj hfinal
  exact ⟨rfl, rfl, hfits.resolve_left (by decide)⟩

end AccessRules
