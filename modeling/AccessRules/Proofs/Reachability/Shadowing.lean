import AccessRules.Proofs.Compile
import AccessRules.Proofs.Context.OwnParam
import AccessRules.Proofs.Reachability.SameOutcome
import AccessRules.Proofs.Reachability.StaticData

set_option autoImplicit false

/-! # Evaluation of parameters that have the name of a context variable

A parameter that is bound hides the context variable of its name. Evaluation still sees how the
variable is declared in two ways: a comparison of the parameter with a call takes its value for none
from the declaration, and a reference to the parameter that is qualified or not bound is read as
static data if the variable is declared. Where neither makes a difference, `Corpus.Hides`, the
declaration does not matter for the value of any rule. -/

namespace AccessRules

theorem Catalog.AgreeBut.symm {n : String} {c c' : Catalog} (h : c.AgreeBut n c') :
    c'.AgreeBut n c where
  items := h.items.symm
  settings := h.settings.symm
  consts := h.consts.symm
  data := h.data.symm
  regions := h.regions.symm
  context name hname := (h.context name hname).symm

/-- Static data does not depend on context variables. -/
theorem Catalog.AgreeBut.statics {n : String} {c c' : Catalog} (h : c.AgreeBut n c') :
    StaticTable.ofCatalog c' = StaticTable.ofCatalog c := by
  have hspots : c'.spots = c.spots := by
    rw [Catalog.spots, Catalog.spots, h.regions]
  have hkind : c'.locationKind? = c.locationKind? := by
    funext path
    simp only [Catalog.locationKind?, Catalog.spotAt?, Catalog.area?, h.regions]
  have hvalue : StaticTable.dataValue c' = StaticTable.dataValue c := by
    funext j
    cases j with
    | str t => simp only [StaticTable.dataValue, hkind]
    | _ => rfl
  simp only [StaticTable.ofCatalog, h.data, hspots, hvalue]

/-! ## What the declaration shows through -/

/-- The value for none beside a variable. -/
def ContextVar.noneValue (v : ContextVar) : Value :=
  match v.kind, v.default with
  | some .bool, _ => .bool false
  | some .int, _ => .int 0
  | some .float, _ => .float 0
  | some (.place _), _ => .place ""
  | some (.enum _), some (.str t) => .str t
  | _, _ => .uncertain

/-- The value for none beside the context variable that the catalog declares, if it does. -/
def Catalog.noneValue (c : Catalog) (name : String) : Value :=
  (c.context.find? name).elim .uncertain fun d => (ContextVar.ofDecl name d).1.noneValue

/-- The name is read as the same static data with both catalogs: it stands for static data with both
    or with none of them, or no spot has a datum for it. -/
def Catalog.ReadsAlike (n : String) (c c' : Catalog) : Prop :=
  c'.context.contains n = c.context.contains n ∨ c.isStatic n = true ∨
    ∀ spot, c.NotOverridden spot n

/-- The helper compares the parameter with a call. -/
def Corpus.EquatesParam (c : Corpus) (s : Signature) (n : String) : Prop :=
  ∃ r ∈ c.rules.values, r.name = s.ruleName ∧
    ∃ ref op e, r.body.HasNode (.refEqCall ref op e) ∧ ref.name = n

/-- The parameter is always bound where it is read: each call passes an argument for it, and no
    reference to it is qualified. -/
structure Corpus.BindsParam (c : Corpus) (s : Signature) (n : String) : Prop where
  passed : ∀ r ∈ c.rules.values, ∀ e, r.body.HasNode e → ∀ call ∈ e.callsHere,
    c.resolve call.func = .helper s → ∃ i < call.args.length, s.paramIndex? n = some i
  unqualified : ∀ r ∈ c.rules.values, r.name = s.ruleName → ∀ e, r.body.HasNode e →
    ∀ ref ∈ e.references, ref.name = n → ref.qualifier = none

/-- The parameter hides how the context variable of its name is declared. -/
structure Corpus.Hides (corpus : Corpus) (s : Signature) (n : String) (c c' : Catalog) : Prop where
  own : corpus.OwnParam s n
  agree : c.AgreeBut n c'
  noneValue : corpus.EquatesParam s n → c'.noneValue n = c.noneValue n
  reads : c.ReadsAlike n c' ∨ corpus.BindsParam s n

/-! ## Expectations -/

theorem Knowledge.defaultValue_expectFor (k : Knowledge) (f : Frame) (name : String) :
    defaultValue (k.expectFor f name)
      = (f.rule.resolve? k.catalog name >>= k.contexts.find?).elim .uncertain
          ContextVar.noneValue := by
  unfold expectFor
  cases f.rule.resolve? k.catalog name >>= k.contexts.find? with
  | none => rfl
  | some v =>
      simp only [Option.elim_some, ContextVar.noneValue]
      cases v.kind with
      | none => rfl
      | some kind =>
          cases kind with
          | enum type =>
              cases v.default with
              | none => rfl
              | some lit => cases lit <;> rfl
          | _ => rfl

/-! ## Bindings -/

theorem Knowledge.find?_bindParams {params : List Param} {args : List Pending}
    {bindings : NameMap Value} (h : (bindParams params args).outcome = .ok bindings) {n : String}
    {i : Nat} (hi : params.findIdx? (fun p => p.name = n) = some i) (hlt : i < args.length) :
    ∃ v, bindings.find? n = some v := by
  have hgo : ∀ (pairs : List (Param × Pending)) (start : NameMap Value),
      (bindParams.go start pairs).outcome = .ok bindings →
      (∃ p ∈ pairs, p.1.name = n) ∨ (∃ v, start.find? n = some v) →
      ∃ v, bindings.find? n = some v := by
    intro pairs
    induction pairs with
    | nil =>
        intro start hstart hbound
        obtain rfl := Except.ok.inj hstart
        simpa using hbound
    | cons pair pairs ih =>
        intro start hstart hbound
        obtain ⟨p, a⟩ := pair
        obtain ⟨v, -, hrest⟩ := Report.bind_eq_ok_iff.1 hstart
        refine ih _ hrest ?_
        -- a later parameter of the same name replaces the binding and does not remove it
        rw [NameMap.find?_insert]
        by_cases hname : n = p.name
        · exact Or.inr ⟨v, if_pos hname⟩
        · rw [if_neg hname]
          refine hbound.imp_left fun ⟨q, hq, hqname⟩ => ⟨q, ?_, hqname⟩
          refine (List.mem_cons.1 hq).resolve_left fun heq => hname ?_
          rw [← hqname, heq]
  obtain ⟨hlength, hname, -⟩ := List.findIdx?_eq_some_iff_getElem.1 hi
  refine hgo _ ∅ h (Or.inl ⟨(params[i], args[i]), ?_, of_decide_eq_true hname⟩)
  refine List.mem_iff_getElem.2 ⟨i, ?_, List.getElem_zip⟩
  rw [List.length_zip]
  exact Nat.lt_min.2 ⟨hlength, hlt⟩

/-! ## Leaves -/

/-- The value of a leaf is a matter of its references and of constants. -/
theorem Knowledge.leafValue_congr {k k' : Knowledge} {f : Frame} {e : Expr}
    (hconsts : k'.catalog.consts = k.catalog.consts)
    (h : ∀ ref ∈ e.references, k.lookupValue f ref = k'.lookupValue f ref) :
    k.leafValue f e = k'.leafValue f e := by
  cases e with
  | refEq r op rhs =>
      cases rhs with
      | ref other =>
          simp only [leafValue, comparandValue, h r (by simp [Expr.references]),
            h other (by simp [Expr.references])]
      | _ => simp only [leafValue, comparandValue, h r (by simp [Expr.references])]
  | within p negated =>
      cases p with
      | ref r => simp only [leafValue, placeArgValue, h r (by simp [Expr.references])]
      | literal path => rfl
  | argFlag r negated => simp only [leafValue, h r (by simp [Expr.references])]
  | refInSet r members => simp only [leafValue, h r (by simp [Expr.references])]
  | ref r => exact h r (by simp [Expr.references])
  | const name => simp only [leafValue, hconsts]
  | _ => rfl

/-- The value for none beside the parameter comes from the declaration. -/
theorem Corpus.OwnParam.elim_contexts {corpus : Corpus} {s : Signature} {n : String}
    (h : corpus.OwnParam s n) (c : Catalog) {r : Rule} (hr : r ∈ corpus.rules.values) :
    (r.resolve? c n >>= (⟨c, corpus⟩ : Workspace).contextRun.1.find?).elim .uncertain
      ContextVar.noneValue = c.noneValue n := by
  have hfind := h.find?_contexts c
  unfold Rule.resolve? Catalog.noneValue
  rw [h.local_param hr]
  cases hdecl : c.context.find? n with
  | some d =>
      rw [hdecl] at hfind
      simp [Roster.contains, hdecl, hfind]
  | none =>
      -- the name is not found, whether it stands for static data or not
      rw [hdecl] at hfind
      simp only
      split <;> simp [hfind]

namespace Corpus.Hides

variable {corpus : Corpus} {s : Signature} {n : String} {c c' : Catalog}

/-- Expectations of a name that the rule mentions are alike. -/
theorem defaultValue_expectFor (h : corpus.Hides s n c c') {f : Frame}
    (hr : f.rule ∈ corpus.rules.values) {name : String}
    (hname : name = n → corpus.EquatesParam s n) :
    Knowledge.defaultValue ((⟨c, corpus⟩ : Workspace).knowledge.expectFor f name)
      = Knowledge.defaultValue ((⟨c', corpus⟩ : Workspace).knowledge.expectFor f name) := by
  rw [Knowledge.defaultValue_expectFor, Knowledge.defaultValue_expectFor]
  show (f.rule.resolve? c name >>= (⟨c, corpus⟩ : Workspace).contextRun.1.find?).elim _ _
    = (f.rule.resolve? c' name >>= (⟨c', corpus⟩ : Workspace).contextRun.1.find?).elim _ _
  by_cases hn : name = n
  · subst hn
    rw [h.own.elim_contexts c hr, h.own.elim_contexts c' hr, h.noneValue (hname rfl)]
  · rw [h.agree.resolve? f.rule hn]
    cases hpath : f.rule.resolve? c name with
    | none => simp only [Option.bind_eq_bind, Option.bind_none]
    | some path =>
        have hne : path ≠ n := fun heq => h.own.resolve?_ne c hr hn (heq ▸ hpath)
        simp only [Option.bind_eq_bind, Option.bind_some, h.own.contexts_agree h.agree path hne]

end Corpus.Hides

/-! ## References -/

/-- What is read where a name stands for static data is the same with both catalogs, if it is
    uncertain where the static data is. -/
theorem Catalog.AgreeBut.elim_resolve? {n : String} {c c' : Catalog} (hagree : c.AgreeBut n c')
    (r : Rule) {name : String} (hname : name = n → c.ReadsAlike n c') {read : String → Value}
    (hread : ∀ path, (∀ spot, (StaticTable.ofCatalog c).lookup spot path = .uncertain) →
      read path = .uncertain) :
    (r.resolve? c name).elim .uncertain read = (r.resolve? c' name).elim .uncertain read := by
  by_cases hn : name = n
  · subst hn
    unfold Rule.resolve?
    cases r.locals.find? name with
    | some path => rfl
    | none =>
        simp only [hagree.data]
        by_cases hstatic : c.data.contains name = true
        · simp [hstatic]
        · rcases hname rfl with hcontains | hdata | hnot
          · rw [hcontains]
          · exact absurd hdata hstatic
          · -- whether the name stands for static data may differ, but there is none to be read
            have hlive : c.isStatic name = false := Bool.eq_false_iff.2 hstatic
            have huncertain := hread name fun spot =>
              (StaticTable.lookup_ofCatalog_of_live hlive spot).2 (hnot spot)
            split <;> split <;> simp [huncertain]
  · rw [hagree.resolve? r hn]

/-- What a qualified reference reads for a path. -/
def Knowledge.readAt (k : Knowledge) (f : Frame) (path : String) : Qualifier → Value
  | .place p => k.statics.lookup p path
  | .ref name => k.lookupVia path (k.lookupName f name)

theorem Knowledge.readAt_uncertain {k : Knowledge} {path : String}
    (h : ∀ spot, k.statics.lookup spot path = .uncertain) (f : Frame) (q : Qualifier) :
    k.readAt f path q = .uncertain := by
  cases q with
  | place p => exact h p
  | ref name =>
      simp only [readAt, lookupVia]
      split
      · simp [h]
      · rfl

theorem Knowledge.lookupValue_qualified (k : Knowledge) (f : Frame) (name : String)
    (q : Qualifier) :
    k.lookupValue f ⟨name, some q⟩
      = (f.rule.resolve? k.catalog name).elim .uncertain fun path => k.readAt f path q := by
  simp only [lookupValue]
  cases f.rule.resolve? k.catalog name with
  | none => rfl
  | some path => cases q <;> rfl

section Reads

variable {corpus : Corpus} {n : String} {c c' : Catalog} {f : Frame}

theorem lookupName_eq (hagree : c.AgreeBut n c') {name : String}
    (hname : name = n → c.ReadsAlike n c' ∨ ∃ v, f.bindings.find? n = some v) :
    (⟨c, corpus⟩ : Workspace).knowledge.lookupName f name
      = (⟨c', corpus⟩ : Workspace).knowledge.lookupName f name := by
  unfold Knowledge.lookupName
  cases hbinding : f.bindings.find? name with
  | some v => rfl
  | none =>
      show (f.rule.resolve? c name).elim _ ((StaticTable.ofCatalog c).lookup f.spot)
        = (f.rule.resolve? c' name).elim _ ((StaticTable.ofCatalog c').lookup f.spot)
      rw [hagree.statics]
      refine hagree.elim_resolve? f.rule (fun hn => (hname hn).resolve_right ?_)
        fun path huncertain => huncertain f.spot
      rintro ⟨v, hv⟩
      rw [← hn, hbinding] at hv
      cases hv

/-- A reference is read alike if its names are: unbound, or bound and not qualified. -/
theorem lookupValue_eq (hagree : c.AgreeBut n c') {ref : Reference}
    (href : n ∈ ref.mentioned → c.ReadsAlike n c' ∨
      (∃ v, f.bindings.find? n = some v) ∧ (ref.name = n → ref.qualifier = none)) :
    (⟨c, corpus⟩ : Workspace).knowledge.lookupValue f ref
      = (⟨c', corpus⟩ : Workspace).knowledge.lookupValue f ref := by
  have hbound : ∀ name ∈ ref.mentioned, name = n →
      c.ReadsAlike n c' ∨ ∃ v, f.bindings.find? n = some v := by
    rintro name hmem rfl
    exact (href hmem).imp_right And.left
  obtain ⟨name, _ | q⟩ := ref
  · exact lookupName_eq hagree (hbound name (by simp [Reference.mentioned]))
  · rw [Knowledge.lookupValue_qualified, Knowledge.lookupValue_qualified]
    have hstatics : (⟨c', corpus⟩ : Workspace).knowledge.statics
        = (⟨c, corpus⟩ : Workspace).knowledge.statics := hagree.statics
    have hread : ∀ path, (⟨c, corpus⟩ : Workspace).knowledge.readAt f path q
        = (⟨c', corpus⟩ : Workspace).knowledge.readAt f path q := by
      intro path
      cases q with
      | place p => simp only [Knowledge.readAt, hstatics]
      | ref other =>
          have hother : (⟨c, corpus⟩ : Workspace).knowledge.lookupName f other
              = (⟨c', corpus⟩ : Workspace).knowledge.lookupName f other :=
            lookupName_eq hagree (hbound other (by simp [Reference.mentioned]))
          simp only [Knowledge.readAt, Knowledge.lookupVia, hother, hstatics]
    simp only [← hread]
    refine hagree.elim_resolve? f.rule (fun hn => ?_) fun path huncertain => ?_
    · refine (href ?_).resolve_right fun hqualified => ?_
      · rw [← hn]
        exact Reference.name_mem_mentioned _
      · cases hqualified.2 hn
    · exact Knowledge.readAt_uncertain huncertain f q

end Reads

/-! ## Rules -/

namespace Corpus.Hides

variable {corpus : Corpus} {s : Signature} {n : String} {c c' : Catalog} {f : Frame}

/-- The frame evaluates a rule of the corpus, and in the helper the parameter can be read. -/
structure Sees (corpus : Corpus) (s : Signature) (n : String) (c c' : Catalog) (f : Frame) :
    Prop where
  mem : f.rule ∈ corpus.rules.values
  param : f.rule.name = s.ruleName → c.ReadsAlike n c' ∨
    corpus.BindsParam s n ∧ ∃ v, f.bindings.find? n = some v

/-- A node reads the same with both catalogs and expects the same value for none. -/
theorem nodeAlike (h : corpus.Hides s n c c') (hf : Sees corpus s n c c' f) {e : Expr}
    (he : f.rule.body.HasNode e) {x x' : Expand}
    (hx : ∀ call t, call ∈ e.callsHere → corpus.resolve call.func = .helper t →
      ∀ ps ps', ps.length = call.args.length → List.Forall₂ Knowledge.Same ps ps' →
        Knowledge.Same (x t ps) (x' t ps')) :
    Knowledge.NodeAlike (⟨c, corpus⟩ : Workspace).knowledge (⟨c', corpus⟩ : Workspace).knowledge
      f f x x' e := by
  -- only the helper mentions the parameter
  have hhelper : f.rule.body.Mentions n → f.rule.name = s.ruleName := by
    intro hmentions
    rcases h.own.rule_cases hf.mem with ⟨hname, -⟩ | ⟨-, hnot⟩
    · exact hname
    · exact absurd (Or.inl hmentions) hnot
  have hlookup : ∀ ref ∈ e.references,
      (⟨c, corpus⟩ : Workspace).knowledge.lookupValue f ref
        = (⟨c', corpus⟩ : Workspace).knowledge.lookupValue f ref := by
    intro ref href
    refine lookupValue_eq h.agree fun hn => ?_
    have hname := hhelper (Or.inl ⟨e, he, ref, href, hn⟩)
    refine (hf.param hname).imp_right fun ⟨hbinds, hbound⟩ => ⟨hbound, ?_⟩
    exact hbinds.unqualified f.rule hf.mem hname e he ref href
  refine { leaf := fun _ => ?_, equation := ?_, call := ?_ }
  · exact Knowledge.leafValue_congr h.agree.consts hlookup
  · rintro ref op operand rfl
    refine ⟨hlookup ref (by simp [Expr.references]), h.defaultValue_expectFor hf.mem fun hn => ?_⟩
    have hmentions := Body.mentions_of_node he (r := ref) (by simp [Expr.references])
    exact ⟨f.rule, hf.mem, hhelper (hn ▸ hmentions), ref, op, operand, he, hn⟩
  · intro call hcall ps ps' hlength hps
    exact Knowledge.same_callFunction rfl hps fun t ht => hx call t hcall ht ps ps' hlength hps

/-- The frame of a helper that is called from a frame. -/
theorem sees_callee (h : corpus.Hides s n c c') (hf : Sees corpus s n c c' f) {e : Expr}
    (he : f.rule.body.HasNode e) {call : CallSite} (hcall : call ∈ e.callsHere)
    {t : Signature} (ht : corpus.resolve call.func = .helper t) {r : Rule}
    (hr : corpus.rules.find? t.ruleName = some r) {ps : List Pending}
    (hlength : ps.length = call.args.length) {bindings : NameMap Value}
    (hbindings : (Knowledge.bindParams t.params ps).outcome = .ok bindings) :
    Sees corpus s n c c' ⟨r, f.spot, bindings⟩ := by
  refine ⟨NameMap.mem_values_of_find? hr, fun hname => h.reads.imp_right fun hbinds => ⟨hbinds, ?_⟩⟩
  -- the helper that is called is the one with the parameter
  have hsame : t = s := by
    have hfind := find?_helpers_of_resolve ht
    have hnames : t.name = s.name :=
      Signature.name_eq_of_ruleName_eq ((h.own.built.rule_name hr).symm.trans hname)
    rw [← h.own.built.helper_name hfind, hnames, h.own.helper] at hfind
    exact (Option.some.inj hfind).symm
  subst hsame
  obtain ⟨i, hlt, hi⟩ := hbinds.passed f.rule hf.mem e he call hcall ht
  exact Knowledge.find?_bindParams hbindings hi (hlength ▸ hlt)

theorem same_evalWithin (h : corpus.Hides s n c c') (depth : Nat) (hf : Sees corpus s n c c' f)
    {e : Expr} (he : ∀ m : Expr, m.Node e → f.rule.body.HasNode m) :
    Knowledge.Same ((⟨c, corpus⟩ : Workspace).knowledge.evalWithin depth f e)
      ((⟨c', corpus⟩ : Workspace).knowledge.evalWithin depth f e) := by
  -- a helper that is called is evaluated in another frame, which sees the parameter as well
  induction depth generalizing f e with
  | zero =>
      refine Knowledge.same_eval (fun _ _ _ _ _ => rfl)
        (Expr.every_iff_forall_node.2 fun m hm => ?_)
      exact h.nodeAlike hf (he m hm) fun _ _ _ _ _ _ _ _ _ => rfl
  | succ depth ih =>
      rw [Knowledge.evalWithin_succ, Knowledge.evalWithin_succ]
      refine Knowledge.same_eval
        (Knowledge.indifferent_expandBy (Knowledge.indifferent_evalWithin _ depth) f.spot)
        (Expr.every_iff_forall_node.2 fun m hm => h.nodeAlike hf (he m hm) ?_)
      intro call t hcall ht ps ps' hlength hps
      refine Knowledge.same_expandBy rfl hps fun r bindings body hr hbindings hbody => ?_
      refine ih (h.sees_callee hf (he m hm) hcall ht hr hlength hbindings) fun m' hm' => ?_
      show r.body.HasNode m'
      rw [hbody]
      exact hm'

theorem outcome_evaluate (h : corpus.Hides s n c c') {r : Rule} (hr : r ∈ corpus.rules.values)
    (hname : r.name ≠ s.ruleName) (spot : String) :
    ((⟨c, corpus⟩ : Workspace).knowledge.evaluate r spot).outcome
      = ((⟨c', corpus⟩ : Workspace).knowledge.evaluate r spot).outcome := by
  unfold Knowledge.evaluate
  cases hbody : r.body with
  | requirement e =>
      have hsees : Sees corpus s n c c' { rule := r, spot } := ⟨hr, fun heq => absurd heq hname⟩
      refine h.same_evalWithin maxHelperDepth hsees (fun m hm => ?_) .bool
      show r.body.HasNode m
      rw [hbody]
      exact hm
  | actions a => rfl

/-- The declaration does not matter for the reachability of any rule. -/
theorem outcome_reachability (h : corpus.Hides s n c c') {r : Rule}
    (hr : r ∈ corpus.rules.values) :
    (Workspace.reachability (⟨c, corpus⟩ : Workspace).knowledge r).outcome
      = (Workspace.reachability (⟨c', corpus⟩ : Workspace).knowledge r).outcome := by
  unfold Workspace.reachability
  cases hspot : r.spot with
  | none => rfl
  | some spot =>
      rcases h.own.rule_cases hr with ⟨-, -, hnone⟩ | ⟨hname, -⟩
      · rw [hspot] at hnone
        cases hnone
      · exact Report.outcome_map_congr _ (h.outcome_evaluate hr hname spot)

end Corpus.Hides

end AccessRules
