import AccessRules.Proofs.Code.Texts
import AccessRules.Proofs.Reachability.Shadowing
import AccessRules.Proofs.Text.Quoted

set_option autoImplicit false

/-! # Parameters that have the name of a context variable

A parameter of a helper hides the context variable of its name from the analyses of the context,
from code that reads or writes it, and from evaluation where it is bound. It does not hide the kind
of the variable from the strings in the code, nor its value for none from a comparison with a call,
nor the variable itself from references that are qualified or not bound. So two catalogs that differ
in the declaration of this variable lead to the same code for the helper and to the same
reachability as long as none of these makes a difference. -/

namespace AccessRules

/-! ## Variables declared as enumerations -/

/-- The catalog declares a context variable with the name as an enumeration. -/
def Catalog.DeclaresEnum (c : Catalog) (name : String) : Prop :=
  ∃ d, c.context.find? name = some d ∧ d.IsEnum

/-! ## Strings in code -/

theorem toUpper_ne_quote {c : Char} (h : c.isAlphanum = true) : c.toUpper ≠ '"' := by
  intro heq
  unfold Char.toUpper at heq
  split at heq
  · next hlower =>
      have hval := congrArg Char.val heq
      simp only at hval
      have hletter : c.val = '"'.val - ('A'.val - 'a'.val) := by
        rw [← hval, UInt32.add_sub_cancel]
      rw [hletter] at hlower
      exact absurd hlower.1 (by decide)
  · subst heq
    cases h

theorem quotes_enumName (name : String) : quotes (enumName name) = 0 := by
  have hgo : ∀ (atStart : Bool) (cs : List Char), (enumName.go atStart cs).count '"' = 0 := by
    intro atStart cs
    induction cs generalizing atStart with
    | nil => rfl
    | cons c cs ih =>
        rw [enumName.go]
        by_cases halnum : c.isAlphanum = true
        · rw [if_pos halnum, List.count_cons, ih]
          have hne : c ≠ '"' := by
            rintro rfl
            cases halnum
          split
          · simp [toUpper_ne_quote halnum]
          · simp [hne]
        · rw [if_neg halnum]
          exact ih true
  rw [quotes, enumName, String.toList_ofList]
  exact hgo true name.toList

theorem quotes_quoted_pos (t : String) : 0 < quotes (Text.quoted t) := by
  rw [quotes, Text.toList_quoted, List.count_cons_self]
  exact Nat.succ_pos _

theorem alike_textCode (var t : String) :
    Alike True (textCode (some (enumName var)) t) (textCode none t) := by
  refine ⟨fun h => absurd trivial h, fun _ => ?_⟩
  have hmember : quotes (textCode (some (enumName var)) t) = 0 := by
    simp only [textCode, quotes_append, quotes_enumName]
    decide
  rw [hmember]
  exact quotes_quoted_pos t

/-- The scope in which a rule is rendered. -/
def Workspace.scope (w : Workspace) (o : CompileOptions) (r : Rule) : CodeScope :=
  ⟨w, w.knowledge.contexts, o.accessors, r⟩

section Scope

variable (w : Workspace) (o : CompileOptions) (r : Rule)

@[simp] theorem Workspace.scope_toWorkspace : (w.scope o r).toWorkspace = w := rfl

@[simp] theorem Workspace.scope_contexts : (w.scope o r).contexts = w.contextRun.1 := rfl

@[simp] theorem Workspace.scope_accessors : (w.scope o r).accessors = o.accessors := rfl

@[simp] theorem Workspace.scope_rule : (w.scope o r).rule = r := rfl

end Scope

/-- What a name stands for is a matter of the short names alone. -/
theorem CodeScope.path_eq (s : CodeScope) (name : String) :
    s.path name = (s.rule.locals.find? name).getD name := by
  unfold path Rule.resolve?
  cases s.rule.locals.find? name with
  | some path => rfl
  | none =>
      simp only
      split <;> rfl

namespace Corpus.OwnParam

variable {corpus : Corpus} {s : Signature} {n : String} {c c' : Catalog} {r : Rule}

/-- A string of the parameter is the member of an enumeration if the catalog declares one. -/
theorem enumOf?_param (h : corpus.OwnParam s n) (c : Catalog) (o : CompileOptions)
    (hr : r ∈ corpus.rules.values) {ref : Reference} (href : ref.name = n) {type : String} :
    ((⟨c, corpus⟩ : Workspace).scope o r).enumOf? ref = some type ↔
      c.DeclaresEnum n ∧ type = enumName n := by
  have hkind : (⟨c, corpus⟩ : Workspace).contextRun.1.kind? n
      = (c.context.find? n).bind fun d => (ContextVar.ofDecl n d).1.kind := by
    rw [ContextTable.kind?, h.find?_contexts]
    cases c.context.find? n <;> rfl
  simp only [CodeScope.enumOf?, CodeScope.path_eq, Workspace.scope_contexts, Workspace.scope_rule,
    href, h.local_param hr, Option.getD_none, hkind, Catalog.DeclaresEnum]
  cases c.context.find? n with
  | none => simp
  | some d =>
      simp only [Option.bind_some, Option.some.injEq, exists_eq_left']
      rw [← ContextVar.kind_ofDecl_eq_enum_iff]
      split
      · next heq => simp [heq]
      · next hne =>
          simp only [reduceCtorEq, false_iff]
          exact hne type

/-- In the scopes of a rule with two catalogs only strings of the parameter may differ. -/
theorem alikeBut (h : corpus.OwnParam s n) (hagree : c.AgreeBut n c')
    (henum : c'.DeclaresEnum n → c.DeclaresEnum n) (o : CompileOptions)
    (hr : r ∈ corpus.rules.values) :
    CodeScope.AlikeBut (c.DeclaresEnum n ∧ ¬ c'.DeclaresEnum n) n
      ((⟨c, corpus⟩ : Workspace).scope o r) ((⟨c', corpus⟩ : Workspace).scope o r) := by
  have hget : ∀ name, ((⟨c', corpus⟩ : Workspace).scope o r).get name
      = ((⟨c, corpus⟩ : Workspace).scope o r).get name := by
    intro name
    simp [CodeScope.get, CodeScope.isParam, CodeScope.path_eq, hagree.isStatic]
  refine { rule := rfl, corpus := rfl, reference := ?_, assign := ?_, settingEnum? := ?_,
           enumOf? := ?_, text := ?_ }
  · intro ref
    simp only [CodeScope.reference, hget, CodeScope.path_eq, Workspace.scope_rule]
  · intro ref value
    simp [CodeScope.assign, CodeScope.isParam, CodeScope.path_eq]
  · intro setting
    simp [CodeScope.settingEnum?, hagree.settings]
  · intro ref href
    have hkind := (h.contexts_agree hagree).kind? (h.path_ne hr href)
    simp only [CodeScope.enumOf?, CodeScope.path_eq, Workspace.scope_contexts,
      Workspace.scope_rule, hkind]
  · intro ref t href
    have hnone : ∀ c : Catalog, ¬ c.DeclaresEnum n →
        ((⟨c, corpus⟩ : Workspace).scope o r).enumOf? ref = none := by
      intro c hc
      refine Option.eq_none_iff_forall_ne_some.2 fun type htype => hc ?_
      exact ((h.enumOf?_param c o hr href).1 htype).1
    by_cases hc : c.DeclaresEnum n
    · rw [(h.enumOf?_param c o hr href).2 ⟨hc, rfl⟩]
      by_cases hc' : c'.DeclaresEnum n
      · rw [(h.enumOf?_param c' o hr href).2 ⟨hc', rfl⟩]
        exact (Alike.refl _).of_iff (by simp [hc'])
      · rw [hnone c' hc']
        exact (alike_textCode n t).of_iff (by simp [hc, hc'])
    · rw [hnone c hc, hnone c' fun hc' => hc (henum hc')]
      exact (Alike.refl _).of_iff (by simp [hc])

/-- The code of a rule has the same faults with both catalogs. It differs if it shows a string of
    the parameter and one catalog alone declares an enumeration. -/
theorem body_both (h : corpus.OwnParam s n) (hagree : c.AgreeBut n c') (o : CompileOptions)
    (hr : r ∈ corpus.rules.values) (hshape : r.body.misshapen? = none) :
    Both (fun a b => a = b ↔
        (r.body.Texts corpus n → (c.DeclaresEnum n ↔ c'.DeclaresEnum n)))
      ((⟨c, corpus⟩ : Workspace).scope o r).body ((⟨c', corpus⟩ : Workspace).scope o r).body := by
  -- strings have more quotes with the catalog that declares no enumeration, which goes second
  by_cases henum : c'.DeclaresEnum n → c.DeclaresEnum n
  · refine ((h.alikeBut hagree henum o hr).body hshape).imp fun a b hab => ?_
    rw [hab.eq_iff]
    simp only [Workspace.scope_rule, Workspace.scope_toWorkspace]
    tauto
  · have henum' : c.DeclaresEnum n → c'.DeclaresEnum n := fun _ => (Classical.not_imp.1 henum).1
    refine ((h.alikeBut hagree.symm henum' o hr).body hshape).swap.imp fun a b hba => ?_
    rw [eq_comm, hba.eq_iff]
    simp only [Workspace.scope_rule, Workspace.scope_toWorkspace]
    tauto

end Corpus.OwnParam

/-! ## Compilations -/

/-- The code that a compilation has for a rule. -/
def Compilation.codeOf (comp : Compilation) (name : String) : Option String :=
  comp.rules.find? name >>= RuleOutput.code

/-- The reachability of each rule that a compilation has an output for. -/
def Compilation.reachabilities (comp : Compilation) (name : String) : Option (Option Value) :=
  (comp.rules.find? name).map RuleOutput.reachability

namespace Workspace

variable {w : Workspace} {o : CompileOptions} {comp : Compilation}

theorem exists_output {rules : List Rule} {k : Knowledge} {outputs : List (String × RuleOutput)}
    (h : (compileRules o k rules).outcome = .ok outputs) {r : Rule} (hr : r ∈ rules) :
    ∃ out, (r.name, out) ∈ outputs := by
  induction rules generalizing outputs with
  | nil => cases hr
  | cons r' rules ih =>
      obtain ⟨output, houtput, hrest⟩ := Report.bind_eq_ok_iff.1 h
      obtain ⟨rest, hrules, hpure⟩ := Report.bind_eq_ok_iff.1 hrest
      obtain rfl := Except.ok.inj hpure
      rcases List.mem_cons.1 hr with rfl | hr
      · exact ⟨output, List.mem_cons_self ..⟩
      · obtain ⟨out, hout⟩ := ih hrules hr
        exact ⟨out, List.mem_cons_of_mem _ hout⟩

/-- A compilation has an output for each rule, which is the one of this rule alone. -/
theorem exists_output_of_rule (hbuilt : w.corpus.Built) (h : (w.compile o).outcome = .ok comp)
    {r : Rule} (hr : r ∈ w.corpus.rules.values) :
    ∃ out, comp.rules.find? r.name = some out ∧
      (compileRule o w.knowledge r).outcome = .ok out := by
  obtain ⟨hshapes, outputs, houtputs, rfl⟩ := compile_eq_ok_iff.1 h
  obtain ⟨out, hout⟩ := exists_output houtputs hr
  obtain ⟨found, hfound⟩ := NameMap.exists_find?_ofList hout
  refine ⟨found, hfound, ?_⟩
  -- what is found under the name is the output of this rule
  obtain ⟨r', hr', hname, hcompile⟩ :=
    exists_rule_of_mem_outputs houtputs (NameMap.mem_of_find?_ofList hfound)
  rwa [hbuilt.eq_of_name_eq hr' hr hname] at hcompile

/-- The code of a rule without a spot is rendered if any is. -/
theorem code_of_unattached {r : Rule} {out : RuleOutput} (hspot : r.spot = none)
    (h : (compileRule o w.knowledge r).outcome = .ok out) :
    (o.executable = false ∧ out.code = none) ∨
      o.executable = true ∧ ∃ code, (w.scope o r).body = .ok code ∧ out.code = some code := by
  rw [compileRule_eq] at h
  obtain ⟨reach, hreach, h⟩ := Report.bind_eq_ok_iff.1 h
  obtain ⟨code, hcode, h⟩ := Report.bind_eq_ok_iff.1 h
  obtain rfl := Except.ok.inj h
  -- a rule without a spot has no reachability, so it is not pruned
  have hnone : reach = none := by
    rw [reachability, hspot] at hreach
    exact (Except.ok.inj hreach).symm
  subst hnone
  unfold ruleCode at hcode
  by_cases hexecutable : o.executable = true
  · simp only [hexecutable, Bool.not_true, Bool.false_eq_true, if_false, CompileOptions.prunes,
      Option.any_none, Bool.and_false] at hcode
    obtain ⟨text, htext, rfl⟩ := Report.map_eq_ok_iff.1 hcode
    exact Or.inr ⟨hexecutable, text, htext, rfl⟩
  · simp only [hexecutable, Bool.not_false, if_true] at hcode
    exact Or.inl ⟨Bool.eq_false_iff.2 hexecutable, (Except.ok.inj hcode).symm⟩

end Workspace

namespace Corpus

variable {corpus : Corpus} {s : Signature} {n : String} {c c' : Catalog} {o : CompileOptions}

/-- Outputs of a rule with the same reachability, or the same defect. -/
theorem Hides.compileRule_both (h : corpus.Hides s n c c') (o : CompileOptions) {r : Rule}
    (hr : r ∈ corpus.rules.values) (hshape : r.body.misshapen? = none) :
    Both (fun out out' => out.reachability = out'.reachability)
      (Workspace.compileRule o (⟨c, corpus⟩ : Workspace).knowledge r).outcome
      (Workspace.compileRule o (⟨c', corpus⟩ : Workspace).knowledge r).outcome := by
  simp only [Workspace.compileRule_eq, Report.outcome_bind, ← h.outcome_reachability hr]
  cases (Workspace.reachability (⟨c, corpus⟩ : Workspace).knowledge r).outcome with
  | error d => exact .error d
  | ok reach =>
      have hcode : Both (fun _ _ => True)
          (Workspace.ruleCode o (⟨c, corpus⟩ : Workspace).knowledge r reach).outcome
          (Workspace.ruleCode o (⟨c', corpus⟩ : Workspace).knowledge r reach).outcome := by
        unfold Workspace.ruleCode
        by_cases hexecutable : (!o.executable) = true
        · simp only [if_pos hexecutable]
          exact .ok trivial
        simp only [if_neg hexecutable]
        by_cases hpruned : o.prunes reach = true
        · simp only [if_pos hpruned]
          exact .ok trivial
        simp only [if_neg hpruned, Report.outcome_map]
        exact (h.own.body_both h.agree o hr hshape).bind fun _ _ _ => .ok trivial
      exact hcode.bind fun _ _ _ => .ok rfl

theorem Hides.compileRules_both (h : corpus.Hides s n c c') (o : CompileOptions)
    {rules : List Rule} (hrules : ∀ r ∈ rules, r ∈ corpus.rules.values ∧ r.body.misshapen? = none) :
    Both (fun outputs outputs' => outputs.map (fun p => (p.1, p.2.reachability))
        = outputs'.map fun p => (p.1, p.2.reachability))
      (Workspace.compileRules o (⟨c, corpus⟩ : Workspace).knowledge rules).outcome
      (Workspace.compileRules o (⟨c', corpus⟩ : Workspace).knowledge rules).outcome := by
  induction rules with
  | nil => exact .ok rfl
  | cons r rules ih =>
      obtain ⟨hr, hshape⟩ := hrules r (List.mem_cons_self ..)
      simp only [Workspace.compileRules, Report.outcome_bind]
      refine (h.compileRule_both o hr hshape).bind fun out out' hout => ?_
      refine (ih fun r hr => hrules r (List.mem_cons_of_mem _ hr)).bind fun rest rest' hrest => ?_
      exact .ok (by simp [hout, hrest])

/-- Compilations are abandoned for the same defect with both catalogs, or give the same
    reachability. -/
theorem Hides.compile_both (h : corpus.Hides s n c c') (o : CompileOptions) :
    Both (fun comp comp' => comp.reachabilities = comp'.reachabilities)
      ((⟨c, corpus⟩ : Workspace).compile o).outcome
      ((⟨c', corpus⟩ : Workspace).compile o).outcome := by
  rw [Workspace.outcome_compile_eq, Workspace.outcome_compile_eq]
  -- shapes are a matter of the corpus alone
  show Both _ (Except.bind (⟨c, corpus⟩ : Workspace).checkShapes.outcome _)
    (Except.bind (⟨c, corpus⟩ : Workspace).checkShapes.outcome _)
  cases hshapes : (⟨c, corpus⟩ : Workspace).checkShapes.outcome with
  | error d => exact .error d
  | ok u =>
      have hrules := Workspace.checkShapes_ok_iff.1 hshapes
      have houtputs := h.compileRules_both o fun r hr => ⟨hr, hrules r hr⟩
      refine houtputs.bind fun outputs outputs' hout => ?_
      refine .ok (funext fun name => ?_)
      simp only [Compilation.reachabilities, NameMap.map_find?_ofList, hout]

/-! ## Shadowing -/

/-- The code of the helper shows a string of the parameter. -/
def TextsParam (corpus : Corpus) (s : Signature) (n : String) : Prop :=
  ∃ r ∈ corpus.rules.values, r.name = s.ruleName ∧ r.body.Texts corpus n

theorem OwnParam.codeOf_eq_iff (h : corpus.OwnParam s n) (hagree : c.AgreeBut n c')
    {comp comp' : Compilation} (hcomp : ((⟨c, corpus⟩ : Workspace).compile o).outcome = .ok comp)
    (hcomp' : ((⟨c', corpus⟩ : Workspace).compile o).outcome = .ok comp') :
    comp.codeOf s.ruleName = comp'.codeOf s.ruleName ↔
      (o.executable = true → corpus.TextsParam s n → (c.DeclaresEnum n ↔ c'.DeclaresEnum n)) := by
  obtain ⟨body, hrule⟩ := h.built.helper_rule h.helper
  have hr := NameMap.mem_values_of_find? hrule
  have hshape := (Workspace.compile_eq_ok_iff.1 hcomp).1 _ hr
  obtain ⟨out, hout, hcompile⟩ := Workspace.exists_output_of_rule h.built hcomp hr
  obtain ⟨out', hout', hcompile'⟩ := Workspace.exists_output_of_rule h.built hcomp' hr
  have hcode : comp.codeOf s.ruleName = out.code := by
    rw [Compilation.codeOf, hout]
    rfl
  have hcode' : comp'.codeOf s.ruleName = out'.code := by
    rw [Compilation.codeOf, hout']
    rfl
  have htexts : corpus.TextsParam s n ↔ body.Texts corpus n := by
    refine ⟨fun ⟨r, hmem, hname, htexts⟩ => ?_, fun htexts => ⟨_, hr, rfl, htexts⟩⟩
    rwa [h.built.eq_of_name_eq hmem hr hname] at htexts
  rw [hcode, hcode', htexts]
  rcases Workspace.code_of_unattached rfl hcompile with ⟨hoff, hnone⟩ | ⟨hon, text, htext, hsome⟩
  · rcases Workspace.code_of_unattached rfl hcompile' with ⟨-, hnone'⟩ | ⟨hon, -⟩
    · simp [hoff, hnone, hnone']
    · rw [hoff] at hon
      cases hon
  · rcases Workspace.code_of_unattached rfl hcompile' with ⟨hoff, -⟩ | ⟨-, text', htext', hsome'⟩
    · rw [hoff] at hon
      cases hon
    · have hiff := (h.body_both hagree o hr hshape).of_ok htext htext'
      simp only [hsome, hsome', hon, Option.some.injEq, hiff, forall_const]

end Corpus

/-- Let a parameter of a helper be mentioned in the body of this helper alone, and let two catalogs
    differ in the declaration of the context variable of its name. The code of the helper is the
    same with both, except that strings of the parameter show whether an enumeration is declared.
    The reachability of every rule is the same, if `$default()` beside the parameter is, and if the
    parameter is bound wherever it is read or stands for the same unbound. -/
theorem param_shadows_context {corpus : Corpus} {s : Signature} {n : String} {c c' : Catalog}
    (h : corpus.OwnParam s n) (hagree : c.AgreeBut n c') (o : CompileOptions) :
    (∀ comp comp', ((⟨c, corpus⟩ : Workspace).compile o).outcome = .ok comp →
      ((⟨c', corpus⟩ : Workspace).compile o).outcome = .ok comp' →
      (comp.codeOf s.ruleName = comp'.codeOf s.ruleName ↔
        (o.executable = true → corpus.TextsParam s n → (c.DeclaresEnum n ↔ c'.DeclaresEnum n)))) ∧
    ((corpus.EquatesParam s n → c'.noneValue n = c.noneValue n) →
      c.ReadsAlike n c' ∨ corpus.BindsParam s n →
      ((⟨c, corpus⟩ : Workspace).compile o).outcome.map Compilation.reachabilities
        = ((⟨c', corpus⟩ : Workspace).compile o).outcome.map Compilation.reachabilities) := by
  refine ⟨fun comp comp' hcomp hcomp' => ?_, fun hnone hreads => ?_⟩
  · exact h.codeOf_eq_iff hagree hcomp hcomp'
  · exact (Corpus.Hides.compile_both ⟨h, hagree, hnone, hreads⟩ o).map_eq

/-! ## A gate -/

def fitsSignature : Signature := { name := "fits", params := [{ name := "mode", type := none }] }

def gateRule : Rule where
  name := "rules:gate"
  body := .requirement (.invoke "fits" [.int 0] false)
  spot := some "Cave > Entry > Door"

/-- The rule of a gate, which calls a helper `$fits(^mode)`. -/
def gateCorpus (body : Expr) : Corpus where
  rules := .ofList [(gateRule.name, gateRule),
    ("helpers:fits", { name := "helpers:fits", body := .requirement body })]
  helpers := .ofList [("fits", fitsSignature)]

/-- A catalog with a context variable `mode`. -/
def modeCatalog (type : String) : Catalog where
  context := .ofList [("mode", { type := some type })]

def modeParam : Reference := { name := "mode" }

/-- The body of a helper that compares its parameter with a string. -/
def swimMode : Expr := .strCompare (.ref modeParam) .eq (.str "swim")

/-- The body of a helper that compares its parameter with the value for none. -/
def noMode : Expr := .refEqCall modeParam .eq (.call "default" [])

theorem gateCorpus_rule_cases {body : Expr} {r : Rule} (hr : r ∈ (gateCorpus body).rules.values) :
    r = gateRule ∨ r = { name := "helpers:fits", body := .requirement body } := by
  obtain ⟨name, hfind⟩ := NameMap.exists_find?_of_mem_values hr
  rcases List.mem_cons.1 (NameMap.mem_of_find?_ofList hfind) with heq | hmem
  · exact Or.inl (Prod.mk.inj heq).2
  · exact Or.inr (Prod.mk.inj (List.mem_singleton.1 hmem)).2

theorem gateRule_mentions : ¬ gateRule.Mentions "mode" := by
  have hnodes : (Expr.invoke "fits" [.int 0] false).Every fun e => e.references = [] :=
    .node rfl (List.forall_mem_singleton.2 (.node rfl (List.forall_mem_nil _)))
  rintro ((⟨e, he, ref, href, -⟩ | ⟨a, ha, -⟩) | ⟨short, path, hlocal, -⟩)
  · rw [Expr.every_iff_forall_node.1 hnodes e he] at href
    cases href
  · exact ha
  · cases hlocal

theorem gateCorpus_ownParam (body : Expr) :
    (gateCorpus body).OwnParam fitsSignature "mode" where
  built := by
    have hadd : Corpus.addHelper { rules := .ofList [(gateRule.name, gateRule)] } "$fits(^mode)"
        (.requirement body) = .ok (gateCorpus body) :=
      Corpus.addHelper_eq_ok_iff.2 ⟨fitsSignature, rfl, rfl, rfl, rfl⟩
    exact .helper (.rule (r := gateRule) .empty rfl) hadd
  helper := rfl
  param := rfl
  only := by
    intro r hr hname
    rcases gateCorpus_rule_cases hr with rfl | rfl
    · exact gateRule_mentions
    · exact absurd rfl hname

theorem modeCatalog_agreeBut (type : String) : (modeCatalog type).AgreeBut "mode" {} where
  items := rfl
  settings := rfl
  consts := rfl
  data := rfl
  regions := rfl
  context name hname := by
    show none = ((∅ : Roster ContextDecl).insert "mode" { type := some type }).find? name
    rw [Roster.find?_insert, if_neg hname]
    rfl

theorem gateCorpus_bindsParam : (gateCorpus swimMode).BindsParam fitsSignature "mode" := by
  have hgate : (Expr.invoke "fits" [.int 0] false).Every fun e =>
      (∀ call ∈ e.callsHere, 0 < call.args.length) := by
    refine .node ?_ (List.forall_mem_singleton.2 (.node ?_ (List.forall_mem_nil _)))
    · exact List.forall_mem_singleton.2 Nat.one_pos
    · exact List.forall_mem_nil _
  have hhelper : swimMode.Every fun e => e.callsHere = [] ∧
      ∀ ref ∈ e.references, ref.qualifier = none :=
    .node ⟨rfl, List.forall_mem_nil _⟩ (List.forall_mem_singleton.2
      (.node ⟨rfl, List.forall_mem_singleton.2 rfl⟩ (List.forall_mem_nil _)))
  constructor
  · intro r hr e he call hcall _
    refine ⟨0, ?_, rfl⟩
    rcases gateCorpus_rule_cases hr with rfl | rfl
    · exact Expr.every_iff_forall_node.1 hgate e he call hcall
    · rw [(Expr.every_iff_forall_node.1 hhelper e he).1] at hcall
      cases hcall
  · intro r hr hname e he ref href _
    rcases gateCorpus_rule_cases hr with rfl | rfl
    · exact absurd hname (by decide)
    · exact (Expr.every_iff_forall_node.1 hhelper e he).2 ref href

/-- A variable that is no enumeration makes no difference for the gate. -/
theorem swimMode_shadows_integer :
    (gateCorpus swimMode).OwnParam fitsSignature "mode" ∧
      (modeCatalog "int").AgreeBut "mode" {} ∧
      (∀ comp comp',
        ((⟨modeCatalog "int", gateCorpus swimMode⟩ : Workspace).compile {}).outcome = .ok comp →
        ((⟨{}, gateCorpus swimMode⟩ : Workspace).compile {}).outcome = .ok comp' →
        comp.codeOf "helpers:fits" = comp'.codeOf "helpers:fits") ∧
      ((⟨modeCatalog "int", gateCorpus swimMode⟩ : Workspace).compile {}).outcome.map
          Compilation.reachabilities
        = ((⟨{}, gateCorpus swimMode⟩ : Workspace).compile {}).outcome.map
          Compilation.reachabilities := by
  have hown := gateCorpus_ownParam swimMode
  have hagree := modeCatalog_agreeBut "int"
  obtain ⟨hcode, hreach⟩ := param_shadows_context hown hagree {}
  refine ⟨hown, hagree, fun comp comp' hcomp hcomp' => ?_, hreach ?_ (.inr gateCorpus_bindsParam)⟩
  · refine (hcode comp comp' hcomp hcomp').2 fun _ _ => iff_of_false ?_ ?_
    · rintro ⟨d, hd, henum⟩
      obtain rfl := Option.some.inj hd
      rcases henum with htype | ⟨htype, -⟩
      · exact absurd htype (by decide)
      · cases htype
    · rintro ⟨d, hd, -⟩
      cases hd
  · -- no node compares the parameter with a call
    rintro ⟨r, hr, hname, ref, op, e, hnode, -⟩
    have hnodes : swimMode.Every fun e => ∀ ref op c, e ≠ .refEqCall ref op c :=
      .node (by rintro _ _ _ ⟨⟩) (List.forall_mem_singleton.2
        (.node (by rintro _ _ _ ⟨⟩) (List.forall_mem_nil _)))
    rcases gateCorpus_rule_cases hr with rfl | rfl
    · exact absurd hname (by decide)
    · exact absurd rfl (Expr.every_iff_forall_node.1 hnodes _ hnode ref op e)

/-- Whether the variable is an enumeration shows in the code of the helper, and its value for none
    in the reachability of the gate. -/
theorem mode_declaration_shows :
    (¬ ∀ (corpus : Corpus) (s : Signature) (n : String) (c c' : Catalog) (o : CompileOptions)
        (comp comp' : Compilation), corpus.OwnParam s n → c.AgreeBut n c' →
        ((⟨c, corpus⟩ : Workspace).compile o).outcome = .ok comp →
        ((⟨c', corpus⟩ : Workspace).compile o).outcome = .ok comp' →
        comp.codeOf s.ruleName = comp'.codeOf s.ruleName) ∧
    ¬ ∀ (corpus : Corpus) (s : Signature) (n : String) (c c' : Catalog) (o : CompileOptions),
        corpus.OwnParam s n → c.AgreeBut n c' →
        ((⟨c, corpus⟩ : Workspace).compile o).outcome.map Compilation.reachabilities
          = ((⟨c', corpus⟩ : Workspace).compile o).outcome.map Compilation.reachabilities := by
  constructor
  · intro h
    have hmember : ((⟨modeCatalog "enum", gateCorpus swimMode⟩ : Workspace).compile {}).outcome.map
        (·.codeOf "helpers:fits") = .ok (some "mode == enums::Mode::Swim") := rfl
    have hstring : ((⟨{}, gateCorpus swimMode⟩ : Workspace).compile {}).outcome.map
        (·.codeOf "helpers:fits") = .ok (some "mode == \"swim\"") := rfl
    obtain ⟨comp, hcomp⟩ : ∃ comp,
        ((⟨modeCatalog "enum", gateCorpus swimMode⟩ : Workspace).compile {}).outcome = .ok comp :=
      ⟨_, rfl⟩
    obtain ⟨comp', hcomp'⟩ : ∃ comp',
        ((⟨{}, gateCorpus swimMode⟩ : Workspace).compile {}).outcome = .ok comp' := ⟨_, rfl⟩
    have hsame : comp.codeOf "helpers:fits" = comp'.codeOf "helpers:fits" :=
      h _ _ _ _ _ _ _ _ (gateCorpus_ownParam swimMode) (modeCatalog_agreeBut "enum") hcomp hcomp'
    rw [hcomp] at hmember
    rw [hcomp'] at hstring
    have hshown : some "mode == enums::Mode::Swim" = some "mode == \"swim\"" :=
      (Except.ok.inj hmember).symm.trans (hsame.trans (Except.ok.inj hstring))
    exact absurd hshown (by decide)
  · intro h
    have hsame := congrArg (Except.map fun reach => reach "rules:gate")
      (h _ _ _ _ _ {} (gateCorpus_ownParam noMode) (modeCatalog_agreeBut "int"))
    have hopen : Except.ok (some (some (Value.bool true)))
        = (Except.ok (some (some .uncertain)) : Except Defect (Option (Option Value))) := hsame
    cases hopen

end AccessRules
