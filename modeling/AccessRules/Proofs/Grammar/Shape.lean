import AccessRules.Proofs.Compile
import AccessRules.Proofs.Corpus
import AccessRules.Proofs.Expr.Nodes
import AccessRules.Proofs.Grammar.Outline
import AccessRules.Proofs.Reachability.HelperDepth

set_option autoImplicit false

/-! # The shape of what texts stand for

The grammar gives trees of the shape that every pass relies on, but for one thing: it lets a choice
list nothing but its default, and the shape asks for a case. So a tree from a text has the right
shape exactly if all its choices have cases, and compilation of a corpus from texts is abandoned for
a shape exactly if one of its rules holds a choice without a case. -/

namespace AccessRules

/-! ## Nodes -/

namespace Expr

/-- The node is a choice that lists no case beside its default. -/
def isCaseless : Expr → Bool
  | .perItem _ cases _ => cases.isEmpty
  | .perSetting _ cases _ => cases.isEmpty
  | _ => false

end Expr

theorem IsName.ne_empty {name : String} (h : IsName name) : name ≠ "" := by
  rintro rfl
  exact absurd h.1 (by simp [IsIdent])

/-- A node with well formed parts can only lack cases. -/
theorem Expr.Presentable.shapeFault?_eq {e : Expr} (h : e.Presentable) :
    e.shapeFault? = if e.isCaseless then some .noCases else none := by
  cases e with
  | ifThenElse conds branches otherwise =>
      obtain ⟨hne, hlength⟩ := h
      have hpos : conds.length ≠ 0 := fun h => hne (List.length_eq_zero_iff.1 h)
      simp [shapeFault?, chainFault?, isCaseless, hpos, ← hlength]
  | invoke func args negated => simp [shapeFault?, isCaseless, IsName.ne_empty h]
  | call func args => simp [shapeFault?, isCaseless, IsName.ne_empty h]
  | ref r => simp [shapeFault?, isCaseless, h.name.ne_empty]
  | argFlag r negated => simp [shapeFault?, isCaseless, h.name.ne_empty]
  | hasArgItem r => simp [shapeFault?, isCaseless, h.name.ne_empty]
  | _ => simp [shapeFault?, isCaseless]

/-! ## Bodies -/

theorem Grammar.DerivesAction.shapeFault?_eq {F : Prop} {x : Extent} {a : Action}
    (h : DerivesAction F x a) : a.shapeFault? = none := by
  induction h with
  | cond hne _ _ _ _ _ => simp [Action.shapeFault?, chainFault?, hne]
  | single _ ih => exact ih
  | @sequence steps hlen _ _ =>
      have hne : steps ≠ [] := List.ne_nil_of_length_pos (by omega)
      simp [Action.shapeFault?, hne]
  | _ => rfl

namespace Body

/-- A node of the body is a choice that lists no case. -/
def HasCaseless (b : Body) : Prop :=
  ∃ e, b.HasNode e ∧ e.isCaseless = true

/-- The actions of the body have the right shape, and the parts of its nodes are well formed. -/
structure Formed (b : Body) : Prop where
  actions : ∀ a, b.HasAction a → a.shapeFault? = none
  nodes : ∀ e, b.HasNode e → e.Presentable

theorem formed_requirement {F : Prop} {L : Grammar.Level} {e : Expr}
    (h : Grammar.Derives F L e) : (Body.requirement e).Formed where
  actions _ ha := ha.elim
  nodes := Expr.every_iff_forall_node.1 (Grammar.legible_of_derives h)

theorem formed_actions {F : Prop} {x : Grammar.Extent} {a : Action}
    (h : Grammar.DerivesAction F x a) : (Body.actions a).Formed where
  actions b hb := by
    obtain ⟨y, hb⟩ := h.of_part hb
    exact hb.shapeFault?_eq
  nodes := by
    rintro n ⟨b, hb, e, he, hn⟩
    obtain ⟨y, hb⟩ := h.of_part hb
    obtain ⟨L, he⟩ := hb.held e he
    exact Expr.every_iff_forall_node.1 (Grammar.legible_of_derives he) n hn

theorem formed_of_parseBody {file text : String} {isAction : Bool} {b : Body}
    (h : Corpus.parseBody file text isAction = .ok b) : b.Formed := by
  cases isAction with
  | true =>
      cases hparse : parseActions file text with
      | error e => simp [Corpus.parseBody, hparse, Except.map, Except.mapError] at h
      | ok a =>
          obtain rfl : Body.actions a = b := by
            simpa [Corpus.parseBody, hparse, Except.map, Except.mapError] using h
          exact formed_actions (derives_of_parseActions hparse)
  | false =>
      cases hparse : parseRequirement file text with
      | error e => simp [Corpus.parseBody, hparse, Except.map, Except.mapError] at h
      | ok e =>
          obtain rfl : Body.requirement e = b := by
            simpa [Corpus.parseBody, hparse, Except.map, Except.mapError] using h
          exact formed_requirement (derives_of_parseRequirement hparse)

theorem Formed.paired {b : Body} (h : b.Formed) : b.Paired := by
  intro e he
  have hnode := h.nodes e he
  cases e with
  | ifThenElse conds branches otherwise => exact hnode.2
  | _ => trivial

theorem Formed.misshapen?_eq_none_iff {b : Body} (h : b.Formed) :
    b.misshapen? = none ↔ ¬ b.HasCaseless := by
  constructor
  · rintro hshape ⟨e, he, hcaseless⟩
    have hfault := (shapes hshape).2 e he
    rw [(h.nodes e he).shapeFault?_eq, hcaseless] at hfault
    cases hfault
  · intro hcases
    refine Body.misshapen?_eq_none_iff.2 ⟨fun a ha => ?_, fun e he => ?_⟩
    · exact h.actions a ha
    · have hnode := hasNode_of_mem_reached he
      rw [(h.nodes e hnode).shapeFault?_eq, if_neg fun hc => hcases ⟨e, hnode, hc⟩]

theorem Formed.fault_eq {b : Body} (h : b.Formed) {node : String} {fault : ShapeFault}
    (hshape : b.misshapen? = some (node, fault)) : fault = .noCases := by
  rw [misshapen?, nodes_eq, Option.orElse_eq_some] at hshape
  rcases hshape with hshape | ⟨-, hshape⟩
  · obtain ⟨a, ha, hfault⟩ := List.exists_of_findSome?_eq_some hshape
    rw [h.actions a (mem_actionNodes_iff.1 ha)] at hfault
    cases hfault
  · obtain ⟨e, he, hfault⟩ := List.exists_of_findSome?_eq_some hshape
    rw [(h.nodes e (hasNode_of_mem_reached he)).shapeFault?_eq] at hfault
    split at hfault
    · exact (Prod.mk.inj (Option.some.inj hfault)).2.symm
    · cases hfault

end Body

/-! ## Compilation -/

/-- The defect is that a node does not have the shape that every pass relies on. -/
def Defect.IsShape (d : Defect) : Prop :=
  ∃ rule node fault, d = .misshapen rule node fault

namespace Workspace

theorem failsOnlyBy_compileRule (o : CompileOptions) (k : Knowledge) (r : Rule) :
    (compileRule o k r).FailsOnlyBy fun d => ¬ d.IsShape := by
  rw [compileRule_eq]
  refine Report.FailsOnlyBy.bind ?_ fun reach => Report.FailsOnlyBy.bind ?_ fun code =>
    Report.failsOnlyBy_pure _
  · unfold reachability
    cases r.spot with
    | none => exact Report.failsOnlyBy_pure _
    | some spot =>
        refine Report.FailsOnlyBy.map (fun d hd => ?_) _
        obtain ⟨s, ss, caller, last, -, -, -, -, -, rfl⟩ := k.failsOnlyBy_evaluate r spot d hd
        rintro ⟨rule, node, fault, h⟩
        cases h
  · unfold ruleCode
    split
    · exact Report.failsOnlyBy_pure _
    · split
      · exact Report.failsOnlyBy_pure _
      · refine Report.FailsOnlyBy.map (fun d hd => ?_) _
        rintro ⟨rule, node, fault, rfl⟩
        -- rendering gives up with a defect of its own
        have hbody : ∀ m : Rendered, m.mapError (Defect.unrenderable r.name)
            ≠ .error (.misshapen rule node fault) := by
          intro m hm
          cases m <;> cases hm
        simp only [Report.ofExcept, CodeScope.body] at hd
        split at hd
        · exact hbody _ hd
        · exact hbody _ hd

theorem failsOnlyBy_compileRules (o : CompileOptions) (k : Knowledge) (rules : List Rule) :
    (compileRules o k rules).FailsOnlyBy fun d => ¬ d.IsShape := by
  induction rules with
  | nil => exact Report.failsOnlyBy_pure _
  | cons r rules ih =>
      rw [compileRules]
      exact (failsOnlyBy_compileRule o k r).bind fun out => ih.bind fun outs =>
        Report.failsOnlyBy_pure _

/-- Compilation is abandoned for a shape if the check of the shapes finds one, before anything
    else is done. -/
theorem compile_misshapen_iff (w : Workspace) (o : CompileOptions) {d : Defect} (hd : d.IsShape) :
    (w.compile o).outcome = .error d ↔
      w.corpus.rules.values.findSome? (fun r => r.body.defect? r.name) = some d := by
  rw [outcome_compile_eq, checkShapes]
  cases w.corpus.rules.values.findSome? fun r => r.body.defect? r.name with
  | some d' => simp [Report.abandon, Except.bind]
  | none =>
      refine ⟨fun h => ?_, fun h => by cases h⟩
      have hfails := failsOnlyBy_compileRules o w.knowledge w.corpus.rules.values
      cases hout : (compileRules o w.knowledge w.corpus.rules.values).outcome with
      | error d' =>
          simp only [hout, Except.map] at h
          obtain rfl := Except.error.inj h
          exact absurd hd (hfails d' hout)
      | ok outputs =>
          simp only [hout, Except.map] at h
          cases h

theorem exists_rule_of_misshapen {w : Workspace} {o : CompileOptions} {rule node : String}
    {fault : ShapeFault} (h : (w.compile o).outcome = .error (.misshapen rule node fault)) :
    ∃ r ∈ w.corpus.rules.values, r.body.misshapen? = some (node, fault) := by
  rw [w.compile_misshapen_iff o ⟨_, _, _, rfl⟩] at h
  obtain ⟨r, hr, hdefect⟩ := List.exists_of_findSome?_eq_some h
  obtain ⟨⟨node', fault'⟩, hshape, heq⟩ := Option.map_eq_some_iff.1 hdefect
  obtain ⟨-, rfl, rfl⟩ := Defect.misshapen.inj heq
  exact ⟨r, hr, hshape⟩

theorem exists_misshapen_of_rule {w : Workspace} (o : CompileOptions) {r : Rule}
    (hr : r ∈ w.corpus.rules.values) (h : r.body.misshapen? ≠ none) :
    ∃ rule node fault, (w.compile o).outcome = .error (.misshapen rule node fault) := by
  cases hfind : w.corpus.rules.values.findSome? fun r => r.body.defect? r.name with
  | none => exact absurd (Body.defect?_eq_none_iff.1 (List.findSome?_eq_none_iff.1 hfind r hr)) h
  | some d =>
      -- the rule that is found may be another one
      obtain ⟨r', -, hdefect⟩ := List.exists_of_findSome?_eq_some hfind
      obtain ⟨⟨node, fault⟩, -, rfl⟩ := Option.map_eq_some_iff.1 hdefect
      exact ⟨_, _, _, (w.compile_misshapen_iff o ⟨_, _, _, rfl⟩).2 hfind⟩

end Workspace

/-- Compilation of a corpus from texts is abandoned for a shape exactly if a choice in it has no
    case. -/
theorem Corpus.Parsed.misshapen_iff {w : Workspace} (hparsed : w.corpus.Parsed)
    (o : CompileOptions) :
    ((∃ rule node fault, (w.compile o).outcome = .error (.misshapen rule node fault)) ↔
      ∃ r ∈ w.corpus.rules.values, r.body.HasCaseless) ∧
    ∀ rule node fault, (w.compile o).outcome = .error (.misshapen rule node fault) →
      fault = .noCases := by
  have hformed : ∀ r ∈ w.corpus.rules.values, r.body.Formed := by
    intro r hr
    obtain ⟨name, hfind⟩ := NameMap.exists_find?_of_mem_values hr
    obtain ⟨file, text, isAction, hbody⟩ := hparsed.body_parsed hfind
    exact Body.formed_of_parseBody hbody
  refine ⟨⟨?_, ?_⟩, fun rule node fault h => ?_⟩
  · rintro ⟨rule, node, fault, h⟩
    obtain ⟨r, hr, hshape⟩ := Workspace.exists_rule_of_misshapen h
    refine ⟨r, hr, ?_⟩
    by_contra hcases
    rw [(hformed r hr).misshapen?_eq_none_iff.2 hcases] at hshape
    cases hshape
  · rintro ⟨r, hr, hcaseless⟩
    exact Workspace.exists_misshapen_of_rule o hr fun hnone =>
      (hformed r hr).misshapen?_eq_none_iff.1 hnone hcaseless
  · obtain ⟨r, hr, hshape⟩ := Workspace.exists_rule_of_misshapen h
    exact (hformed r hr).fault_eq hshape

/-- A tree from a text has the shape that every pass relies on exactly if all its choices have
    cases. So compilation of a corpus from texts is abandoned for a shape exactly if one of its
    rules holds a choice without a case, and the missing case is then what is wrong. -/
theorem parsed_shape_iff_cases (file text rule : String) (w : Workspace) (o : CompileOptions) :
    (∀ e, parseRequirement file text = .ok e →
      ((Body.requirement e).defect? rule = none ↔ ¬ (Body.requirement e).HasCaseless)) ∧
    (∀ a, parseActions file text = .ok a →
      ((Body.actions a).defect? rule = none ↔ ¬ (Body.actions a).HasCaseless)) ∧
    (w.corpus.Parsed →
      ((∃ rule node fault, (w.compile o).outcome = .error (.misshapen rule node fault)) ↔
        ∃ r ∈ w.corpus.rules.values, r.body.HasCaseless) ∧
      ∀ rule node fault, (w.compile o).outcome = .error (.misshapen rule node fault) →
        fault = .noCases) := by
  refine ⟨fun e h => ?_, fun a h => ?_, fun hparsed => hparsed.misshapen_iff o⟩
  · have hformed := Body.formed_requirement (derives_of_parseRequirement h)
    rw [Body.defect?_eq_none_iff, hformed.misshapen?_eq_none_iff]
  · have hformed := Body.formed_actions (derives_of_parseActions h)
    rw [Body.defect?_eq_none_iff, hformed.misshapen?_eq_none_iff]

/-- A choice by the number of bombs, with a case. -/
def bombChoice : Expr := .perItem "Bomb" [(1, .bool true)] (.bool false)

def bombRule : Rule := { name := "rules:door", body := .requirement bombChoice }

def bombCorpus : Corpus := { rules := .ofList [(bombRule.name, bombRule)] }

theorem bombChoice_shape :
    parseRequirement "rules:door" "PER Bomb \x7b 1 => TRUE, _ => FALSE \x7d" = .ok bombChoice ∧
      (Body.requirement bombChoice).defect? "rules:door" = none ∧ bombCorpus.Parsed ∧
      ¬ ∃ rule node fault, ((⟨{}, bombCorpus⟩ : Workspace).compile {}).outcome
        = .error (.misshapen rule node fault) := by
  have hparse : parseRequirement "rules:door" "PER Bomb \x7b 1 => TRUE, _ => FALSE \x7d"
      = .ok bombChoice := rfl
  have hbody : Corpus.parseBody "rules:door" "PER Bomb \x7b 1 => TRUE, _ => FALSE \x7d" false
      = .ok bombRule.body := rfl
  have hcases : ¬ (Body.requirement bombChoice).HasCaseless := by
    rintro ⟨e, he, hcaseless⟩
    have hevery : bombChoice.Every fun e => e.isCaseless = false :=
      .node rfl (List.forall_mem_cons.2 ⟨.node rfl (List.forall_mem_nil _),
        List.forall_mem_singleton.2 (.node rfl (List.forall_mem_nil _))⟩)
    rw [Expr.every_iff_forall_node.1 hevery e he] at hcaseless
    cases hcaseless
  have hparsed : bombCorpus.Parsed := .rule .empty hbody rfl
  obtain ⟨hrequirement, -, hcorpus⟩ := parsed_shape_iff_cases "rules:door"
    "PER Bomb \x7b 1 => TRUE, _ => FALSE \x7d" "rules:door" ⟨{}, bombCorpus⟩ {}
  refine ⟨hparse, (hrequirement _ hparse).2 hcases, hparsed, fun h => ?_⟩
  obtain ⟨r, hr, hcaseless⟩ := (hcorpus hparsed).1.1 h
  obtain rfl : r = bombRule := List.mem_singleton.1 hr
  exact hcases hcaseless

/-- The grammar takes a choice that lists nothing but its default. -/
theorem parsed_choice_without_cases :
    ¬ ∀ (file text rule : String) (e : Expr), parseRequirement file text = .ok e →
      (Body.requirement e).defect? rule = none := by
  intro h
  have hparse : parseRequirement "rules:any" "PER Bomb \x7b _ => TRUE \x7d"
      = .ok (.perItem "Bomb" [] (.bool true)) := rfl
  cases h _ _ "rules:any" _ hparse

end AccessRules
