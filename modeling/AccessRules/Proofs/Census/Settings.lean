import AccessRules.Proofs.Accumulate
import AccessRules.Proofs.Census.Places
import AccessRules.Proofs.Expr.Total
import Mathlib.Data.List.Count

set_option autoImplicit false

/-! # What the census of settings holds

`Expr.optionTexts` lists the texts of the literals that a node tells the values of a setting apart
by, and `Expr.UsesOtherwise` says that a setting stands somewhere else in an expression. The census
has exactly these for a declared setting. The walk that takes it stops at a direct comparison; below
one there is only the setting itself and a literal, so nothing is missed and nothing counts twice.
Each occurrence of a literal that is not an option of the setting is reported, and a setting that is
not declared once for each rule that names it. -/

namespace AccessRules

/-! ## Nodes that name settings -/

/-- How the value of a literal is written as an option: truth values in small letters, integers in
    decimal, floats without an exponent, strings and paths as they are. -/
def Literal.optionName : Literal → String
  | .bool true => "true"
  | .bool false => "false"
  | .int n => toString n.toInt
  | .float x => Decimal.plainText x
  | .str s => s
  | .place p => p

theorem optionText_eq (lit : Literal) : optionText lit = lit.optionName := by
  cases lit with
  | bool b => cases b <;> rfl
  | _ => rfl

namespace Expr

/-- Whether the node is just the setting. -/
def isSetting (s : String) : Expr → Bool
  | .setting name => name = s
  | _ => false

/-- The truth value, number or string that an expression consists of; other expressions, places
    among them, have none. -/
def scalars : Expr → List Literal
  | .bool b => [.bool b]
  | .int n => [.int n]
  | .float x => [.float x]
  | .str s => [.str s]
  | _ => []

/-- The literals that the node itself compares the setting with. -/
def comparedWith (s : String) : Expr → List Literal
  | .numCompare lhs _ rhs =>
    (if lhs.isSetting s then rhs.scalars else []) ++ if rhs.isSetting s then lhs.scalars else []
  | .strCompare lhs _ lit => if lhs.isSetting s then [lit] else []
  | _ => []

/-- The cases by which the node itself chooses after the setting. -/
def casesOf (s : String) : Expr → List Literal
  | .perSetting name cases _ => if name = s then cases.map (·.1) else []
  | _ => []

/-- The texts of the literals that the node itself tells the values of the setting apart by. -/
def optionTexts (s : String) (e : Expr) : List String :=
  (e.comparedWith s ++ e.casesOf s).map Literal.optionName

/-- The node itself takes the value of the setting, whatever it may be. -/
inductive HoldsSetting (s : String) : Expr → Prop
  | value : HoldsSetting s (.setting s)
  | flag (negated : Bool) : HoldsSetting s (.settingFlag s negated)
  | equated (r : Reference) (op : CmpOp) : HoldsSetting s (.refEq r op (.setting s))
  | threshold (item : String) : HoldsSetting s (.itemAtLeast item (.setting s))

/-- The setting stands in the expression other than in a comparison with a literal and other than as
    the subject of a choice. -/
inductive UsesOtherwise (s : String) : Expr → Prop
  | here {e : Expr} (h : e.HoldsSetting s) : UsesOtherwise s e
  | inside {c e : Expr} (hc : c ∈ e.children) (hfree : e.comparedWith s = [])
      (h : UsesOtherwise s c) : UsesOtherwise s e

/-- The node itself names the setting. -/
def NamesSetting (s : String) (e : Expr) : Prop :=
  e.HoldsSetting s ∨ ∃ cases d, e = .perSetting s cases d

variable {e : Expr} {s name text : String} {lit : Literal}

@[simp] theorem isSetting_setting (s name : String) :
    (setting name).isSetting s = decide (name = s) := rfl

theorem isSetting_iff : e.isSetting s = true ↔ e = .setting s := by
  cases e <;> simp [isSetting]

theorem toList_optionLiteral? (e : Expr) : e.optionLiteral?.toList = e.scalars := by
  cases e <;> rfl

theorem scalars_of_optionLiteral? (h : e.optionLiteral? = some lit) : e.scalars = [lit] := by
  rw [← toList_optionLiteral?, h, Option.toList_some]

theorem scalars_of_no_optionLiteral (h : e.optionLiteral? = none) : e.scalars = [] := by
  rw [← toList_optionLiteral?, h, Option.toList_none]

theorem isSetting_of_optionLiteral? (h : e.optionLiteral? = some lit) : e.isSetting s = false := by
  cases e with
  | setting name => cases h
  | _ => rfl

/-! ## Comparisons -/

/-- The three forms of a comparison of just a setting with a literal. -/
theorem settingComparison?_cases (h : e.settingComparison? = some (s, lit)) :
    (∃ op other, e = .numCompare (.setting s) op other ∧ other.optionLiteral? = some lit) ∨
    (∃ op other, e = .numCompare other op (.setting s) ∧ other.optionLiteral? = some lit) ∨
    ∃ op, e = .strCompare (.setting s) op lit := by
  unfold settingComparison? at h
  split at h
  · obtain ⟨lit', hlit, heq⟩ := Option.map_eq_some_iff.1 h
    obtain ⟨rfl, rfl⟩ := Prod.mk.inj heq
    exact Or.inl ⟨_, _, rfl, hlit⟩
  · obtain ⟨lit', hlit, heq⟩ := Option.map_eq_some_iff.1 h
    obtain ⟨rfl, rfl⟩ := Prod.mk.inj heq
    exact Or.inr (Or.inl ⟨_, _, rfl, hlit⟩)
  · obtain ⟨rfl, rfl⟩ := Prod.mk.inj (Option.some.inj h)
    exact Or.inr (Or.inr ⟨_, rfl⟩)
  · cases h

theorem comparedWith_of_comparison (h : e.settingComparison? = some (s, lit)) (name : String) :
    e.comparedWith name = if s = name then [lit] else [] := by
  rcases settingComparison?_cases h with ⟨op, other, rfl, hlit⟩ | ⟨op, other, rfl, hlit⟩ | ⟨op, rfl⟩
  · simp [comparedWith, isSetting_of_optionLiteral? hlit, scalars_of_optionLiteral? hlit]
  · simp [comparedWith, isSetting_of_optionLiteral? hlit, scalars_of_optionLiteral? hlit]
  · simp [comparedWith]

theorem comparedWith_of_no_comparison (h : e.settingComparison? = none) (name : String) :
    e.comparedWith name = [] := by
  cases e with
  | numCompare lhs op rhs =>
      have hright : rhs.isSetting name = true → lhs.scalars = [] := by
        intro hrhs
        rw [isSetting_iff.1 hrhs] at h
        refine scalars_of_no_optionLiteral ?_
        cases lhs with
        | setting other => rfl
        | _ => exact (Option.map_eq_none_iff (f := (name, ·))).1 h
      have hleft : lhs.isSetting name = true → rhs.scalars = [] := by
        intro hlhs
        rw [isSetting_iff.1 hlhs] at h
        exact scalars_of_no_optionLiteral ((Option.map_eq_none_iff (f := (name, ·))).1 h)
      simp only [comparedWith]
      split <;> split <;> simp_all
  | strCompare lhs op lit =>
      have hnot : lhs.isSetting name = false := by
        cases lhs with
        | setting other => cases h
        | _ => rfl
      simp [comparedWith, hnot]
  | _ => rfl

/-- Below a direct comparison there are just the setting and the literal. -/
theorem children_of_comparison (h : e.settingComparison? = some (s, lit)) {c : Expr}
    (hc : c ∈ e.children) : c = .setting s ∨ c.literal? = some lit := by
  have hliteral : ∀ {other : Expr}, other.optionLiteral? = some lit →
      other.literal? = some lit := by
    intro other hother
    cases other with
    | place p => cases hother
    | _ => exact hother
  rcases settingComparison?_cases h with ⟨op, other, rfl, hlit⟩ | ⟨op, other, rfl, hlit⟩ | ⟨op, rfl⟩
  · rcases List.mem_cons.1 hc with rfl | hc
    · exact Or.inl rfl
    · exact Or.inr (List.mem_singleton.1 hc ▸ hliteral hlit)
  · rcases List.mem_cons.1 hc with rfl | hc
    · exact Or.inr (hliteral hlit)
    · exact Or.inl (List.mem_singleton.1 hc)
  · exact Or.inl (List.mem_singleton.1 hc)

theorem setting_mem_children (h : e.comparedWith s ≠ []) : Expr.setting s ∈ e.children := by
  cases e with
  | numCompare lhs op rhs =>
      by_cases hlhs : lhs.isSetting s = true
      · simp [children, isSetting_iff.1 hlhs]
      · by_cases hrhs : rhs.isSetting s = true
        · simp [children, isSetting_iff.1 hrhs]
        · simp [comparedWith, hlhs, hrhs] at h
  | strCompare lhs op lit =>
      by_cases hlhs : lhs.isSetting s = true
      · simp [children, isSetting_iff.1 hlhs]
      · simp [comparedWith, hlhs] at h
  | _ => exact absurd rfl h

/-! ## Uses in a node -/

theorem casesOf_of_comparison (h : e.settingComparison? = some (s, lit)) (name : String) :
    e.casesOf name = [] := by
  rcases settingComparison?_cases h with ⟨op, other, rfl, -⟩ | ⟨op, other, rfl, -⟩ | ⟨op, rfl⟩
  all_goals rfl

theorem count_cases (name s text : String) (cases : List (Literal × Expr)) :
    (cases.map fun c => (name, SettingOption.literal c.1.optionName)).count (s, .literal text)
      = if name = s then ((cases.map (·.1)).map Literal.optionName).count text else 0 := by
  by_cases hname : name = s
  · have hpairs : (cases.map fun c => (name, SettingOption.literal c.1.optionName))
        = ((cases.map (·.1)).map Literal.optionName).map fun t => (s, .literal t) := by
      simp [hname]
    have hinj : Function.Injective fun t => (s, SettingOption.literal t) :=
      fun _ _ heq => SettingOption.literal.inj (Prod.mk.inj heq).2
    rw [if_pos hname, hpairs, List.count_map_of_injective _ _ hinj]
  · rw [if_neg hname]
    refine List.count_eq_zero_of_not_mem fun hmem => ?_
    obtain ⟨c, -, heq⟩ := List.mem_map.1 hmem
    exact hname (Prod.mk.inj heq).1

theorem count_settingUses (e : Expr) (s text : String) :
    e.settingUses.count (s, .literal text) = (e.optionTexts s).count text := by
  unfold settingUses optionTexts
  simp only [optionText_eq]
  rcases hcmp : e.settingComparison? with _ | ⟨name, lit⟩
  · rw [comparedWith_of_no_comparison hcmp, List.nil_append]
    cases e with
    | perSetting name cases d =>
        rw [casesOf, apply_ite (List.map Literal.optionName), apply_ite (List.count text)]
        exact count_cases name s text cases
    | refEq r op rhs => cases rhs <;> simp [casesOf]
    | itemAtLeast item t => cases t <;> simp [casesOf]
    | _ => simp [casesOf]
  · rw [comparedWith_of_comparison hcmp, casesOf_of_comparison hcmp, List.append_nil]
    by_cases hname : name = s
    · simp [hname, List.count_singleton]
    · simp [hname]

theorem dynamic_mem_settingUses_iff : (s, .dynamic) ∈ e.settingUses ↔ e.HoldsSetting s := by
  constructor
  · intro h
    unfold settingUses at h
    split at h
    · simp at h
    · split at h
      · simp at h
      · obtain rfl := (Prod.mk.inj (List.mem_singleton.1 h)).1
        exact .value
      · obtain rfl := (Prod.mk.inj (List.mem_singleton.1 h)).1
        exact .flag _
      · obtain rfl := (Prod.mk.inj (List.mem_singleton.1 h)).1
        exact .equated _ _
      · obtain rfl := (Prod.mk.inj (List.mem_singleton.1 h)).1
        exact .threshold _
      · cases h
  · intro h
    cases h <;> exact List.mem_singleton_self _

/-! ## Uses in an expression -/

/-- The walk of the census goes on below a node unless it is a direct comparison. -/
def goesOn (e : Expr) : Bool :=
  e.settingComparison?.isNone

theorem goesOn_eq_false_iff : e.goesOn = false ↔ ∃ s lit, e.settingComparison? = some (s, lit) := by
  rw [goesOn]
  rcases e.settingComparison? with _ | ⟨s, lit⟩ <;> simp

theorem children_of_literal? (h : e.literal? = some lit) : e.children = [] := by
  cases e <;> first | rfl | cases h

theorem not_usesOtherwise_of_literal? (h : e.literal? = some lit) : ¬ e.UsesOtherwise s := by
  rintro (⟨⟨⟩⟩ | ⟨hc, -, -⟩)
  all_goals try cases h
  rw [children_of_literal? h] at hc
  cases hc

/-- No literal that counts stands below a direct comparison. -/
theorem total_optionTexts_below (s text : String) (h : e.goesOn = false) {c : Expr}
    (hc : c ∈ e.children) : c.total (fun n => (n.optionTexts s).count text) = 0 := by
  obtain ⟨name, lit, hcmp⟩ := goesOn_eq_false_iff.1 h
  have hleaf : c.children = [] ∧ c.optionTexts s = [] := by
    rcases children_of_comparison hcmp hc with rfl | hlit
    · exact ⟨rfl, rfl⟩
    · refine ⟨children_of_literal? hlit, ?_⟩
      cases c <;> first | rfl | cases hlit
  rw [total_eq, hleaf.1, hleaf.2]
  rfl

theorem comparedWith_of_goesOn (h : e.goesOn = true) (s : String) : e.comparedWith s = [] :=
  comparedWith_of_no_comparison (Option.isNone_iff_eq_none.1 h) s

/-- The walk comes to a setting that is used otherwise, and to no other. -/
theorem dynamic_mem_walk_iff (h : ∀ m ∈ e.preorder, m.Paired) :
    (s, .dynamic) ∈ (e.walk goesOn).flatMap settingUses ↔ e.UsesOtherwise s := by
  induction e using children_induction with
  | step e ih =>
      have hchild : ∀ c ∈ e.visited,
          ((s, .dynamic) ∈ (c.walk goesOn).flatMap settingUses ↔ c.UsesOtherwise s) :=
        fun c hc => ih c (mem_children_of_mem_visited hc) fun m hm =>
          h m (preorder_subset_of_mem_visited hc hm)
      rw [walk_eq, List.flatMap_cons, List.mem_append, dynamic_mem_settingUses_iff]
      constructor
      · rintro (hholds | hbelow)
        · exact .here hholds
        · split at hbelow
          · rename_i hgoes
            rw [List.flatMap_assoc] at hbelow
            obtain ⟨c, hc, hmem⟩ := List.mem_flatMap.1 hbelow
            exact .inside (mem_children_of_mem_visited hc) (comparedWith_of_goesOn hgoes s)
              ((hchild c hc).1 hmem)
          · cases hbelow
      · intro hother
        cases hother with
        | here hholds => exact Or.inl hholds
        | @inside c _ hc hfree hother =>
            right
            by_cases hgoes : e.goesOn = true
            · have hvisited := (perm_visited (h e e.self_mem_preorder)).mem_iff.2 hc
              rw [if_pos hgoes, List.flatMap_assoc]
              exact List.mem_flatMap.2 ⟨c, hvisited, (hchild c hvisited).2 hother⟩
            · -- a comparison of another setting has nothing of this one below it
              obtain ⟨name, lit, hcmp⟩ := goesOn_eq_false_iff.1 (eq_false_of_ne_true hgoes)
              rw [comparedWith_of_comparison hcmp] at hfree
              rcases children_of_comparison hcmp hc with rfl | hlit
              · rcases hother with ⟨⟨⟩⟩ | ⟨hc', -, -⟩
                · simp at hfree
                · cases hc'
              · exact absurd hother (not_usesOtherwise_of_literal? hlit)

theorem UsesOtherwise.exists_node (h : e.UsesOtherwise s) : ∃ n, Node n e ∧ n.HoldsSetting s := by
  induction h with
  | here hholds => exact ⟨_, .here, hholds⟩
  | inside hc _ _ ih =>
      obtain ⟨n, hn, hholds⟩ := ih
      exact ⟨n, .inside hc hn, hholds⟩

/-- A setting that a node holds is used otherwise, unless it is compared with a literal. -/
theorem usesOtherwise_or_compared {n : Expr} (hn : Node n e) (hholds : n.HoldsSetting s) :
    e.UsesOtherwise s ∨ ∃ m, Node m e ∧ m.comparedWith s ≠ [] := by
  induction hn with
  | here => exact Or.inl (.here hholds)
  | @inside c e hc _ ih =>
      rcases ih with hother | ⟨m, hm, hcompared⟩
      · by_cases hfree : e.comparedWith s = []
        · exact Or.inl (.inside hc hfree hother)
        · exact Or.inr ⟨e, .here, hfree⟩
      · exact Or.inr ⟨m, .inside hc hm, hcompared⟩

theorem optionTexts_ne_nil (h : e.comparedWith s ≠ []) : e.optionTexts s ≠ [] := by
  simp [optionTexts, h]

/-- A node that has texts of options for a setting compares it or chooses by it. -/
theorem compared_or_names_of_optionTexts (h : text ∈ e.optionTexts s) :
    e.comparedWith s ≠ [] ∨ e.NamesSetting s := by
  obtain ⟨lit, hlit, -⟩ := List.mem_map.1 h
  rcases List.mem_append.1 hlit with hlit | hlit
  · exact Or.inl (List.ne_nil_of_mem hlit)
  · unfold casesOf at hlit
    split at hlit
    · split at hlit
      · rename_i hname
        exact Or.inr (Or.inr ⟨_, _, by rw [hname]⟩)
      · cases hlit
    · cases hlit

end Expr

/-! ## Uses in a body -/

namespace Body

variable {b : Body} {s text : String}

/-- The expression is the requirement, or an action of the body holds it. -/
def HasRoot : Body → Expr → Prop
  | .requirement e, root => root = e
  | .actions a, root => ∃ b : Action, b.Part a ∧ root ∈ b.held

/-- A node of the body names the setting. -/
def NamesSetting (s : String) (b : Body) : Prop :=
  ∃ e, b.HasNode e ∧ e.NamesSetting s

/-- A node of the body tells the values of the setting apart by a literal with the text. -/
def HasOption (s text : String) (b : Body) : Prop :=
  ∃ e, b.HasNode e ∧ text ∈ e.optionTexts s

/-- How often a node of the body tells the values of the setting apart by a literal with the
    text. -/
def optionCount (s text : String) (b : Body) : Nat :=
  b.total fun e => (e.optionTexts s).count text

/-- The setting stands in the body other than in a comparison with a literal and other than as the
    subject of a choice. -/
def UsesOtherwise (s : String) (b : Body) : Prop :=
  ∃ e, b.HasRoot e ∧ e.UsesOtherwise s

theorem mem_tops_iff {e : Expr} : e ∈ b.tops ↔ b.HasRoot e := by
  cases b with
  | requirement root => simp [tops, HasRoot]
  | actions a => simp [tops, HasRoot, Action.mem_preorder_iff]

/-- A sum over a body is not zero exactly if a node adds to it. -/
theorem total_pos_iff (f : Expr → Nat) (h : b.Paired) :
    0 < b.total f ↔ ∃ e, b.HasNode e ∧ 0 < f e := by
  rw [← sum_map_reached f h, List.sum_pos_iff_exists_pos_nat]
  simp only [List.mem_map, exists_exists_and_eq_and, mem_reached_iff h]

end Body

/-! ## Uses in a rule -/

namespace Workspace

variable {w : Workspace} {r : Rule} {s text : String}

theorem count_settingUses (h : r.body.misshapen? = none) (s text : String) :
    (settingUses r).count (s, .literal text) = r.body.optionCount s text := by
  have hcut : ∀ e : Expr, e.goesOn = false → ∀ c ∈ e.children,
      c.total (fun n => (n.optionTexts s).count text) = 0 :=
    fun e he c hc => Expr.total_optionTexts_below s text he hc
  have hcounts : List.count (s, .literal text) ∘ Expr.settingUses
      = fun e => (e.optionTexts s).count text := funext fun e => e.count_settingUses s text
  rw [settingUses, List.count_flatMap, hcounts]
  exact Body.sum_map_walk _ hcut (Body.paired_of_shape h)

theorem literal_mem_settingUses_iff (h : r.body.misshapen? = none) :
    (s, .literal text) ∈ settingUses r ↔ r.body.HasOption s text := by
  rw [← List.count_pos_iff, count_settingUses h, Body.optionCount,
    Body.total_pos_iff _ (Body.paired_of_shape h)]
  simp only [List.count_pos_iff, Body.HasOption]

theorem dynamic_mem_settingUses_iff (h : r.body.misshapen? = none) :
    (s, .dynamic) ∈ settingUses r ↔ r.body.UsesOtherwise s := by
  have hpaired := Body.paired_of_shape h
  have hroot : ∀ e ∈ r.body.tops,
      ((s, .dynamic) ∈ (e.walk Expr.goesOn).flatMap Expr.settingUses ↔ e.UsesOtherwise s) :=
    fun e he => Expr.dynamic_mem_walk_iff fun m hm =>
      hpaired m (Body.hasNode_of_mem_reached (Body.mem_reached.2 ⟨e, he, hm⟩))
  show _ ∈ (r.body.roots.flatMap (Expr.walk Expr.goesOn)).flatMap Expr.settingUses ↔ _
  rw [Body.roots_eq, List.flatMap_assoc, List.mem_flatMap]
  constructor
  · rintro ⟨e, he, hmem⟩
    exact ⟨e, Body.mem_tops_iff.1 he, (hroot e he).1 hmem⟩
  · rintro ⟨e, he, hother⟩
    have hmem := Body.mem_tops_iff.2 he
    exact ⟨e, hmem, (hroot e hmem).2 hother⟩

/-- A rule uses the settings that it names. -/
theorem exists_mem_settingUses_iff (h : r.body.misshapen? = none) :
    (∃ option, (s, option) ∈ settingUses r) ↔ r.body.NamesSetting s := by
  constructor
  · rintro ⟨text | _, hmem⟩
    · obtain ⟨e, he, htext⟩ := (literal_mem_settingUses_iff h).1 hmem
      rcases Expr.compared_or_names_of_optionTexts htext with hcompared | hnames
      · exact ⟨_, he.child (Expr.setting_mem_children hcompared), Or.inl .value⟩
      · exact ⟨e, he, hnames⟩
    · obtain ⟨e, he, hother⟩ := (dynamic_mem_settingUses_iff h).1 hmem
      obtain ⟨n, hn, hholds⟩ := hother.exists_node
      exact ⟨n, Body.hasNode_iff.2 ⟨e, Body.mem_tops_iff.2 he, hn⟩, Or.inl hholds⟩
  · have hoption : ∀ m : Expr, r.body.HasNode m → m.optionTexts s ≠ [] →
        ∃ option, (s, option) ∈ settingUses r := by
      intro m hm hne
      obtain ⟨text, htext⟩ := List.exists_mem_of_ne_nil _ hne
      exact ⟨_, (literal_mem_settingUses_iff h).2 ⟨m, hm, htext⟩⟩
    rintro ⟨n, hn, hholds | ⟨cases, d, rfl⟩⟩
    · obtain ⟨e, he, hn⟩ := Body.hasNode_iff.1 hn
      rcases Expr.usesOtherwise_or_compared hn hholds with hother | ⟨m, hm, hcompared⟩
      · exact ⟨_, (dynamic_mem_settingUses_iff h).2 ⟨e, Body.mem_tops_iff.1 he, hother⟩⟩
      · exact hoption m (Body.hasNode_iff.2 ⟨e, he, hm⟩) (Expr.optionTexts_ne_nil hcompared)
    · -- a choice has a case, so its subject does not go unseen
      have hfault := (Body.shapes h).2 _ hn
      refine hoption _ hn ?_
      rcases cases with _ | ⟨c, cases⟩
      · cases hfault
      · simp [Expr.optionTexts, Expr.casesOf, Expr.comparedWith]

end Workspace

/-! ## The census -/

namespace SettingOptions

variable {o : SettingOptions} {x y : SettingOption}

theorem literal_mem_toList {text : String} :
    .literal text ∈ o.toList ↔ text ∈ NameSet.toList o.literals := by
  unfold toList
  split <;> simp

theorem dynamic_mem_toList : .dynamic ∈ o.toList ↔ o.dynamic = true := by
  unfold toList
  split <;> simp_all

theorem mem_toList_add : x ∈ (o.add y).toList ↔ x = y ∨ x ∈ o.toList := by
  rcases x with text | _ <;> rcases y with name | _
  · rw [literal_mem_toList, literal_mem_toList, add, NameSet.mem_toList_add]
    simp
  · rw [literal_mem_toList, literal_mem_toList, add]
    simp
  · rw [dynamic_mem_toList, dynamic_mem_toList, add]
    simp
  · rw [dynamic_mem_toList, add]
    simp

theorem nodup_toList (o : SettingOptions) : o.toList.Nodup := by
  have hliterals : ((NameSet.toList o.literals).map SettingOption.literal).Nodup :=
    (NameSet.nodup_toList _).map fun _ _ => SettingOption.literal.inj
  unfold toList
  split
  · refine hliterals.append (List.nodup_singleton _) (List.disjoint_singleton.2 ?_)
    simp
  · rwa [List.append_nil]

end SettingOptions

namespace SettingCensus

/-- A use of a setting together with the setting. -/
def recordUse (c : SettingCensus) (use : String × SettingOption) : SettingCensus :=
  c.alter use.1 fun o => (o.getD {}).add use.2

/-- The options that are seen for a setting. -/
def options (c : SettingCensus) (s : String) : List SettingOption :=
  ((c.find? s).getD {}).toList

theorem mem_options_foldl (c : SettingCensus) (uses : List (String × SettingOption)) {s : String}
    {option : SettingOption} :
    option ∈ (options (uses.foldl recordUse c) s) ↔ (s, option) ∈ uses ∨ option ∈ c.options s := by
  induction uses generalizing c with
  | nil => simp
  | cons use uses ih =>
      have hstep : option ∈ (c.recordUse use).options s ↔
          (s, option) = use ∨ option ∈ c.options s := by
        unfold options recordUse
        rw [NameMap.find?_alter]
        by_cases hs : s = use.1
        · rw [if_pos hs, Option.getD_some, SettingOptions.mem_toList_add, hs, Prod.ext_iff]
          simp
        · rw [if_neg hs, Prod.ext_iff]
          simp [hs]
      rw [List.foldl_cons, ih, hstep, List.mem_cons, or_left_comm, or_assoc]

theorem contains_foldl (c : SettingCensus) (uses : List (String × SettingOption)) {s : String} :
    (uses.foldl recordUse c).contains s = true ↔
      (∃ option, (s, option) ∈ uses) ∨ c.contains s = true := by
  induction uses generalizing c with
  | nil => simp
  | cons use uses ih =>
      have hstep : (c.recordUse use).contains s = true ↔ s = use.1 ∨ c.contains s = true := by
        unfold NameMap.contains recordUse
        rw [NameMap.find?_alter]
        split <;> simp_all
      have hcons : (∃ option, (s, option) ∈ use :: uses) ↔
          s = use.1 ∨ ∃ option, (s, option) ∈ uses := by
        constructor
        · rintro ⟨option, hmem⟩
          rcases List.mem_cons.1 hmem with rfl | hmem
          · exact Or.inl rfl
          · exact Or.inr ⟨option, hmem⟩
        · rintro (rfl | ⟨option, hmem⟩)
          · exact ⟨use.2, List.mem_cons_self ..⟩
          · exact ⟨option, List.mem_cons_of_mem _ hmem⟩
      rw [List.foldl_cons, ih, hstep, hcons, or_left_comm, or_assoc]

end SettingCensus

namespace Workspace

variable {w : Workspace} {r : Rule} {s text : String}

theorem census_accumulate (w : Workspace) (r : Rule) (state : SettingState)
    (uses : List (String × SettingOption)) :
    (accumulate (w.recordSetting r) state uses).1.census
      = (uses.filter fun use => w.catalog.settings.contains use.1).foldl SettingCensus.recordUse
          state.census := by
  induction uses generalizing state with
  | nil => rfl
  | cons use uses ih =>
      show (accumulate _ (w.recordSetting r state use).1 uses).1.census = _
      rw [ih, List.filter_cons]
      rcases hdecl : w.catalog.settings.find? use.1 with _ | decl
      · simp only [recordSetting, hdecl, NameMap.contains, Option.isSome_none]
        split <;> rfl
      · simp only [recordSetting, hdecl, NameMap.contains, Option.isSome_some]
        rfl

/-- The census is taken of all uses of declared settings, rule by rule. -/
theorem surveySettings_fst (w : Workspace) :
    w.surveySettings.1 = ((w.corpus.rules.values.flatMap settingUses).filter fun use =>
      w.catalog.settings.contains use.1).foldl SettingCensus.recordUse ∅ := by
  rw [List.filter_flatMap]
  exact accumulate_fst_foldl (fun c r => w.census_accumulate r { census := c } (settingUses r)) ∅
    w.corpus.rules.values

theorem mem_options_iff (hdecl : w.catalog.settings.contains s = true) {option : SettingOption} :
    option ∈ w.surveySettings.1.options s ↔
      ∃ r ∈ w.corpus.rules.values, (s, option) ∈ settingUses r := by
  have hempty : option ∉ SettingCensus.options ∅ s := List.not_mem_nil
  rw [surveySettings_fst, SettingCensus.mem_options_foldl]
  simp [hempty, List.mem_filter, hdecl]

theorem contains_surveySettings_iff :
    w.surveySettings.1.contains s = true ↔ w.catalog.settings.contains s = true ∧
      ∃ r ∈ w.corpus.rules.values, ∃ option, (s, option) ∈ settingUses r := by
  have hempty : (∅ : SettingCensus).contains s = false := rfl
  rw [surveySettings_fst, SettingCensus.contains_foldl, hempty]
  simp only [List.mem_filter, List.mem_flatMap, Bool.false_eq_true, or_false]
  constructor
  · rintro ⟨option, ⟨r, hr, hmem⟩, hdecl⟩
    exact ⟨hdecl, r, hr, option, hmem⟩
  · rintro ⟨hdecl, r, hr, option, hmem⟩
    exact ⟨option, ⟨r, hr, hmem⟩, hdecl⟩

/-! ## What is reported -/

/-- What is said about a use of a setting does not depend on the census so far. -/
theorem accumulate_recordSetting_snd (w : Workspace) (r : Rule) (c c' : SettingCensus)
    (unknown : List String) (uses : List (String × SettingOption)) :
    (accumulate (w.recordSetting r) ⟨c, unknown⟩ uses).2
      = (accumulate (w.recordSetting r) ⟨c', unknown⟩ uses).2 := by
  induction uses generalizing c c' unknown with
  | nil => rfl
  | cons use uses ih =>
      show (w.recordSetting r ⟨c, unknown⟩ use).2 ++ (accumulate _ _ uses).2
        = (w.recordSetting r ⟨c', unknown⟩ use).2 ++ (accumulate _ _ uses).2
      rcases hdecl : w.catalog.settings.find? use.1 with _ | decl
      · simp only [recordSetting, hdecl]
        by_cases hseen : unknown.contains use.1 = true
        · rw [if_pos hseen, if_pos hseen]
          exact ih c c' unknown
        · rw [if_neg hseen, if_neg hseen]
          exact congrArg _ (ih c c' _)
      · simp only [recordSetting, hdecl]
        exact congrArg _ (ih _ _ unknown)

/-- The problem is that a setting is not declared, or that it declares options and a value is not
    among them. -/
inductive SettingFault (catalog : Catalog) : Problem → Prop
  | undeclared {s : String} (hnone : catalog.settings.find? s = none) :
      SettingFault catalog (.unknownSetting s)
  | notAnOption {s text : String} {decl : SettingDecl} {opts : List String}
      (hdecl : catalog.settings.find? s = some decl) (hopts : decl.options = some opts)
      (htext : text ∉ opts) : SettingFault catalog (.unknownOption s text opts)

theorem SettingFault.severity {catalog : Catalog} {p : Problem} (h : SettingFault catalog p) :
    p.severity = .error := by
  cases h <;> rfl

theorem settingFault_of_optionProblem? {decl : SettingDecl} {option : SettingOption} {p : Problem}
    (hdecl : w.catalog.settings.find? s = some decl) (hp : optionProblem? s decl option = some p) :
    SettingFault w.catalog p ∧ ∃ text opts, p = .unknownOption s text opts := by
  unfold optionProblem? at hp
  split at hp
  · obtain ⟨opts, hopts, hp⟩ := Option.bind_eq_some_iff.1 hp
    split at hp
    · cases hp
    · rename_i hvalue
      obtain rfl := Option.some.inj hp
      exact ⟨.notAnOption hdecl hopts fun hmem => hvalue (List.contains_iff_mem.2 hmem), _, _, rfl⟩
  · cases hp

theorem fault_of_mem_recordSetting {state : SettingState} {use : String × SettingOption}
    {d : Diagnostic} (hd : d ∈ Event.diagnostics (w.recordSetting r state use).2) :
    d.rule = r.name ∧ SettingFault w.catalog d.problem := by
  rcases hdecl : w.catalog.settings.find? use.1 with _ | decl
  · simp only [recordSetting, hdecl] at hd
    split at hd
    · cases hd
    · rw [List.mem_singleton.1 hd]
      exact ⟨rfl, .undeclared hdecl⟩
  · simp only [recordSetting, hdecl, Event.diagnostics_problems] at hd
    obtain ⟨p, hp, rfl⟩ := List.mem_map.1 hd
    exact ⟨rfl, (settingFault_of_optionProblem? hdecl (Option.mem_toList.1 hp)).1⟩

theorem fault_of_mem_accumulate {state : SettingState} {uses : List (String × SettingOption)}
    {d : Diagnostic} (hd : d ∈ Event.diagnostics (accumulate (w.recordSetting r) state uses).2) :
    d.rule = r.name ∧ SettingFault w.catalog d.problem := by
  induction uses generalizing state with
  | nil => cases hd
  | cons use uses ih =>
      have hd : d ∈ Event.diagnostics ((w.recordSetting r state use).2
          ++ (accumulate (w.recordSetting r) (w.recordSetting r state use).1 uses).2) := hd
      rw [Event.diagnostics_append] at hd
      rcases List.mem_append.1 hd with hd | hd
      · exact fault_of_mem_recordSetting hd
      · exact ih hd

/-- What is said about the settings in a rule. -/
def settingProblems (w : Workspace) (r : Rule) : List Problem :=
  (Event.diagnostics (w.surveyRule ∅ r).2).map (·.problem)

theorem diagnostics_surveyRule (w : Workspace) (c : SettingCensus) (r : Rule) :
    Event.diagnostics (w.surveyRule c r).2
      = (w.settingProblems r).map (Diagnostic.mk r.name) := by
  have hevents : (w.surveyRule c r).2 = (w.surveyRule ∅ r).2 :=
    w.accumulate_recordSetting_snd r c ∅ [] (settingUses r)
  rw [hevents, settingProblems, List.map_map]
  refine (List.map_id'' (fun d => rfl) _).symm.trans (List.map_congr_left fun d hd => ?_)
  rw [Function.comp, ← (fault_of_mem_accumulate hd).1]

/-- A compilation says of settings what the census says of each rule. -/
theorem diagnostics_surveySettings (w : Workspace) :
    Event.diagnostics w.surveySettings.2 = w.corpus.diagnosed w.settingProblems := by
  have hevents : Event.diagnostics w.surveySettings.2
      = Event.diagnostics (accumulate w.surveyRule ∅ w.corpus.rules.values).2 := by
    show Event.diagnostics (_ ++ [_]) = _
    rw [Event.diagnostics_append, Event.diagnostics_debug, Event.diagnostics_nil, List.append_nil]
  rw [hevents]
  exact accumulate_snd_part Event.diagnostics_append w.diagnostics_surveyRule ∅ _

theorem count_settingProblems (w : Workspace) (r : Rule) (p : Problem) :
    (w.settingProblems r).count p
      = (Event.diagnostics (accumulate (w.recordSetting r) { census := ∅ } (settingUses r)).2).count
          ⟨r.name, p⟩ := by
  have hinj : Function.Injective (Diagnostic.mk r.name) := fun _ _ heq => (Diagnostic.mk.inj heq).2
  rw [← List.count_map_of_injective _ _ hinj, ← w.diagnostics_surveyRule ∅ r]
  rfl

theorem count_unknownOption_step {decl : SettingDecl} {opts : List String} (state : SettingState)
    (hdecl : w.catalog.settings.find? s = some decl) (hopts : decl.options = some opts)
    (use : String × SettingOption) :
    (Event.diagnostics (w.recordSetting r state use).2).count ⟨r.name, .unknownOption s text opts⟩
      = if use = (s, .literal text) ∧ text ∉ opts then 1 else 0 := by
  obtain ⟨name, option⟩ := use
  rcases hname : w.catalog.settings.find? name with _ | decl'
  · have hne : name ≠ s := by
      rintro rfl
      rw [hname] at hdecl
      cases hdecl
    simp only [recordSetting, hname]
    split <;> simp [hne]
  · simp only [recordSetting, hname, Event.diagnostics_problems]
    by_cases hs : name = s
    · subst hs
      obtain rfl := Option.some.inj (hname.symm.trans hdecl)
      rcases option with value | _
      · by_cases hvalue : value ∈ opts
        · have hcount : ¬ (value = text ∧ text ∉ opts) := fun h => h.2 (h.1 ▸ hvalue)
          simp [optionProblem?, hopts, hvalue, hcount]
        · by_cases htext : value = text
          · subst htext
            simp [optionProblem?, hopts, hvalue]
          · simp [optionProblem?, hopts, hvalue, htext]
      · simp [optionProblem?]
    · have hnot : ¬ ((name, option) = (s, .literal text) ∧ text ∉ opts) :=
        fun h => hs (Prod.mk.inj h.1).1
      rw [if_neg hnot]
      refine List.count_eq_zero_of_not_mem fun hmem => ?_
      obtain ⟨p, hp, heq⟩ := List.mem_map.1 hmem
      obtain rfl := (Diagnostic.mk.inj heq).2
      obtain ⟨-, _, _, hproblem⟩ :=
        settingFault_of_optionProblem? hname (Option.mem_toList.1 hp)
      exact hs (Problem.unknownOption.inj hproblem).1.symm

/-- Every use with a value that is not an option is reported. -/
theorem count_unknownOption {decl : SettingDecl} {opts : List String} (state : SettingState)
    (hdecl : w.catalog.settings.find? s = some decl) (hopts : decl.options = some opts)
    (uses : List (String × SettingOption)) :
    (Event.diagnostics (accumulate (w.recordSetting r) state uses).2).count
        ⟨r.name, .unknownOption s text opts⟩
      = if text ∈ opts then 0 else uses.count (s, .literal text) := by
  induction uses generalizing state with
  | nil => simp [accumulate]
  | cons use uses ih =>
      show (Event.diagnostics ((w.recordSetting r state use).2
        ++ (accumulate _ (w.recordSetting r state use).1 uses).2)).count _ = _
      rw [Event.diagnostics_append, List.count_append, count_unknownOption_step state hdecl hopts,
        ih, List.count_cons]
      by_cases htext : text ∈ opts
      · simp [htext]
      · by_cases huse : use = (s, .literal text)
        · simp [htext, huse, Nat.add_comm]
        · simp [htext, huse]

theorem recordSetting_of_undeclared (state : SettingState) {use : String × SettingOption}
    (h : w.catalog.settings.find? use.1 = none) :
    w.recordSetting r state use = if use.1 ∈ state.unknown then (state, [])
      else ({ state with unknown := state.unknown ++ [use.1] },
        [.problem r.name (.unknownSetting use.1)]) := by
  simp only [recordSetting, h, List.contains_iff_mem]

theorem recordSetting_of_declared (state : SettingState) {use : String × SettingOption}
    {decl : SettingDecl} (h : w.catalog.settings.find? use.1 = some decl) :
    (w.recordSetting r state use).1.unknown = state.unknown ∧
      ⟨r.name, .unknownSetting s⟩ ∉ Event.diagnostics (w.recordSetting r state use).2 := by
  simp only [recordSetting, h, Event.diagnostics_problems]
  refine ⟨trivial, fun hmem => ?_⟩
  obtain ⟨p, hp, heq⟩ := List.mem_map.1 hmem
  obtain rfl := (Diagnostic.mk.inj heq).2
  obtain ⟨-, _, _, hproblem⟩ := settingFault_of_optionProblem? h (Option.mem_toList.1 hp)
  cases hproblem

/-- A setting that is not declared is reported at its first use. -/
theorem count_unknownSetting (state : SettingState) (uses : List (String × SettingOption)) :
    (Event.diagnostics (accumulate (w.recordSetting r) state uses).2).count
        ⟨r.name, .unknownSetting s⟩
      = if w.catalog.settings.find? s = none ∧ s ∉ state.unknown ∧ s ∈ uses.map (·.1)
        then 1 else 0 := by
  induction uses generalizing state with
  | nil => simp [accumulate]
  | cons use uses ih =>
      show (Event.diagnostics ((w.recordSetting r state use).2
        ++ (accumulate _ (w.recordSetting r state use).1 uses).2)).count _ = _
      rw [Event.diagnostics_append, List.count_append, ih, List.map_cons]
      rcases huse : w.catalog.settings.find? use.1 with _ | decl
      · rw [recordSetting_of_undeclared state huse]
        by_cases hseen : use.1 ∈ state.unknown
        · have hiff : (s ∉ state.unknown ∧ s ∈ uses.map (·.1)) ↔
              (s ∉ state.unknown ∧ s ∈ use.1 :: uses.map (·.1)) := by
            rw [List.mem_cons]
            refine and_congr_right fun hnot => (or_iff_right ?_).symm
            rintro rfl
            exact hnot hseen
          simp only [if_pos hseen, hiff, Event.diagnostics_nil, List.count_nil, Nat.zero_add]
        · rw [if_neg hseen]
          by_cases hs : use.1 = s
          · subst hs
            simp [huse, hseen]
          · have hiff : (s ∉ state.unknown ++ [use.1] ∧ s ∈ uses.map (·.1)) ↔
                (s ∉ state.unknown ∧ s ∈ use.1 :: uses.map (·.1)) := by
              simp [Ne.symm hs]
            have hother : ⟨r.name, .unknownSetting s⟩ ∉ Event.diagnostics
                [.problem r.name (.unknownSetting use.1)] := by
              simp [Ne.symm hs]
            rw [List.count_eq_zero_of_not_mem hother, Nat.zero_add]
            exact if_congr (and_congr_right fun _ => hiff) rfl rfl
      · have hne : w.catalog.settings.find? s = none → s ≠ use.1 := by
          rintro hnone rfl
          rw [huse] at hnone
          cases hnone
        obtain ⟨hunknown, hsilent⟩ := recordSetting_of_declared (r := r) (s := s) state huse
        rw [hunknown, List.count_eq_zero_of_not_mem hsilent, Nat.zero_add]
        refine if_congr (and_congr_right fun hnone => and_congr_right fun _ => ?_) rfl rfl
        rw [List.mem_cons, or_iff_right (hne hnone)]

/-- The diagnostics of a compilation about settings are those of the census. -/
theorem count_compile_of_kind (o : CompileOptions)
    (hshape : ∀ r ∈ w.corpus.rules.values, r.body.misshapen? = none) {d : Diagnostic}
    (hkind : d.problem.kind = .unknownSetting ∨ d.problem.kind = .unknownOption) :
    (Event.diagnostics (w.compile o).events).count d
      = (w.corpus.diagnosed w.settingProblems).count d := by
  rw [← diagnostics_surveySettings]
  rcases hkind with hkind | hkind
  · exact count_compile_of_pass hshape (by rw [hkind]; rfl)
  · exact count_compile_of_pass hshape (by rw [hkind]; rfl)

end Workspace

/-- For a declared setting the census has exactly the texts of the literals that some rule tells its
    values apart by, and the mark for other uses if it stands anywhere else. Every occurrence of a
    literal that is not among the options of the setting is an error of its rule, and a setting that
    is not declared is one error for each rule that names it. There are no other such errors. -/
theorem setting_census_exact {w : Workspace} (o : CompileOptions) (hbuilt : w.corpus.Built)
    (hshape : ∀ r ∈ w.corpus.rules.values, r.body.misshapen? = none) (s : String) :
    (w.surveySettings.1.contains s = true ↔ w.catalog.settings.contains s = true ∧
      ∃ r ∈ w.corpus.rules.values, r.body.NamesSetting s) ∧
    (w.catalog.settings.contains s = true → (w.surveySettings.1.options s).Nodup ∧
      (∀ text, .literal text ∈ w.surveySettings.1.options s ↔
        ∃ r ∈ w.corpus.rules.values, r.body.HasOption s text) ∧
      (.dynamic ∈ w.surveySettings.1.options s ↔
        ∃ r ∈ w.corpus.rules.values, r.body.UsesOtherwise s)) ∧
    (∀ r ∈ w.corpus.rules.values, ∀ decl opts, w.catalog.settings.find? s = some decl →
      decl.options = some opts → ∀ text,
        (Event.diagnostics (w.compile o).events).count ⟨r.name, .unknownOption s text opts⟩
          = if text ∈ opts then 0 else r.body.optionCount s text) ∧
    (∀ r ∈ w.corpus.rules.values,
      OnceIf ((Event.diagnostics (w.compile o).events).count ⟨r.name, .unknownSetting s⟩)
        (r.body.NamesSetting s ∧ w.catalog.settings.contains s = false)) ∧
    ∀ d ∈ Event.diagnostics (w.compile o).events,
      d.problem.kind = .unknownSetting ∨ d.problem.kind = .unknownOption →
      d.severity = .error ∧ Workspace.SettingFault w.catalog d.problem ∧
        ∃ r ∈ w.corpus.rules.values, d.rule = r.name := by
  refine ⟨?_, fun hdecl => ⟨SettingOptions.nodup_toList _, fun text => ?_, ?_⟩, ?_, ?_, ?_⟩
  · rw [Workspace.contains_surveySettings_iff]
    refine and_congr_right fun _ => exists_congr fun r => and_congr_right fun hr => ?_
    exact Workspace.exists_mem_settingUses_iff (hshape r hr)
  · rw [Workspace.mem_options_iff hdecl]
    refine exists_congr fun r => and_congr_right fun hr => ?_
    exact Workspace.literal_mem_settingUses_iff (hshape r hr)
  · rw [Workspace.mem_options_iff hdecl]
    refine exists_congr fun r => and_congr_right fun hr => ?_
    exact Workspace.dynamic_mem_settingUses_iff (hshape r hr)
  · intro r hr decl opts hdecl hopts text
    rw [Workspace.count_compile_of_kind o hshape (Or.inr rfl), hbuilt.count_diagnosed hr,
      Workspace.count_settingProblems, Workspace.count_unknownOption _ hdecl hopts,
      Workspace.count_settingUses (hshape r hr)]
  · intro r hr
    have hnames : s ∈ (Workspace.settingUses r).map (·.1) ↔ r.body.NamesSetting s := by
      rw [← Workspace.exists_mem_settingUses_iff (hshape r hr)]
      simp
    rw [Workspace.count_compile_of_kind o hshape (Or.inl rfl), hbuilt.count_diagnosed hr,
      Workspace.count_settingProblems, Workspace.count_unknownSetting,
      NameMap.contains_eq_false_iff]
    refine ⟨fun h => if_pos ⟨h.2, List.not_mem_nil, hnames.2 h.1⟩, fun h => if_neg fun h' => ?_⟩
    exact h ⟨hnames.1 h'.2.2, h'.1⟩
  · intro d hd hkind
    have hcount := List.count_pos_iff.2 hd
    rw [Workspace.count_compile_of_kind o hshape hkind, List.count_pos_iff] at hcount
    obtain ⟨r, hr, hd⟩ := List.mem_flatMap.1 hcount
    rw [← w.diagnostics_surveyRule ∅ r] at hd
    obtain ⟨hrule, hfault⟩ := Workspace.fault_of_mem_accumulate hd
    exact ⟨hfault.severity, hfault, r, hr, hrule⟩

/-- A rule that asks twice for a value that `logic` does not have, and for a setting that is not
    declared. -/
def logicRule : Rule where
  name := "rules:cave"
  body := .requirement (.and (.strCompare (.setting "logic") .eq (.str "expert"))
    (.perSetting "logic" [(.str "expert", .bool true)] (.settingFlag "nope" false)))

def difficulty : Workspace where
  catalog := { settings := .ofList [("logic", { type := .str, options := some ["casual"] })] }
  corpus := { rules := .ofList [("rules:cave", logicRule)] }

theorem difficulty_built : difficulty.corpus.Built :=
  .rule (r := logicRule) .empty rfl

theorem difficulty_shape : ∀ r ∈ difficulty.corpus.rules.values, r.body.misshapen? = none :=
  List.forall_mem_singleton.2 rfl

theorem difficulty_surveyed :
    difficulty.corpus.Built ∧ (∀ r ∈ difficulty.corpus.rules.values, r.body.misshapen? = none) ∧
      difficulty.surveySettings.1.options "logic" = [.literal "expert"] ∧
      ¬ logicRule.body.UsesOtherwise "logic" ∧
      (Event.diagnostics (difficulty.compile {}).events).count
        ⟨"rules:cave", .unknownOption "logic" "expert" ["casual"]⟩ = 2 ∧
      (Event.diagnostics (difficulty.compile {}).events).count
        ⟨"rules:cave", .unknownSetting "nope"⟩ = 1 := by
  have hrule : logicRule ∈ difficulty.corpus.rules.values := List.mem_cons_self ..
  obtain ⟨-, hoptions, hunknown, -, -⟩ :=
    setting_census_exact {} difficulty_built difficulty_shape "logic"
  obtain ⟨-, -, -, hundeclared, -⟩ :=
    setting_census_exact {} difficulty_built difficulty_shape "nope"
  have hlogic : difficulty.surveySettings.1.options "logic" = [.literal "expert"] := rfl
  have hcount : logicRule.body.optionCount "logic" "expert" = 2 := by
    rw [Body.optionCount,
      ← Body.sum_map_reached _ (Body.paired_of_shape (difficulty_shape _ hrule)), ← Body.nodes_eq]
    rfl
  refine ⟨difficulty_built, difficulty_shape, hlogic, fun hother => ?_, ?_, ?_⟩
  · have hmem := (hoptions rfl).2.2.2 ⟨logicRule, hrule, hother⟩
    rw [hlogic] at hmem
    cases List.mem_singleton.1 hmem
  · rw [← hcount]
    exact hunknown logicRule hrule _ _ rfl rfl "expert"
  · have hnode : logicRule.body.HasNode (.settingFlag "nope" false) :=
      .inside (List.mem_cons_of_mem _ (List.mem_cons_self ..))
        (.inside (List.mem_cons_of_mem _ (List.mem_cons_self ..)) .here)
    exact (hundeclared logicRule hrule).1 ⟨⟨_, hnode, Or.inl (.flag false)⟩, rfl⟩

end AccessRules
