import AccessRules.Proofs.Expr.Children
import AccessRules.Proofs.Expr.OutlineParts

set_option autoImplicit false

/-! # Outlines of expressions are told apart

An outline shows of which expression it is and where it ends, before whatever may follow it:
`Expr.shown_outline`. The kind of a node is told by how its outline starts, `Expr.opening`; its
parts are then read one after the other, each of them showing where it ends. -/

namespace AccessRules

namespace Expr

/-- The names, places and literals of the node are well formed, and every condition of a chain has
    a branch. -/
def Presentable : Expr → Prop
  | .invoke func _ _ => IsName func
  | .ifThenElse conds branches _ => conds ≠ [] ∧ conds.length = branches.length
  | .strCompare _ _ lit => lit.WellFormed
  | .refEq r _ rhs => r.WellFormed ∧ rhs.WellFormed
  | .refEqCall r _ e => r.WellFormed ∧ ∃ func args, e = .invoke func args false
  | .settingFlag name _ => IsName name
  | .argFlag r _ => r.WellFormed
  | .itemAtLeast item t => IsName item ∧ t.WellFormed
  | .hasItem item => IsName item
  | .hasArgItem r => r.WellFormed
  | .refInSet r ms => r.WellFormed ∧ ms.WellFormed
  | .within p _ => p.WellFormed
  | .perItem item _ _ => IsName item
  | .perSetting name cases _ => IsName name ∧ ∀ c ∈ cases, c.1.WellFormed
  | .place path => IsPath path
  | .ref r => r.WellFormed
  | .setting name => IsName name
  | .const name => IsName name
  | .call func _ => IsName func
  | .items names => ∀ name ∈ names, IsName name
  | _ => True

/-- All nodes are presentable. -/
def Legible (e : Expr) : Prop :=
  e.Every Presentable

theorem Legible.child {e c : Expr} (h : e.Legible) (hc : c ∈ e.children) : c.Legible :=
  Every.child h hc

/-- The outline of the expression shows where it ends. -/
def Told (e : Expr) : Prop :=
  Shown Legible (fun e => e.outline.toList) e

/-- What the outline of the expression starts with. -/
def opening : Expr → Opening
  | .or _ _ => .or
  | .and _ _ => .and
  | .not _ => .not
  | .bool _ => .bool
  | .paren _ => .paren
  | .invoke _ _ _ => .invoke
  | .ifThenElse _ _ _ => .chain
  | .ternary _ _ _ => .ternary
  | .numCompare _ _ _ => .numCompare
  | .strCompare _ _ _ => .strCompare
  | .flagMatch _ _ => .flagMatch
  | .refEq _ _ _ => .refEq
  | .refEqCall _ _ _ => .refEq
  | .settingFlag _ _ => .flag
  | .argFlag _ _ => .arg
  | .itemAtLeast _ _ => .item
  | .hasItem _ => .item
  | .hasLiteralItem _ => .item
  | .hasArgItem _ => .itemArg
  | .refInSet _ _ => .member
  | .within _ _ => .within
  | .perItem _ _ _ => .perItem
  | .perSetting _ _ _ => .perSetting
  | .int _ => .number
  | .float _ => .number
  | .str _ => .str
  | .place _ => .place
  | .ref _ => .ref
  | .setting _ => .setting
  | .const _ => .const
  | .binOp _ _ _ => .binOp
  | .call _ _ => .call
  | .items _ => .items

end Expr

theorem outlineAll_eq_map (es : List Expr) : outlineAll es = es.map Expr.outline := by
  induction es with
  | nil => rfl
  | cons e es ih => rw [outlineAll, ih, List.map_cons]

theorem outlineCounts_eq_map (cases : List (Int64 × Expr)) :
    outlineCounts cases = cases.map fun c => wordText c.1 ++ " => " ++ c.2.outline := by
  induction cases with
  | nil => rfl
  | cons c cases ih => rw [outlineCounts, ih, List.map_cons]

theorem outlineOptions_eq_map (cases : List (Literal × Expr)) :
    outlineOptions cases = cases.map fun c => c.1.text ++ " => " ++ c.2.outline := by
  induction cases with
  | nil => rfl
  | cons c cases ih => rw [outlineOptions, ih, List.map_cons]

/-! ## Chains of conditions -/

theorem zip_ne_nil {α β : Type} {xs : List α} {ys : List β} (hne : xs ≠ [])
    (hlength : xs.length = ys.length) : xs.zip ys ≠ [] := by
  rw [Ne, List.zip_eq_nil_iff]
  rintro (hnil | rfl)
  · exact hne hnil
  · exact hne (List.length_eq_zero_iff.1 hlength)

theorem zip_injective {α β : Type} {xs xs' : List α} {ys ys' : List β}
    (hlength : xs.length = ys.length) (hlength' : xs'.length = ys'.length)
    (h : xs.zip ys = xs'.zip ys') : xs = xs' ∧ ys = ys' := by
  constructor
  · rw [← List.map_fst_zip hlength.le, h, List.map_fst_zip hlength'.le]
  · rw [← List.map_snd_zip hlength.ge, h, List.map_snd_zip hlength'.ge]

section Chains

variable {β : Type} (g : β → String)

/-- A condition and its branch. -/
def armText (arm : Expr × β) : List Char :=
  "IF(".toList ++ (arm.1.outline.toList ++ (")THEN\x7b".toList ++ ((g arm.2).toList ++ ['\x7d'])))

/-- What follows the last condition and its branch. -/
def elseText : Option β → List Char
  | none => []
  | some b => "ELSE\x7b".toList ++ ((g b).toList ++ ['\x7d'])

theorem elseText_none : elseText g none = [] :=
  rfl

theorem elseText_some (b : β) :
    elseText g (some b) = "ELSE\x7b".toList ++ ((g b).toList ++ ['\x7d']) :=
  rfl

theorem toList_outlineChain (conds : List Expr) (branches : List β) :
    (outlineChain (conds.map Expr.outline) (branches.map g)).toList
      = "ELSE ".toList.intercalate ((conds.zip branches).map (armText g)) := by
  simp [outlineChain, String.toList_intercalate, List.zipWith_map, List.map_zipWith, List.zip,
    armText, braced]

/-- A chain starts with its first condition. -/
theorem chain_eq_if {arms : List (Expr × β)} (hne : arms ≠ []) :
    ∃ t, "ELSE ".toList.intercalate (arms.map (armText g)) = "IF(".toList ++ t := by
  obtain ⟨arm, arms, rfl⟩ := List.exists_cons_of_ne_nil hne
  obtain ⟨t, ht⟩ := intercalate_cons_eq "ELSE ".toList (armText g arm) (arms.map (armText g))
  rw [List.map_cons, ht, armText, List.append_assoc]
  exact ⟨_, rfl⟩

variable {g} {Q : β → Prop} {arms arms' : List (Expr × β)} {o o' : Option β} {r s : List Char}

theorem shown_arm {c : Expr} {b : β} (hc : c.Told) (hb : Shown Q (fun b => (g b).toList) b) :
    ShownBefore (fun _ => True) (fun arm => arm.1.Legible ∧ Q arm.2) (armText g) (c, b) := by
  rintro ⟨c', b'⟩ r s ⟨hc', hb'⟩ - - h
  simp only [armText, List.append_assoc] at h
  obtain ⟨rfl, hbranch⟩ := hc hc' rfl rfl (List.append_cancel_left h)
  obtain ⟨rfl, hrest⟩ := hb hb' rfl rfl (List.append_cancel_left hbranch)
  exact ⟨rfl, (List.cons.inj hrest).2⟩

theorem shown_else (ho : ∀ b ∈ o, Shown Q (fun b => (g b).toList) b) :
    Shown (fun o => ∀ b ∈ o, Q b) (elseText g) o := by
  intro o' r s ho' hr hs h
  cases o with
  | none =>
      cases o' with
      | none => exact ⟨rfl, h⟩
      | some b' => exact absurd h (ends_ne_cons hr rfl _)
  | some b =>
      cases o' with
      | none => exact absurd h.symm (ends_ne_cons hs rfl _)
      | some b' =>
          simp only [elseText_some, List.append_assoc] at h
          obtain ⟨rfl, hrest⟩ := ho b rfl (ho' b' rfl) rfl rfl (List.append_cancel_left h)
          exact ⟨rfl, (List.cons.inj hrest).2⟩

theorem else_ne_arm (hr : ends r = true) (t : List Char) :
    elseText g o ++ r ≠ "ELSE ".toList ++ t := by
  cases o with
  | none => exact ends_ne_cons hr rfl _
  | some b => simp [elseText_some]

/-- A chain of conditions shows its arms and its last branch. -/
theorem chain_append_inj (hconds : ∀ a ∈ arms, a.1.Told)
    (hbranches : ∀ a ∈ arms, Shown Q (fun b => (g b).toList) a.2)
    (ho : ∀ b ∈ o, Shown Q (fun b => (g b).toList) b)
    (harms' : ∀ a ∈ arms', a.1.Legible ∧ Q a.2) (ho' : ∀ b ∈ o', Q b) (hne : arms ≠ [])
    (hne' : arms' ≠ []) (hr : ends r = true) (hs : ends s = true)
    (h : "ELSE ".toList.intercalate (arms.map (armText g)) ++ (elseText g o ++ r)
      = "ELSE ".toList.intercalate (arms'.map (armText g)) ++ (elseText g o' ++ s)) :
    arms = arms' ∧ o = o' ∧ r = s := by
  -- an arm shows its end by its closing brace, so nothing is asked of what follows it
  obtain ⟨harms, helse⟩ := joined_append_inj (R := fun _ => True)
    (T := fun r => ∀ t, r ≠ "ELSE ".toList ++ t) (fun _ => trivial) (fun _ _ => trivial)
    (fun r h => h r rfl) (fun a ha => shown_arm (hconds a ha) (hbranches a ha)) harms' hne hne'
    (else_ne_arm hr) (else_ne_arm hs) h
  exact ⟨harms, shown_else ho ho' hr hs helse⟩

theorem toList_outline_ifThenElse (conds branches : List Expr) (o : Option Expr) :
    (Expr.ifThenElse conds branches o).outline.toList
      = "ELSE ".toList.intercalate ((conds.zip branches).map (armText Expr.outline))
        ++ elseText Expr.outline o := by
  cases o with
  | none =>
      rw [Expr.outline, outlineAll_eq_map, outlineAll_eq_map, toList_outlineChain, elseText_none,
        List.append_nil]
  | some o =>
      simp only [Expr.outline, outlineAll_eq_map, String.toList_append, toList_outlineChain,
        elseText_some, braced, List.append_assoc]
      rfl

end Chains

/-! ## Choices -/

section Choices

variable {κ : Type} (k : κ → String)

/-- The cases of a choice, the default last and without a key. -/
def choices (cases : List (κ × Expr)) (d : Expr) : List (Option κ × Expr) :=
  cases.map (fun c => (some c.1, c.2)) ++ [(none, d)]

def keyText : Option κ → List Char
  | none => ['_']
  | some key => (k key).toList

def choiceText (c : Option κ × Expr) : List Char :=
  keyText k c.1 ++ (" => ".toList ++ c.2.outline.toList)

theorem toList_outlineChoice (subject : String) (cases : List (κ × Expr)) (d : Expr) :
    (outlineChoice subject (cases.map fun c => k c.1 ++ " => " ++ c.2.outline) d.outline).toList
      = "PER ".toList ++ (subject.toList ++ ("\x7b ".toList ++
        (" ; ".toList.intercalate ((choices cases d).map (choiceText k)) ++ " \x7d".toList))) := by
  simp [outlineChoice, String.toList_intercalate, choices, choiceText, keyText, Function.comp_def]

theorem choices_injective {cases cases' : List (κ × Expr)} {d d' : Expr}
    (h : choices cases d = choices cases' d') : cases = cases' ∧ d = d' := by
  obtain ⟨hcases, hd⟩ := List.append_inj' h rfl
  have hinj : Function.Injective fun c : κ × Expr => (some c.1, c.2) := by
    intro c c' hc
    obtain ⟨hkey, hvalue⟩ := Prod.mk.inj hc
    exact Prod.ext (Option.some.inj hkey) hvalue
  exact ⟨hinj.list_map hcases, (Prod.mk.inj (List.cons.inj hd).1).2⟩

variable {k} {K : κ → Prop} {cases cases' : List (κ × Expr)} {d d' : Expr} {r s : List Char}

/-- A key shows where it ends, and is not taken for the mark of the default. -/
structure KeyShown (k : κ → String) (K : κ → Prop) : Prop where
  shown : ∀ key, K key → Shown K (fun key => (k key).toList) key
  mark : ∀ key r s, K key → (k key).toList ++ r ≠ '_' :: s

theorem KeyShown.option (hk : KeyShown k K) {key : Option κ} (hkey : ∀ x ∈ key, K x) :
    Shown (fun key => ∀ x ∈ key, K x) (keyText k) key := by
  intro key' r s hkey' hr hs h
  cases key with
  | none =>
      cases key' with
      | none => exact ⟨rfl, (List.cons.inj h).2⟩
      | some x' => exact absurd h.symm (hk.mark x' _ _ (hkey' x' rfl))
  | some x =>
      cases key' with
      | none => exact absurd h (hk.mark x _ _ (hkey x rfl))
      | some x' => exact (hk.shown x (hkey x rfl) (hkey' x' rfl) hr hs h).imp_left (congrArg some)

theorem shown_choice (hk : KeyShown k K) {c : Option κ × Expr} (hkey : ∀ x ∈ c.1, K x)
    (hvalue : c.2.Told) :
    Shown (fun c => (∀ x ∈ c.1, K x) ∧ c.2.Legible) (choiceText k) c := by
  rintro ⟨key', e'⟩ r s ⟨hkey', he'⟩ hr hs h
  obtain ⟨key, e⟩ := c
  simp only [choiceText, List.append_assoc] at h
  obtain ⟨rfl, hrest⟩ := hk.option hkey hkey' rfl rfl h
  obtain ⟨rfl, hrs⟩ := hvalue he' hr hs (List.append_cancel_left hrest)
  exact ⟨rfl, hrs⟩

theorem forall_mem_choices {p : Expr → Prop} (hkeys : ∀ c ∈ cases, K c.1)
    (hvalues : ∀ c ∈ cases, p c.2) (hd : p d) :
    ∀ c ∈ choices cases d, (∀ x ∈ c.1, K x) ∧ p c.2 := by
  rw [choices, List.forall_mem_append, List.forall_mem_map, List.forall_mem_singleton]
  constructor
  · intro c hc
    refine ⟨?_, hvalues c hc⟩
    rintro _ ⟨⟩
    exact hkeys c hc
  · exact ⟨fun x hx => absurd hx (Option.not_mem_none x), hd⟩

/-- A choice shows its cases and its default. -/
theorem choices_append_inj (hk : KeyShown k K) (hkeys : ∀ c ∈ cases, K c.1)
    (hvalues : ∀ c ∈ cases, c.2.Told) (hd : d.Told) (hkeys' : ∀ c ∈ cases', K c.1)
    (hvalues' : ∀ c ∈ cases', c.2.Legible) (hd' : d'.Legible)
    (h : " ; ".toList.intercalate ((choices cases d).map (choiceText k)) ++ (" \x7d".toList ++ r)
      = " ; ".toList.intercalate ((choices cases' d').map (choiceText k))
        ++ (" \x7d".toList ++ s)) : cases = cases' ∧ d = d' ∧ r = s := by
  have hclose : ∀ r, (∃ t, r = " \x7d".toList ++ t) → ends r = true := by
    rintro _ ⟨t, rfl⟩
    rfl
  have hapart : ∀ r, ¬∃ t, " ; ".toList ++ r = " \x7d".toList ++ t := by
    rintro r ⟨t, ht⟩
    simp at ht
  have hshown : ∀ c ∈ choices cases d, Shown _ (choiceText k) c := fun c hc =>
    have hc := forall_mem_choices hkeys hvalues hd c hc
    shown_choice hk hc.1 hc.2
  obtain ⟨hlist, hrest⟩ := joined_append_inj (fun _ => rfl) hclose hapart hshown
    (forall_mem_choices hkeys' hvalues' hd') (by simp [choices]) (by simp [choices])
    ⟨r, rfl⟩ ⟨s, rfl⟩ h
  obtain ⟨hcases, hdefault⟩ := choices_injective hlist
  exact ⟨hcases, hdefault, List.append_cancel_left hrest⟩

end Choices

/-! ## How outlines start -/

theorem Expr.opening_ne_none (e : Expr) : e.opening ≠ .none := by
  intro h
  cases e <;> cases h

theorem opening_paren {cs : List Char} (h : opening cs ≠ .none) : opening ('(' :: cs) = .binOp := by
  have hblank : cs.head? ≠ some ' ' := by
    intro hhead
    obtain ⟨rest, rfl⟩ := List.head?_eq_some_iff.1 hhead
    exact h rfl
  show (if cs.head? = some ' ' then Opening.paren else .binOp) = .binOp
  rw [if_neg hblank]

theorem opening_outline {e : Expr} (he : e.Legible) (r : List Char) :
    opening (e.outline.toList ++ r) = e.opening := by
  induction e using Expr.children_induction generalizing r with
  | step e ih =>
  -- the text of an operation is told from a parenthesis by what its first operand starts with,
  -- so that this needs an induction
  cases e with
  | bool b => cases b <;> rfl
  | invoke func args negated =>
      cases negated <;> simp only [Expr.outline, String.toList_append, List.append_assoc] <;> rfl
  | settingFlag name negated =>
      cases negated <;> simp only [Expr.outline, String.toList_append, List.append_assoc] <;> rfl
  | argFlag x negated =>
      cases negated <;> simp only [Expr.outline, String.toList_append, List.append_assoc] <;> rfl
  | within p negated =>
      cases negated <;> simp only [Expr.outline, String.toList_append, List.append_assoc] <;> rfl
  | ifThenElse conds branches o =>
      obtain ⟨hne, hlength⟩ := he.self
      obtain ⟨t, ht⟩ := chain_eq_if Expr.outline (zip_ne_nil hne hlength)
      rw [toList_outline_ifThenElse, ht]
      rfl
  | perItem item cases d =>
      rw [Expr.outline, outlineCounts_eq_map, toList_outlineChoice]
      simp only [String.toList_append, List.append_assoc]
      rfl
  | perSetting setting cases d =>
      rw [Expr.outline, outlineOptions_eq_map, toList_outlineChoice]
      simp only [String.toList_append, List.append_assoc]
      rfl
  | int n => exact opening_word n r
  | float x => exact opening_float x r
  | str s => exact opening_quoted s r
  | place path => exact opening_place path r
  | ref x => exact opening_reference x r
  | setting name => exact opening_setting name r
  | binOp lhs op rhs =>
      have hlhs : lhs ∈ (Expr.binOp lhs op rhs).children := by simp [Expr.children]
      simp only [Expr.outline, String.toList_append, List.append_assoc]
      refine opening_paren ?_
      exact fun hnone => lhs.opening_ne_none ((ih lhs hlhs (he.child hlhs) _).symm.trans hnone)
  | _ => simp only [Expr.outline, String.toList_append, List.append_assoc]; rfl

namespace Expr

/-- It is enough to look at expressions whose outline starts in the same way. -/
theorem Told.of_opening {e : Expr} (he : e.Legible)
    (h : ∀ ⦃e' : Expr⦄ ⦃r s : List Char⦄, e'.opening = e.opening → e'.Legible → ends r = true →
      ends s = true → e.outline.toList ++ r = e'.outline.toList ++ s → e = e' ∧ r = s) :
    e.Told := by
  intro e' r s he' hr hs heq
  have hopen : e'.opening = e.opening := by
    rw [← opening_outline he' s, ← opening_outline he r]
    exact congrArg AccessRules.opening heq.symm
  exact h hopen he' hr hs heq

/-! ## Leaves -/

theorem literal?_eq_some {e : Expr} {lit : Literal} (h : e.literal? = some lit) :
    e.outline = lit.text ∧ e.opening = lit.opening ∧ (e.Legible → lit.WellFormed) := by
  cases e <;> cases h
  · exact ⟨rfl, rfl, fun _ => trivial⟩
  · exact ⟨rfl, rfl, fun _ => trivial⟩
  · exact ⟨rfl, rfl, fun _ => trivial⟩
  · exact ⟨rfl, rfl, fun _ => trivial⟩
  · exact ⟨rfl, rfl, fun he => he.self⟩

theorem exists_literal_of_opening {e : Expr} {lit : Literal} (h : e.opening = lit.opening) :
    ∃ lit', e.literal? = some lit' := by
  cases e with
  | bool b => exact ⟨.bool b, rfl⟩
  | int n => exact ⟨.int n, rfl⟩
  | float x => exact ⟨.float x, rfl⟩
  | str s => exact ⟨.str s, rfl⟩
  | place path => exact ⟨.place path, rfl⟩
  | _ => cases lit <;> cases h

theorem literal?_injective {e e' : Expr} {lit : Literal} (h : e.literal? = some lit)
    (h' : e'.literal? = some lit) : e = e' := by
  cases e <;> cases h <;> cases e' <;> cases h' <;> rfl

theorem told_literal {e : Expr} {lit : Literal} (he : e.Legible) (hlit : e.literal? = some lit) :
    e.Told := by
  refine .of_opening he ?_
  intro e' r s hopen he' hr hs h
  obtain ⟨htext, hlitopen, hwell⟩ := literal?_eq_some hlit
  obtain ⟨lit', hlit'⟩ := exists_literal_of_opening (hopen.trans hlitopen)
  obtain ⟨htext', -, hwell'⟩ := literal?_eq_some hlit'
  rw [htext, htext'] at h
  obtain ⟨rfl, hrs⟩ := shown_literal (hwell he) (hwell' he') hr hs h
  exact ⟨literal?_injective hlit hlit', hrs⟩

theorem told_ref {x : Reference} (he : (ref x).Legible) : (ref x).Told := by
  refine .of_opening he ?_
  intro e' r s hopen he' hr hs h
  cases e' with
  | ref x' => exact (shown_reference he.self he'.self hr hs h).imp_left (congrArg ref)
  | _ => cases hopen

theorem told_setting {name : String} (he : (setting name).Legible) : (setting name).Told := by
  refine .of_opening he ?_
  intro e' r s hopen he' hr hs h
  cases e' with
  | setting name' =>
      exact (setting_append_inj he.self he'.self hr hs h).imp_left (congrArg setting)
  | _ => cases hopen

theorem told_const {name : String} (he : (const name).Legible) : (const name).Told := by
  refine .of_opening he ?_
  intro e' r s hopen he' hr hs h
  cases e' with
  | const name' =>
      simp only [outline, String.toList_append, List.append_assoc] at h
      exact (shown_name he.self he'.self hr hs (List.append_cancel_left h)).imp_left
        (congrArg const)
  | _ => cases hopen

theorem told_hasArgItem {x : Reference} (he : (hasArgItem x).Legible) : (hasArgItem x).Told := by
  refine .of_opening he ?_
  intro e' r s hopen he' hr hs h
  cases e' with
  | hasArgItem x' =>
      simp only [outline, String.toList_append, List.append_assoc] at h
      exact (shown_reference he.self he'.self hr hs (List.append_cancel_left h)).imp_left
        (congrArg hasArgItem)
  | _ => cases hopen

theorem told_settingFlag {name : String} {n : Bool} (he : (settingFlag name n).Legible) :
    (settingFlag name n).Told := by
  refine .of_opening he ?_
  intro e' r s hopen he' hr hs h
  cases e' with
  | settingFlag name' n' =>
      simp only [outline, String.toList_append, List.append_assoc] at h
      obtain ⟨rfl, hname⟩ := negation_append_inj rfl h
      obtain ⟨rfl, hrs⟩ := shown_name he.self he'.self hr hs hname
      exact ⟨rfl, hrs⟩
  | _ => cases hopen

theorem told_argFlag {x : Reference} {n : Bool} (he : (argFlag x n).Legible) :
    (argFlag x n).Told := by
  refine .of_opening he ?_
  intro e' r s hopen he' hr hs h
  cases e' with
  | argFlag x' n' =>
      simp only [outline, String.toList_append, List.append_assoc] at h
      obtain ⟨rfl, href⟩ := negation_append_inj rfl h
      obtain ⟨rfl, hrs⟩ := shown_reference he.self he'.self hr hs href
      exact ⟨rfl, hrs⟩
  | _ => cases hopen

theorem told_within {p : PlaceArg} {n : Bool} (he : (within p n).Legible) : (within p n).Told := by
  refine .of_opening he ?_
  intro e' r s hopen he' hr hs h
  cases e' with
  | within p' n' =>
      simp only [outline, String.toList_append, List.append_assoc] at h
      obtain ⟨rfl, hplace⟩ := negation_append_inj rfl h
      obtain ⟨rfl, hrest⟩ := shown_placeArg he.self he'.self rfl rfl hplace
      exact ⟨rfl, List.append_cancel_left hrest⟩
  | _ => cases hopen

theorem told_refInSet {x : Reference} {ms : Members} (he : (refInSet x ms).Legible) :
    (refInSet x ms).Told := by
  refine .of_opening he ?_
  intro e' r s hopen he' hr hs h
  cases e' with
  | refInSet x' ms' =>
      simp only [outline, String.toList_append, List.append_assoc] at h
      obtain ⟨rfl, hset⟩ :=
        shown_reference he.self.1 he'.self.1 rfl rfl (List.append_cancel_left h)
      obtain ⟨rfl, hrs⟩ :=
        Members.outline_append_inj he.self.2 he'.self.2 (List.append_cancel_left hset)
      exact ⟨rfl, hrs⟩
  | _ => cases hopen

theorem told_items {names : List String} (he : (items names).Legible) : (items names).Told := by
  refine .of_opening he ?_
  intro e' r s hopen he' hr hs h
  cases e' with
  | items names' =>
      simp only [outline, String.toList_append, String.toList_intercalate, List.append_assoc] at h
      have hne (r s : List Char) : ", ".toList ++ r ≠ "]".toList ++ s := by simp
      obtain ⟨rfl, hrs⟩ := enclosed_append_inj (fun _ => rfl) (fun _ => rfl) hne
        (fun name r s hname => name_append_ne hname rfl r s) he.self
        (fun name hname => shown_name (he.self name hname)) he'.self (List.append_cancel_left h)
      exact ⟨rfl, hrs⟩
  | _ => cases hopen

/-! ## Items

Possession of an item, of a number of it, and of one that a string names start in the same way. -/

section Items

variable {name name' : String} {r s : List Char}

theorem name_ne_quoted (hname : IsName name) {text : String} :
    name.toList ++ r ≠ (Text.quoted text).toList ++ s := by
  rw [Text.toList_quoted]
  exact name_append_ne hname rfl r _

/-- A number of items has a brace after the name. -/
theorem name_ne_braced (hname : IsName name) (hname' : IsName name') (hr : ends r = true) :
    name.toList ++ r ≠ name'.toList ++ ("\x7b".toList ++ s) := by
  intro h
  obtain ⟨-, hbrace⟩ := name_append_inj hname hname' (stops_isIdentChar hr) rfl h
  exact ends_ne_cons hr rfl _ hbrace

theorem told_hasItem (he : (hasItem name).Legible) : (hasItem name).Told := by
  refine .of_opening he ?_
  intro e' r s hopen he' hr hs h
  cases e' with
  | hasItem name' =>
      simp only [outline, String.toList_append, List.append_assoc] at h
      exact (shown_name he.self he'.self hr hs (List.append_cancel_left h)).imp_left
        (congrArg hasItem)
  | itemAtLeast name' t' =>
      simp only [outline, braced, String.toList_append, List.append_assoc] at h
      exact absurd (List.append_cancel_left h) (name_ne_braced he.self he'.self.1 hr)
  | hasLiteralItem text' =>
      simp only [outline, String.toList_append, List.append_assoc] at h
      exact absurd (List.append_cancel_left h) (name_ne_quoted he.self)
  | _ => cases hopen

theorem told_itemAtLeast {t : Threshold} (he : (itemAtLeast name t).Legible) :
    (itemAtLeast name t).Told := by
  refine .of_opening he ?_
  intro e' r s hopen he' hr hs h
  cases e' with
  | hasItem name' =>
      simp only [outline, braced, String.toList_append, List.append_assoc] at h
      exact absurd (List.append_cancel_left h).symm (name_ne_braced he'.self he.self.1 hs)
  | itemAtLeast name' t' =>
      simp only [outline, braced, String.toList_append, List.append_assoc] at h
      obtain ⟨rfl, hcount⟩ :=
        name_append_inj he.self.1 he'.self.1 rfl rfl (List.append_cancel_left h)
      obtain ⟨rfl, hrest⟩ :=
        shown_threshold he.self.2 he'.self.2 rfl rfl (List.append_cancel_left hcount)
      exact ⟨rfl, List.append_cancel_left hrest⟩
  | hasLiteralItem text' =>
      simp only [outline, String.toList_append, List.append_assoc] at h
      exact absurd (List.append_cancel_left h) (name_ne_quoted he.self.1)
  | _ => cases hopen

theorem told_hasLiteralItem {text : String} (he : (hasLiteralItem text).Legible) :
    (hasLiteralItem text).Told := by
  refine .of_opening he ?_
  intro e' r s hopen he' hr hs h
  cases e' with
  | hasItem name' =>
      simp only [outline, String.toList_append, List.append_assoc] at h
      exact absurd (List.append_cancel_left h).symm (name_ne_quoted he'.self)
  | itemAtLeast name' t' =>
      simp only [outline, String.toList_append, List.append_assoc] at h
      exact absurd (List.append_cancel_left h).symm (name_ne_quoted he'.self.1)
  | hasLiteralItem text' =>
      simp only [outline, String.toList_append, List.append_assoc] at h
      exact (Text.quoted_append_inj (List.append_cancel_left h)).imp_left (congrArg hasLiteralItem)
  | _ => cases hopen

end Items

/-! ## Equality of references -/

section Equality

variable {x x' : Reference} {op op' : CmpOp} {r s : List Char}

/-- A reference and an operator before the other side of an equation. -/
theorem equation_append_inj (hx : x.WellFormed) (hx' : x'.WellFormed)
    (h : "REFEQ[ ".toList ++
        (x.text.toList ++ (" ".toList ++ (op.text.toList ++ (" ".toList ++ r))))
      = "REFEQ[ ".toList ++
        (x'.text.toList ++ (" ".toList ++ (op'.text.toList ++ (" ".toList ++ s))))) :
    x = x' ∧ op = op' ∧ r = s := by
  obtain ⟨href, hop⟩ := shown_reference hx hx' rfl rfl (List.append_cancel_left h)
  obtain ⟨hop, hrest⟩ := shown_cmpOp op trivial rfl rfl (List.append_cancel_left hop)
  exact ⟨href, hop, List.append_cancel_left hrest⟩

theorem comparand_ne_invoke {c : Comparand} {func : String} {args : List Expr}
    (he : (invoke func args false).Legible) :
    c.outline.toList ++ r ≠ (invoke func args false).outline.toList ++ s := by
  intro h
  have hopen := congrArg AccessRules.opening h
  rw [c.opening_outline, opening_outline he] at hopen
  cases c <;> cases hopen

theorem told_refEq {c : Comparand} (he : (refEq x op c).Legible) : (refEq x op c).Told := by
  refine .of_opening he ?_
  intro e' r s hopen he' hr hs h
  cases e' with
  | refEq x' op' c' =>
      simp only [outline, String.toList_append, List.append_assoc] at h
      obtain ⟨rfl, rfl, hside⟩ := equation_append_inj he.self.1 he'.self.1 h
      obtain ⟨rfl, hrest⟩ := shown_comparand he.self.2 he'.self.2 rfl rfl hside
      exact ⟨rfl, List.append_cancel_left hrest⟩
  | refEqCall x' op' e' =>
      simp only [outline, String.toList_append, List.append_assoc] at h
      obtain ⟨hx', func, args, rfl⟩ := he'.self
      obtain ⟨-, -, hside⟩ := equation_append_inj he.self.1 hx' h
      exact absurd hside (comparand_ne_invoke (he'.child (by simp [children])))
  | _ => cases hopen

theorem told_refEqCall {e : Expr} (he : (refEqCall x op e).Legible) (hcall : e.Told) :
    (refEqCall x op e).Told := by
  refine .of_opening he ?_
  intro e' r s hopen he' hr hs h
  cases e' with
  | refEq x' op' c' =>
      simp only [outline, String.toList_append, List.append_assoc] at h
      obtain ⟨hx, func, args, rfl⟩ := he.self
      obtain ⟨-, -, hside⟩ := equation_append_inj hx he'.self.1 h
      exact absurd hside.symm (comparand_ne_invoke (he.child (by simp [children])))
  | refEqCall x' op' e' =>
      simp only [outline, String.toList_append, List.append_assoc] at h
      obtain ⟨rfl, rfl, hside⟩ := equation_append_inj he.self.1 he'.self.1 h
      obtain ⟨rfl, hrest⟩ := hcall (he'.child (by simp [children])) rfl rfl hside
      exact ⟨rfl, List.append_cancel_left hrest⟩
  | _ => cases hopen

end Equality

/-! ## Nodes with expressions below them -/

section Nodes

variable {x y z d : Expr}

/-- Two expressions with a text between them. -/
theorem pair_append_inj {x' y' : Expr} {w m c r s : List Char} (hm : ∀ t, ends (m ++ t) = true)
    (hc : ∀ t, ends (c ++ t) = true) (hx : x.Told) (hy : y.Told) (hx' : x'.Legible)
    (hy' : y'.Legible)
    (h : w ++ (x.outline.toList ++ (m ++ (y.outline.toList ++ (c ++ r))))
      = w ++ (x'.outline.toList ++ (m ++ (y'.outline.toList ++ (c ++ s))))) :
    x = x' ∧ y = y' ∧ r = s := by
  obtain ⟨hleft, hrest⟩ := hx hx' (hm _) (hm _) (List.append_cancel_left h)
  obtain ⟨hright, hrest⟩ := hy hy' (hc _) (hc _) (List.append_cancel_left hrest)
  exact ⟨hleft, hright, List.append_cancel_left hrest⟩

/-- Two expressions with an operator between them. -/
theorem operation_append_inj {α : Type} {t : α → String} {op op' : α} {x' y' : Expr}
    {w c r s : List Char} (hop : Shown (fun _ => True) (fun op => (t op).toList) op)
    (hc : ∀ t, ends (c ++ t) = true) (hx : x.Told) (hy : y.Told) (hx' : x'.Legible)
    (hy' : y'.Legible)
    (h : w ++ (x.outline.toList ++ (" ".toList ++ ((t op).toList ++ (" ".toList
        ++ (y.outline.toList ++ (c ++ r))))))
      = w ++ (x'.outline.toList ++ (" ".toList ++ ((t op').toList ++ (" ".toList
        ++ (y'.outline.toList ++ (c ++ s))))))) : x = x' ∧ op = op' ∧ y = y' ∧ r = s := by
  obtain ⟨hleft, hrest⟩ := hx hx' rfl rfl (List.append_cancel_left h)
  obtain ⟨hmid, hrest⟩ := hop trivial rfl rfl (List.append_cancel_left hrest)
  obtain ⟨hright, hrest⟩ := hy hy' (hc _) (hc _) (List.append_cancel_left hrest)
  exact ⟨hleft, hmid, hright, List.append_cancel_left hrest⟩

theorem told_or (he : (or x y).Legible) (hx : x.Told) (hy : y.Told) : (or x y).Told := by
  refine .of_opening he ?_
  intro e' r s hopen he' hr hs h
  cases e' with
  | or x' y' =>
      simp only [outline, String.toList_append, List.append_assoc] at h
      obtain ⟨rfl, rfl, hrs⟩ := pair_append_inj (fun _ => rfl) (fun _ => rfl) hx hy
        (he'.child (by simp [children])) (he'.child (by simp [children])) h
      exact ⟨rfl, hrs⟩
  | _ => cases hopen

theorem told_and (he : (and x y).Legible) (hx : x.Told) (hy : y.Told) : (and x y).Told := by
  refine .of_opening he ?_
  intro e' r s hopen he' hr hs h
  cases e' with
  | and x' y' =>
      simp only [outline, String.toList_append, List.append_assoc] at h
      obtain ⟨rfl, rfl, hrs⟩ := pair_append_inj (fun _ => rfl) (fun _ => rfl) hx hy
        (he'.child (by simp [children])) (he'.child (by simp [children])) h
      exact ⟨rfl, hrs⟩
  | _ => cases hopen

theorem told_not (he : (not x).Legible) (hx : x.Told) : (not x).Told := by
  refine .of_opening he ?_
  intro e' r s hopen he' hr hs h
  cases e' with
  | not x' =>
      simp only [outline, String.toList_append, List.append_assoc] at h
      obtain ⟨rfl, hrest⟩ :=
        hx (he'.child (by simp [children])) rfl rfl (List.append_cancel_left h)
      exact ⟨rfl, List.append_cancel_left hrest⟩
  | _ => cases hopen

theorem told_paren (he : (paren x).Legible) (hx : x.Told) : (paren x).Told := by
  refine .of_opening he ?_
  intro e' r s hopen he' hr hs h
  cases e' with
  | paren x' =>
      simp only [outline, String.toList_append, List.append_assoc] at h
      obtain ⟨rfl, hrest⟩ :=
        hx (he'.child (by simp [children])) rfl rfl (List.append_cancel_left h)
      exact ⟨rfl, List.append_cancel_left hrest⟩
  | _ => cases hopen

theorem told_ternary (he : (ternary x y z).Legible) (hx : x.Told) (hy : y.Told) (hz : z.Told) :
    (ternary x y z).Told := by
  refine .of_opening he ?_
  intro e' r s hopen he' hr hs h
  cases e' with
  | ternary x' y' z' =>
      simp only [outline, String.toList_append, List.append_assoc] at h
      obtain ⟨rfl, hbranches⟩ :=
        hx (he'.child (by simp [children])) rfl rfl (List.append_cancel_left h)
      obtain ⟨rfl, rfl, hrs⟩ := pair_append_inj (fun _ => rfl) (fun _ => rfl) hy hz
        (he'.child (by simp [children])) (he'.child (by simp [children])) hbranches
      exact ⟨rfl, hrs⟩
  | _ => cases hopen

theorem told_numCompare {op : CmpOp} (he : (numCompare x op y).Legible) (hx : x.Told)
    (hy : y.Told) : (numCompare x op y).Told := by
  refine .of_opening he ?_
  intro e' r s hopen he' hr hs h
  cases e' with
  | numCompare x' op' y' =>
      simp only [outline, String.toList_append, List.append_assoc] at h
      obtain ⟨rfl, rfl, rfl, hrs⟩ := operation_append_inj (shown_cmpOp op) (fun _ => rfl) hx hy
        (he'.child (by simp [children])) (he'.child (by simp [children])) h
      exact ⟨rfl, hrs⟩
  | _ => cases hopen

theorem told_binOp {op : ArithOp} (he : (binOp x op y).Legible) (hx : x.Told) (hy : y.Told) :
    (binOp x op y).Told := by
  refine .of_opening he ?_
  intro e' r s hopen he' hr hs h
  cases e' with
  | binOp x' op' y' =>
      simp only [outline, String.toList_append, List.append_assoc] at h
      obtain ⟨rfl, rfl, rfl, hrs⟩ := operation_append_inj (shown_arithOp op) (fun _ => rfl) hx hy
        (he'.child (by simp [children])) (he'.child (by simp [children])) h
      exact ⟨rfl, hrs⟩
  | _ => cases hopen

theorem told_strCompare {op : CmpOp} {lit : Literal} (he : (strCompare x op lit).Legible)
    (hx : x.Told) : (strCompare x op lit).Told := by
  refine .of_opening he ?_
  intro e' r s hopen he' hr hs h
  cases e' with
  | strCompare x' op' lit' =>
      simp only [outline, String.toList_append, List.append_assoc] at h
      obtain ⟨rfl, hop⟩ :=
        hx (he'.child (by simp [children])) rfl rfl (List.append_cancel_left h)
      obtain ⟨rfl, hright⟩ := shown_cmpOp op trivial rfl rfl (List.append_cancel_left hop)
      obtain ⟨rfl, hrest⟩ :=
        shown_literal he.self he'.self rfl rfl (List.append_cancel_left hright)
      exact ⟨rfl, List.append_cancel_left hrest⟩
  | _ => cases hopen

theorem told_flagMatch {mask : Int64} (he : (flagMatch x mask).Legible) (hx : x.Told) :
    (flagMatch x mask).Told := by
  refine .of_opening he ?_
  intro e' r s hopen he' hr hs h
  cases e' with
  | flagMatch x' mask' =>
      simp only [outline, String.toList_append, List.append_assoc] at h
      obtain ⟨rfl, hmask⟩ :=
        hx (he'.child (by simp [children])) rfl rfl (List.append_cancel_left h)
      obtain ⟨rfl, hrest⟩ := shown_word mask trivial rfl rfl (List.append_cancel_left hmask)
      exact ⟨rfl, List.append_cancel_left hrest⟩
  | _ => cases hopen

/-- A name with arguments in parentheses. -/
theorem call_append_inj {func func' : String} {args args' : List Expr} {r s : List Char}
    (hfunc : IsName func) (hfunc' : IsName func') (hlegible : ∀ a ∈ args, a.Legible)
    (hargs : ∀ a ∈ args, a.Told) (hargs' : ∀ a ∈ args', a.Legible)
    (h : func.toList ++ ("(".toList ++ ((", ".intercalate (outlineAll args)).toList
        ++ (")".toList ++ r)))
      = func'.toList ++ ("(".toList ++ ((", ".intercalate (outlineAll args')).toList
        ++ (")".toList ++ s)))) : func = func' ∧ args = args' ∧ r = s := by
  obtain ⟨hname, hrest⟩ := name_append_inj hfunc hfunc' rfl rfl h
  have hlist := List.append_cancel_left hrest
  simp only [outlineAll_eq_map, String.toList_intercalate, List.map_map] at hlist
  have hne (r s : List Char) : ", ".toList ++ r ≠ ")".toList ++ s := by simp
  have hfirst (a : Expr) (r s : List Char) (ha : a.Legible) :
      a.outline.toList ++ r ≠ ")".toList ++ s := by
    intro h
    have hopen := congrArg AccessRules.opening h
    rw [opening_outline ha] at hopen
    exact a.opening_ne_none hopen
  obtain ⟨hargs, hrs⟩ := enclosed_append_inj (fun _ => rfl) (fun _ => rfl) hne hfirst hlegible
    hargs hargs' hlist
  exact ⟨hname, hargs, hrs⟩

theorem told_call {func : String} {args : List Expr} (he : (call func args).Legible)
    (hargs : ∀ a ∈ args, a.Told) : (call func args).Told := by
  refine .of_opening he ?_
  intro e' r s hopen he' hr hs h
  cases e' with
  | call func' args' =>
      simp only [outline, String.toList_append, List.append_assoc] at h
      obtain ⟨rfl, rfl, hrs⟩ := call_append_inj he.self he'.self (fun a ha => he.child ha) hargs
        (fun a ha => he'.child ha) (List.append_cancel_left h)
      exact ⟨rfl, hrs⟩
  | _ => cases hopen

theorem told_invoke {func : String} {args : List Expr} {n : Bool}
    (he : (invoke func args n).Legible) (hargs : ∀ a ∈ args, a.Told) :
    (invoke func args n).Told := by
  refine .of_opening he ?_
  intro e' r s hopen he' hr hs h
  cases e' with
  | invoke func' args' n' =>
      simp only [outline, String.toList_append, List.append_assoc] at h
      obtain ⟨rfl, hcall⟩ := negation_append_inj rfl h
      obtain ⟨rfl, rfl, hrs⟩ := call_append_inj he.self he'.self (fun a ha => he.child ha) hargs
        (fun a ha => he'.child ha) hcall
      exact ⟨rfl, hrs⟩
  | _ => cases hopen

theorem told_ifThenElse {conds branches : List Expr} {o : Option Expr}
    (he : (ifThenElse conds branches o).Legible) (hconds : ∀ c ∈ conds, c.Told)
    (hbranches : ∀ b ∈ branches, b.Told) (ho : ∀ b ∈ o, b.Told) :
    (ifThenElse conds branches o).Told := by
  refine .of_opening he ?_
  intro e' r s hopen he' hr hs h
  cases e' with
  | ifThenElse conds' branches' o' =>
      obtain ⟨hne, hlength⟩ := he.self
      obtain ⟨hne', hlength'⟩ := he'.self
      rw [toList_outline_ifThenElse, toList_outline_ifThenElse, List.append_assoc,
        List.append_assoc] at h
      obtain ⟨harms, rfl, hrs⟩ := chain_append_inj
        (fun a ha => hconds a.1 (List.of_mem_zip ha).1)
        (fun a ha => hbranches a.2 (List.of_mem_zip ha).2) ho
        (fun a ha => ⟨he'.child (by simp [children, (List.of_mem_zip ha).1]),
          he'.child (by simp [children, (List.of_mem_zip ha).2])⟩)
        (fun b hb => he'.child (by simp [children, Option.mem_def.1 hb]))
        (zip_ne_nil hne hlength) (zip_ne_nil hne' hlength') hr hs h
      obtain ⟨rfl, rfl⟩ := zip_injective hlength hlength' harms
      exact ⟨rfl, hrs⟩
  | _ => cases hopen

theorem keyShown_word : KeyShown wordText fun _ => True where
  shown n _ := shown_word n
  mark n r s _ h := by
    have hstart := Decimal.startsNumeral_wordText n r
    rw [h] at hstart
    cases hstart

theorem keyShown_literal : KeyShown Literal.text Literal.WellFormed where
  shown _ hlit := shown_literal hlit
  mark lit r s _ h := by
    have hopen := lit.opening_text r
    rw [h] at hopen
    cases lit <;> cases hopen

theorem told_perItem {item : String} {cases : List (Int64 × Expr)}
    (he : (perItem item cases d).Legible) (hcases : ∀ c ∈ cases, c.2.Told) (hd : d.Told) :
    (perItem item cases d).Told := by
  refine .of_opening he ?_
  intro e' r s hopen he' hr hs h
  cases e' with
  | perItem item' cases' d' =>
      simp only [outline, outlineCounts_eq_map, toList_outlineChoice, String.toList_append,
        List.append_assoc] at h
      obtain ⟨rfl, hrest⟩ := name_append_inj he.self he'.self rfl rfl
        (List.append_cancel_left (List.append_cancel_left h))
      obtain ⟨rfl, rfl, hrs⟩ := choices_append_inj keyShown_word (fun _ _ => trivial) hcases hd
        (fun _ _ => trivial) (fun c hc => he'.child (List.mem_append_left _ (List.mem_map_of_mem hc)))
        (he'.child (by simp [children])) (List.append_cancel_left hrest)
      exact ⟨rfl, hrs⟩
  | _ => cases hopen

theorem told_perSetting {name : String} {cases : List (Literal × Expr)}
    (he : (perSetting name cases d).Legible) (hcases : ∀ c ∈ cases, c.2.Told) (hd : d.Told) :
    (perSetting name cases d).Told := by
  refine .of_opening he ?_
  intro e' r s hopen he' hr hs h
  cases e' with
  | perSetting name' cases' d' =>
      simp only [outline, outlineOptions_eq_map, toList_outlineChoice, String.toList_append,
        List.append_assoc] at h
      obtain ⟨rfl, hrest⟩ := name_append_inj he.self.1 he'.self.1 rfl rfl
        (List.append_cancel_left (List.append_cancel_left h))
      obtain ⟨rfl, rfl, hrs⟩ := choices_append_inj keyShown_literal he.self.2 hcases hd
        he'.self.2 (fun c hc => he'.child (List.mem_append_left _ (List.mem_map_of_mem hc)))
        (he'.child (by simp [children])) (List.append_cancel_left hrest)
      exact ⟨rfl, hrs⟩
  | _ => cases hopen

end Nodes

/-- The outline of an expression shows of which expression it is, and where it ends. -/
theorem shown_outline {e : Expr} (he : e.Legible) : e.Told := by
  induction e using children_induction with
  | step e ih =>
  have htold (c : Expr) (hc : c ∈ e.children) : c.Told := ih c hc (he.child hc)
  cases e with
  | or x y => exact told_or he (htold x (by simp [children])) (htold y (by simp [children]))
  | and x y => exact told_and he (htold x (by simp [children])) (htold y (by simp [children]))
  | not x => exact told_not he (htold x (by simp [children]))
  | bool b => exact told_literal he rfl
  | paren x => exact told_paren he (htold x (by simp [children]))
  | invoke func args n => exact told_invoke he htold
  | ifThenElse conds branches o =>
      exact told_ifThenElse he (fun c hc => htold c (by simp [children, hc]))
        (fun b hb => htold b (by simp [children, hb]))
        fun b hb => htold b (by simp [children, Option.mem_def.1 hb])
  | ternary x y z =>
      exact told_ternary he (htold x (by simp [children])) (htold y (by simp [children]))
        (htold z (by simp [children]))
  | numCompare x op y =>
      exact told_numCompare he (htold x (by simp [children])) (htold y (by simp [children]))
  | strCompare x op lit => exact told_strCompare he (htold x (by simp [children]))
  | flagMatch x mask => exact told_flagMatch he (htold x (by simp [children]))
  | refEq x op c => exact told_refEq he
  | refEqCall x op e => exact told_refEqCall he (htold e (by simp [children]))
  | settingFlag name n => exact told_settingFlag he
  | argFlag x n => exact told_argFlag he
  | itemAtLeast item t => exact told_itemAtLeast he
  | hasItem item => exact told_hasItem he
  | hasLiteralItem text => exact told_hasLiteralItem he
  | hasArgItem x => exact told_hasArgItem he
  | refInSet x ms => exact told_refInSet he
  | within p n => exact told_within he
  | perItem item cases d =>
      exact told_perItem he (fun c hc => htold c.2 (List.mem_append_left _ (List.mem_map_of_mem hc)))
        (htold d (by simp [children]))
  | perSetting name cases d =>
      exact told_perSetting he (fun c hc => htold c.2 (List.mem_append_left _ (List.mem_map_of_mem hc)))
        (htold d (by simp [children]))
  | int n => exact told_literal he rfl
  | float x => exact told_literal he rfl
  | str s => exact told_literal he rfl
  | place path => exact told_literal he rfl
  | ref x => exact told_ref he
  | setting name => exact told_setting he
  | const name => exact told_const he
  | binOp x op y =>
      exact told_binOp he (htold x (by simp [children])) (htold y (by simp [children]))
  | call func args => exact told_call he htold
  | items names => exact told_items he

theorem outline_injective {e e' : Expr} (he : e.Legible) (he' : e'.Legible)
    (h : e.outline = e'.outline) : e = e' := by
  have htext : e.outline.toList ++ [] = e'.outline.toList ++ [] := by rw [h]
  exact (shown_outline he he' rfl rfl htext).1

end Expr

end AccessRules
