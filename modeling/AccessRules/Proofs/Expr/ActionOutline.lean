import AccessRules.Proofs.Expr.Outline

set_option autoImplicit false

/-! # Outlines of actions are told apart

As for expressions: the first characters of the outline of an action tell of which kind it is, and
its parts show where they end. `Action.shown_outline` is by induction on the action. -/

namespace AccessRules

theorem outlineSteps_eq_map (steps : List Action) :
    outlineSteps steps = steps.map Action.outline := by
  induction steps with
  | nil => rfl
  | cons a steps ih => rw [outlineSteps, ih, List.map_cons]

theorem toList_outline_cond (conds : List Expr) (branches : List Action) (o : Option Action) :
    (Action.cond conds branches o).outline.toList
      = "ELSE ".toList.intercalate ((conds.zip branches).map (armText Action.outline))
        ++ elseText Action.outline o := by
  cases o with
  | none =>
      rw [Action.outline, outlineAll_eq_map, outlineSteps_eq_map, toList_outlineChain,
        elseText_none, List.append_nil]
  | some o =>
      simp only [Action.outline, outlineAll_eq_map, outlineSteps_eq_map, String.toList_append,
        toList_outlineChain, elseText_some, braced, List.append_assoc]
      rfl

namespace Action

/-- The names and the expressions of the action are well formed, and every condition has a
    branch. -/
inductive Legible : Action → Prop
  | set {target : Reference} {value : Expr} (ht : target.WellFormed) (hv : value.Legible) :
      Legible (.set target value)
  | alter {target : Reference} {op : ArithOp} {delta : Expr} (ht : target.WellFormed)
      (hd : delta.Legible) : Legible (.alter target op delta)
  | swap {first second : Reference} (hfirst : first.WellFormed) (hsecond : second.WellFormed) :
      Legible (.swap first second)
  | cond {conds : List Expr} {branches : List Action} {otherwise : Option Action}
      (hne : conds ≠ []) (hlength : conds.length = branches.length)
      (hconds : ∀ c ∈ conds, c.Legible) (hbranches : ∀ b ∈ branches, Legible b)
      (hotherwise : ∀ b ∈ otherwise, Legible b) : Legible (.cond conds branches otherwise)
  | call {func : String} {args : List Expr} (hfunc : IsName func)
      (hargs : ∀ a ∈ args, a.Legible) : Legible (.call func args)
  | sequence {steps : List Action} (hsteps : ∀ a ∈ steps, Legible a) : Legible (.sequence steps)

/-- The outline of the action shows where it ends. -/
def Told (a : Action) : Prop :=
  Shown Legible (fun a => a.outline.toList) a

/-- The first three characters of the outline of an action. -/
def mark : Action → List Char
  | .set _ _ => ['S', 'E', 'T']
  | .alter _ _ _ => ['A', 'L', 'T']
  | .swap _ _ => ['S', 'W', 'A']
  | .cond _ _ _ => ['I', 'F', '(']
  | .call _ _ => ['C', 'A', 'L']
  | .sequence _ => ['S', 'E', 'Q']

theorem take_outline {a : Action} (ha : a.Legible) (r : List Char) :
    (a.outline.toList ++ r).take 3 = a.mark := by
  cases ha with
  | cond hne hlength _ _ _ =>
      obtain ⟨t, ht⟩ := chain_eq_if outline (zip_ne_nil hne hlength)
      rw [toList_outline_cond, ht]
      rfl
  | _ =>
      simp only [outline, String.toList_append, List.append_assoc]
      rfl

theorem Told.of_mark {a : Action} (ha : a.Legible)
    (h : ∀ ⦃a' : Action⦄ ⦃r s : List Char⦄, a'.mark = a.mark → a'.Legible → ends r = true →
      ends s = true → a.outline.toList ++ r = a'.outline.toList ++ s → a = a' ∧ r = s) :
    a.Told := by
  intro a' r s ha' hr hs heq
  have hmark : a'.mark = a.mark := by
    rw [← take_outline ha' s, ← take_outline ha r]
    exact congrArg (List.take 3) heq.symm
  exact h hmark ha' hr hs heq

theorem outline_append_ne_blank {a : Action} (ha : a.Legible) (r s : List Char) :
    a.outline.toList ++ r ≠ ' ' :: s := by
  intro h
  have hmark := take_outline ha r
  rw [h] at hmark
  cases a <;> cases hmark

theorem told_set {target : Reference} {value : Expr} (ht : target.WellFormed)
    (hv : value.Legible) : (set target value).Told := by
  refine .of_mark (.set ht hv) ?_
  intro a' r s hmark ha' hr hs h
  cases ha' with
  | @set target' value' ht' hv' =>
      simp only [outline, String.toList_append, List.append_assoc] at h
      obtain ⟨rfl, hvalue⟩ := shown_reference ht ht' rfl rfl (List.append_cancel_left h)
      obtain ⟨rfl, hrest⟩ :=
        Expr.shown_outline hv hv' rfl rfl (List.append_cancel_left hvalue)
      exact ⟨rfl, List.append_cancel_left hrest⟩
  | _ => cases hmark

theorem told_alter {target : Reference} {op : ArithOp} {delta : Expr} (ht : target.WellFormed)
    (hd : delta.Legible) : (alter target op delta).Told := by
  refine .of_mark (.alter ht hd) ?_
  intro a' r s hmark ha' hr hs h
  cases ha' with
  | @alter target' op' delta' ht' hd' =>
      simp only [outline, String.toList_append, List.append_assoc] at h
      obtain ⟨rfl, hop⟩ := shown_reference ht ht' rfl rfl (List.append_cancel_left h)
      obtain ⟨rfl, hdelta⟩ := arithOp_append_inj (List.append_cancel_left hop)
      obtain ⟨rfl, hrest⟩ :=
        Expr.shown_outline hd hd' rfl rfl (List.append_cancel_left hdelta)
      exact ⟨rfl, List.append_cancel_left hrest⟩
  | _ => cases hmark

theorem told_swap {first second : Reference} (hfirst : first.WellFormed)
    (hsecond : second.WellFormed) : (swap first second).Told := by
  refine .of_mark (.swap hfirst hsecond) ?_
  intro a' r s hmark ha' hr hs h
  cases ha' with
  | @swap first' second' hfirst' hsecond' =>
      simp only [outline, String.toList_append, List.append_assoc] at h
      obtain ⟨rfl, hright⟩ := shown_reference hfirst hfirst' rfl rfl (List.append_cancel_left h)
      obtain ⟨rfl, hrest⟩ :=
        shown_reference hsecond hsecond' rfl rfl (List.append_cancel_left hright)
      exact ⟨rfl, List.append_cancel_left hrest⟩
  | _ => cases hmark

theorem told_call {func : String} {args : List Expr} (hfunc : IsName func)
    (hargs : ∀ a ∈ args, a.Legible) : (call func args).Told := by
  refine .of_mark (.call hfunc hargs) ?_
  intro a' r s hmark ha' hr hs h
  cases ha' with
  | @call func' args' hfunc' hargs' =>
      simp only [outline, String.toList_append, List.append_assoc] at h
      obtain ⟨rfl, rfl, hrs⟩ := Expr.call_append_inj hfunc hfunc' hargs
        (fun a ha => Expr.shown_outline (hargs a ha)) hargs' (List.append_cancel_left h)
      exact ⟨rfl, hrs⟩
  | _ => cases hmark

theorem told_cond {conds : List Expr} {branches : List Action} {o : Option Action}
    (ha : (cond conds branches o).Legible) (hconds : ∀ c ∈ conds, c.Legible)
    (hbranches : ∀ b ∈ branches, b.Told) (ho : ∀ b ∈ o, b.Told) : (cond conds branches o).Told := by
  refine .of_mark ha ?_
  intro a' r s hmark ha' hr hs h
  cases ha with
  | cond hne hlength _ _ _ =>
  cases ha' with
  | cond hne' hlength' hconds' hbranches' ho' =>
      rw [toList_outline_cond, toList_outline_cond, List.append_assoc, List.append_assoc] at h
      obtain ⟨harms, rfl, hrs⟩ := chain_append_inj
        (fun a ha => Expr.shown_outline (hconds a.1 (List.of_mem_zip ha).1))
        (fun a ha => hbranches a.2 (List.of_mem_zip ha).2) ho
        (fun a ha => ⟨hconds' a.1 (List.of_mem_zip ha).1, hbranches' a.2 (List.of_mem_zip ha).2⟩)
        ho' (zip_ne_nil hne hlength) (zip_ne_nil hne' hlength') hr hs h
      obtain ⟨rfl, rfl⟩ := zip_injective hlength hlength' harms
      exact ⟨rfl, hrs⟩
  | _ => cases hmark

theorem told_sequence {steps : List Action} (hlegible : ∀ a ∈ steps, a.Legible)
    (hsteps : ∀ a ∈ steps, a.Told) : (sequence steps).Told := by
  refine .of_mark (.sequence hlegible) ?_
  intro a' r s hmark ha' hr hs h
  cases ha' with
  | @sequence steps' hsteps' =>
      simp only [outline, outlineSteps_eq_map, String.toList_append, String.toList_intercalate,
        List.map_map, List.append_assoc] at h
      have hne (r s : List Char) : " ; ".toList ++ r ≠ " ]".toList ++ s := by simp
      obtain ⟨rfl, hrs⟩ := enclosed_append_inj (fun _ => rfl) (fun _ => rfl) hne
        (fun a r s ha => outline_append_ne_blank ha r _) hlegible hsteps hsteps'
        (List.append_cancel_left h)
      exact ⟨rfl, hrs⟩
  | _ => cases hmark

/-- The outline of an action shows of which action it is, and where it ends. -/
theorem shown_outline {a : Action} (ha : a.Legible) : a.Told := by
  induction ha with
  | set ht hv => exact told_set ht hv
  | alter ht hd => exact told_alter ht hd
  | swap hfirst hsecond => exact told_swap hfirst hsecond
  | cond hne hlength hconds hbranches ho ihbranches iho =>
      exact told_cond (.cond hne hlength hconds hbranches ho) hconds ihbranches iho
  | call hfunc hargs => exact told_call hfunc hargs
  | sequence hsteps ih => exact told_sequence hsteps ih

theorem outline_injective {a a' : Action} (ha : a.Legible) (ha' : a'.Legible)
    (h : a.outline = a'.outline) : a = a' := by
  have htext : a.outline.toList ++ [] = a'.outline.toList ++ [] := by rw [h]
  exact (shown_outline ha ha' rfl rfl htext).1

end Action

end AccessRules
