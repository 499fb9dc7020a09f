import AccessRules.Proofs.Typing.FirstCome

set_option autoImplicit false

/-! # Arguments of another type than their parameter

The run over all arguments looks at each of them once. An argument that has a type at that moment
keeps it, so if it is not the final type of its parameter this is reported. The one way to have no
type then and to have one in the end is to hand on a parameter whose own type only a later argument
fixes: such an argument is not looked at again. -/

namespace AccessRules

/-! ## Parameters that are handed on -/

/-- The argument is a parameter of the helper whose body the rule is, parentheses apart. -/
inductive Corpus.HandsOn (c : Corpus) (r : Rule) (own : Signature) (i : Nat) : Expr → Prop
  | ref {name : String} (hown : c.helperOf? r = some own) (hi : own.paramIndex? name = some i) :
      HandsOn c r own i (.ref { name })
  | paren {inner : Expr} (h : HandsOn c r own i inner) : HandsOn c r own i (.paren inner)

namespace Workspace

variable {w : Workspace} {contexts : ContextTable} {types types' : HelperTypes} {r : Rule}
  {own s : Signature} {i index n : Nat} {param : Param} {arg : Expr} {p : Passing}
  {used t : ArgType} {known : ParamType}

theorem refType?_of_param {name : String} (hown : w.corpus.helperOf? r = some own)
    (hi : own.paramIndex? name = some i) :
    w.refType? contexts types r name = (types.param? own.name i).map (·.type) := by
  delta refType?
  simp [hown, hi]

theorem refType?_of_not_param {name : String}
    (h : ∀ own, w.corpus.helperOf? r = some own → own.paramIndex? name = none) :
    w.refType? contexts types r name = w.refType? contexts types' r name := by
  delta refType?
  cases hown : w.corpus.helperOf? r with
  | none => rfl
  | some own => simp [h own hown]

/-- What is handed on has the type of the parameter that it is. -/
theorem argType?_of_handsOn (h : w.corpus.HandsOn r own i arg) :
    w.argType? contexts types r arg = (types.param? own.name i).map (·.type) := by
  induction h with
  | ref hown hi => rw [argType?_ref, refType?_of_param hown hi]
  | paren _ ih => exact ih

/-- The type of any other argument does not depend on those of parameters. -/
theorem handsOn_or_argType?_eq (contexts : ContextTable) (types types' : HelperTypes) (r : Rule)
    (arg : Expr) : (∃ own i, w.corpus.HandsOn r own i arg) ∨
      w.argType? contexts types r arg = w.argType? contexts types' r arg := by
  induction arg using Expr.children_induction with
  | step arg ih =>
      cases arg with
      | paren inner =>
          refine (ih inner (List.mem_singleton_self _)).imp ?_ id
          rintro ⟨own, i, h⟩
          exact ⟨own, i, .paren h⟩
      | ref ref =>
          obtain ⟨name, _ | q⟩ := ref
          · by_cases hparam : ∃ own i, w.corpus.helperOf? r = some own ∧
                own.paramIndex? name = some i
            · obtain ⟨own, i, hown, hi⟩ := hparam
              exact Or.inl ⟨own, i, .ref hown hi⟩
            · refine Or.inr (refType?_of_not_param fun own hown => ?_)
              by_contra hsome
              obtain ⟨i, hi⟩ := Option.ne_none_iff_exists'.1 hsome
              exact hparam ⟨own, i, hown, hi⟩
          · exact Or.inr rfl
      | _ => exact Or.inr rfl

/-! ## One argument -/

/-- The type that an argument has when it is looked at is the one it has in the end. -/
theorem argType?_helperTypes (hbuilt : w.corpus.Built) (hn : n ≤ w.passings.length)
    (h : w.argType? contexts (w.typesAfter contexts n) r arg = some used) :
    w.argType? contexts (w.helperTypes contexts).1 r arg = some used := by
  rcases handsOn_or_argType?_eq (w := w) contexts (w.typesAfter contexts n)
    (w.helperTypes contexts).1 r arg with ⟨own, i, hon⟩ | heq
  · rw [argType?_of_handsOn hon] at h ⊢
    obtain ⟨known, hknown, rfl⟩ := Option.map_eq_some_iff.1 h
    rw [typesAfter_le_helperTypes hbuilt hn hknown, Option.map_some]
  · rw [← heq, h]

end Workspace

/-- The helper that the problem with an argument is about, with the position and the name of the
    parameter. -/
def Problem.passedFor? : Problem → Option (String × Nat × String)
  | .leafArgument helper index param _ => some (helper, index, param)
  | .placeDepth helper index param _ _ _ _ => some (helper, index, param)
  | .paramConflict helper index param _ _ _ => some (helper, index, param)
  | _ => none

theorem Workspace.passedFor?_argumentProblem (helper : String) (index : Nat) (param : String)
    (known : ParamType) (used : ArgType) (arg : Expr) :
    (argumentProblem helper index param known used arg).passedFor?
      = some (helper, index, param) := by
  unfold argumentProblem
  split <;> rfl

/-- The diagnostic is an error of the rule about the type of an argument for the parameter. -/
structure Diagnostic.RefusesArgument (d : Diagnostic) (rule : String) (s : Signature) (index : Nat)
    (param : Param) : Prop where
  rule : d.rule = rule
  severity : d.severity = .error
  kind : d.problem.kind = .typeConflict ∨ d.problem.kind = .placeDepth
  param : d.problem.passedFor? = some (s.name, index, param.name)

namespace Workspace

variable {w : Workspace} {contexts : ContextTable} {r : Rule} {own s : Signature} {i index n : Nat}
  {param : Param} {arg : Expr} {p : Passing} {used t : ArgType} {known : ParamType} {d : Diagnostic}

/-- The argument at a position has a type when it is looked at, and it is not the final one of its
    parameter, or it is a place below a spot. -/
def RefusedAt (w : Workspace) (contexts : ContextTable) (n : Nat) (p : Passing) : Prop :=
  w.passings[n]? = some p ∧
    ∃ used, w.argType? contexts (w.typesAfter contexts n) p.rule p.arg = some used ∧
      (p.arg.isLeafLiteral = true ∨ ∀ known,
        (w.helperTypes contexts).1.param? p.helper.name p.index = some known → known.type ≠ used)

theorem saidAt_eq (hp : w.passings[n]? = some p) :
    w.saidAt contexts n = Event.diagnostics (w.pass contexts (w.typesAfter contexts n) p).2 := by
  rw [saidAt, hp]
  rfl

/-- What an argument offers has a parameter to take it. -/
theorem exists_final_of_offer (hbuilt : w.corpus.Built) (hp : w.passings[n]? = some p)
    {offer : ParamType} (h : w.offer? contexts (w.typesAfter contexts n) p = some offer) :
    ∃ known, (w.helperTypes contexts).1.param? p.helper.name p.index = some known := by
  have hlt : n < w.passings.length := (List.getElem?_eq_some_iff.1 hp).1
  have hfits := fits_of_mem_passings hbuilt (List.mem_of_getElem? hp)
  have hnext : (w.typesAfter contexts (n + 1)).param? p.helper.name p.index
      = ((w.typesAfter contexts n).param? p.helper.name p.index).or (some offer) := by
    rw [typesAfter_succ w contexts hp, param?_pass (fits_typesAfter n) hfits, if_pos ⟨rfl, rfl⟩, h]
  cases hslot : (w.typesAfter contexts n).param? p.helper.name p.index with
  | none =>
      rw [hslot, Option.none_or] at hnext
      exact ⟨offer, typesAfter_le_helperTypes hbuilt hlt hnext⟩
  | some earlier => exact ⟨earlier, typesAfter_le_helperTypes hbuilt (Nat.le_of_lt hlt) hslot⟩

/-- What is said of an argument is that it is refused. -/
theorem refusedAt_of_mem_saidAt (hbuilt : w.corpus.Built) (h : d ∈ w.saidAt contexts n) :
    ∃ p, w.RefusedAt contexts n p ∧ d.RefusesArgument p.rule.name p.helper p.index p.param := by
  cases hp : w.passings[n]? with
  | none => simp [saidAt, hp] at h
  | some p =>
      cases hused : w.argType? contexts (w.typesAfter contexts n) p.rule p.arg with
      | none =>
          rw [saidAt_eq hp, pass, hused] at h
          cases h
      | some used =>
          by_cases hleaf : p.arg.isLeafLiteral = true
          · refine ⟨p, ⟨hp, used, hused, Or.inl hleaf⟩, ?_⟩
            cases harg : p.arg with
            | place path =>
                rw [saidAt_eq hp, pass_leaf harg hleaf] at h
                obtain rfl := List.mem_singleton.1 h
                exact ⟨rfl, rfl, Or.inr rfl, rfl⟩
            | _ => simp [harg, Expr.isLeafLiteral] at hleaf
          · have hoffer : w.offer? contexts (w.typesAfter contexts n) p
                = some ⟨used, p.rule.name⟩ :=
              offer?_eq_some_iff.2 ⟨Bool.eq_false_iff.2 hleaf, hused, rfl⟩
            obtain ⟨known, hknown⟩ := exists_final_of_offer hbuilt hp hoffer
            rw [saidAt_of_offer hbuilt hp hoffer hknown] at h
            split at h
            · cases h
            · rename_i hne
              obtain rfl := List.mem_singleton.1 h
              refine ⟨p, ⟨hp, used, hused, Or.inr fun known' hknown' => ?_⟩, rfl,
                severity_argumentProblem .., kind_argumentProblem .., passedFor?_argumentProblem ..⟩
              rw [hknown] at hknown'
              rwa [← Option.some.inj hknown']

/-- Of an argument that is refused this is said. -/
theorem RefusedAt.exists_mem_saidAt (hbuilt : w.corpus.Built) (h : w.RefusedAt contexts n p) :
    ∃ d ∈ w.saidAt contexts n, d.RefusesArgument p.rule.name p.helper p.index p.param := by
  obtain ⟨hp, used, hused, hrefused⟩ := h
  by_cases hleaf : p.arg.isLeafLiteral = true
  · cases harg : p.arg with
    | place path =>
        rw [saidAt_eq hp, pass_leaf harg hleaf]
        exact ⟨_, List.mem_singleton_self _, rfl, rfl, Or.inr rfl, rfl⟩
    | _ => simp [harg, Expr.isLeafLiteral] at hleaf
  · have hoffer : w.offer? contexts (w.typesAfter contexts n) p = some ⟨used, p.rule.name⟩ :=
      offer?_eq_some_iff.2 ⟨Bool.eq_false_iff.2 hleaf, hused, rfl⟩
    obtain ⟨known, hknown⟩ := exists_final_of_offer hbuilt hp hoffer
    rw [saidAt_of_offer hbuilt hp hoffer hknown, if_neg (hrefused.resolve_left hleaf known hknown)]
    exact ⟨_, List.mem_singleton_self _, rfl, severity_argumentProblem .., kind_argumentProblem ..,
      passedFor?_argumentProblem ..⟩

/-! ## The whole run -/

/-- The rule reports the type of an argument for the parameter. -/
def Refuses (w : Workspace) (contexts : ContextTable) (r : Rule) (s : Signature) (index : Nat)
    (param : Param) : Prop :=
  ∃ d ∈ Event.diagnostics (w.helperTypes contexts).2, d.RefusesArgument r.name s index param

/-- Whatever argument of a call of a helper with the right number of them has another final type
    than its parameter, the rule reports it. -/
def ReportsMismatches (w : Workspace) (contexts : ContextTable) (r : Rule) (func : String)
    (args : List Expr) : Prop :=
  ∀ (s : Signature) (index : Nat) (param : Param) (arg : Expr) (t : ArgType) (known : ParamType),
    w.corpus.helpers.find? func = some s → s.params.length = args.length →
    s.params[index]? = some param → args[index]? = some arg →
    w.argType? contexts (w.helperTypes contexts).1 r arg = some t →
    (w.helperTypes contexts).1.param? s.name index = some known →
    t = known.type ∨ w.Refuses contexts r s index param

theorem mem_typeErrors_iff {d : Diagnostic} : d ∈ Event.typeErrors (w.helperTypes contexts).2 ↔
    ∃ n < w.passings.length, d ∈ w.saidAt contexts n := by
  simp only [typeErrors_helperTypes, List.mem_flatMap, List.mem_range]

/-- A rule reports a parameter exactly if it passes an argument for it that is refused when it is
    looked at. -/
theorem refuses_iff (hbuilt : w.corpus.Built) (hr : r ∈ w.corpus.rules.values)
    (hs : w.corpus.helpers.find? s.name = some s) (hparam : s.params[index]? = some param) :
    w.Refuses contexts r s index param ↔
      ∃ n arg, w.RefusedAt contexts n ⟨r, s, index, param, arg⟩ := by
  constructor
  · rintro ⟨d, hd, hrefuses⟩
    have herror : d ∈ Event.typeErrors (w.helperTypes contexts).2 := by
      refine List.mem_filter.2 ⟨hd, decide_eq_true ?_⟩
      rcases hrefuses.kind with hkind | hkind <;> simp [hkind, typeKinds]
    obtain ⟨n, -, hsaid⟩ := mem_typeErrors_iff.1 herror
    obtain ⟨p, hp, hd'⟩ := refusedAt_of_mem_saidAt hbuilt hsaid
    -- what is said names the rule, the helper and the position, and these fix all but the argument
    have hmem := List.mem_of_getElem? hp.1
    have hrule : p.rule = r :=
      hbuilt.eq_of_name_eq (mem_passings_iff.1 hmem).1 hr (hd'.rule.symm.trans hrefuses.rule)
    have hfor := hd'.param.symm.trans hrefuses.param
    simp only [Option.some.injEq, Prod.mk.injEq] at hfor
    have hfits := fits_of_mem_passings hbuilt hmem
    have hhelper : p.helper = s := by
      have hfind := hfits.helper
      rw [hfor.1, hs] at hfind
      exact (Option.some.inj hfind).symm
    have hfound := hfits.param
    rw [hhelper, hfor.2.1, hparam] at hfound
    obtain ⟨rule, helper, index', param', arg⟩ := p
    obtain rfl : rule = r := hrule
    obtain rfl : helper = s := hhelper
    obtain rfl : index' = index := hfor.2.1
    obtain rfl : param = param' := Option.some.inj hfound
    exact ⟨n, arg, hp⟩
  · rintro ⟨n, arg, hrefused⟩
    obtain ⟨d, hd, hrefuses⟩ := hrefused.exists_mem_saidAt hbuilt
    have hlt : n < w.passings.length := (List.getElem?_eq_some_iff.1 hrefused.1).1
    have herror := mem_typeErrors_iff.2 ⟨n, hlt, hd⟩
    exact ⟨d, (List.mem_filter.1 herror).1, hrefuses⟩

/-- An argument of a type of its own is refused if its parameter ends with another type. -/
theorem refusedAt_of_ne (hbuilt : w.corpus.Built) (hp : w.passings[n]? = some p)
    (hsome : (w.argType? contexts (w.typesAfter contexts n) p.rule p.arg).isSome)
    (ht : w.argType? contexts (w.helperTypes contexts).1 p.rule p.arg = some t)
    (hknown : (w.helperTypes contexts).1.param? p.helper.name p.index = some known)
    (hne : t ≠ known.type) : w.RefusedAt contexts n p := by
  have hlt : n < w.passings.length := (List.getElem?_eq_some_iff.1 hp).1
  obtain ⟨used, hused⟩ := Option.isSome_iff_exists.1 hsome
  have hfinal := argType?_helperTypes hbuilt (Nat.le_of_lt hlt) hused
  rw [ht] at hfinal
  obtain rfl := Option.some.inj hfinal
  refine ⟨hp, t, hused, Or.inr fun known' hknown' heq => hne ?_⟩
  rw [hknown] at hknown'
  rw [Option.some.inj hknown', heq]

end Workspace

/-- Whatever call of a helper a rule makes with the right number of arguments, an argument whose
    final type is not that of its parameter is reported for the rule, unless it hands on a parameter
    that had no type yet each time the argument was looked at. What is reported of a parameter are
    the arguments that are refused when they are looked at. Where no condition and no branch of the
    rule lacks a partner no call is overlooked, and in a tree from a text none does. -/
theorem mismatch_reported_unless_handed_on_early {w : Workspace} (contexts : ContextTable)
    (hbuilt : w.corpus.Built) {r : Rule} (hr : r ∈ w.corpus.rules.values) :
    (∀ file text isAction, Corpus.parseBody file text isAction = .ok r.body → r.body.Paired) ∧
    (r.body.Paired → ∀ func args, r.body.HasCall func args →
      ⟨func, args⟩ ∈ r.body.callsInOrder) ∧
    ∀ func args, ⟨func, args⟩ ∈ r.body.callsInOrder →
    ∀ s, w.corpus.helpers.find? func = some s → s.params.length = args.length →
    ∀ index param arg, s.params[index]? = some param → args[index]? = some arg →
      (w.Refuses contexts r s index param ↔
        ∃ n arg', w.RefusedAt contexts n ⟨r, s, index, param, arg'⟩) ∧
      ∀ t known, w.argType? contexts (w.helperTypes contexts).1 r arg = some t →
        (w.helperTypes contexts).1.param? s.name index = some known →
        t = known.type ∨ w.Refuses contexts r s index param ∨
          ∃ own i, w.corpus.HandsOn r own i arg ∧
            ∀ n, w.passings[n]? = some ⟨r, s, index, param, arg⟩ →
              (w.typesAfter contexts n).param? own.name i = none := by
  refine ⟨fun file text isAction hbody => (Body.formed_of_parseBody hbody).paired,
    fun hpaired func args => (Body.mem_callsInOrder_iff hpaired).2, ?_⟩
  intro func args hcall s hs hlength index param arg hparam harg
  have hname : w.corpus.helpers.find? s.name = some s := by rw [hbuilt.helper_name hs, hs]
  have hrefuses : w.Refuses contexts r s index param ↔
      ∃ n arg', w.RefusedAt contexts n ⟨r, s, index, param, arg'⟩ :=
    Workspace.refuses_iff hbuilt hr hname hparam
  refine ⟨hrefuses, fun t known ht hknown => ?_⟩
  by_cases heq : t = known.type
  · exact Or.inl heq
  refine Or.inr ?_
  by_cases hearly : ∀ n, w.passings[n]? = some ⟨r, s, index, param, arg⟩ →
      w.argType? contexts (w.typesAfter contexts n) r arg = none
  · -- an argument that has no type when it is looked at and has one in the end is handed on
    have hpassed : (⟨r, s, index, param, arg⟩ : Passing) ∈ w.passings :=
      Workspace.mem_passings_iff.2 ⟨hr, func, args, hcall, hs, hlength, hparam, harg⟩
    obtain ⟨n, hn⟩ := List.mem_iff_getElem?.1 hpassed
    rcases Workspace.handsOn_or_argType?_eq (w := w) contexts (w.typesAfter contexts n)
      (w.helperTypes contexts).1 r arg with ⟨own, i, hon⟩ | hsame
    · refine Or.inr ⟨own, i, hon, fun m hm => ?_⟩
      have hnone := hearly m hm
      rwa [Workspace.argType?_of_handsOn hon, Option.map_eq_none_iff] at hnone
    · rw [hearly n hn, ht] at hsame
      cases hsame
  · obtain ⟨n, hn⟩ := not_forall.1 hearly
    obtain ⟨hp, hsome⟩ := Classical.not_imp.1 hn
    refine Or.inl (hrefuses.2 ⟨n, arg, ?_⟩)
    exact Workspace.refusedAt_of_ne hbuilt hp (Option.isSome_iff_ne_none.2 hsome) ht hknown heq

/-- A helper `$far(^to: Int)`, which hands on its parameter. -/
def farIntSignature : Signature where
  name := "far"
  params := [{ name := "to", type := some .int }]

/-- A helper `$near(^at: Area)`. -/
def nearAreaSignature : Signature where
  name := "near"
  params := [{ name := "at", type := some (.place .area) }]

/-- The body of `$far`. -/
def handOnBody : Body := .requirement (.invoke "near" [.ref { name := "to" }] false)

def farRule : Rule := { name := "helpers:far", body := handOnBody }

def nearRule : Rule := { name := "helpers:near", body := nearBody }

/-- Two helpers that declare the types of their parameters, one of which calls the other. -/
def harbour : Workspace where
  catalog := {}
  corpus := {
    rules := .ofList [("helpers:far", farRule), ("helpers:near", nearRule)]
    helpers := .ofList [("far", farIntSignature), ("near", nearAreaSignature)] }

theorem harbour_built : harbour.corpus.Built := by
  have hfar : Corpus.addHelper {} "$far(^to: Int)" handOnBody
      = .ok ⟨.ofList [("helpers:far", farRule)], .ofList [("far", farIntSignature)]⟩ :=
    Corpus.addHelper_eq_ok_iff.2 ⟨farIntSignature, rfl, rfl, rfl, rfl⟩
  have hnear : Corpus.addHelper
      ⟨.ofList [("helpers:far", farRule)], .ofList [("far", farIntSignature)]⟩
      "$near(^at: Area)" nearBody = .ok harbour.corpus :=
    Corpus.addHelper_eq_ok_iff.2 ⟨nearAreaSignature, rfl, rfl, rfl, rfl⟩
  exact .helper (.helper .empty hfar) hnear

theorem handOnBody_calls :
    handOnBody.callsInOrder = [⟨"near", [.ref { name := "to" }]⟩] := by
  rw [← Body.calls_eq]
  rfl

theorem harbour_passings : harbour.passings = [⟨farRule, nearAreaSignature, 0,
    { name := "at", type := some (.place .area) }, .ref { name := "to" }⟩] := by
  rw [Workspace.passings]
  simp only [← Body.calls_eq]
  rfl

/-- The declared type of a parameter that is handed on counts. -/
theorem harbour_refuses :
    harbour.corpus.Built ∧ farRule ∈ harbour.corpus.rules.values ∧
      harbour.argType? ∅ (harbour.helperTypes ∅).1 farRule (.ref { name := "to" }) = some .int ∧
      (harbour.helperTypes ∅).1.param? "near" 0 = some ⟨.place .area, declaredSite⟩ ∧
      harbour.Refuses ∅ farRule nearAreaSignature 0
        { name := "at", type := some (.place .area) } := by
  have hr : farRule ∈ harbour.corpus.rules.values := List.mem_cons_self ..
  have ht : harbour.argType? ∅ (harbour.helperTypes ∅).1 farRule (.ref { name := "to" })
      = some .int := rfl
  have hknown : (harbour.helperTypes ∅).1.param? "near" 0
      = some ⟨.place .area, declaredSite⟩ := rfl
  refine ⟨harbour_built, hr, ht, hknown, ?_⟩
  obtain ⟨-, -, hcalls⟩ := mismatch_reported_unless_handed_on_early ∅ harbour_built hr
  have hcall : ⟨"near", [.ref { name := "to" }]⟩ ∈ farRule.body.callsInOrder := by
    show _ ∈ handOnBody.callsInOrder
    rw [handOnBody_calls]
    exact List.mem_singleton_self _
  obtain ⟨-, hsettled⟩ := hcalls _ _ hcall nearAreaSignature rfl rfl 0 _ _ rfl rfl
  rcases hsettled _ _ ht hknown with heq | hrefuses | ⟨own, i, hon, hearly⟩
  · cases heq
  · exact hrefuses
  · -- the parameter has its declared type from the start
    cases hon with
    | ref hown hi =>
        obtain rfl : farIntSignature = own := Option.some.inj hown
        obtain rfl : 0 = i := Option.some.inj hi
        have hnone := hearly 0 (by rw [harbour_passings]; rfl)
        cases hnone

/-- A rule that calls `$far` with a number. -/
def coveRule : Rule where
  name := "rules:cove"
  body := .requirement (.invoke "far" [.int 3] false)

/-- One rule passes an area to `$near`, and another one a number to `$far`, which hands it on to
    `$near`. -/
def inlet : Workspace where
  catalog := {}
  corpus := {
    rules := .ofList [("rules:beach", beachRule), ("rules:cove", coveRule),
      ("helpers:near", nearRule), ("helpers:far", farRule)]
    helpers := .ofList [("near", nearSignature), ("far", farSignature)] }

theorem inlet_built : inlet.corpus.Built := by
  have hrules : Corpus.Built
      { rules := .ofList [("rules:beach", beachRule), ("rules:cove", coveRule)] } :=
    .rule (r := coveRule) (.rule (r := beachRule) .empty rfl) rfl
  have hnear : Corpus.addHelper
      { rules := .ofList [("rules:beach", beachRule), ("rules:cove", coveRule)] }
      "$near(^at)" nearBody = .ok ⟨.ofList [("rules:beach", beachRule), ("rules:cove", coveRule),
        ("helpers:near", nearRule)], .ofList [("near", nearSignature)]⟩ :=
    Corpus.addHelper_eq_ok_iff.2 ⟨nearSignature, rfl, rfl, rfl, rfl⟩
  have hfar : Corpus.addHelper ⟨.ofList [("rules:beach", beachRule), ("rules:cove", coveRule),
      ("helpers:near", nearRule)], .ofList [("near", nearSignature)]⟩
      "$far(^to)" handOnBody = .ok inlet.corpus :=
    Corpus.addHelper_eq_ok_iff.2 ⟨farSignature, rfl, rfl, rfl, rfl⟩
  exact .helper (.helper hrules hnear) hfar

/-- A rule with a branch that has no condition, in which `$near` is called with a number. -/
def reefRule : Rule where
  name := "rules:reef"
  body := .requirement (.ifThenElse [] [.invoke "near" [.int 3] false] none)

/-- The branch without a condition calls a helper that declares another type. -/
def reef : Workspace where
  catalog := {}
  corpus := {
    rules := .ofList [("rules:reef", reefRule), ("helpers:near", nearRule)]
    helpers := .ofList [("near", nearAreaSignature)] }

theorem reef_built : reef.corpus.Built := by
  have hrule : Corpus.Built { rules := .ofList [("rules:reef", reefRule)] } :=
    .rule (r := reefRule) .empty rfl
  have hnear : Corpus.addHelper { rules := .ofList [("rules:reef", reefRule)] }
      "$near(^at: Area)" nearBody = .ok reef.corpus :=
    Corpus.addHelper_eq_ok_iff.2 ⟨nearAreaSignature, rfl, rfl, rfl, rfl⟩
  exact .helper hrule hnear

/-- A number is handed on to a parameter that takes an area, in rules of the right shape, and
    nothing is said of it. Nothing is said either of a number that is not handed on but passed in a
    branch without a condition. -/
theorem mismatches_escape :
    (¬ ∀ (w : Workspace) (contexts : ContextTable) (r : Rule) (func : String) (args : List Expr),
      w.corpus.Built → (∀ r ∈ w.corpus.rules.values, r.body.misshapen? = none) →
      r ∈ w.corpus.rules.values → r.body.HasCall func args →
      w.ReportsMismatches contexts r func args) ∧
    ¬ ∀ (w : Workspace) (contexts : ContextTable) (r : Rule) (func : String) (args : List Expr),
      w.corpus.Built → (∀ own i, ∀ arg ∈ args, ¬ w.corpus.HandsOn r own i arg) →
      r ∈ w.corpus.rules.values → r.body.HasCall func args →
      w.ReportsMismatches contexts r func args := by
  constructor
  · intro h
    have hshape : ∀ r ∈ inlet.corpus.rules.values, r.body.misshapen? = none :=
      List.forall_mem_cons.2 ⟨rfl, List.forall_mem_cons.2 ⟨rfl, List.forall_mem_cons.2
        ⟨rfl, List.forall_mem_singleton.2 rfl⟩⟩⟩
    have hsilent : Event.diagnostics (inlet.helperTypes ∅).2 = [] := rfl
    have hcall : farRule.body.HasCall "near" [.ref { name := "to" }] :=
      Or.inr (Or.inr ⟨false, .here⟩)
    rcases h inlet ∅ farRule _ _ inlet_built hshape (List.mem_cons_self ..) hcall nearSignature 0 _ _
      _ _ rfl rfl rfl rfl rfl rfl with heq | ⟨d, hd, -⟩
    · cases heq
    · rw [hsilent] at hd
      cases hd
  · intro h
    have hsilent : Event.diagnostics (reef.helperTypes ∅).2 = [] := rfl
    have hcall : reefRule.body.HasCall "near" [.int 3] :=
      Or.inr (Or.inr ⟨false, .inside (List.mem_cons_self ..) .here⟩)
    have hown : ∀ own i, ∀ arg ∈ [Expr.int 3], ¬ reef.corpus.HandsOn reefRule own i arg := by
      intro own i
      refine List.forall_mem_singleton.2 ?_
      rintro ⟨⟩
    have hrule : reefRule ∈ reef.corpus.rules.values :=
      List.mem_cons_of_mem _ (List.mem_cons_self ..)
    rcases h reef ∅ reefRule _ _ reef_built hown hrule hcall nearAreaSignature 0 _ _ _ _ rfl rfl rfl
      rfl rfl rfl with heq | ⟨d, hd, -⟩
    · cases heq
    · rw [hsilent] at hd
      cases hd

end AccessRules
