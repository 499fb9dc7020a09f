import AccessRules.Proofs.Grammar.Completeness

set_option autoImplicit false

/-! # Every action of the grammar is read back

The counterpart of `reads_expr` for action bodies. A step stops where an expression would, a block
stops at the same words and at a semicolon, and blocks inside a step are read by a reader with a
bound on its depth. -/

namespace AccessRules.Grammar

open Parse

variable {block : Parse Action}

/-! ## Steps -/

theorem reads_assignment {target : Reference} {more : List Lexeme} {a : Action}
    (h : Reads (Stops wholeStops) assignment (target.lexemes ++ more) a) :
    Reads (Stops wholeStops) (action block) (target.lexemes ++ more) a := by
  obtain ⟨ls, hls⟩ := exists_lexemes_eq_cons target
  rw [hls] at h ⊢
  exact Reads.word (.ite_pos rfl h)

theorem reads_assign {target : Reference} {value : Expr} (ht : target.WellFormed)
    (hv : Derives False (.whole .value) value) :
    Reads (Stops wholeStops) (action block) (Action.set target value).lexemes
      (.set target value) := by
  refine reads_assignment ((reads_reference ht).before (Reads.word ?_) rfl (by decide))
  exact takes_advance.then (reads_expr hv).map

theorem assignment?_text (op : ArithOp) : assignment? (op.text ++ "=") = some (some op) := by
  cases op <;> rfl

theorem reads_alter {target : Reference} {delta : Expr} (ht : target.WellFormed) (op : ArithOp)
    (hd : Derives False (.whole .value) delta) :
    Reads (Stops wholeStops) (action block) (Action.alter target op delta).lexemes
      (.alter target op delta) := by
  refine reads_assignment ((reads_reference ht).before (Reads.word ?_) rfl ?_)
  · rw [show (Lexeme.symbol (op.text ++ "=")).word = op.text ++ "=" from rfl, assignment?_text]
    exact takes_advance.then (reads_expr hd).map
  · cases op <;> decide

theorem reads_swap {first second : Reference} (hfirst : first.WellFormed)
    (hsecond : second.WellFormed) :
    Reads (Stops wholeStops) (action block) (Action.swap first second).lexemes
      (.swap first second) := by
  rw [Action.lexemes, List.append_assoc]
  refine Reads.word (.ite_neg (by decide) (.ite_pos rfl (takes_advance.then ?_)))
  refine (takes_expect rfl).then ((reads_reference hfirst).before ?_ rfl (by decide))
  refine (takes_expect rfl).then ((reads_reference hsecond).before ?_ rfl (by decide))
  exact (takes_expect rfl).then .pure

theorem reads_actionCall {func : String} {args : List Expr} (hfunc : IsName func)
    (hargs : ∀ a ∈ args, Derives False (.whole .value) a) :
    Reads (Stops wholeStops) (action block) (Action.call func args).lexemes (.call func args) := by
  rw [Action.lexemes, lexemesAll_eq_map]
  refine Reads.word (.ite_neg (by decide) (.ite_neg (by decide) (.ite_neg (by decide) ?_)))
  refine .ite_pos rfl (takes_advance.then ((takes_ident hfunc).then (Reads.map ?_)))
  exact reads_args (fun a ha => reads_expr (hargs a ha)) fun a ha => opens_of_derives (hargs a ha)

/-- The words that go on with a block. -/
def blockStops : List String := ";" :: wholeStops

theorem reads_cond {arms : List (Expr × Action)} {otherwise : Option Action} (hne : arms ≠ [])
    (h : ReadsArms expr block blockStops Action.lexemes arms otherwise) :
    Reads (Stops wholeStops) (action block)
      (Action.cond (arms.map (·.1)) (arms.map (·.2)) otherwise).lexemes
      (.cond (arms.map (·.1)) (arms.map (·.2)) otherwise) := by
  have hread := (reads_conditional hne h (by decide)).mono fun ts (hts : Stops wholeStops ts) =>
    hts.mono (by decide)
  rw [Action.lexemes_cond, zip_lexemes]
  refine Reads.word (.ite_neg (by decide) (.ite_neg (by decide) (.ite_pos rfl ?_)))
  exact takes_advance.then hread.map

/-! ## Blocks -/

/-- A step and what divides it from the next one. -/
def divided (block : Parse Action) (steps : List Action) :
    Parse (Round (List Action) (List Action)) := do
  let a ← action block
  if (← word) = ";" then
    advance
    return .again (steps ++ [a])
  return .done (steps ++ [a])

/-- The round in which another step is read. -/
def stepRound (block : Parse Action) (steps : List Action) :
    Parse (Round (List Action) (List Action)) := do
  if (← kind) = .eof || (← word) = "\x7d" then return .done steps
  divided block steps

/-- The tokens with which steps start. -/
def stepStarts : List Lexeme :=
  [.symbol "^", .ident "SWAP", .ident "IF", .symbol "$"]

/-- What is needed of a step of a block. -/
structure ReadsStep (block : Parse Action) (a : Action) : Prop where
  start : ∃ x more, a.lexemes = x :: more ∧ x ∈ stepStarts
  reads : Reads (Stops wholeStops) (action block) a.lexemes a

theorem ReadsStep.round {a : Action} (h : ReadsStep block a) {steps : List Action}
    {S : Tokens → Prop} {ls : List Lexeme} {r : Round (List Action) (List Action)}
    (hmore : Reads S (divided block steps) (a.lexemes ++ ls) r) :
    Reads S (stepRound block steps) (a.lexemes ++ ls) r := by
  obtain ⟨x, more, hcons, hx⟩ := h.start
  rw [hcons] at hmore ⊢
  refine Reads.kind (Reads.word (.ite_neg ?_ hmore))
  simp only [stepStarts, List.mem_cons, List.not_mem_nil, or_false] at hx
  rcases hx with rfl | rfl | rfl | rfl <;> decide

theorem ReadsStep.round_next {a : Action} (h : ReadsStep block a) (steps : List Action) :
    Reads (fun _ => True) (stepRound block steps) (a.lexemes ++ [.symbol ";"])
      (.again (steps ++ [a])) := by
  refine h.round (h.reads.before (Reads.word (.ite_pos rfl ?_)) rfl (by decide))
  exact takes_advance.then .pure

theorem ReadsStep.round_last {a : Action} (h : ReadsStep block a) (steps : List Action) :
    Reads (Stops blockStops) (stepRound block steps) a.lexemes (.done (steps ++ [a])) := by
  have hdivided : Reads (Stops blockStops) (divided block steps) a.lexemes
      (.done (steps ++ [a])) := by
    refine (h.reads.mono fun ts hts => hts.mono (by decide)).bind_nil ?_
    refine Reads.word_end fun w hw => ?_
    exact .ite_neg (fun heq => hw (heq ▸ by decide)) .pure
  rw [← List.append_nil a.lexemes] at hdivided ⊢
  exact h.round hdivided

theorem reads_actionList {steps : List Action} (hne : steps ≠ [])
    (h : ∀ a ∈ steps, ReadsStep block a) :
    Reads (Stops blockStops) (actionList block)
      ([Lexeme.symbol ";"].intercalate (steps.map Action.lexemes)) steps := by
  -- the steps read so far are carried along
  have hrounds : ∀ (before : List Action) (ts rest : Tokens),
      ts.Spells ([Lexeme.symbol ";"].intercalate (steps.map Action.lexemes)) rest →
      Legible rest → Stops blockStops rest →
      iterate (stepRound block) before ts = .ok (before ++ steps, rest) := by
    induction steps with
    | nil => exact absurd rfl hne
    | cons a steps ih =>
        intro before ts rest hspells hlegible hS
        have ha := h a List.mem_cons_self
        cases steps with
        | nil =>
            rw [List.map_singleton, List.intercalate_singleton] at hspells
            exact iterate_done (ha.round_last before ts rest hspells hlegible hS)
        | cons b steps =>
            rw [List.map_cons, List.map_cons, List.intercalate_cons_cons] at hspells
            obtain ⟨mid, hfirst, hmore⟩ := hspells.append_inv
            have hmid : Legible mid := legible_of_spells hmore hlegible
            refine iterate_again (ha.round_next before ts mid hfirst hmid trivial) ?_ ?_
            · rw [hfirst.length_eq]
              simp
            · have hrest := ih (by simp) (fun x hx => h x (List.mem_cons_of_mem a hx))
                (before ++ [a]) mid rest hmore hlegible hS
              rw [hrest]
              simp
  intro ts rest hspells hlegible hS
  exact hrounds [] ts rest hspells hlegible hS

theorem reads_single {inner : Unit → Parse Action} {a : Action} (h : ReadsStep (inner ()) a) :
    Reads (Stops blockStops) (blockWith inner ()) a.lexemes a := by
  have hlist := reads_actionList (List.cons_ne_nil a [])
    fun b hb => List.mem_singleton.1 hb ▸ h
  rw [List.map_singleton, List.intercalate_singleton] at hlist
  exact hlist.bind_nil .pure

theorem reads_sequence {inner : Unit → Parse Action} {steps : List Action}
    (hlen : 2 ≤ steps.length) (h : ∀ a ∈ steps, ReadsStep (inner ()) a) :
    Reads (Stops blockStops) (blockWith inner ()) (Action.sequence steps).lexemes
      (.sequence steps) := by
  obtain ⟨a, b, more, rfl⟩ : ∃ a b more, steps = a :: b :: more := by
    rcases steps with _ | ⟨a, _ | ⟨b, more⟩⟩
    · simp at hlen
    · simp at hlen
    · exact ⟨a, b, more, rfl⟩
  rw [Action.lexemes, lexemesSteps_eq_map]
  exact (reads_actionList (by simp) h).bind_nil .pure

/-! ## All actions -/

/-- What is needed of an action when the blocks inside are read by `inner`. -/
def ReadsActionAt (inner : Unit → Parse Action) : Extent → Action → Prop
  | .step, a => ReadsStep (inner ()) a
  | .block, a => Reads (Stops blockStops) (blockWith inner ()) a.lexemes a

/-- The action is read by a reader that has a depth of one less than there are tokens. -/
def ReadsActionDeep (x : Extent) (a : Action) : Prop :=
  ∀ d, a.lexemes.length ≤ d + 1 → ReadsActionAt (nestedTo blockWith d) x a

theorem exists_stepStart {F : Prop} {a : Action} (h : DerivesAction F .step a) :
    ∃ x more, a.lexemes = x :: more ∧ x ∈ stepStarts := by
  cases h with
  | @set target value ht hv =>
      obtain ⟨ls, hls⟩ := exists_lexemes_eq_cons target
      exact ⟨_, _, by rw [Action.lexemes, hls, List.cons_append], by decide⟩
  | @alter target delta ht op hd =>
      obtain ⟨ls, hls⟩ := exists_lexemes_eq_cons target
      exact ⟨_, _, by rw [Action.lexemes, hls, List.cons_append], by decide⟩
  | swap hfirst hsecond => exact ⟨_, _, rfl, by decide⟩
  | cond hne hconds hbranches hotherwise => exact ⟨_, _, Action.lexemes_cond _ _ _, by decide⟩
  | call hfunc hargs => exact ⟨_, _, rfl, by decide⟩

theorem length_pos_of_derivesAction {F : Prop} {a : Action} (h : DerivesAction F .block a) :
    0 < a.lexemes.length := by
  cases h with
  | single ha =>
      obtain ⟨x, more, hcons, -⟩ := exists_stepStart ha
      simp [hcons]
  | @sequence steps hlen hsteps =>
      obtain ⟨b, hb⟩ := List.exists_mem_of_length_pos (Nat.zero_lt_of_lt hlen)
      obtain ⟨x, more, hcons, -⟩ := exists_stepStart (hsteps b hb)
      have hle := length_le_intercalate [.symbol ";"] (List.mem_map_of_mem (f := Action.lexemes) hb)
      rw [hcons, List.length_cons] at hle
      rw [Action.lexemes, lexemesSteps_eq_map]
      omega

/-- A block inside an action, which has more tokens. -/
theorem ReadsActionDeep.inside {a : Action} (h : ReadsActionDeep .block a)
    (hpos : 0 < a.lexemes.length) {d : Nat} (hlen : a.lexemes.length ≤ d) :
    Reads (Stops blockStops) (nestedTo blockWith d ()) a.lexemes a := by
  obtain ⟨d, rfl⟩ : ∃ d', d = d' + 1 := Nat.exists_eq_succ_of_ne_zero (by omega)
  exact h d hlen

theorem readsActionDeep_of_derives {x : Extent} {a : Action} (h : DerivesAction False x a) :
    ReadsActionDeep x a := by
  induction h with
  | set ht hv => exact fun d _ => ⟨exists_stepStart (.set ht hv), reads_assign ht hv⟩
  | alter ht op hd => exact fun d _ => ⟨exists_stepStart (.alter ht op hd), reads_alter ht op hd⟩
  | swap hfirst hsecond =>
      exact fun d _ => ⟨exists_stepStart (F := False) (.swap hfirst hsecond),
        reads_swap hfirst hsecond⟩
  | @cond arms otherwise hne hconds hbranches hotherwise ihbranches ihotherwise =>
      intro d hlen
      refine ⟨exists_stepStart (.cond hne hconds hbranches hotherwise), reads_cond hne ?_⟩
      rw [Action.lexemes_cond, zip_lexemes, List.length_cons] at hlen
      refine ⟨fun a ha => reads_expr (hconds a ha), fun a ha => ?_, fun o ho => ?_⟩
      · refine (ihbranches a ha).inside (length_pos_of_derivesAction (hbranches a ha)) ?_
        have hle := length_le_chainLexemes
          (List.mem_map_of_mem (f := fun a : Expr × Action => (a.1.lexemes, a.2.lexemes)) ha)
          (otherwise.map Action.lexemes)
        simp only at hle
        omega
      · refine (ihotherwise o ho).inside (length_pos_of_derivesAction (hotherwise o ho)) ?_
        obtain rfl : otherwise = some o := ho
        have hle := length_otherwise_le (arms.map fun a => (a.1.lexemes, a.2.lexemes)) o.lexemes
        rw [Option.map_some] at hlen
        omega
  | call hfunc hargs =>
      exact fun d _ => ⟨exists_stepStart (.call hfunc hargs), reads_actionCall hfunc hargs⟩
  | single _ ih => exact fun d hlen => reads_single (ih d hlen)
  | sequence hsize _ ih =>
      intro d hlen
      rw [Action.lexemes, lexemesSteps_eq_map] at hlen
      refine reads_sequence hsize fun a ha => ih a ha d ?_
      exact (length_le_intercalate _ (List.mem_map_of_mem ha)).trans hlen

/-- The tokens of an action body are read as that action. -/
theorem reads_block {a : Action} (h : DerivesAction False .block a) :
    Reads (Stops blockStops) Grammar.block a.lexemes a := by
  intro ts rest hspells hlegible hS
  have hlen : a.lexemes.length ≤ ts.length + 1 := by
    rw [hspells.length_eq]
    omega
  exact readsActionDeep_of_derives h ts.length hlen ts rest hspells hlegible hS

end AccessRules.Grammar
