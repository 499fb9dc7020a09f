import AccessRules.Proofs.Grammar.Derivation
import AccessRules.Proofs.Grammar.ReaderRules

set_option autoImplicit false

/-! # Only trees of the grammar are read

Whatever the readers of requirements and action bodies give is a tree of the grammar:
`gives_requirement` and `gives_actionBody`. There is one lemma for each reader, and the two
recursive ones follow from the rule for readers that use themselves. -/

namespace AccessRules

namespace Grammar

open Parse

/-! ## Parts of expressions -/

theorem gives_reference : Gives reference Reference.WellFormed := by
  unfold reference
  refine Gives.expect.bind fun _ _ => gives_ident.bind fun name hname => .word fun w => ?_
  refine .ite (fun _ => Gives.advance.bind fun _ _ => ?_) fun _ => .pure ⟨hname, by simp⟩
  intro ts
  refine .kind fun t hpeek _ => ?_
  split
  · rename_i hkind
    refine (givesAt_place hpeek hkind).bind fun path hpath => .pure ⟨hname, ?_⟩
    rintro _ ⟨⟩
    exact hpath
  · refine (Gives.expect.bind fun _ _ => gives_ident.map fun q hq => ⟨hname, ?_⟩) ts
    rintro _ ⟨⟩
    exact hq

theorem gives_number : Gives number Literal.WellFormed := by
  unfold number
  refine .current fun t _ => ?_
  split
  · exact Gives.advance.map fun _ _ => trivial
  · split
    · exact Gives.advance.map fun _ _ => trivial
    · exact .failAt

theorem gives_caseLiteral : Gives caseLiteral Literal.WellFormed := by
  unfold caseLiteral
  intro ts
  refine .current fun t hpeek _ => ?_
  split
  · exact gives_number ts
  · exact .here (gives_string.map fun _ _ => trivial) ts
  · rename_i hkind
    exact (givesAt_place hpeek hkind).bind fun path hpath => .pure hpath
  · refine Gives.ite (fun _ => ?_) (fun _ => .ite (fun _ => ?_) fun _ => .fail) ts
    · exact Gives.advance.map fun _ _ => trivial
    · exact Gives.advance.map fun _ _ => trivial
  · exact Gives.fail ts

theorem gives_threshold : Gives threshold Threshold.WellFormed := by
  unfold threshold
  refine .current fun t _ => ?_
  split
  · exact gives_int.map fun _ _ => trivial
  · refine gives_ident.bind fun name hname => .ite (fun _ => ?_) fun hitem => .pure ⟨hname, ?_⟩
    · exact .fail_bind
    · simpa using hitem
  · exact .ite (fun _ => gives_reference.map fun _ hr => hr) fun _ => .fail
  · exact .fail

theorem gives_listedItem : Gives listedItem fun name => IsName name ∧ isItemName name = true := by
  refine gives_ident.bind fun name hname => .ite (fun _ => ?_) fun hitem => .pure ⟨hname, ?_⟩
  · exact .fail_bind
  · simpa using hitem

theorem gives_itemList :
    Gives itemList fun names => ∀ name ∈ names, IsName name ∧ isItemName name = true := by
  unfold itemList
  exact Gives.expect.bind fun _ _ => gives_listedItem.listUntil.bind fun names hnames =>
    Gives.advance.map fun _ _ => hnames

def Member.WellFormed : Member → Prop
  | .item name => IsName name
  | .str _ => True
  | .place path => IsPath path

theorem gives_member : Gives member Member.WellFormed := by
  unfold member
  intro ts
  refine .kind fun t hpeek _ => ?_
  split
  · exact .here (gives_string.map fun _ _ => trivial) ts
  · rename_i hkind
    exact (givesAt_place hpeek hkind).bind fun path hpath => .pure hpath
  · exact .here (gives_ident.map fun name hname => show (Member.item name).WellFormed from hname) ts
  · exact Gives.fail ts

theorem Member.wellFormed_gather {members : List Member} {ms : Members}
    (hmembers : ∀ m ∈ members, m.WellFormed) (h : Member.gather? members = some ms) :
    ms.WellFormed := by
  simp only [Member.gather?] at h
  split at h
  · cases h
    intro name hname
    obtain ⟨m, hm, heq⟩ := List.mem_filterMap.1 hname
    cases m with
    | item other => cases heq; exact hmembers _ hm
    | _ => cases heq
  · rename_i hne
    cases h
    exact hne
  · rename_i hne
    cases h
    refine ⟨hne, fun path hpath => ?_⟩
    obtain ⟨m, hm, heq⟩ := List.mem_filterMap.1 hpath
    cases m with
    | place other => cases heq; exact hmembers _ hm
    | _ => cases heq
  · cases h

theorem gives_set : Gives set Members.WellFormed := by
  unfold set
  refine Gives.expect.bind fun _ _ => (Gives.listUntil gives_member).bind fun members hmembers =>
    Gives.advance.bind fun _ _ => ?_
  split
  · exact .pure (Member.wellFormed_gather hmembers ‹_›)
  · exact .fail

/-! ## Expressions -/

variable {inner : Inner}

/-- The reader for inner expressions gives what the grammar does. -/
def InnerGives (inner : Inner) : Prop :=
  ∀ position, Gives (inner position) (Derives True (.whole position))

theorem gives_args (hinner : InnerGives inner) :
    Gives (args inner) fun es => ∀ e ∈ es, Derives True (.whole .value) e := by
  unfold args
  refine .word fun w => .ite (fun _ => ?_) fun _ => .pure (by simp)
  refine Gives.advance.bind fun _ _ => (Gives.listUntil (hinner .value)).bind fun es hes => ?_
  exact Gives.advance.map fun _ _ => hes

/-- What holds of the arms and the last branch of a conditional. -/
structure ArmsGive {α : Type} (B : α → Prop) (c : List (Expr × α) × Option α) : Prop where
  ne : c.1 ≠ []
  conds : ∀ a ∈ c.1, Derives True (.whole .truth) a.1
  branches : ∀ a ∈ c.1, B a.2
  otherwise : ∀ o ∈ c.2, B o

theorem gives_arm {α : Type} {branch : Parse α} {B : α → Prop} (hinner : InnerGives inner)
    (hbranch : Gives branch B) :
    Gives (arm inner branch) fun a => Derives True (.whole .truth) a.1 ∧ B a.2 := by
  unfold arm
  refine Gives.expect.bind fun _ _ => (hinner .truth).bind fun c hc => Gives.expect.bind fun _ _ =>
    Gives.expect.bind fun _ _ => hbranch.bind fun b hb => Gives.expect.map fun _ _ => ⟨hc, hb⟩

theorem gives_conditional {α : Type} {branch : Parse α} {B : α → Prop} (hinner : InnerGives inner)
    (hbranch : Gives branch B) : Gives (conditional inner branch) (ArmsGive B) := by
  unfold conditional
  refine .iterate (I := fun arms => ∀ a ∈ arms, Derives True (.whole .truth) a.1 ∧ B a.2)
    (fun arms harms => ?_) (by simp)
  refine (gives_arm hinner hbranch).bind fun a ha => .word fun w => ?_
  have hmore : ∀ x ∈ arms ++ [a], Derives True (.whole .truth) x.1 ∧ B x.2 := by
    intro x hx
    rcases List.mem_append.1 hx with hx | hx
    · exact harms x hx
    · exact List.mem_singleton.1 hx ▸ ha
  have hgive : ∀ o : Option α, (∀ b ∈ o, B b) → ArmsGive B (arms ++ [a], o) := fun o ho =>
    ⟨by simp, fun x hx => (hmore x hx).1, fun x hx => (hmore x hx).2, ho⟩
  refine .ite (fun _ => .pure (hgive none (by simp))) fun _ => Gives.advance.bind fun _ _ =>
    .word fun w => .ite (fun _ => Gives.advance.map fun _ _ => hmore) fun _ => ?_
  refine Gives.expect.bind fun _ _ => hbranch.bind fun o ho => Gives.expect.map fun _ _ => ?_
  refine hgive (some o) ?_
  rintro _ ⟨⟩
  exact ho

theorem gives_choiceCases {κ : Type} {key : Parse κ} {K : κ → Prop} (hinner : InnerGives inner)
    (hkey : Gives key K) :
    Gives (choiceCases inner key) fun c =>
      (∀ x ∈ c.1, K x.1 ∧ Derives True (.whole .value) x.2) ∧ Derives True (.whole .value) c.2 := by
  have hcase : Gives (choiceCase inner key) fun c =>
      (∀ k ∈ c.1, K k) ∧ Derives True (.whole .value) c.2 := by
    unfold choiceCase
    refine .word fun w => .ite (fun _ => ?_) fun _ => ?_
    · exact Gives.advance.bind fun _ _ => Gives.expect.bind fun _ _ =>
        (hinner .value).map fun e he => ⟨by simp, he⟩
    · exact hkey.bind fun k hk => Gives.expect.bind fun _ _ =>
        (hinner .value).map fun e he => ⟨by simpa using hk, he⟩
  unfold choiceCases
  refine Gives.expect.bind fun _ _ => (Gives.listUntil hcase).bind fun cases hcases => ?_
  split
  · exact .fail
  · rename_i none? default hlast
    refine Gives.advance.map fun _ _ => ⟨fun x hx => ?_, ?_⟩
    · obtain ⟨⟨k, e⟩, hmem, heq⟩ := List.mem_filterMap.1 hx
      obtain ⟨k, rfl, rfl⟩ := Option.map_eq_some_iff.1 heq
      exact ⟨(hcases _ hmem).1 k rfl, (hcases _ hmem).2⟩
    · have hmem := List.mem_of_getLast? hlast
      exact (hcases _ (List.mem_filter.1 hmem).1).2

theorem gives_choice (hinner : InnerGives inner) : Gives (choice inner) (Derives True .atom) := by
  unfold choice
  refine gives_ident.bind fun subject hname => .ite (fun hitem => ?_) fun hitem => ?_
  · exact (gives_choiceCases hinner gives_int).map fun c hc =>
      .perItem hname hitem (fun x hx => (hc.1 x hx).2) hc.2
  · exact (gives_choiceCases hinner gives_caseLiteral).map fun c hc =>
      .perSetting hname (by simpa using hitem) (fun x hx => ⟨(hc.1 x hx).1, .inl trivial⟩)
        (fun x hx => (hc.1 x hx).2) hc.2

theorem gives_named : Gives named (Derives True .atom) := by
  unfold named
  refine gives_ident.bind fun name hname => .ite (fun hconst => .pure (.const hname hconst))
    fun hconst => .ite (fun hitem => ?_) fun hitem => .pure (.setting hname (by simpa using hitem))
  refine .word fun w => .ite (fun _ => ?_)
    fun _ => .pure (.hasItem hname (by simpa using hconst) hitem)
  exact Gives.advance.bind fun _ _ => gives_threshold.bind fun t ht =>
    Gives.expect.map fun _ _ => .itemAtLeast hname ht

theorem gives_following : Gives following fun _ => True := by
  intro ts hts t rest h
  cases hpeek : peek (tail ts) with
  | error e => simp only [following, hpeek] at h; cases h
  | ok t' =>
      simp only [following, hpeek] at h
      cases h
      exact ⟨trivial, hts⟩

theorem gives_within :
    Gives (do
      if (← kind) = .place then return .within (.literal (← place)) false
      return .within (.ref (← reference)) false) (Derives True .atom) := by
  intro ts
  refine .kind fun t hpeek _ => ?_
  split
  · rename_i hkind
    exact (givesAt_place hpeek hkind).bind fun path hpath => .pure (.within hpath)
  · exact .here (gives_reference.map fun r hr => .within hr) ts

theorem gives_wordAtom (hinner : InnerGives inner) :
    Gives (wordAtom inner) (Derives True .atom) := by
  unfold wordAtom
  refine gives_following.bind fun next _ => .word fun w => ?_
  refine .ite (fun _ => Gives.advance.map fun _ _ => .bool true) fun _ => ?_
  refine .ite (fun _ => Gives.advance.map fun _ _ => .bool false) fun _ => ?_
  refine .ite (fun _ => ?_) fun _ => ?_
  · exact Gives.advance.bind fun _ _ => (gives_conditional hinner (hinner .value)).map fun c hc =>
      .ifThenElse hc.ne hc.conds hc.branches hc.otherwise
  refine .ite (fun _ => Gives.advance.bind fun _ _ => gives_choice hinner) fun _ => ?_
  refine .ite (fun _ => Gives.advance.bind fun _ _ => gives_within) fun _ => ?_
  refine .ite (fun _ => ?_) fun _ => .ite (fun _ => ?_) fun _ => gives_named
  · exact Gives.advance.bind fun _ _ => Gives.expect.bind fun _ _ => gives_ident.bind fun i hi =>
      Gives.expect.bind fun _ _ => Gives.expect.bind fun _ _ => gives_threshold.map fun t ht =>
        .itemAtLeast hi ht
  · exact Gives.advance.bind fun _ _ => Gives.expect.bind fun _ _ => gives_reference.bind
      fun r hr => Gives.expect.map fun _ _ => .hasArgItem hr

theorem gives_symbolAtom (hinner : InnerGives inner) :
    Gives (symbolAtom inner) (Derives True .atom) := by
  unfold symbolAtom
  refine .word fun w => .ite (fun _ => ?_) fun _ => .ite (fun _ => ?_) fun _ =>
    .ite (fun _ => ?_) fun _ => .ite (fun _ => ?_) fun _ => .fail
  · exact Gives.advance.bind fun _ _ => (hinner .value).bind fun e he =>
      Gives.expect.map fun _ _ => .paren he
  · exact gives_reference.map fun r hr => .ref hr
  · exact Gives.advance.bind fun _ _ => gives_ident.bind fun f hf =>
      (gives_args hinner).map fun es hes => .call hf hes
  · exact gives_itemList.map fun names hnames =>
      .items (fun name h => (hnames name h).1) fun name h => (hnames name h).2

theorem derives_ofLiteral {lit : Literal} (h : lit.WellFormed) :
    Derives True .atom (ofLiteral lit) := by
  cases lit with
  | bool b => exact .bool b
  | int n => exact .int n
  | float x => exact .float trivial x
  | str s => exact .str s
  | place path => exact .place h

theorem gives_atom (hinner : InnerGives inner) : Gives (atom inner) (Derives True .atom) := by
  unfold atom
  intro ts
  refine .kind fun t hpeek _ => ?_
  split
  · exact .here (gives_number.map fun lit hlit => derives_ofLiteral hlit) ts
  · exact .here (gives_string.map fun s _ => .str s) ts
  · rename_i hkind
    exact (givesAt_place hpeek hkind).bind fun path hpath => .pure (.place hpath)
  · exact gives_wordAtom hinner ts
  · exact gives_symbolAtom hinner ts
  · exact Gives.fail ts

theorem gives_term (hinner : InnerGives inner) : Gives (term inner) (Derives True .product) := by
  refine .leftAssociative (gives_atom hinner) (fun _ ha => .ofAtom ha) fun w f l r hf hl hr => ?_
  unfold product? at hf
  split at hf <;> cases hf
  · exact .product hl (.inl rfl) hr
  · exact .product hl (.inr rfl) hr

theorem gives_arith (hinner : InnerGives inner) : Gives (arith inner) (Derives True .sum) := by
  refine .leftAssociative (gives_term hinner) (fun _ ha => .ofProduct ha) fun w f l r hf hl hr => ?_
  unfold sum? at hf
  split at hf <;> cases hf
  · exact .sum hl (.inl rfl) hr
  · exact .sum hl (.inr rfl) hr

theorem wellFormed_of_derives_ref {r : Reference} (h : Derives True .sum (.ref r)) :
    r.WellFormed := by
  cases h with
  | ofProduct h =>
      cases h with
      | ofAtom h =>
          cases h with
          | ref hr => exact hr

theorem gives_comparison (hinner : InnerGives inner) :
    Gives (comparison inner) (Derives True .comparison) := by
  unfold comparison
  refine (gives_arith hinner).bind fun l hl => .word fun w => ?_
  split
  · exact Gives.advance.bind fun _ _ => (gives_arith hinner).map fun r hr => .compared hl _ hr
  · refine .ite (fun _ => ?_) fun _ => .ite (fun _ => ?_) fun _ => .pure (.ofSum hl)
    · exact Gives.advance.bind fun _ _ => gives_int.map fun mask _ => .flagMatch hl mask
    · split
      · have hr := wellFormed_of_derives_ref hl
        exact Gives.advance.bind fun _ _ => gives_set.map fun ms hms => .refInSet hr hms
      · exact .fail

theorem gives_negated (hinner : InnerGives inner) :
    Gives (negated inner) (Derives True .negation) := by
  unfold negated
  refine Gives.bind (P := fun _ => True) (.iterate (I := fun _ => True) (fun n _ => ?_) trivial)
    fun count _ => (gives_comparison hinner).map fun e he => ?_
  · refine .word fun w => .ite (fun _ => ?_) fun _ => .pure trivial
    exact Gives.advance.map fun _ _ => trivial
  · induction count with
    | zero => exact .ofComparison he
    | succ count ih => exact .negation ih

theorem gives_conjunction (hinner : InnerGives inner) :
    Gives (conjunction inner) (Derives True .conjunction) := by
  refine .leftAssociative (gives_negated hinner) (fun _ ha => .ofNegation ha)
    fun w f l r hf hl hr => ?_
  unfold conjunction? at hf
  split at hf <;> cases hf
  exact .conjunction hl hr

theorem gives_disjunction (hinner : InnerGives inner) :
    Gives (disjunction inner) (Derives True .disjunction) := by
  refine .leftAssociative (gives_conjunction hinner) (fun _ ha => .ofConjunction ha)
    fun w f l r hf hl hr => ?_
  unfold disjunction? at hf
  split at hf <;> cases hf
  exact .disjunction hl hr

theorem gives_exprWith (hinner : InnerGives inner) : InnerGives (exprWith inner) := by
  intro position
  unfold exprWith
  refine (gives_disjunction hinner).bind fun e he => .word fun w => .ite (fun _ => ?_) fun _ => ?_
  · exact Gives.advance.bind fun _ _ => (hinner position).bind fun y hy =>
      Gives.expect.bind fun _ _ => (hinner position).map fun n hn => .ternary he hy hn
  · split
    · exact .pure (.truth he)
    · exact .pure (.value he)

theorem gives_expr : InnerGives expr :=
  Gives.nested fun _ => gives_exprWith

theorem gives_expectEnd : Gives expectEnd fun _ => True := by
  unfold expectEnd
  intro ts
  refine .kind fun t _ _ => ?_
  exact .here (.ite (fun _ => .pure trivial) fun _ => .fail) ts

theorem gives_requirement : Gives requirement (Derives True (.whole .truth)) := by
  unfold requirement
  exact (gives_expr .truth).bind fun e he => gives_expectEnd.map fun _ _ => he

/-! ## Actions -/

theorem gives_assignment : Gives assignment (DerivesAction True .step) := by
  unfold assignment
  refine gives_reference.bind fun target ht => .word fun w => ?_
  split
  · exact .fail
  · refine Gives.advance.bind fun _ _ => (gives_expr .value).bind fun v hv => ?_
    split
    · exact .pure (.set ht hv)
    · exact .pure (.alter ht _ hv)

theorem gives_swapped : Gives swapped (DerivesAction True .step) := by
  unfold swapped
  exact Gives.expect.bind fun _ _ => gives_reference.bind fun first hfirst =>
    Gives.expect.bind fun _ _ => gives_reference.bind fun second hsecond =>
      Gives.expect.map fun _ _ => .swap hfirst hsecond

theorem gives_action {block : Parse Action} (hblock : Gives block (DerivesAction True .block)) :
    Gives (action block) (DerivesAction True .step) := by
  unfold action
  refine .word fun w => .ite (fun _ => gives_assignment) fun _ => .ite (fun _ => ?_) fun _ =>
    .ite (fun _ => ?_) fun _ => .ite (fun _ => ?_) fun _ => .fail
  · exact Gives.advance.bind fun _ _ => gives_swapped
  · exact Gives.advance.bind fun _ _ => (gives_conditional gives_expr hblock).map fun c hc =>
      .cond hc.ne hc.conds hc.branches hc.otherwise
  · exact Gives.advance.bind fun _ _ => gives_ident.bind fun f hf =>
      (gives_args gives_expr).map fun es hes => .call hf hes

theorem gives_actionList {block : Parse Action} (hblock : Gives block (DerivesAction True .block)) :
    Gives (actionList block) fun steps => ∀ a ∈ steps, DerivesAction True .step a := by
  unfold actionList
  refine .iterate (I := fun steps => ∀ a ∈ steps, DerivesAction True .step a)
    (fun steps hsteps => ?_) (by simp)
  intro ts
  refine .kind fun t _ _ => .here (.word fun w => .ite (fun _ => .pure hsteps) fun _ => ?_) ts
  refine (gives_action hblock).bind fun a ha => .word fun w => ?_
  have hmore : ∀ x ∈ steps ++ [a], DerivesAction True .step x := by
    intro x hx
    rcases List.mem_append.1 hx with hx | hx
    · exact hsteps x hx
    · exact List.mem_singleton.1 hx ▸ ha
  exact .ite (fun _ => Gives.advance.map fun _ _ => hmore) fun _ => .pure hmore

theorem gives_block : Gives block (DerivesAction True .block) := by
  refine Gives.nested (R := fun _ => DerivesAction True .block) (fun inner hinner _ => ?_) ()
  refine (gives_actionList (hinner ())).bind fun steps hsteps => ?_
  split
  · exact .fail
  · exact .pure (.single (hsteps _ (by simp)))
  · rename_i hnil hone
    refine .pure (.sequence ?_ hsteps)
    cases steps with
    | nil => exact absurd rfl hnil
    | cons a more =>
        cases more with
        | nil => exact absurd rfl (hone a)
        | cons b more => simp

theorem gives_actionBody : Gives actionBody (DerivesAction True .block) := by
  unfold actionBody
  exact gives_block.bind fun a ha => gives_expectEnd.map fun _ _ => ha

end Grammar

/-! ## Texts -/

theorem Parse.Gives.of_parse {α : Type} {s : Source} {p : Parse α} {P : α → Prop} {a : α}
    (hp : Gives p P) (h : s.parse p = .ok a) : P a := by
  obtain ⟨-, rest, hrun⟩ := Source.parse_eq_ok_iff.1 h
  exact ((Gives.current fun t _ => hp) s.tokens s.wellFormed_tokens a rest hrun).1

theorem derives_of_parseRequirement {file text : String} {e : Expr}
    (h : parseRequirement file text = .ok e) : Grammar.Derives True (.whole .truth) e :=
  Grammar.gives_requirement.of_parse h

theorem derives_of_parseActions {file text : String} {a : Action}
    (h : parseActions file text = .ok a) : Grammar.DerivesAction True .block a :=
  Grammar.gives_actionBody.of_parse h

end AccessRules
