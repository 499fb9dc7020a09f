import AccessRules.Proofs.Collection.NameMap
import AccessRules.Proofs.Expr.Respelling
import AccessRules.Proofs.Reachability.SameOutcome

set_option autoImplicit false

/-! # How places are spelled

A path may be written with more or fewer blanks around its segments. Tests for being within a place
go by the segments; static data, comparisons and sets go by the text of the path. So evaluation does
depend on the spelling, of the spot and of the places in a rule, and `spelling_irrelevant_iff` says
exactly when it does not.

The outcome is what is compared: warnings quote the spot as it is written. -/

namespace AccessRules

namespace Knowledge

variable {k : Knowledge} {f f' : Frame}

/-! ## Frames and spellings that cannot be told apart -/

/-- Two spellings and two frames that evaluation cannot tell apart: places have the same segments
    where segments count, and what is read from static data is the same. -/
structure SpeltAlike (k : Knowledge) (ρ ρ' : Respelling) (f f' : Frame) : Prop where
  name : f.rule.name = f'.rule.name
  locals : f.rule.locals = f'.rule.locals
  spot : Place.segments f.spot = Place.segments f'.spot
  value : ∀ p, ρ.path .value p = ρ'.path .value p
  comparison : ∀ p, ρ.path .comparison p = ρ'.path .comparison p
  within : ∀ p, Place.segments (ρ.path .within p) = Place.segments (ρ'.path .within p)
  reference : ∀ r, k.lookupValue f (ρ.reference r) = k.lookupValue f' (ρ'.reference r)
  member : ∀ r ms, isMember (k.lookupValue f (ρ.reference r)) (ρ.members ms)
    = isMember (k.lookupValue f' (ρ'.reference r)) (ρ'.members ms)

variable {ρ ρ' : Respelling}

theorem SpeltAlike.literal (h : SpeltAlike k ρ ρ' f f') (lit : Literal) :
    ρ.literal lit = ρ'.literal lit := by
  cases lit with
  | place p => rw [Respelling.literal, Respelling.literal, h.comparison]
  | _ => rfl

theorem SpeltAlike.resolve? (h : SpeltAlike k ρ ρ' f f') (name : String) :
    f.rule.resolve? k.catalog name = f'.rule.resolve? k.catalog name := by
  unfold Rule.resolve?
  rw [h.locals]

theorem SpeltAlike.expectFor (h : SpeltAlike k ρ ρ' f f') (r : Reference) :
    k.expectFor f (ρ.reference r).name = k.expectFor f' (ρ'.reference r).name := by
  unfold Knowledge.expectFor
  rw [Respelling.reference_name, Respelling.reference_name, h.resolve?]

theorem SpeltAlike.isWithin (h : SpeltAlike k ρ ρ' f f') (v : Value) :
    isWithin f v = isWithin f' v := by
  cases v with
  | place p => simp only [Knowledge.isWithin, Place.contains, h.spot]
  | _ => rfl

theorem SpeltAlike.leafValue (h : SpeltAlike k ρ ρ' f f') {e : Expr} (hleaf : e.isLeaf = true) :
    k.leafValue f (e.respell ρ) = k.leafValue f' (e.respell ρ') := by
  cases e with
  | refEq r op rhs =>
      cases rhs <;> simp only [Expr.respell, Knowledge.leafValue, h.reference,
        Respelling.comparand, comparandValue]
  | argFlag r negated => simp only [Expr.respell, Knowledge.leafValue, h.reference]
  | refInSet r ms => simp only [Expr.respell, Knowledge.leafValue, h.member]
  | within p negated =>
      cases p with
      | ref r =>
          simp only [Expr.respell, Knowledge.leafValue, Respelling.placeArg, placeArgValue,
            h.reference, h.isWithin]
      | literal p =>
          simp only [Expr.respell, Knowledge.leafValue, Respelling.placeArg, placeArgValue,
            Knowledge.isWithin, Place.contains, h.spot, h.within]
  | ref r => simp only [Expr.respell, Knowledge.leafValue, h.reference]
  | place p => simp only [Expr.respell, Knowledge.leafValue, h.value]
  | or _ _ | and _ _ | not _ | paren _ | invoke _ _ _ | ifThenElse _ _ _ | ternary _ _ _
  | numCompare _ _ _ | strCompare _ _ _ | flagMatch _ _ | refEqCall _ _ _ | perItem _ _ _
  | perSetting _ _ _ | binOp _ _ _ | call _ _ => cases hleaf
  | _ => simp only [Expr.respell, Knowledge.leafValue]

/-! ## Expressions -/

/-- Helpers expand alike on arguments of the same outcome. -/
def SameExpand (x x' : Expand) : Prop :=
  ∀ s args args', List.Forall₂ Same args args' → Same (x s args) (x' s args')

theorem same_eval_respell (h : SpeltAlike k ρ ρ' f f') {x x' : Expand} (hx : SameExpand x x')
    (e : Expr) : Same (eval k f x (e.respell ρ)) (eval k f' x' (e.respell ρ')) := by
  induction e using Expr.children_induction with
  | step e ih =>
    have hmap : ∀ es : List Expr, (∀ c ∈ es, c ∈ e.children) → List.Forall₂ Same
        ((es.map (Expr.respell ρ)).map (eval k f x))
        ((es.map (Expr.respell ρ')).map (eval k f' x')) := by
      intro es hes
      simp only [List.forall₂_map_left_iff, List.forall₂_map_right_iff, List.forall₂_same]
      exact fun c hc => ih c (hes c hc)
    -- spellings and spots are met in leaves, and in the comparisons with a literal or a call
    by_cases hleaf : e.isLeaf = true
    · intro expect
      have hleft : (e.respell ρ).isLeaf = true := (Expr.isLeaf_respell ρ e).trans hleaf
      have hright : (e.respell ρ').isLeaf = true := (Expr.isLeaf_respell ρ' e).trans hleaf
      rw [outcome_eval_leaf k f x hleft, outcome_eval_leaf k f' x' hright, h.leafValue hleaf]
    cases e with
    | or l r =>
        intro expect
        simp only [Expr.respell, eval]
        refine Report.outcome_bind_congr (ih l (by simp [Expr.children])).test fun a => ?_
        split
        · rfl
        · exact Report.outcome_bind_congr (ih r (by simp [Expr.children])).test fun b => rfl
    | and l r =>
        intro expect
        simp only [Expr.respell, eval]
        refine Report.outcome_bind_congr (ih l (by simp [Expr.children])).test fun a => ?_
        split
        · rfl
        · exact Report.outcome_bind_congr (ih r (by simp [Expr.children])).test fun b => rfl
    | not e =>
        intro expect
        simp only [Expr.respell, eval]
        exact Report.outcome_bind_congr (ih e (by simp [Expr.children])).test fun a => rfl
    | paren e =>
        simp only [Expr.respell, eval]
        exact ih e (by simp [Expr.children])
    | invoke func args negated =>
        intro expect
        have hargs := hmap args fun c hc => hc
        have hcall : Same (k.callFunction f x func _) (k.callFunction f' x' func _) :=
          same_callFunction rfl hargs fun s _ => hx s _ _ hargs
        simp only [Expr.respell, eval_invoke]
        exact Report.outcome_map_congr _ (hcall expect)
    | ifThenElse conds branches otherwise =>
        simp only [Expr.respell_ifThenElse, eval_ifThenElse]
        refine same_chain (hmap conds (by simp +contextual [Expr.children]))
          (hmap branches (by simp +contextual [Expr.children])) ?_
        cases otherwise with
        | none => exact .none
        | some o => exact .some (ih o (by simp [Expr.children]))
    | ternary c y n =>
        simp only [Expr.respell, eval]
        exact same_chain (hmap [c] (by simp [Expr.children])) (hmap [y] (by simp [Expr.children]))
          (.some (ih n (by simp [Expr.children])))
    | numCompare l op r =>
        intro expect
        simp only [Expr.respell, eval]
        refine Report.outcome_bind_congr (ih l (by simp [Expr.children]) .int) fun a => ?_
        exact Report.outcome_bind_congr (ih r (by simp [Expr.children]) .int) fun b => rfl
    | strCompare l op lit =>
        intro expect
        simp only [Expr.respell, eval_strCompare, h.literal]
        exact Report.outcome_bind_congr (ih l (by simp [Expr.children]) _) fun a => rfl
    | flagMatch e mask =>
        intro expect
        simp only [Expr.respell, eval_flagMatch]
        exact Report.outcome_bind_congr (ih e (by simp [Expr.children]) .int) fun a => rfl
    | refEqCall r op e =>
        intro expect
        have hlookup : (k.lookup f (ρ.reference r)).outcome
            = (k.lookup f' (ρ'.reference r)).outcome := by
          rw [outcome_lookup, outcome_lookup, h.reference]
        simp only [Expr.respell, eval, h.expectFor]
        refine Report.outcome_bind_congr hlookup fun a => ?_
        exact Report.outcome_bind_congr (ih e (by simp [Expr.children]) _) fun b => rfl
    | perItem item cases d =>
        intro expect
        have hchoices := outcome_chooseAll_congr expect (hmap _ fun c hc => hc)
        simp only [Expr.children, List.map_append, List.map_map] at hchoices
        simp only [Expr.respell, eval_perItem, List.map_append, List.map_map]
        exact Report.outcome_map_congr _ hchoices
    | perSetting setting cases d =>
        intro expect
        have hchoices := outcome_chooseAll_congr expect (hmap _ fun c hc => hc)
        simp only [Expr.children, List.map_append, List.map_map] at hchoices
        simp only [Expr.respell, eval_perSetting, List.map_append, List.map_map]
        exact Report.outcome_map_congr _ hchoices
    | binOp l op r =>
        intro expect
        simp only [Expr.respell, eval]
        refine Report.outcome_bind_congr (ih l (by simp [Expr.children]) .int) fun a => ?_
        exact Report.outcome_bind_congr (ih r (by simp [Expr.children]) .int) fun b => rfl
    | call func args =>
        have hargs := hmap args fun c hc => hc
        simp only [Expr.respell, eval_call]
        exact same_callFunction rfl hargs fun s _ => hx s _ _ hargs
    | _ => exact absurd rfl hleaf

/-! ## Rules -/

theorem sameExpand_expandBy {evalBody : Frame → Expr → Pending} {s s' : String}
    (hbody : ∀ r b e, Same (evalBody ⟨r, s, b⟩ e) (evalBody ⟨r, s', b⟩ e)) :
    SameExpand (k.expandBy evalBody s) (k.expandBy evalBody s') := by
  intro sig args args' hargs
  exact same_expandBy rfl hargs fun r b e _ _ _ => hbody r b e

theorem lookupValue_congr (hlocals : f.rule.locals = f'.rule.locals)
    (hbindings : f.bindings = f'.bindings)
    (hlookup : ∀ name, k.statics.lookup f.spot name = k.statics.lookup f'.spot name)
    (r : Reference) : k.lookupValue f r = k.lookupValue f' r := by
  have hresolve : ∀ name, f.rule.resolve? k.catalog name = f'.rule.resolve? k.catalog name := by
    intro name
    unfold Rule.resolve?
    rw [hlocals]
  have hname : ∀ name, k.lookupName f name = k.lookupName f' name := by
    intro name
    unfold lookupName
    rw [hbindings, hresolve, funext hlookup]
  unfold lookupValue
  simp only [hresolve, hname]

/-- The same rule at two spots with the same segments and the same static data. -/
theorem speltAlike_of_spots {s s' : String} (hseg : Place.segments s = Place.segments s')
    (hlookup : ∀ name, k.statics.lookup s name = k.statics.lookup s' name) (ρ : Respelling)
    (r : Rule) (b : NameMap Value) : SpeltAlike k ρ ρ ⟨r, s, b⟩ ⟨r, s', b⟩ := by
  have href : ∀ ref, k.lookupValue ⟨r, s, b⟩ ref = k.lookupValue ⟨r, s', b⟩ ref :=
    lookupValue_congr rfl rfl hlookup
  refine ⟨rfl, rfl, hseg, fun _ => rfl, fun _ => rfl, fun _ => rfl, fun _ => href _, fun _ _ => ?_⟩
  rw [href]

theorem same_evalWithin_respell (depth : Nat) (ρ ρ' : Respelling) (f f' : Frame) (e : Expr)
    (h : SpeltAlike k ρ ρ' f f')
    (hlookup : ∀ name, k.statics.lookup f.spot name = k.statics.lookup f'.spot name) :
    Same (k.evalWithin depth f (e.respell ρ)) (k.evalWithin depth f' (e.respell ρ')) := by
  induction depth generalizing ρ ρ' f f' e with
  | zero =>
      refine same_eval_respell h ?_ e
      intro s args args' _ expect
      rw [h.name]
  | succ depth ih =>
      rw [evalWithin_succ, evalWithin_succ]
      refine same_eval_respell h (sameExpand_expandBy fun r b body => ?_) e
      -- the bodies of helpers are the same on both sides
      have hbody := ih ⟨.value, "", ""⟩ ⟨.value, "", ""⟩ ⟨r, f.spot, b⟩ ⟨r, f'.spot, b⟩ body
        (speltAlike_of_spots h.spot hlookup _ r b) hlookup
      rwa [Expr.respell_eq_self rfl] at hbody

theorem outcome_evaluate_respell {s s' : String} (r : Rule)
    (h : SpeltAlike k ρ ρ' { rule := r.respell ρ, spot := s } { rule := r.respell ρ', spot := s' })
    (hlookup : ∀ name, k.statics.lookup s name = k.statics.lookup s' name) :
    (k.evaluate (r.respell ρ) s).outcome = (k.evaluate (r.respell ρ') s').outcome := by
  unfold evaluate
  cases hbody : r.body with
  | actions a => simp only [Rule.respell, Body.respell, hbody]
  | requirement e =>
      have hsame := same_evalWithin_respell maxHelperDepth ρ ρ' _ _ e h hlookup .bool
      simpa only [Rule.respell, Body.respell, hbody, evaluateExpr] using hsame

theorem rule_respell_eq_self (h : ρ.new = ρ.old) (r : Rule) : r.respell ρ = r := by
  obtain ⟨name, body, locals, spot⟩ := r
  cases body with
  | actions a => rfl
  | requirement e => simp only [Rule.respell, Body.respell, Expr.respell_eq_self h]

theorem outcome_evaluate_spots {s s' : String} (hseg : Place.segments s = Place.segments s')
    (hlookup : ∀ name, k.statics.lookup s name = k.statics.lookup s' name) (r : Rule) :
    (k.evaluate r s).outcome = (k.evaluate r s').outcome := by
  have hsame := outcome_evaluate_respell (ρ := ⟨.value, "", ""⟩) r
    (speltAlike_of_spots hseg hlookup _ _ ∅) hlookup
  rwa [rule_respell_eq_self rfl] at hsame

/-! ## Interchangeable spellings -/

/-- Without bindings, what a reference holds is static data or uncertain. -/
theorem lookupValue_unbound (r : Rule) (spot : String) (ref : Reference) :
    k.lookupValue { rule := r, spot } ref = .uncertain ∨
      ∃ place name, k.lookupValue { rule := r, spot } ref = k.statics.lookup place name := by
  have hname : ∀ name, k.lookupName { rule := r, spot } name = .uncertain ∨
      ∃ path, k.lookupName { rule := r, spot } name = k.statics.lookup spot path := by
    intro name
    unfold lookupName
    rw [NameMap.find?_empty]
    cases r.resolve? k.catalog name with
    | none => exact Or.inl rfl
    | some path => exact Or.inr ⟨path, rfl⟩
  obtain ⟨name, _ | q⟩ := ref
  · exact (hname name).imp_right fun ⟨path, h⟩ => ⟨spot, path, h⟩
  · simp only [lookupValue]
    cases r.resolve? k.catalog name with
    | none => exact Or.inl rfl
    | some path =>
        cases q with
        | place p => exact Or.inr ⟨p, path, rfl⟩
        | ref other =>
            simp only
            cases k.lookupName { rule := r, spot } other with
            | place p =>
                simp only [lookupVia]
                split
                · exact Or.inl rfl
                · exact Or.inr ⟨p, path, rfl⟩
            | _ => exact Or.inl rfl

/-- When a place may be written in either of two ways, at a kind of position in rules, without any
    effect on evaluation. -/
def Interchangeable (k : Knowledge) (p p' : String) : PlacePosition → Prop
  | .value => p = p'
  | .comparison => p = p'
  | .member => p = p' ∨ ∀ spot name,
      k.statics.lookup spot name ≠ .place p ∧ k.statics.lookup spot name ≠ .place p'
  | .within => True
  | .qualifier => ∀ name, k.statics.lookup p name = k.statics.lookup p' name

variable {pos : PlacePosition} {p p' : String}

/-- As a value and in a comparison, only what is the same text is interchangeable. -/
theorem path_interchangeable (h : k.Interchangeable p p' pos) {strict : PlacePosition}
    (hstrict : k.Interchangeable p p' strict → p = p') (q path : String) :
    (Respelling.mk pos q p).path strict path = (Respelling.mk pos q p').path strict path := by
  by_cases hpos : pos = strict
  · subst hpos
    rw [hstrict h]
  · rw [Respelling.path_of_ne hpos, Respelling.path_of_ne hpos]

theorem segments_path (hseg : Place.segments p = Place.segments p') (q path : String) :
    Place.segments ((Respelling.mk pos q p).path .within path)
      = Place.segments ((Respelling.mk pos q p').path .within path) := by
  unfold Respelling.path
  split
  · exact hseg
  · rfl

theorem lookup_path_interchangeable (h : k.Interchangeable p p' pos) (q path name : String) :
    k.statics.lookup ((Respelling.mk pos q p).path .qualifier path) name
      = k.statics.lookup ((Respelling.mk pos q p').path .qualifier path) name := by
  cases pos with
  | qualifier =>
      unfold Respelling.path
      split
      · exact h name
      · rfl
  | _ => rfl

theorem isMember_interchangeable (h : k.Interchangeable p p' pos) (q : String) {v : Value}
    (hv : v = .uncertain ∨ ∃ place name, v = k.statics.lookup place name) (ms : Members) :
    isMember v ((Respelling.mk pos q p).members ms)
      = isMember v ((Respelling.mk pos q p').members ms) := by
  by_cases hpos : pos = .member
  · subst hpos
    rcases h with rfl | hnever
    · rfl
    · cases ms with
      | places paths =>
          cases v with
          | place x =>
              rcases hv with hx | ⟨place, name, hx⟩
              · cases hx
              · -- the place that is looked for is written in neither of the two ways
                have hp : x ≠ p := fun heq => (hnever place name).1 (heq ▸ hx.symm)
                have hp' : x ≠ p' := fun heq => (hnever place name).2 (heq ▸ hx.symm)
                simp only [Respelling.members, isMember, List.contains_eq_any_beq, List.any_map]
                congr 2
                funext path
                simp only [Function.comp_apply, Respelling.path]
                split <;> simp [hp, hp']
          | _ => rfl
      | _ => rfl
  · rw [Respelling.members_eq_self (Respelling.path_of_ne hpos),
      Respelling.members_eq_self (Respelling.path_of_ne hpos)]

theorem speltAlike_of_interchangeable (hseg : Place.segments p = Place.segments p')
    (h : k.Interchangeable p p' pos) (q : String) (r : Rule) (spot : String) :
    SpeltAlike k ⟨pos, q, p⟩ ⟨pos, q, p'⟩ { rule := r.respell ⟨pos, q, p⟩, spot }
      { rule := r.respell ⟨pos, q, p'⟩, spot } := by
  have href : ∀ ref, k.lookupValue { rule := r.respell ⟨pos, q, p⟩, spot }
        ((Respelling.mk pos q p).reference ref)
      = k.lookupValue { rule := r.respell ⟨pos, q, p'⟩, spot }
        ((Respelling.mk pos q p').reference ref) := by
    rintro ⟨name, _ | other | path⟩
    · exact lookupValue_congr rfl rfl (fun _ => rfl) _
    · exact lookupValue_congr rfl rfl (fun _ => rfl) _
    · have hresolve : ∀ ρ : Respelling,
          (r.respell ρ).resolve? k.catalog name = r.resolve? k.catalog name := fun _ => rfl
      simp only [Respelling.reference, lookupValue, hresolve]
      cases r.resolve? k.catalog name with
      | none => rfl
      | some datum => exact lookup_path_interchangeable h q path datum
  refine ⟨rfl, rfl, rfl, path_interchangeable h id q, path_interchangeable h id q,
    segments_path hseg q, href, ?_⟩
  intro ref ms
  rw [← href]
  exact isMember_interchangeable h q (lookupValue_unbound _ spot _) ms

/-! ## Telling spellings apart -/

/-- A rule that refers to a datum as `it`. -/
def probe (datum : String) (e : Expr) : Rule where
  name := "rules:probe"
  body := .requirement e
  locals := NameMap.insert ∅ "it" datum

theorem outcome_evaluate_probe {e : Expr} (h : e.isLeaf = true) (datum spot : String)
    (ρ : Respelling) :
    (k.evaluate ((probe datum e).respell ρ) spot).outcome
      = .ok (k.leafValue { rule := (probe datum e).respell ρ, spot } (e.respell ρ)) :=
  outcome_eval_leaf k _ _ ((Expr.isLeaf_respell ρ e).trans h) .bool

/-- A place compared with itself, of which only the second is written in another way. -/
theorem outcome_evaluate_comparison (p new spot : String) :
    (k.evaluate ((probe "" (.strCompare (.place p) .eq (.place p))).respell ⟨.comparison, p, new⟩)
      spot).outcome = .ok (.bool (p == new)) := by
  have hvalue : (Respelling.mk .comparison p new).path .value p = p :=
    if_neg fun h => PlacePosition.noConfusion h.1
  have hcompared : (Respelling.mk .comparison p new).path .comparison p = new := if_pos ⟨rfl, rfl⟩
  show (eval k _ _ (Expr.respell _ _) .bool).outcome = _
  simp only [Expr.respell, Respelling.literal, hvalue, hcompared, eval_strCompare]
  rw [Report.outcome_bind, outcome_eval_leaf k _ _ rfl]
  rfl

theorem resolve?_probe (datum : String) (e : Expr) (ρ : Respelling) :
    ((probe datum e).respell ρ).resolve? k.catalog "it" = some datum := by
  simp [Rule.resolve?, Rule.respell, probe]

theorem lookupValue_probe (datum spot : String) (e : Expr) (ρ : Respelling) :
    k.lookupValue { rule := (probe datum e).respell ρ, spot } { name := "it" }
      = k.statics.lookup spot datum := by
  simp [lookupValue, lookupName, resolve?_probe]

theorem lookup_eq_of_same_outcome {s s' : String}
    (h : ∀ r, (k.evaluate r s).outcome = (k.evaluate r s').outcome) (name : String) :
    k.statics.lookup s name = k.statics.lookup s' name := by
  have hprobe := h ((probe name (.ref { name := "it" })).respell ⟨.value, "", ""⟩)
  rw [outcome_evaluate_probe rfl, outcome_evaluate_probe rfl] at hprobe
  simp only [Expr.respell, Respelling.reference, leafValue, lookupValue_probe] at hprobe
  exact Except.ok.inj hprobe

theorem interchangeable_of_same_outcome
    (h : ∀ (r : Rule) (q spot : String), (k.evaluate (r.respell ⟨pos, q, p⟩) spot).outcome
      = (k.evaluate (r.respell ⟨pos, q, p'⟩) spot).outcome) : k.Interchangeable p p' pos := by
  cases pos with
  | value =>
      show p = p'
      have hprobe := h (probe "" (.place p)) p ""
      rw [outcome_evaluate_probe rfl, outcome_evaluate_probe rfl] at hprobe
      simpa [Expr.respell, Respelling.path, leafValue] using hprobe
  | comparison =>
      show p = p'
      have hprobe := h (probe "" (.strCompare (.place p) .eq (.place p))) p ""
      rw [outcome_evaluate_comparison, outcome_evaluate_comparison] at hprobe
      simpa using hprobe
  | member =>
      have hprobe : ∀ spot name, isMember (k.statics.lookup spot name) (.places [p])
          = isMember (k.statics.lookup spot name) (.places [p']) := by
        intro spot name
        have hspot := h (probe name (.refInSet { name := "it" } (.places [p]))) p spot
        rw [outcome_evaluate_probe rfl, outcome_evaluate_probe rfl] at hspot
        simpa [Expr.respell, Respelling.reference, Respelling.members, Respelling.path, leafValue,
          lookupValue_probe] using hspot
      by_cases hpp : p = p'
      · exact Or.inl hpp
      · refine Or.inr fun spot name => ⟨fun hp => ?_, fun hp => ?_⟩
        · have hmember := hprobe spot name
          rw [hp] at hmember
          simp [isMember, hpp] at hmember
        · have hmember := hprobe spot name
          rw [hp] at hmember
          simp [isMember, Ne.symm hpp] at hmember
  | within => trivial
  | qualifier =>
      intro name
      have hprobe := h (probe name (.ref { name := "it", qualifier := some (.place p) })) p ""
      rw [outcome_evaluate_probe rfl, outcome_evaluate_probe rfl] at hprobe
      simpa [Expr.respell, Respelling.reference, Respelling.path, leafValue, lookupValue,
        resolve?_probe] using hprobe

end Knowledge

/-- Evaluation at two spellings of a spot comes to the same for all rules exactly if static data is
    the same under both; and two spellings of a place in rules come to the same exactly if they are
    interchangeable at the position. The second part lets `r` mark with `q` where the place is
    written. -/
theorem spelling_irrelevant_iff (k : Knowledge) :
    (∀ s s', Place.segments s = Place.segments s' →
      ((∀ r, (k.evaluate r s).outcome = (k.evaluate r s').outcome) ↔
        ∀ name, k.statics.lookup s name = k.statics.lookup s' name)) ∧
    (∀ pos p p', Place.segments p = Place.segments p' →
      ((∀ (r : Rule) (q spot : String), (k.evaluate (r.respell ⟨pos, q, p⟩) spot).outcome
          = (k.evaluate (r.respell ⟨pos, q, p'⟩) spot).outcome) ↔
        k.Interchangeable p p' pos)) := by
  refine ⟨fun s s' hseg => ⟨?_, ?_⟩, fun pos p p' hseg => ⟨?_, ?_⟩⟩
  · exact Knowledge.lookup_eq_of_same_outcome
  · exact Knowledge.outcome_evaluate_spots hseg
  · exact Knowledge.interchangeable_of_same_outcome
  · intro h r q spot
    exact Knowledge.outcome_evaluate_respell r
      (Knowledge.speltAlike_of_interchangeable hseg h q r spot) fun _ => rfl

/-- A cave that is under water at its door only. -/
def floodedCatalog : Catalog where
  data := .ofList [("water", .bool false)]
  regions := .ofList [("Cave", { areas := .ofList [("Entry", {
    spots := .ofList [("Door", { data := .ofList [("water", .bool true)] })] })] })]

/-- What is known of the cave. -/
def floodedCave : Knowledge :=
  ⟨⟨floodedCatalog, {}⟩, ∅, .ofCatalog floodedCatalog⟩

/-- Swimming, where there is water. -/
def swim : Rule where
  name := "rules:swim"
  body := .requirement (.argFlag { name := "water" } false)

theorem floodedCave_within_entry :
    Place.segments "Cave > Entry" = Place.segments "Cave>Entry" ∧
      ∀ (r : Rule) (q spot : String),
        (floodedCave.evaluate (r.respell ⟨.within, q, "Cave > Entry"⟩) spot).outcome
          = (floodedCave.evaluate (r.respell ⟨.within, q, "Cave>Entry"⟩) spot).outcome := by
  have hseg : Place.segments "Cave > Entry" = Place.segments "Cave>Entry" := by decide
  exact ⟨hseg, ((spelling_irrelevant_iff floodedCave).2 .within _ _ hseg).2 trivial⟩

/-- Neither the spelling of the spot nor that of the places in a rule is irrelevant. -/
theorem floodedCave_spelling_matters :
    (¬ ∀ (r : Rule) (s s' : String), Place.segments s = Place.segments s' →
      (floodedCave.evaluate r s).outcome = (floodedCave.evaluate r s').outcome) ∧
    ¬ ∀ (pos : PlacePosition) (p p' : String), Place.segments p = Place.segments p' →
      ∀ (r : Rule) (q spot : String), (floodedCave.evaluate (r.respell ⟨pos, q, p⟩) spot).outcome
        = (floodedCave.evaluate (r.respell ⟨pos, q, p'⟩) spot).outcome := by
  refine ⟨fun h => ?_, fun h => ?_⟩
  · have hdoor := h swim "Cave > Entry > Door" "Cave>Entry>Door" (by decide)
    have htrue : (floodedCave.evaluate swim "Cave > Entry > Door").outcome = .ok (.bool true) := rfl
    have hfalse : (floodedCave.evaluate swim "Cave>Entry>Door").outcome = .ok (.bool false) := rfl
    rw [htrue, hfalse] at hdoor
    cases hdoor
  · have hentry : "Cave > Entry" = "Cave>Entry" :=
      Knowledge.interchangeable_of_same_outcome
        (h .comparison "Cave > Entry" "Cave>Entry" (by decide))
    exact absurd hentry (by decide)

end AccessRules
