import AccessRules.Proofs.Grammar.Shape
import AccessRules.Proofs.Place
import AccessRules.Proofs.Typing.Run

set_option autoImplicit false

/-! # The first type that is offered

`Workspace.offerAt?` is the type that the argument at a position of the run offers for a parameter.
One argument changes the types in one way: a parameter without a type takes the offer
(`Workspace.param?_pass`). So at each moment of the run a parameter has its declared type or the
first one that it was offered, and an offer of another type than the final one is reported once. -/

namespace AccessRules

/-! ## Slots -/

namespace HelperTypes

variable {c : Corpus} {types : HelperTypes}

/-- There is a slot for every parameter of every helper. -/
def Fits (c : Corpus) (types : HelperTypes) : Prop :=
  ∀ name s, c.helpers.find? name = some s →
    ∃ slots, types.find? name = some slots ∧ slots.length = s.params.length

theorem find?_ofCorpus {name : String} {s : Signature} (h : c.helpers.find? name = some s) :
    (ofCorpus c).find? name
      = some (s.params.map fun p => p.type.map fun type => ⟨type, declaredSite⟩) := by
  refine (NameMap.find?_ofList_iff ?_).2 (List.mem_map.2 ⟨_, NameMap.find?_eq_some_iff.1 h, rfl⟩)
  rw [List.map_map]
  exact c.helpers.nodup_keys

theorem fits_ofCorpus (c : Corpus) : (ofCorpus c).Fits c :=
  fun _ _ h => ⟨_, find?_ofCorpus h, List.length_map _⟩

theorem param?_ofCorpus {name : String} {s : Signature} (h : c.helpers.find? name = some s)
    {index : Nat} {param : Param} (hparam : s.params[index]? = some param) :
    (ofCorpus c).param? name index = param.type.map fun type => ⟨type, declaredSite⟩ := by
  simp [param?, find?_ofCorpus h, hparam]

theorem Fits.fix (h : types.Fits c) (name : String) (index : Nat) (t : ParamType) :
    (types.fix name index t).Fits c := by
  intro key s hs
  obtain ⟨slots, hslots, hlength⟩ := h key s hs
  rw [HelperTypes.fix, NameMap.find?_alter]
  split
  · next hkey =>
      subst hkey
      exact ⟨_, rfl, by rw [hslots, List.length_set, Option.getD_some, hlength]⟩
  · exact ⟨slots, hslots, hlength⟩

/-- Fixing a parameter that there is fixes this one and no other. -/
theorem Fits.param?_fix (h : types.Fits c) {name : String} {s : Signature}
    (hs : c.helpers.find? name = some s) {index : Nat} (hindex : index < s.params.length)
    (t : ParamType) (key : String) (i : Nat) :
    (types.fix name index t).param? key i
      = if name = key ∧ index = i then some t else types.param? key i := by
  obtain ⟨slots, hslots, hlength⟩ := h name s hs
  unfold param? HelperTypes.fix
  rw [NameMap.find?_alter]
  by_cases hkey : key = name
  · subst hkey
    by_cases hi : index = i
    · subst hi
      simp [hslots, hlength, hindex]
    · simp [hslots, hi, List.getElem?_set_ne hi]
  · simp [hkey, Ne.symm hkey]

end HelperTypes

/-! ## Offers -/

/-- A place literal with four segments. It names a leaf. -/
def Expr.isLeafLiteral : Expr → Bool
  | .place path => (Place.segments path).length = 4
  | _ => false

namespace Workspace

/-- The type that an argument shows for its parameter while some types are known. -/
def offer? (w : Workspace) (contexts : ContextTable) (types : HelperTypes) (p : Passing) :
    Option ParamType :=
  if p.arg.isLeafLiteral then none
  else (w.argType? contexts types p.rule p.arg).map fun type => ⟨type, p.rule.name⟩

/-- The type that the argument at a position offers for a parameter, as far as the arguments before
    it tell. -/
def offerAt? (w : Workspace) (contexts : ContextTable) (helper : String) (index n : Nat) :
    Option ParamType :=
  (w.passings[n]?).bind fun p =>
    if p.helper.name = helper ∧ p.index = index then w.offer? contexts (w.typesAfter contexts n) p
    else none

variable {w : Workspace} {contexts : ContextTable} {types : HelperTypes} {p : Passing}
  {t known : ParamType}

/-! ## One argument -/

theorem argType?_ref (contexts : ContextTable) (types : HelperTypes) (r : Rule) (name : String) :
    w.argType? contexts types r (.ref { name }) = w.refType? contexts types r name := by rfl

theorem argType?_place (contexts : ContextTable) (types : HelperTypes) (r : Rule) (path : String) :
    w.argType? contexts types r (.place path) = (Place.kind? path).map .place := by rfl

/-- A place literal below a spot is refused and leaves the types as they are. -/
theorem pass_leaf {path : String} (harg : p.arg = .place path) (h : p.arg.isLeafLiteral = true) :
    w.pass contexts types p = (types,
      [.problem p.rule.name (.leafArgument p.helper.name p.index p.param.name path)]) := by
  rw [harg] at h
  have hkind := Place.kind?_eq_leaf_iff.2 (of_decide_eq_true h)
  have htype : w.argType? contexts types p.rule p.arg = some (.place .leaf) := by
    rw [harg, argType?_place, hkind, Option.map_some]
  rw [pass, htype, harg]
  rfl

theorem pass_of_leaf (h : p.arg.isLeafLiteral = true) : (w.pass contexts types p).1 = types := by
  cases harg : p.arg with
  | place path => rw [pass_leaf harg h]
  | _ => simp [harg, Expr.isLeafLiteral] at h

theorem offer?_eq_some_iff : w.offer? contexts types p = some t ↔ p.arg.isLeafLiteral = false ∧
    w.argType? contexts types p.rule p.arg = some t.type ∧ t.site = p.rule.name := by
  unfold offer?
  cases p.arg.isLeafLiteral with
  | true => simp
  | false =>
      cases w.argType? contexts types p.rule p.arg with
      | none => simp
      | some type =>
          obtain ⟨type', site⟩ := t
          simp [eq_comm]

theorem pass_of_no_offer (h : w.offer? contexts types p = none) :
    (w.pass contexts types p).1 = types := by
  by_cases hleaf : p.arg.isLeafLiteral = true
  · exact pass_of_leaf hleaf
  · rw [offer?, if_neg hleaf, Option.map_eq_none_iff] at h
    simp [pass, h]

theorem type_ne_leaf_of_offer (h : w.offer? contexts types p = some t) {path : String}
    (harg : p.arg = .place path) : t.type ≠ .place .leaf := by
  obtain ⟨hleaf, htype, -⟩ := offer?_eq_some_iff.1 h
  intro heq
  rw [harg, argType?_place, heq] at htype
  have hkind : Place.kind? path = some .leaf := by simpa using htype
  rw [harg] at hleaf
  exact absurd (Place.kind?_eq_leaf_iff.1 hkind) (of_decide_eq_false hleaf)

theorem pass_of_unknown (h : w.offer? contexts types p = some t)
    (hunknown : types.param? p.helper.name p.index = none) :
    w.pass contexts types p = (types.fix p.helper.name p.index t, []) := by
  obtain ⟨-, htype, hsite⟩ := offer?_eq_some_iff.1 h
  simp only [pass, htype, passArgument, hunknown, ← hsite]
  split
  · next harg heq => exact absurd heq (type_ne_leaf_of_offer h harg)
  · rfl

theorem pass_of_known (h : w.offer? contexts types p = some t)
    (hknown : types.param? p.helper.name p.index = some known) :
    w.pass contexts types p = (types, if known.type = t.type then [] else [.problem p.rule.name
      (argumentProblem p.helper.name p.index p.param.name known t.type p.arg)]) := by
  obtain ⟨-, htype, -⟩ := offer?_eq_some_iff.1 h
  simp only [pass, htype, passArgument, hknown]
  split
  · next harg heq => exact absurd heq (type_ne_leaf_of_offer h harg)
  · rfl

theorem fits_pass (h : types.Fits w.corpus) (p : Passing) :
    (w.pass contexts types p).1.Fits w.corpus := by
  cases hoffer : w.offer? contexts types p with
  | none => rwa [pass_of_no_offer hoffer]
  | some t =>
      cases hslot : types.param? p.helper.name p.index with
      | none =>
          rw [pass_of_unknown hoffer hslot]
          exact h.fix _ _ _
      | some known => rwa [pass_of_known hoffer hslot]

/-- A parameter without a type takes the one that an argument offers. -/
theorem param?_pass (h : types.Fits w.corpus) (hp : p.Fits w.corpus) (helper : String)
    (index : Nat) : (w.pass contexts types p).1.param? helper index
      = (types.param? helper index).or
          (if p.helper.name = helper ∧ p.index = index then w.offer? contexts types p
            else none) := by
  cases hoffer : w.offer? contexts types p with
  | none => rw [pass_of_no_offer hoffer, ite_self, Option.or_none]
  | some t =>
      cases hknown : types.param? p.helper.name p.index with
      | none =>
          have hindex := (List.getElem?_eq_some_iff.1 hp.param).1
          rw [pass_of_unknown hoffer hknown, h.param?_fix hp.helper hindex]
          by_cases hslot : p.helper.name = helper ∧ p.index = index
          · obtain ⟨rfl, rfl⟩ := hslot
            simp [hknown]
          · simp [hslot]
      | some known =>
          rw [pass_of_known hoffer hknown]
          by_cases hslot : p.helper.name = helper ∧ p.index = index
          · obtain ⟨rfl, rfl⟩ := hslot
            simp [hknown]
          · simp [hslot]

/-! ## The whole run -/

theorem fits_typesAfter (n : Nat) : (w.typesAfter contexts n).Fits w.corpus :=
  accumulate_keeps (fun _ p _ h => fits_pass h p) (HelperTypes.fits_ofCorpus w.corpus)

theorem param?_typesAfter_succ (hbuilt : w.corpus.Built) (helper : String) (index n : Nat) :
    (w.typesAfter contexts (n + 1)).param? helper index
      = ((w.typesAfter contexts n).param? helper index).or
          (w.offerAt? contexts helper index n) := by
  unfold offerAt?
  cases hp : w.passings[n]? with
  | none => rw [typesAfter_succ_of_none w contexts hp, Option.bind_none, Option.or_none]
  | some p =>
      have hfits := fits_of_mem_passings hbuilt (List.mem_of_getElem? hp)
      rw [typesAfter_succ w contexts hp, param?_pass (fits_typesAfter n) hfits, Option.bind_some]

/-- At each moment a parameter has its declared type, or else the first one that it was offered. -/
theorem param?_typesAfter (hbuilt : w.corpus.Built) (helper : String) (index n : Nat) :
    (w.typesAfter contexts n).param? helper index
      = ((HelperTypes.ofCorpus w.corpus).param? helper index).or
          ((List.range n).findSome? (w.offerAt? contexts helper index)) := by
  induction n with
  | zero => rw [typesAfter_zero, List.range_zero, List.findSome?_nil, Option.or_none]
  | succ n ih =>
      rw [param?_typesAfter_succ hbuilt, ih, List.range_succ, List.findSome?_append,
        List.findSome?_singleton, Option.or_assoc]

theorem param?_typesAfter_mono (hbuilt : w.corpus.Built) {helper : String} {index n m : Nat}
    (hnm : n ≤ m) (h : (w.typesAfter contexts n).param? helper index = some known) :
    (w.typesAfter contexts m).param? helper index = some known := by
  induction hnm with
  | refl => exact h
  | step _ ih => rw [param?_typesAfter_succ hbuilt, ih, Option.some_or]

theorem typesAfter_le_helperTypes (hbuilt : w.corpus.Built) {helper : String} {index n : Nat}
    (hn : n ≤ w.passings.length)
    (h : (w.typesAfter contexts n).param? helper index = some known) :
    (w.helperTypes contexts).1.param? helper index = some known := by
  rw [helperTypes_fst]
  exact param?_typesAfter_mono hbuilt hn h

/-! ## What is reported -/

theorem exists_passing_of_offerAt? (hbuilt : w.corpus.Built) {s : Signature}
    (hs : w.corpus.helpers.find? s.name = some s) {index n : Nat} {param : Param}
    (hparam : s.params[index]? = some param)
    (h : w.offerAt? contexts s.name index n = some t) :
    ∃ p, w.passings[n]? = some p ∧ p.helper = s ∧ p.index = index ∧ p.param = param ∧
      w.offer? contexts (w.typesAfter contexts n) p = some t := by
  obtain ⟨p, hp, hoffer⟩ := Option.bind_eq_some_iff.1 h
  split at hoffer
  · next hslot =>
      have hfits := fits_of_mem_passings hbuilt (List.mem_of_getElem? hp)
      have hhelper : p.helper = s := by
        have hfind := hfits.helper
        rw [hslot.1, hs] at hfind
        exact (Option.some.inj hfind).symm
      have hfound := hfits.param
      rw [hhelper, hslot.2, hparam] at hfound
      exact ⟨p, hp, hhelper, hslot.2, (Option.some.inj hfound).symm, hoffer⟩
  · cases hoffer

theorem severity_argumentProblem (helper : String) (index : Nat) (param : String)
    (known : ParamType) (used : ArgType) (arg : Expr) :
    (argumentProblem helper index param known used arg).severity = .error := by
  unfold argumentProblem
  split <;> rfl

theorem kind_argumentProblem (helper : String) (index : Nat) (param : String)
    (known : ParamType) (used : ArgType) (arg : Expr) :
    (argumentProblem helper index param known used arg).kind = .typeConflict ∨
      (argumentProblem helper index param known used arg).kind = .placeDepth := by
  unfold argumentProblem
  split
  · exact Or.inr rfl
  · exact Or.inl rfl

/-- An offer is reported exactly if it is not of the final type of the parameter. -/
theorem saidAt_of_offer (hbuilt : w.corpus.Built) {n : Nat} (hp : w.passings[n]? = some p)
    (hoffer : w.offer? contexts (w.typesAfter contexts n) p = some t)
    (hfinal : (w.helperTypes contexts).1.param? p.helper.name p.index = some known) :
    w.saidAt contexts n = if known.type = t.type then [] else [⟨p.rule.name,
      argumentProblem p.helper.name p.index p.param.name known t.type p.arg⟩] := by
  have hlt : n < w.passings.length := (List.getElem?_eq_some_iff.1 hp).1
  rw [saidAt, hp, Option.map_some, Option.getD_some]
  cases hslot : (w.typesAfter contexts n).param? p.helper.name p.index with
  | none =>
      -- the parameter takes the offer, so this is its final type
      have hfits := fits_of_mem_passings hbuilt (List.mem_of_getElem? hp)
      have hnext : (w.typesAfter contexts (n + 1)).param? p.helper.name p.index = some t := by
        rw [typesAfter_succ w contexts hp, param?_pass (fits_typesAfter n) hfits, hslot,
          if_pos ⟨rfl, rfl⟩, hoffer, Option.none_or]
      rw [typesAfter_le_helperTypes hbuilt hlt hnext] at hfinal
      obtain rfl := Option.some.inj hfinal
      rw [pass_of_unknown hoffer hslot, if_pos rfl]
      rfl
  | some earlier =>
      rw [typesAfter_le_helperTypes hbuilt (Nat.le_of_lt hlt) hslot] at hfinal
      obtain rfl := Option.some.inj hfinal
      rw [pass_of_known hoffer hslot]
      split <;> rfl

end Workspace

/-! ## First come, never revised -/

theorem findSome?_range_eq_some_iff {α : Type} {f : Nat → Option α} {n : Nat} {a : α} :
    (List.range n).findSome? f = some a ↔ ∃ m < n, f m = some a ∧ ∀ k < m, f k = none := by
  induction n with
  | zero => simp
  | succ n ih =>
      rw [List.range_succ, List.findSome?_append, List.findSome?_singleton, Option.or_eq_some_iff,
        ih, List.findSome?_eq_none_iff]
      constructor
      · rintro (⟨m, hm, hfirst⟩ | ⟨hnone, ha⟩)
        · exact ⟨m, Nat.lt_succ_of_lt hm, hfirst⟩
        · exact ⟨n, Nat.lt_succ_self n, ha, fun k hk => hnone k (List.mem_range.2 hk)⟩
      · rintro ⟨m, hm, ha, hfirst⟩
        rcases Nat.lt_succ_iff_lt_or_eq.1 hm with hlt | rfl
        · exact Or.inl ⟨m, hlt, ha, hfirst⟩
        · exact Or.inr ⟨fun k hk => hfirst k (List.mem_range.1 hk), ha⟩

/-- How a parameter of a helper comes by its type in the run over all arguments. -/
structure Workspace.FirstCome (w : Workspace) (contexts : ContextTable) (s : Signature)
    (index : Nat) (param : Param) : Prop where
  /-- A declared type is there from the start. -/
  declared : ∀ type, param.type = some type → ∀ n,
    (w.typesAfter contexts n).param? s.name index = some ⟨type, declaredSite⟩
  /-- Without one, the parameter has the first type that it was offered. -/
  first : param.type = none → ∀ n known,
    ((w.typesAfter contexts n).param? s.name index = some known ↔
      ∃ m < n, w.offerAt? contexts s.name index m = some known ∧
        ∀ k < m, w.offerAt? contexts s.name index k = none)
  unknown : param.type = none → ∀ n, ((w.typesAfter contexts n).param? s.name index = none ↔
    ∀ m < n, w.offerAt? contexts s.name index m = none)
  never_revised : ∀ n m known, n ≤ m →
    (w.typesAfter contexts n).param? s.name index = some known →
    (w.typesAfter contexts m).param? s.name index = some known
  /-- An offer of the final type is not reported. -/
  agreed : ∀ n t known, w.offerAt? contexts s.name index n = some t →
    (w.helperTypes contexts).1.param? s.name index = some known → t.type = known.type →
    w.saidAt contexts n = []
  /-- Each offer of another type is reported once, as an error of the rule that makes it. -/
  refused : ∀ n t known, w.offerAt? contexts s.name index n = some t →
    (w.helperTypes contexts).1.param? s.name index = some known → t.type ≠ known.type →
    ∃ p problem, w.passings[n]? = some p ∧ w.saidAt contexts n = [⟨t.site, problem⟩] ∧
      problem = Workspace.argumentProblem s.name index param.name known t.type p.arg ∧
      problem.severity = .error ∧ (problem.kind = .typeConflict ∨ problem.kind = .placeDepth)

theorem Workspace.firstCome {w : Workspace} {contexts : ContextTable} (hbuilt : w.corpus.Built)
    {s : Signature} (hs : w.corpus.helpers.find? s.name = some s) {index : Nat} {param : Param}
    (hparam : s.params[index]? = some param) : w.FirstCome contexts s index param where
  declared type htype n := by
    rw [param?_typesAfter hbuilt, HelperTypes.param?_ofCorpus hs hparam, htype]
    rfl
  first htype n known := by
    rw [param?_typesAfter hbuilt, HelperTypes.param?_ofCorpus hs hparam, htype, Option.map_none,
      Option.none_or]
    exact findSome?_range_eq_some_iff
  unknown htype n := by
    rw [param?_typesAfter hbuilt, HelperTypes.param?_ofCorpus hs hparam, htype, Option.map_none,
      Option.none_or, List.findSome?_eq_none_iff]
    simp only [List.mem_range]
  never_revised n m known := param?_typesAfter_mono hbuilt
  agreed n t known hoffer hfinal htype := by
    obtain ⟨p, hp, rfl, rfl, rfl, hoffer⟩ := exists_passing_of_offerAt? hbuilt hs hparam hoffer
    rw [saidAt_of_offer hbuilt hp hoffer hfinal, if_pos htype.symm]
  refused n t known hoffer hfinal htype := by
    obtain ⟨p, hp, rfl, rfl, rfl, hoffer⟩ := exists_passing_of_offerAt? hbuilt hs hparam hoffer
    have hsite : t.site = p.rule.name := (offer?_eq_some_iff.1 hoffer).2.2
    refine ⟨p, _, hp, ?_, rfl, severity_argumentProblem .., kind_argumentProblem ..⟩
    rw [saidAt_of_offer hbuilt hp hoffer hfinal, if_neg htype.symm, hsite]

/-- A helper `$near(^at)`. -/
def nearSignature : Signature := { name := "near", params := [{ name := "at", type := none }] }

/-- A helper `$far(^to)`, which hands on its parameter. -/
def farSignature : Signature := { name := "far", params := [{ name := "to", type := none }] }

def beachRule : Rule where
  name := "rules:beach"
  body := .requirement (.invoke "near" [.place "Cave > Entry"] false)

def cliffRule : Rule where
  name := "rules:cliff"
  body := .requirement (.invoke "near" [.int 3] false)

def nearBody : Body := .requirement (.bool true)

def farBody : Body := .requirement (.not (.invoke "near" [.ref { name := "to" }] false))

/-- One rule calls `$near` with an area, and a later one calls it with a number. -/
def beachRules : NameMap Rule :=
  .ofList [("rules:beach", beachRule), ("rules:cliff", cliffRule)]

def beaches : Corpus where
  rules := beachRules.insert "helpers:near" { name := "helpers:near", body := nearBody }
  helpers := .ofList [("near", nearSignature)]

def coast : Workspace where
  catalog := {}
  corpus := ⟨beaches.rules.insert "helpers:far" { name := "helpers:far", body := farBody },
    beaches.helpers.insert "far" farSignature⟩

theorem coast_built : coast.corpus.Built := by
  have hrules : Corpus.Built { rules := beachRules } :=
    .rule (r := cliffRule) (.rule (r := beachRule) .empty rfl) rfl
  have hnear : Corpus.addHelper { rules := beachRules } "$near(^at)" nearBody = .ok beaches :=
    Corpus.addHelper_eq_ok_iff.2 ⟨nearSignature, rfl, rfl, rfl, rfl⟩
  have hfar : beaches.addHelper "$far(^to)" farBody = .ok coast.corpus :=
    Corpus.addHelper_eq_ok_iff.2 ⟨farSignature, rfl, rfl, rfl, rfl⟩
  exact .helper (.helper hrules hnear) hfar

/-- The arguments in the order in which they are looked at. -/
theorem coast_passings : coast.passings =
    [⟨{ name := "helpers:far", body := farBody }, nearSignature, 0, { name := "at", type := none },
        .ref { name := "to" }⟩,
      ⟨beachRule, nearSignature, 0, { name := "at", type := none }, .place "Cave > Entry"⟩,
      ⟨cliffRule, nearSignature, 0, { name := "at", type := none }, .int 3⟩] := by
  rw [Workspace.passings]
  simp only [← Body.calls_eq]
  rfl

end AccessRules
