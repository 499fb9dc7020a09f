import AccessRules.Proofs.Corpus
import AccessRules.Proofs.Diagnostics
import Mathlib.Data.List.Nodup

set_option autoImplicit false

/-! # Place literals that are checked

A place literal may stand in many positions of a rule, and the check of places looks at some of
them: `Expr.HoldsPlace` lists all positions in a node, and `Expr.ChecksPlace` those that are looked
at. Qualifiers count only in plain references and on the left of an equality, and the cases of a
choice and the targets of actions do not count at all. What is looked at is reported as it should
be: once for each rule and each path that names no declared place. -/

namespace AccessRules

/-! ## Positions of place literals -/

namespace Expr

/-- The path stands in the node itself as a place literal. -/
inductive HoldsPlace (p : String) : Expr → Prop
  | value : HoldsPlace p (.place p)
  | compared (l : Expr) (op : CmpOp) : HoldsPlace p (.strCompare l op (.place p))
  | member (r : Reference) {paths : List String} (h : p ∈ paths) :
      HoldsPlace p (.refInSet r (.places paths))
  | surrounding (negated : Bool) : HoldsPlace p (.within (.literal p) negated)
  | option (setting : String) {cases : List (Literal × Expr)} (d e : Expr)
      (h : (.place p, e) ∈ cases) : HoldsPlace p (.perSetting setting cases d)
  | qualifier {e : Expr} {r : Reference} (hr : r ∈ e.references)
      (h : r.qualifier = some (.place p)) : HoldsPlace p e

/-- The path stands in the node as a place literal that is looked at. -/
inductive ChecksPlace (p : String) : Expr → Prop
  | value : ChecksPlace p (.place p)
  | compared (l : Expr) (op : CmpOp) : ChecksPlace p (.strCompare l op (.place p))
  | member (r : Reference) {paths : List String} (h : p ∈ paths) :
      ChecksPlace p (.refInSet r (.places paths))
  | surrounding (negated : Bool) : ChecksPlace p (.within (.literal p) negated)
  | read {r : Reference} (h : r.qualifier = some (.place p)) : ChecksPlace p (.ref r)
  | equated {r : Reference} (op : CmpOp) (rhs : Comparand) (h : r.qualifier = some (.place p)) :
      ChecksPlace p (.refEq r op rhs)
  | equatedCall {r : Reference} (op : CmpOp) (e : Expr) (h : r.qualifier = some (.place p)) :
      ChecksPlace p (.refEqCall r op e)

theorem ChecksPlace.holdsPlace {p : String} {e : Expr} (h : e.ChecksPlace p) : e.HoldsPlace p := by
  cases h with
  | value => exact .value
  | compared l op => exact .compared l op
  | member r h => exact .member r h
  | surrounding negated => exact .surrounding negated
  | read h => exact .qualifier (List.mem_singleton_self _) h
  | equated op rhs h =>
      refine .qualifier ?_ h
      cases rhs <;> exact List.mem_cons_self ..
  | equatedCall op e h => exact .qualifier (List.mem_singleton_self _) h

end Expr

theorem Reference.mem_placePaths_iff {r : Reference} {p : String} :
    p ∈ r.placePaths ↔ r.qualifier = some (.place p) := by
  obtain ⟨name, _ | q | path⟩ := r <;> simp [placePaths, eq_comm]

theorem Expr.mem_placePaths_iff {e : Expr} {p : String} : p ∈ e.placePaths ↔ e.ChecksPlace p := by
  constructor
  · intro h
    unfold placePaths at h
    split at h
    · obtain rfl := List.mem_singleton.1 h
      exact .value
    · obtain rfl := List.mem_singleton.1 h
      exact .compared _ _
    · exact .member _ h
    · obtain rfl := List.mem_singleton.1 h
      exact .surrounding _
    · exact .equated _ _ (Reference.mem_placePaths_iff.1 h)
    · exact .equatedCall _ _ (Reference.mem_placePaths_iff.1 h)
    · exact .read (Reference.mem_placePaths_iff.1 h)
    · cases h
  · rintro (_ | _ | ⟨_, h⟩ | _ | h | ⟨_, _, h⟩ | ⟨_, _, h⟩)
    · exact List.mem_singleton_self _
    · exact List.mem_singleton_self _
    · exact h
    · exact List.mem_singleton_self _
    · exact Reference.mem_placePaths_iff.2 h
    · exact Reference.mem_placePaths_iff.2 h
    · exact Reference.mem_placePaths_iff.2 h

namespace Body

/-- The path stands somewhere in the body as a place literal: in a node, or as the qualifier of a
    target of an action. -/
def HasPlace (b : Body) (p : String) : Prop :=
  (∃ e, b.HasNode e ∧ e.HoldsPlace p) ∨
    ∃ a, b.HasAction a ∧ ∃ target ∈ a.assigned, target.qualifier = some (.place p)

/-- The path stands somewhere in the body as a place literal that is looked at. -/
def ChecksPlace (b : Body) (p : String) : Prop :=
  ∃ e, b.HasNode e ∧ e.ChecksPlace p

theorem ChecksPlace.hasPlace {b : Body} {p : String} (h : b.ChecksPlace p) : b.HasPlace p := by
  obtain ⟨e, he, hp⟩ := h
  exact Or.inl ⟨e, he, hp.holdsPlace⟩

end Body

/-! ## What is reported for a rule -/

namespace Workspace

variable {w : Workspace} {r : Rule} {p : String}

theorem mem_unknownPlaces_iff (hplaces : w.catalog.hasPlaces = true)
    (hshape : r.body.misshapen? = none) :
    p ∈ w.unknownPlaces r ↔ r.body.ChecksPlace p ∧ w.catalog.locationKind? p = none := by
  have hnodes : p ∈ r.body.nodes.flatMap Expr.placePaths ↔ r.body.ChecksPlace p := by
    simp only [Body.nodes_eq, List.mem_flatMap, Body.mem_reached_iff (Body.paired_of_shape hshape),
      Expr.mem_placePaths_iff]
    rfl
  rw [unknownPlaces, if_pos hplaces, List.mem_filter, NameSet.mem_toList_ofList, hnodes,
    Option.isNone_iff_eq_none]

theorem mem_placeProblems_unknownPlace_iff :
    Problem.unknownPlace p ∈ w.placeProblems r ↔ p ∈ w.unknownPlaces r := by
  simp [placeProblems]

/-- Nothing is said twice about the places of a rule. -/
theorem nodup_placeProblems (w : Workspace) (r : Rule) : (w.placeProblems r).Nodup := by
  have hunknown : (w.unknownPlaces r).Nodup := by
    unfold unknownPlaces
    split
    · exact (NameSet.nodup_toList _).filter _
    · exact List.nodup_nil
  refine List.nodup_append.2 ⟨?_, hunknown.map fun a b h => Problem.unknownPlace.inj h, ?_⟩
  · cases r.spot.bind fun spot => Place.pathFault? spot .spot with
    | none => exact List.nodup_nil
    | some fault => exact List.nodup_singleton _
  · intro a ha b hb hab
    obtain ⟨fault, -, rfl⟩ := List.mem_map.1 ha
    obtain ⟨path, -, rfl⟩ := List.mem_map.1 hb
    cases hab

theorem mem_diagnostics_checkPlaces_iff (h : w.corpus.Built) (hr : r ∈ w.corpus.rules.values)
    {problem : Problem} :
    ⟨r.name, problem⟩ ∈ Event.diagnostics w.checkPlaces ↔ problem ∈ w.placeProblems r := by
  rw [diagnostics_checkPlaces, h.mem_diagnosed_iff hr]

/-! ## What is reported by a compilation -/

/-- A compilation says of places what the check of places says. -/
theorem filter_diagnostics_compile (o : CompileOptions)
    (hshape : ∀ r ∈ w.corpus.rules.values, r.body.misshapen? = none) :
    (Event.diagnostics (w.compile o).events).filter (·.problem.kind = .unknownPlace)
      = Event.diagnostics w.checkPlaces := by
  rw [filter_compile o hshape]
  exact (List.append_nil _).trans w.ofKinds_checkPlaces.filter_eq_self

end Workspace

/-! ## What a report names -/

theorem Problem.quote_notMem_placeWord (path : String) : '\'' ∉ (placeWord path).toList := by
  unfold placeWord
  cases Place.kind? path with
  | none => decide
  | some kind => cases kind <;> decide

/-- What is said about an unknown place. -/
def unknownPlaceText (rule path : String) : String :=
  "Unknown " ++ Problem.placeWord path ++ " " ++ placeText path ++ " in " ++ rule

theorem message_unknownPlace (rule path : String) :
    (⟨rule, .unknownPlace path⟩ : Diagnostic).message = unknownPlaceText rule path := rfl

theorem message_invalidSpot (rule : String) (fault : Place.PathFault) :
    (⟨rule, .invalidSpot fault⟩ : Diagnostic).message
      = "Rule " ++ rule ++ " is attached to an invalid spot: " ++ fault.message := rfl

/-- The sentence about an unknown place shows its path. -/
theorem unknownPlaceText_inj {rule p q : String}
    (h : unknownPlaceText rule p = unknownPlaceText rule q) : p = q := by
  -- the path stands after the first quote
  have hdrop : ∀ path, (unknownPlaceText rule path).toList.dropWhile (· != '\'')
      = '\'' :: (path.toList ++ ("' in ".toList ++ rule.toList)) := by
    intro path
    have hlist : (unknownPlaceText rule path).toList
        = ("Unknown ".toList ++ (Problem.placeWord path).toList ++ [' '])
          ++ '\'' :: (path.toList ++ ("' in ".toList ++ rule.toList)) := by
      simp [unknownPlaceText, placeText]
    rw [hlist, List.dropWhile_append_of_pos]
    · simp
    · intro c hc
      have hne : c ≠ '\'' := by
        rintro rfl
        rcases List.mem_append.1 hc with hc | hc
        · rcases List.mem_append.1 hc with hc | hc
          · exact absurd hc (by decide)
          · exact Problem.quote_notMem_placeWord path hc
        · exact absurd hc (by decide)
      simpa using hne
  have hrest := hdrop p
  rw [h, hdrop q] at hrest
  exact String.toList_injective (List.append_cancel_right (List.cons.inj hrest).2).symm

/-- The diagnostic is an error about the rule that says that the path is unknown. -/
def Diagnostic.namesPlace (rule path : String) (d : Diagnostic) : Bool :=
  d.rule = rule && d.problem.kind = .unknownPlace && d.severity = .error &&
    d.message = unknownPlaceText rule path

theorem Diagnostic.namesPlace_iff {rule path : String} {d : Diagnostic} :
    d.namesPlace rule path = true ↔ d = ⟨rule, .unknownPlace path⟩ := by
  constructor
  · intro h
    simp only [namesPlace, Bool.and_eq_true, decide_eq_true_eq] at h
    obtain ⟨⟨⟨rfl, hkind⟩, -⟩, hmessage⟩ := h
    obtain ⟨rule, problem⟩ := d
    cases problem with
    | unknownPlace q =>
        rw [message_unknownPlace] at hmessage
        obtain rfl := unknownPlaceText_inj hmessage
        rfl
    | invalidSpot fault =>
        rw [message_invalidSpot, unknownPlaceText] at hmessage
        have hfirst := congrArg (fun s => s.toList.head?) hmessage
        simp at hfirst
    | _ => cases hkind
  · rintro rfl
    simp [namesPlace, Problem.kind, severity, Problem.severity, message_unknownPlace]

/-! ## Every path that is looked at -/

/-- The number is one if the condition holds, and else zero. -/
def OnceIf (n : Nat) (P : Prop) : Prop :=
  (P → n = 1) ∧ (¬ P → n = 0)

/-- In a list without repetition each member counts once. -/
theorem onceIf_count {ds : List Diagnostic} (h : ds.Nodup) (d : Diagnostic) :
    OnceIf (ds.count d) (d ∈ ds) :=
  ⟨List.count_eq_one_of_mem h, List.count_eq_zero_of_not_mem⟩

/-- A smaller condition decides the number like a larger one exactly if they come to the same. -/
theorem OnceIf.iff_imp {n : Nat} {P Q : Prop} (h : OnceIf n P) (hPQ : P → Q) :
    OnceIf n Q ↔ (Q → P) := by
  constructor
  · intro hQ q
    by_contra hnotP
    have hone := hQ.1 q
    rw [h.2 hnotP] at hone
    cases hone
  · intro hQP
    exact ⟨fun q => h.1 (hQP q), fun hnotQ => h.2 fun p => hnotQ (hPQ p)⟩

namespace Workspace

/-- How many errors of a compilation say that the path is unknown in the rule. -/
def placeErrorCount (w : Workspace) (o : CompileOptions) (rule path : String) : Nat :=
  (Event.diagnostics (w.compile o).events).countP (Diagnostic.namesPlace rule path)

variable {w : Workspace} {r : Rule}

/-- A path that is looked at is reported once if it is unknown, and no other path is. -/
theorem onceIf_placeErrorCount (o : CompileOptions) (hplaces : w.catalog.hasPlaces = true)
    (hbuilt : w.corpus.Built) (hshape : ∀ r ∈ w.corpus.rules.values, r.body.misshapen? = none)
    (hr : r ∈ w.corpus.rules.values) (p : String) :
    OnceIf (w.placeErrorCount o r.name p)
      (r.body.ChecksPlace p ∧ w.catalog.locationKind? p = none) := by
  have hcount : w.placeErrorCount o r.name p
      = (Event.diagnostics w.checkPlaces).count ⟨r.name, .unknownPlace p⟩ := by
    rw [← filter_diagnostics_compile o hshape, List.count, List.countP_filter, placeErrorCount]
    refine List.countP_congr fun d _ => ?_
    rw [Diagnostic.namesPlace_iff]
    constructor
    · rintro rfl
      simp [Problem.kind]
    · intro h
      simpa using (Bool.and_eq_true_iff.1 h).1
  have hmem : ⟨r.name, .unknownPlace p⟩ ∈ Event.diagnostics w.checkPlaces
      ↔ r.body.ChecksPlace p ∧ w.catalog.locationKind? p = none := by
    rw [mem_diagnostics_checkPlaces_iff hbuilt hr, mem_placeProblems_unknownPlace_iff,
      mem_unknownPlaces_iff hplaces (hshape r hr)]
  have hnodup : (Event.diagnostics w.checkPlaces).Nodup := by
    rw [diagnostics_checkPlaces]
    exact hbuilt.nodup_diagnosed w.nodup_placeProblems
  rw [hcount, ← hmem]
  exact onceIf_count hnodup _

end Workspace

/-- For each rule and each path a compilation reports one unknown place or none. What it goes by is
    whether the path stands in a position that is looked at, so the report is what it should be
    exactly if an unknown path stands in one such position whenever it stands anywhere in the rule.
    Beside these only the spot of the rule itself is reported as a place. -/
theorem place_literals_reported_iff {w : Workspace} {r : Rule} (o : CompileOptions)
    (hplaces : w.catalog.hasPlaces = true) (hbuilt : w.corpus.Built)
    (hshape : ∀ r ∈ w.corpus.rules.values, r.body.misshapen? = none)
    (hr : r ∈ w.corpus.rules.values) :
    (∀ p, OnceIf (w.placeErrorCount o r.name p)
        (r.body.ChecksPlace p ∧ w.catalog.locationKind? p = none) ∧
      (OnceIf (w.placeErrorCount o r.name p)
          (r.body.HasPlace p ∧ w.catalog.locationKind? p = none) ↔
        (r.body.HasPlace p → w.catalog.locationKind? p = none → r.body.ChecksPlace p))) ∧
    ∀ d ∈ Event.diagnostics (w.compile o).events, d.rule = r.name →
      d.problem.kind = .unknownPlace →
      (∃ p, d.namesPlace r.name p = true) ∨
        ∃ spot fault, r.spot = some spot ∧ Place.pathFault? spot .spot = some fault ∧
          d.problem = .invalidSpot fault := by
  refine ⟨fun p => ?_, fun d hd hrule hkind => ?_⟩
  · have honce := Workspace.onceIf_placeErrorCount o hplaces hbuilt hshape hr p
    refine ⟨honce, (honce.iff_imp fun h => ⟨h.1.hasPlace, h.2⟩).trans ⟨?_, ?_⟩⟩
    · exact fun h hp hunknown => (h ⟨hp, hunknown⟩).1
    · exact fun h hp => ⟨h hp.1 hp.2, hp.2⟩
  · have hcheck : d ∈ Event.diagnostics w.checkPlaces := by
      rw [← Workspace.filter_diagnostics_compile o hshape]
      exact List.mem_filter.2 ⟨hd, decide_eq_true hkind⟩
    obtain ⟨rule, problem⟩ := d
    obtain rfl : rule = r.name := hrule
    have hproblem := (Workspace.mem_diagnostics_checkPlaces_iff hbuilt hr).1 hcheck
    rcases List.mem_append.1 hproblem with hmem | hmem
    · obtain ⟨fault, hfault, rfl⟩ := List.mem_map.1 hmem
      obtain ⟨spot, hspot, hfault⟩ := Option.bind_eq_some_iff.1 (Option.mem_toList.1 hfault)
      exact Or.inr ⟨spot, fault, hspot, hfault, rfl⟩
    · obtain ⟨p, -, rfl⟩ := List.mem_map.1 hmem
      exact Or.inl ⟨p, Diagnostic.namesPlace_iff.2 rfl⟩

/-- A catalog with one region, and a corpus of one rule with the requirement. -/
def caveWorkspace (e : Expr) : Workspace where
  catalog := { data := .ofList [("water", .bool true)], regions := .ofList [("Cave", {})] }
  corpus := { rules := .ofList [("rules:swim", { name := "rules:swim", body := .requirement e })] }

theorem caveWorkspace_built (e : Expr) : (caveWorkspace e).corpus.Built := by
  refine .rule (r := { name := "rules:swim", body := .requirement e }) .empty ?_
  rfl

/-- The datum `water` at a place that is not declared. -/
def lagoonWater : Reference := { name := "water", qualifier := some (.place "Lagoon") }

/-- A place that is not declared, in a position that is looked at and in one that is not. -/
def lagoonTwice : Expr := .and (.ref lagoonWater) (.argFlag lagoonWater false)

theorem lagoon_reported :
    (caveWorkspace lagoonTwice).catalog.hasPlaces = true ∧
      (caveWorkspace lagoonTwice).corpus.Built ∧
      OnceIf ((caveWorkspace lagoonTwice).placeErrorCount {} "rules:swim" "Lagoon")
        ((Body.requirement lagoonTwice).HasPlace "Lagoon" ∧
          (caveWorkspace lagoonTwice).catalog.locationKind? "Lagoon" = none) ∧
      (caveWorkspace lagoonTwice).placeErrorCount {} "rules:swim" "Lagoon" = 1 ∧
      (caveWorkspace lagoonTwice).placeErrorCount {} "rules:swim" "Cave" = 0 := by
  have hbuilt := caveWorkspace_built lagoonTwice
  obtain ⟨hreported, -⟩ := place_literals_reported_iff (w := caveWorkspace lagoonTwice)
    (r := { name := "rules:swim", body := .requirement lagoonTwice }) {} rfl hbuilt
    (List.forall_mem_singleton.2 rfl) (List.mem_singleton_self _)
  have hchecks : (Body.requirement lagoonTwice).ChecksPlace "Lagoon" :=
    ⟨.ref lagoonWater, .inside (List.mem_cons_self ..) .here, .read rfl⟩
  refine ⟨rfl, hbuilt, (hreported "Lagoon").2.2 fun _ _ => hchecks, ?_, ?_⟩
  · exact (hreported "Lagoon").1.1 ⟨hchecks, rfl⟩
  · exact (hreported "Cave").1.2 fun h => by cases h.2

/-- The qualifier of a reference that is taken for its truth is not looked at. -/
theorem lagoon_overlooked :
    ¬ ∀ (w : Workspace) (r : Rule) (o : CompileOptions) (p : String),
      w.catalog.hasPlaces = true → w.corpus.Built →
      (∀ r ∈ w.corpus.rules.values, r.body.misshapen? = none) → r ∈ w.corpus.rules.values →
      OnceIf (w.placeErrorCount o r.name p)
        (r.body.HasPlace p ∧ w.catalog.locationKind? p = none) := by
  intro h
  have hshape : ∀ r ∈ (caveWorkspace (.argFlag lagoonWater false)).corpus.rules.values,
      r.body.misshapen? = none := List.forall_mem_singleton.2 rfl
  have hr : { name := "rules:swim", body := .requirement (.argFlag lagoonWater false) }
      ∈ (caveWorkspace (.argFlag lagoonWater false)).corpus.rules.values :=
    List.mem_singleton_self _
  have hone := (h _ _ {} "Lagoon" rfl (caveWorkspace_built _) hshape hr).1
    ⟨Or.inl ⟨_, .here, .qualifier (List.mem_singleton_self _) rfl⟩, rfl⟩
  have hzero := (Workspace.onceIf_placeErrorCount {} rfl (caveWorkspace_built _) hshape hr
    "Lagoon").2 ?_
  · rw [hzero] at hone
    cases hone
  · rintro ⟨⟨e, he, hchecks⟩, -⟩
    obtain _ | ⟨hc, -⟩ := (he : e.Node (.argFlag lagoonWater false))
    · cases hchecks
    · cases hc

end AccessRules
