import AccessRules.Proofs.Collection.NameMap
import AccessRules.Reachability.Evaluate

set_option autoImplicit false

/-! # What static data a catalog gives

`StaticTable.lookup_ofCatalog` reads the table of a catalog back to the catalog: at a spot a name
has the value that the last declaration of that spot gives to it, and else its global default. A
spot may override a name that has no global default. Such a name is not static data, and yet it has
a value there: `live_uncertain_iff_not_overridden` says exactly where live context stays
uncertain. -/

namespace AccessRules

/-! ## Overrides -/

/-- What the declarations of a spot put in place of the global default of a name. Of several
    declarations with one path the last counts. -/
def Catalog.override? (c : Catalog) (path name : String) : Option Json :=
  (c.spots.filterMap fun d => if d.1 = path then d.2.data.find? name else none).getLast?

namespace StaticTable

/-- The value that a spot has of its own. -/
def own? (t : StaticTable) (spot name : String) : Option Value :=
  t.spots.find? spot >>= fun data => data.find? name

theorem lookup_eq_own (t : StaticTable) (spot name : String) :
    t.lookup spot name = ((t.own? spot name).or (t.defaults.find? name)).getD .uncertain := by
  unfold lookup own?
  cases t.spots.find? spot >>= fun data => data.find? name <;> simp

theorem own?_set (t : StaticTable) (spot name spot' name' : String) (v : Value) :
    (t.set spot name v).own? spot' name'
      = if spot' = spot ∧ name' = name then some v else t.own? spot' name' := by
  unfold own? set
  by_cases hspot : spot' = spot
  · subst hspot
    cases hdata : t.spots.find? spot' <;> simp [hdata]
  · simp [hspot]

/-! ## Filling a table -/

/-- Putting sorted entries one by one into a table, seen through a `view` of it, leaves under each
    name what the entries hold there, and else what stood there before. -/
theorem view_foldl_entries {σ : Type} (view : σ → String → Option Value)
    (put : σ → String → Json → σ) {value : Json → Value}
    (hput : ∀ s name j key,
      view (put s name j) key = if key = name then some (value j) else view s key)
    {entries : List (String × Json)} (h : SortedByName entries) (s : σ) (key : String) :
    view (entries.foldl (fun s e => put s e.1 e.2) s) key
      = ((entries.lookup key).map value).or (view s key) := by
  induction entries generalizing s with
  | nil => rfl
  | cons head rest ih =>
      obtain ⟨name, j⟩ := head
      obtain ⟨hname, hrest⟩ := List.pairwise_cons.1 h
      rw [List.foldl_cons, ih hrest, hput, lookup_cons_name]
      by_cases hkey : key = name
      · -- the name does not come again among the later entries
        subst hkey
        have hnone : rest.lookup key = none := by
          by_contra hne
          obtain ⟨value, hvalue⟩ := Option.ne_none_iff_exists'.1 hne
          exact String.lt_irrefl key (hname _ ((lookup_eq_some_iff_mem hrest).1 hvalue))
        simp [hnone]
      · simp [hkey]

/-- The data of one declaration of a spot, put into a table. -/
def addSpot (c : Catalog) (t : StaticTable) (path : String) (spot : Spot) : StaticTable :=
  spot.data.entries.foldl (fun t e => t.set path e.1 (dataValue c e.2)) t

theorem own?_addSpot (c : Catalog) (t : StaticTable) (path : String) (spot : Spot)
    (path' name : String) :
    (addSpot c t path spot).own? path' name
      = (((if path = path' then spot.data.find? name else none).map (dataValue c)).or
          (t.own? path' name)) := by
  by_cases hpath : path = path'
  · subst hpath
    rw [if_pos rfl]
    refine view_foldl_entries (fun t key => t.own? path key)
      (fun t name j => t.set path name (dataValue c j)) (fun s name j key => ?_)
      spot.data.sorted t name
    simp [own?_set]
  · rw [if_neg hpath, Option.map_none, Option.none_or, addSpot]
    induction spot.data.entries generalizing t with
    | nil => rfl
    | cons head rest ih =>
        rw [List.foldl_cons, ih, own?_set, if_neg (fun h => hpath h.1.symm)]

theorem defaults_addSpot (c : Catalog) (t : StaticTable) (path : String) (spot : Spot) :
    (addSpot c t path spot).defaults = t.defaults := by
  unfold addSpot
  induction spot.data.entries generalizing t with
  | nil => rfl
  | cons head rest ih => rw [List.foldl_cons, ih]; rfl

/-- The table of a catalog: its global defaults first, then one declaration after the other. -/
theorem ofCatalog_eq_addSpot (c : Catalog) :
    ofCatalog c = c.spots.foldl (fun t d => addSpot c t d.1 d.2)
      (c.data.entries.foldl (fun t e => t.setDefault e.1 (dataValue c e.2)) {}) := rfl

theorem own?_foldl_addSpot (c : Catalog) (spots : List (String × Spot)) (t : StaticTable)
    (path name : String) :
    (spots.foldl (fun t d => addSpot c t d.1 d.2) t).own? path name
      = ((spots.filterMap fun d => if d.1 = path then d.2.data.find? name else none).getLast?.map
          (dataValue c)).or (t.own? path name) := by
  induction spots generalizing t with
  | nil => rfl
  | cons d rest ih =>
      rw [List.foldl_cons, ih, own?_addSpot, List.filterMap_cons]
      cases hd : (if d.1 = path then d.2.data.find? name else none) with
      | none => simp
      | some j =>
          rw [List.getLast?_cons]
          cases (rest.filterMap fun d =>
            if d.1 = path then d.2.data.find? name else none).getLast? <;> simp

theorem defaults_foldl_addSpot (c : Catalog) (spots : List (String × Spot)) (t : StaticTable) :
    (spots.foldl (fun t d => addSpot c t d.1 d.2) t).defaults = t.defaults := by
  induction spots generalizing t with
  | nil => rfl
  | cons d rest ih => rw [List.foldl_cons, ih, defaults_addSpot]

theorem own?_ofCatalog (c : Catalog) (spot name : String) :
    (ofCatalog c).own? spot name = (c.override? spot name).map (dataValue c) := by
  have hdefaults : ∀ (entries : List (String × Json)) (t : StaticTable),
      (entries.foldl (fun t e => t.setDefault e.1 (dataValue c e.2)) t).own? spot name
        = t.own? spot name := by
    intro entries
    induction entries with
    | nil => intro t; rfl
    | cons e rest ih => intro t; rw [List.foldl_cons, ih]; rfl
  rw [ofCatalog_eq_addSpot, own?_foldl_addSpot, hdefaults]
  exact Option.or_none

theorem defaults_ofCatalog (c : Catalog) (name : String) :
    (ofCatalog c).defaults.find? name = (c.data.find? name).map (dataValue c) := by
  rw [ofCatalog_eq_addSpot, defaults_foldl_addSpot]
  have h := view_foldl_entries (fun (t : StaticTable) key => t.defaults.find? key)
    (fun t name j => t.setDefault name (dataValue c j))
    (fun s name j key => NameMap.find?_insert s.defaults name key (dataValue c j))
    c.data.sorted {} name
  exact h.trans Option.or_none

/-- The static data of a catalog at a spot: an override, or else the global default. -/
theorem lookup_ofCatalog (c : Catalog) (spot name : String) :
    (ofCatalog c).lookup spot name
      = (((c.override? spot name).or (c.data.find? name)).map (dataValue c)).getD .uncertain := by
  rw [lookup_eq_own, own?_ofCatalog, defaults_ofCatalog]
  cases c.override? spot name <;> rfl

end StaticTable

/-! ## Live context -/

/-- Whether a structured value is a scalar. Only scalars are data. -/
def Json.isScalar : Json → Bool
  | .bool _ => true
  | .num _ => true
  | .str _ => true
  | _ => false

theorem StaticTable.dataValue_eq_uncertain_iff (c : Catalog) (j : Json) :
    dataValue c j = .uncertain ↔ j.isScalar = false := by
  cases j with
  | null => simp [dataValue, Value.ofJson, Literal.ofJson?, Json.isScalar]
  | bool b => simp [dataValue, Value.ofJson, Literal.ofJson?, Json.isScalar, Value.ofLiteral]
  | num n =>
      cases hn : n.word? <;>
        simp [dataValue, Value.ofJson, Literal.ofJson?, Json.isScalar, Value.ofLiteral, hn]
  | str s =>
      unfold dataValue Value.ofJson Literal.ofJson?
      by_cases hplace : (c.locationKind? s).isSome = true
      · simp [hplace, Json.isScalar]
      · by_cases hpath : looksLikePlace s = true <;>
          simp [hplace, hpath, Json.isScalar, Value.ofLiteral]
  | arr elements => simp [dataValue, Value.ofJson, Literal.ofJson?, Json.isScalar]
  | obj members => simp [dataValue, Value.ofJson, Literal.ofJson?, Json.isScalar]

/-- No scalar stands in place of a global default of the name at the spot. -/
def Catalog.NotOverridden (c : Catalog) (spot name : String) : Prop :=
  ∀ j, c.override? spot name = some j → j.isScalar = false

theorem StaticTable.lookup_ofCatalog_of_live {c : Catalog} {name : String}
    (h : c.isStatic name = false) (spot : String) :
    (ofCatalog c).lookup spot name = .uncertain ↔ c.NotOverridden spot name := by
  have hnone : c.data.find? name = none := NameMap.contains_eq_false_iff.1 h
  rw [lookup_ofCatalog, hnone, Option.or_none]
  unfold Catalog.NotOverridden
  cases c.override? spot name with
  | none => simp
  | some j => simp [dataValue_eq_uncertain_iff]

theorem Knowledge.lookup_unbound (k : Knowledge) {f : Frame} {name path : String}
    (hunbound : f.bindings.find? name = none) (hpath : f.rule.resolve? k.catalog name = some path) :
    (k.lookup f { name }).outcome = .ok (k.statics.lookup f.spot path) := by
  simp only [lookup, lookupName, hunbound, hpath, Option.elim_some]
  rfl

/-- Live context is uncertain in the table of a catalog, and in a look-up over that table, exactly
    where no declaration of the spot overrides it. -/
theorem live_uncertain_iff_not_overridden (c : Catalog) :
    (∀ spot name, c.isStatic name = false →
      ((StaticTable.ofCatalog c).lookup spot name = .uncertain ↔ c.NotOverridden spot name)) ∧
    (∀ (corpus : Corpus) (contexts : ContextTable) (f : Frame) (name path : String),
      f.bindings.find? name = none → f.rule.resolve? c name = some path →
      c.isStatic path = false →
      (((⟨⟨c, corpus⟩, contexts, .ofCatalog c⟩ : Knowledge).lookup f { name }).outcome
          = .ok .uncertain ↔ c.NotOverridden f.spot path)) := by
  refine ⟨fun spot name h => StaticTable.lookup_ofCatalog_of_live h spot, ?_⟩
  intro corpus contexts f name path hunbound hpath hlive
  rw [Knowledge.lookup_unbound _ hunbound hpath, Except.ok.injEq]
  exact StaticTable.lookup_ofCatalog_of_live hlive f.spot

/-- A cave with a live variable `lit`, which the door overrides although no datum of that name is
    declared. -/
def darkCave : Catalog where
  context := .ofList [("lit", { type := some "bool" })]
  regions := .ofList [("Cave", { areas := .ofList [("Entry", {
    spots := .ofList [("Door", { data := .ofList [("lit", .bool false)] }), ("Ledge", {})] })] })]

theorem darkCave_lit_uncertain_at_ledge :
    darkCave.isStatic "lit" = false ∧
      (StaticTable.ofCatalog darkCave).lookup "Cave > Entry > Ledge" "lit" = .uncertain := by
  have hlive : darkCave.isStatic "lit" = false := rfl
  have hnone : darkCave.override? "Cave > Entry > Ledge" "lit" = none := by decide +kernel
  refine ⟨hlive, ((live_uncertain_iff_not_overridden darkCave).1 _ _ hlive).2 ?_⟩
  intro j hj
  rw [hnone] at hj
  exact absurd hj (by simp)

theorem darkCave_lit_false_at_door :
    ¬ ∀ (c : Catalog) (spot name : String), c.isStatic name = false →
      (StaticTable.ofCatalog c).lookup spot name = .uncertain := by
  intro h
  have hdoor := h darkCave "Cave > Entry > Door" "lit" rfl
  have hfalse : (StaticTable.ofCatalog darkCave).lookup "Cave > Entry > Door" "lit" = .bool false :=
    rfl
  rw [hfalse] at hdoor
  cases hdoor

end AccessRules
