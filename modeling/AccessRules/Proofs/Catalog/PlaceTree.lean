import AccessRules.Catalog.Basic
import AccessRules.Proofs.Collection.NameMap
import AccessRules.Proofs.Place

set_option autoImplicit false

/-! # The tree of places

A catalog shows its tree of places in three ways: it lists the spots with their paths, it finds the
spot that a path names, and it tells the kind of the place that a path names. The list comes from
nested maps, with the names joined to paths; the other two cut a path and go down the maps. With
names that joining and cutting leaves as they are, `place_views_agree` says that all three show one
tree: spots are listed once each, and above a declared place everything is declared. -/

namespace AccessRules

/-! ## Lists of nested maps -/

/-- Among pairs with different keys there is one with a given key. -/
theorem filter_fst_eq_singleton {κ β : Type} [DecidableEq κ] {pairs : List (κ × β)}
    (h : (pairs.map (·.1)).Nodup) {k : κ} {b : β} (hmem : (k, b) ∈ pairs) :
    pairs.filter (fun p => p.1 = k) = [(k, b)] := by
  refine List.perm_singleton.1 ((List.perm_ext_iff_of_nodup (h.of_map.filter _)
    (List.nodup_singleton _)).2 fun p => ?_)
  rw [List.mem_filter, List.mem_singleton, decide_eq_true_iff]
  constructor
  · rintro ⟨hp, hk⟩
    exact List.inj_on_of_nodup_map h hp hmem hk
  · rintro rfl
    exact ⟨hmem, rfl⟩

namespace NameMap

variable {ν β : Type}

/-- What is listed below the entries of a map, each under the name of the entry and further ones. -/
def under (m : NameMap ν) (below : ν → List (List String × β)) : List (List String × β) :=
  m.entries.flatMap fun entry => (below entry.2).map fun found => (entry.1 :: found.1, found.2)

theorem mem_under_iff {m : NameMap ν} {below : ν → List (List String × β)} {names : List String}
    {b : β} :
    (names, b) ∈ m.under below ↔
      ∃ name rest v, names = name :: rest ∧ m.find? name = some v ∧ (rest, b) ∈ below v := by
  simp only [under, List.mem_flatMap, List.mem_map, find?_eq_some_iff]
  constructor
  · rintro ⟨⟨name, v⟩, hentry, ⟨rest, b⟩, hfound, heq⟩
    cases heq
    exact ⟨name, rest, v, rfl, hentry, hfound⟩
  · rintro ⟨name, rest, v, rfl, hentry, hfound⟩
    exact ⟨(name, v), hentry, (rest, b), hfound, rfl⟩

/-- If nothing is listed twice below an entry, then nothing is listed twice below the map. -/
theorem nodup_under (m : NameMap ν) {below : ν → List (List String × β)}
    (h : ∀ v, ((below v).map (·.1)).Nodup) : ((m.under below).map (·.1)).Nodup := by
  have hnames : (m.under below).map (·.1)
      = m.entries.flatMap fun entry => ((below entry.2).map (·.1)).map (entry.1 :: ·) := by
    simp [under, List.map_flatMap, Function.comp_def]
  rw [hnames, List.nodup_flatMap]
  refine ⟨fun entry _ => (h entry.2).map List.cons_injective, m.sorted.imp fun hlt => ?_⟩
  -- the names of different entries differ in the first place
  intro names hleft hright
  obtain ⟨rest, -, rfl⟩ := List.mem_map.1 hleft
  obtain ⟨rest', -, heq⟩ := List.mem_map.1 hright
  exact String.ne_of_lt hlt (List.cons.inj heq).1.symm

end NameMap

namespace Catalog

variable {c : Catalog} {path : String} {kind : PlaceKind}

/-! ## Spots -/

/-- Every declared spot with the names on the way to it. -/
def namedSpots (c : Catalog) : List (List String × Spot) :=
  c.regions.under fun region => region.areas.under fun area => area.spots.under fun spot =>
    [([], spot)]

theorem spots_eq (c : Catalog) : c.spots = c.namedSpots.map fun e => (Place.join e.1, e.2) := by
  simp [spots, namedSpots, NameMap.under, List.map_eq_flatMap, List.flatMap_assoc]

theorem nodup_namedSpots (c : Catalog) : (c.namedSpots.map (·.1)).Nodup :=
  c.regions.nodup_under fun region => region.areas.nodup_under fun area =>
    area.spots.nodup_under fun _ => List.nodup_singleton _

theorem spotAt?_eq_some_iff {r a s : String} {d : Spot} :
    c.spotAt? r a s = some d ↔ ∃ region area, c.regions.find? r = some region ∧
      region.areas.find? a = some area ∧ area.spots.find? s = some d := by
  simp only [spotAt?, area?, Option.bind_eq_bind, Option.bind_eq_some_iff]
  constructor
  · rintro ⟨area, ⟨region, hr, ha⟩, hs⟩
    exact ⟨region, area, hr, ha, hs⟩
  · rintro ⟨region, area, hr, ha, hs⟩
    exact ⟨area, ⟨region, hr, ha⟩, hs⟩

theorem mem_namedSpots_iff {names : List String} {d : Spot} :
    (names, d) ∈ c.namedSpots ↔ ∃ r a s, names = [r, a, s] ∧ c.spotAt? r a s = some d := by
  simp only [namedSpots, NameMap.mem_under_iff, spotAt?_eq_some_iff]
  constructor
  · rintro ⟨r, _, region, rfl, hr, a, _, area, rfl, ha, s, _, spot, rfl, hs, hmem⟩
    cases List.mem_singleton.1 hmem
    exact ⟨r, a, s, rfl, region, area, hr, ha, hs⟩
  · rintro ⟨r, a, s, rfl, region, area, hr, ha, hs⟩
    exact ⟨r, _, region, rfl, hr, a, _, area, rfl, ha, s, _, d, rfl, hs, List.mem_singleton.2 rfl⟩

theorem spot?_eq_some_iff {d : Spot} :
    c.spot? path = some d ↔ (Place.segments path, d) ∈ c.namedSpots := by
  rw [mem_namedSpots_iff, spot?]
  split
  · rename_i r a s hsegments
    simp [hsegments]
  · rename_i hother
    simp only [reduceCtorEq, false_iff]
    rintro ⟨r, a, s, hsegments, -⟩
    exact hother r a s hsegments

/-- Every name in the tree of places can be a segment of a path: there is no separator in it and no
    blank at its ends. -/
structure SegmentNames (c : Catalog) : Prop where
  regions : ∀ r region, c.regions.find? r = some region → Place.IsSegment r
  areas : ∀ r a area, c.area? r a = some area → Place.IsSegment a
  spots : ∀ r a s spot, c.spotAt? r a s = some spot → Place.IsSegment s

/-- With such names the path of a spot is cut into the names that it was joined from. -/
theorem SegmentNames.segments_join (h : c.SegmentNames) {names : List String} {d : Spot}
    (hmem : (names, d) ∈ c.namedSpots) : Place.segments (Place.join names) = names := by
  obtain ⟨r, a, s, rfl, hspot⟩ := mem_namedSpots_iff.1 hmem
  obtain ⟨region, area, hr, ha, -⟩ := spotAt?_eq_some_iff.1 hspot
  have harea : c.area? r a = some area := Option.bind_eq_some_iff.2 ⟨region, hr, ha⟩
  refine Place.segments_join (List.cons_ne_nil _ _) ?_
  simp only [List.forall_mem_cons, List.not_mem_nil, false_imp_iff, implies_true, and_true]
  exact ⟨h.regions r region hr, h.areas r a area harea, h.spots r a s d hspot⟩

/-- The entries of the list of spots whose paths have the segments of a path. -/
def entriesAt (c : Catalog) (path : String) : List (String × Spot) :=
  c.spots.filter fun entry => Place.segments entry.1 = Place.segments path

theorem SegmentNames.entriesAt_eq (h : c.SegmentNames) (path : String) :
    c.entriesAt path = (c.namedSpots.filter fun e => e.1 = Place.segments path).map
      fun e => (Place.join e.1, e.2) := by
  -- entries are compared by their printed paths on one side and by names on the other
  rw [entriesAt, spots_eq, List.filter_map]
  refine congrArg _ (List.filter_congr fun e he => ?_)
  have hsegments : Place.segments (Place.join e.1) = e.1 := h.segments_join he
  simp only [Function.comp_apply, hsegments]

/-- Every listed spot whose path has the segments of a path is the spot that the path names. -/
theorem SegmentNames.spot?_of_mem_spots (h : c.SegmentNames) {q : String} {d : Spot}
    (hmem : (q, d) ∈ c.spots) (hsegments : Place.segments q = Place.segments path) :
    c.spot? path = some d := by
  rw [spots_eq] at hmem
  obtain ⟨⟨names, d'⟩, he, heq⟩ := List.mem_map.1 hmem
  cases heq
  rw [spot?_eq_some_iff, ← hsegments, h.segments_join he]
  exact he

/-- The list of spots has one entry with the segments of a path if the path names a spot, and that
    entry is the spot. -/
theorem SegmentNames.spot?_eq_some_iff_entriesAt (h : c.SegmentNames) {d : Spot} :
    c.spot? path = some d ↔ ∃ q, c.entriesAt path = [(q, d)] := by
  constructor
  · intro hspot
    rw [h.entriesAt_eq, filter_fst_eq_singleton c.nodup_namedSpots (spot?_eq_some_iff.1 hspot)]
    exact ⟨_, rfl⟩
  · rintro ⟨q, hentries⟩
    have hmem : (q, d) ∈ c.entriesAt path := hentries ▸ List.mem_singleton.2 rfl
    obtain ⟨hspots, hsegments⟩ := List.mem_filter.1 hmem
    exact h.spot?_of_mem_spots hspots (of_decide_eq_true hsegments)

/-! ## Kinds -/

/-- The catalog declares a place of a kind under these names. -/
inductive Declares (c : Catalog) : List String → PlaceKind → Prop
  | region {r : String} {region : Region} (h : c.regions.find? r = some region) :
      Declares c [r] .region
  | area {r a : String} {area : Area} (h : c.area? r a = some area) : Declares c [r, a] .area
  | spot {r a s : String} {d : Spot} (h : c.spotAt? r a s = some d) : Declares c [r, a, s] .spot
  | leaf {r a s l : String} {d : Spot} (h : c.spotAt? r a s = some d)
      (hl : l ∈ d.actions ++ d.locations) : Declares c [r, a, s, l] .leaf

theorem locationKind?_eq_some_iff :
    c.locationKind? path = some kind ↔ c.Declares (Place.segments path) kind := by
  constructor
  · intro h
    unfold locationKind? at h
    split at h
    · rename_i hsegments
      obtain ⟨_, hr, rfl⟩ := Option.map_eq_some_iff.1 h
      exact hsegments ▸ .region hr
    · rename_i hsegments
      obtain ⟨_, ha, rfl⟩ := Option.map_eq_some_iff.1 h
      exact hsegments ▸ .area ha
    · rename_i hsegments
      obtain ⟨_, hs, rfl⟩ := Option.map_eq_some_iff.1 h
      exact hsegments ▸ .spot hs
    · rename_i hsegments
      obtain ⟨d, hs, hleaf⟩ := Option.bind_eq_some_iff.1 h
      obtain ⟨hl, hkind⟩ := Option.ite_none_right_eq_some.1 hleaf
      cases hkind
      exact hsegments ▸ .leaf hs (List.contains_iff_mem.1 hl)
    · cases h
  · intro h
    rw [locationKind?]
    generalize Place.segments path = names at h ⊢
    cases h with
    | region h => exact Option.map_eq_some_iff.2 ⟨_, h, rfl⟩
    | area h => exact Option.map_eq_some_iff.2 ⟨_, h, rfl⟩
    | spot h => exact Option.map_eq_some_iff.2 ⟨_, h, rfl⟩
    | leaf h hl => exact Option.bind_eq_some_iff.2 ⟨_, h, if_pos (List.contains_iff_mem.2 hl)⟩

theorem Declares.length {names : List String} (h : c.Declares names kind) :
    names.length = kind.separators + 1 := by
  cases h <;> rfl

/-- A declared place has as many segments as its kind says. -/
theorem kind?_of_locationKind? (h : c.locationKind? path = some kind) :
    Place.kind? path = some kind :=
  Place.kind?_eq_some_iff.2 (locationKind?_eq_some_iff.1 h).length

theorem locationKind?_eq_spot_iff : c.locationKind? path = some .spot ↔ (c.spot? path).isSome := by
  simp only [locationKind?_eq_some_iff, Option.isSome_iff_exists, spot?_eq_some_iff,
    mem_namedSpots_iff]
  generalize Place.segments path = names
  constructor
  · intro h
    cases h with
    | spot h => exact ⟨_, _, _, _, rfl, h⟩
  · rintro ⟨d, r, a, s, rfl, h⟩
    exact .spot h

/-- Everything on the way to a declared place is declared, with the kind that its depth says. -/
theorem Declares.above {names : List String} (h : c.Declares names kind) {above : PlaceKind}
    (habove : above.separators ≤ kind.separators) :
    c.Declares (names.take (above.separators + 1)) above := by
  have harea : ∀ {r a area}, c.area? r a = some area → c.Declares [r] .region := by
    intro r a area h
    obtain ⟨region, hr, -⟩ := Option.bind_eq_some_iff.1 h
    exact .region hr
  have hspot : ∀ {r a s d}, c.spotAt? r a s = some d →
      c.Declares [r] .region ∧ c.Declares [r, a] .area := by
    intro r a s d h
    obtain ⟨area, ha, -⟩ := Option.bind_eq_some_iff.1 h
    exact ⟨harea ha, .area ha⟩
  cases h with
  | region h =>
      cases above with
      | region => exact .region h
      | _ => exact absurd habove (by decide)
  | area h =>
      cases above with
      | region => exact harea h
      | area => exact .area h
      | _ => exact absurd habove (by decide)
  | spot h =>
      cases above with
      | region => exact (hspot h).1
      | area => exact (hspot h).2
      | spot => exact .spot h
      | leaf => exact absurd habove (by decide)
  | leaf h hl =>
      cases above with
      | region => exact (hspot h).1
      | area => exact (hspot h).2
      | spot => exact .spot h
      | leaf => exact .leaf h hl

end Catalog

/-- The views of the tree of places agree. The list of spots has exactly one entry with the segments
    of a path if the path names a spot, and it holds that spot. A path is of the kind of spots
    exactly if it names one. The kind of a declared place is told by its depth, and every place on
    the way to it, however its path is spelled, is declared with the kind of its own depth. -/
theorem place_views_agree (c : Catalog) (h : c.SegmentNames) (path : String) :
    (∀ d, c.spot? path = some d ↔ ∃ q, c.entriesAt path = [(q, d)]) ∧
    (∀ q d, (q, d) ∈ c.spots → Place.segments q = Place.segments path → c.spot? path = some d) ∧
    (c.locationKind? path = some .spot ↔ (c.spot? path).isSome) ∧
    ∀ kind, c.locationKind? path = some kind → Place.kind? path = some kind ∧
      ∀ above : PlaceKind, above.separators ≤ kind.separators →
        let names := (Place.segments path).take (above.separators + 1)
        Place.segments (Place.join names) = names ∧
          ∀ a, Place.segments a = names → c.locationKind? a = some above := by
  refine ⟨fun d => h.spot?_eq_some_iff_entriesAt, fun q d => h.spot?_of_mem_spots,
    Catalog.locationKind?_eq_spot_iff, fun kind hkind => ?_⟩
  refine ⟨Catalog.kind?_of_locationKind? hkind, fun above habove =>
    ⟨Place.segments_join_take path above.separators, fun a ha => ?_⟩⟩
  have hdeclares := Catalog.locationKind?_eq_some_iff.1 hkind
  exact Catalog.locationKind?_eq_some_iff.2 (ha ▸ hdeclares.above habove)

/-- An area with two spots. -/
def entryArea : Area where
  spots := .ofList [("Door", { locations := ["Chest"] }), ("Ledge", {})]

/-- A region with this area only. -/
def entryCatalog : Catalog where
  regions := .ofList [("Cave", { areas := .ofList [("Entry", entryArea)] })]

theorem entryCatalog_segmentNames : entryCatalog.SegmentNames := by
  have hregion : ∀ {r region}, entryCatalog.regions.find? r = some region →
      r = "Cave" ∧ region = { areas := .ofList [("Entry", entryArea)] } := by
    intro r region h
    simpa using NameMap.mem_of_find?_ofList h
  have harea : ∀ {r a area}, entryCatalog.area? r a = some area →
      a = "Entry" ∧ area = entryArea := by
    intro r a area h
    obtain ⟨region, hr, ha⟩ := Option.bind_eq_some_iff.1 h
    obtain ⟨-, rfl⟩ := hregion hr
    simpa using NameMap.mem_of_find?_ofList ha
  refine ⟨fun r region h => ?_, fun r a area h => ?_, fun r a s spot h => ?_⟩
  · obtain ⟨rfl, -⟩ := hregion h
    exact ⟨by decide, rfl⟩
  · obtain ⟨rfl, -⟩ := harea h
    exact ⟨by decide, rfl⟩
  · obtain ⟨area, ha, hs⟩ := Option.bind_eq_some_iff.1 h
    obtain ⟨-, rfl⟩ := harea ha
    have hmem := NameMap.mem_of_find?_ofList hs
    simp only [List.mem_cons, Prod.mk.injEq, List.not_mem_nil, or_false] at hmem
    obtain ⟨rfl, -⟩ | ⟨rfl, -⟩ := hmem
    · exact ⟨by decide, rfl⟩
    · exact ⟨by decide, rfl⟩

/-- A chest behind a door, on a path that is spelled in its own way. -/
theorem chest_on_declared_way :
    entryCatalog.SegmentNames ∧
    (entryCatalog.locationKind? "Cave>Entry > Door>Chest" = some .leaf ∧
      Place.kind? "Cave>Entry > Door>Chest" = some .leaf ∧
      entryCatalog.locationKind? "Cave>Entry>Door" = some .spot) ∧
    (("Cave > Entry > Door", { locations := ["Chest"] }) ∈ entryCatalog.spots ∧
      entryCatalog.spot? "Cave>Entry>Door" = some { locations := ["Chest"] } ∧
      ∃ q, entryCatalog.entriesAt "Cave>Entry>Door" = [(q, { locations := ["Chest"] })]) := by
  have hleaf : entryCatalog.locationKind? "Cave>Entry > Door>Chest" = some .leaf := rfl
  have hlisted : entryCatalog.spots
      = [("Cave > Entry > Door", { locations := ["Chest"] }), ("Cave > Entry > Ledge", {})] := rfl
  have hmem : ("Cave > Entry > Door", { locations := ["Chest"] }) ∈ entryCatalog.spots :=
    hlisted ▸ List.mem_cons_self
  obtain ⟨-, -, -, hkinds⟩ :=
    place_views_agree entryCatalog entryCatalog_segmentNames "Cave>Entry > Door>Chest"
  obtain ⟨hkind, habove⟩ := hkinds .leaf hleaf
  obtain ⟨hiff, hfound, -, -⟩ :=
    place_views_agree entryCatalog entryCatalog_segmentNames "Cave>Entry>Door"
  have hspelled : Place.segments "Cave > Entry > Door" = ["Cave", "Entry", "Door"] := rfl
  have hspot := hfound "Cave > Entry > Door" _ hmem (hspelled.trans rfl)
  exact ⟨entryCatalog_segmentNames,
    ⟨hleaf, hkind, (habove .spot (by decide)).2 "Cave>Entry>Door" rfl⟩, hmem, hspot,
    (hiff _).1 hspot⟩

end AccessRules
