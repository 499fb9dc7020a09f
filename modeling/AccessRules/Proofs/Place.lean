import AccessRules.Place
import AccessRules.Proofs.Text.Pieces

set_option autoImplicit false

/-! # Paths of places

The depth of a path is told by its separators or by its segments: there is always one segment more
than there are separators. Segments that are joined to a path are its segments again
(`segments_join`), so the ancestors of a path, which are written anew, and containment, which looks
at segments only, describe one tree: `containment_agrees_with_ancestors`. -/

namespace AccessRules

namespace Place

@[simp] theorem length_segments (path : String) :
    (segments path).length = separators path + 1 := by
  rw [segments, List.length_map, Text.length_pieces, separators]

/-- The kind of a place is told by the number of its segments. -/
theorem kind?_eq_some_iff {path : String} {kind : PlaceKind} :
    kind? path = some kind ↔ (segments path).length = kind.separators + 1 := by
  rw [length_segments, kind?]
  cases kind <;> split <;> simp_all [PlaceKind.separators]

/-- Leaves are the places with four segments. -/
theorem kind?_eq_leaf_iff {path : String} :
    kind? path = some .leaf ↔ (segments path).length = 4 :=
  kind?_eq_some_iff

/-! ## Segments and paths -/

/-- The text can be a segment of a path: it has no separator in it and no blank at its ends. -/
structure IsSegment (s : String) : Prop where
  no_separator : separator ∉ s.toList
  trimmed : Text.trim s.toList = s.toList

theorem isSegment_of_mem_segments {path s : String} (h : s ∈ segments path) : IsSegment s := by
  obtain ⟨piece, hpiece, rfl⟩ := List.mem_map.1 h
  refine ⟨fun hmem => ?_, ?_⟩
  · rw [String.toList_ofList] at hmem
    exact Text.not_mem_of_mem_pieces hpiece (Text.trim_subset piece hmem)
  · rw [String.toList_ofList, Text.trim_trim]

theorem segments_of_isSegment {s : String} (h : IsSegment s) : segments s = [s] := by
  rw [segments, Text.pieces_of_not_mem h.no_separator, List.map_singleton, h.trimmed,
    String.ofList_toList]

/-- Blanks before a path do not count. -/
theorem segments_blank_append (path : String) : segments (" " ++ path) = segments path := by
  obtain ⟨p, ps, hpieces⟩ :=
    List.exists_cons_of_ne_nil (Text.pieces_ne_nil separator path.toList)
  have hblank : Text.pieces separator (" " ++ path).toList = (' ' :: p) :: ps := by
    rw [String.toList_append]
    show Text.pieces separator (' ' :: path.toList) = _
    rw [Text.pieces, if_neg (by decide), hpieces]
  rw [segments, hblank, segments, hpieces, List.map_cons, List.map_cons,
    Text.trim_blank_cons (by decide)]

theorem segments_append {s : String} (hs : IsSegment s) (path : String) :
    segments (s ++ " > " ++ path) = s :: segments path := by
  have htext : (s ++ " > " ++ path).toList
      = (s.toList ++ [' ']) ++ separator :: (" " ++ path).toList := by
    simp [separator]
  have hpiece : Text.pieces separator (s.toList ++ [' ']) = [s.toList ++ [' ']] := by
    refine Text.pieces_of_not_mem fun hmem => ?_
    rcases List.mem_append.1 hmem with hmem | hmem
    · exact hs.no_separator hmem
    · exact absurd hmem (by decide)
  rw [← segments_blank_append path, segments, htext, Text.pieces_append, hpiece, List.map_append,
    List.map_singleton, Text.trim_concat_blank (by decide), hs.trimmed, String.ofList_toList]
  rfl

/-- Joining segments and cutting the path again gives the segments. -/
theorem segments_join {segs : List String} (hne : segs ≠ []) (h : ∀ s ∈ segs, IsSegment s) :
    segments (join segs) = segs := by
  induction segs with
  | nil => exact absurd rfl hne
  | cons s segs ih =>
      obtain ⟨hs, hsegs⟩ := List.forall_mem_cons.1 h
      cases segs with
      | nil =>
          rw [join, String.intercalate_singleton, segments_of_isSegment hs]
      | cons t segs =>
          rw [join, String.intercalate_cons_cons, segments_append hs]
          exact congrArg (s :: ·) (ih (List.cons_ne_nil t segs) hsegs)

/-- The first segments of a path make up a path of their own. -/
theorem segments_join_take (path : String) (n : Nat) :
    segments (join ((segments path).take (n + 1))) = (segments path).take (n + 1) := by
  refine segments_join ?_ fun s hs => isSegment_of_mem_segments (List.mem_of_mem_take hs)
  simp [← List.length_pos_iff]

/-! ## Containment and ancestors -/

theorem contains_iff {outer inner : String} :
    contains outer inner = true ↔ segments outer <+: segments inner :=
  List.isPrefixOf_iff_prefix

theorem contains_refl (path : String) : contains path path = true :=
  contains_iff.2 List.prefix_rfl

theorem contains_trans {p q r : String} (hpq : contains p q = true) (hqr : contains q r = true) :
    contains p r = true :=
  contains_iff.2 ((contains_iff.1 hpq).trans (contains_iff.1 hqr))

/-- Paths lie within each other exactly if they have the same segments. -/
theorem contains_both_iff {p q : String} :
    contains p q = true ∧ contains q p = true ↔ segments p = segments q := by
  rw [contains_iff, contains_iff]
  constructor
  · rintro ⟨hpq, hqp⟩
    exact hpq.eq_of_length_le hqp.length_le
  · intro h
    rw [h]
    exact ⟨List.prefix_rfl, List.prefix_rfl⟩

variable {path a : String} {kind : PlaceKind}

theorem ancestor?_eq_some_iff :
    ancestor? path kind = some a ↔ kind.separators ≤ separators path ∧ "" ∉ segments path
      ∧ join ((segments path).take (kind.separators + 1)) = a := by
  simp [ancestor?, and_assoc]

theorem segments_of_ancestor? (h : ancestor? path kind = some a) :
    segments a = (segments path).take (kind.separators + 1) := by
  obtain ⟨-, -, rfl⟩ := ancestor?_eq_some_iff.1 h
  exact segments_join_take path kind.separators

theorem length_segments_of_ancestor? (h : ancestor? path kind = some a) :
    (segments a).length = kind.separators + 1 := by
  obtain ⟨hdepth, -, -⟩ := ancestor?_eq_some_iff.1 h
  rw [segments_of_ancestor? h, List.length_take, length_segments]
  omega

theorem contains_ancestor? (h : ancestor? path kind = some a) : contains a path = true := by
  rw [contains_iff, segments_of_ancestor? h]
  exact List.take_prefix _ _

/-- An ancestor has the same ancestors as the path, as far as it goes. -/
theorem ancestor?_ancestor? (h : ancestor? path kind = some a) {above : PlaceKind}
    (habove : above.separators ≤ kind.separators) : ancestor? a above = ancestor? path above := by
  obtain ⟨hdepth, hempty, -⟩ := ancestor?_eq_some_iff.1 h
  have hsegs := segments_of_ancestor? h
  have hsame : join ((segments path).take (above.separators + 1))
      = join ((segments a).take (above.separators + 1)) := by
    rw [hsegs, List.take_take, Nat.min_eq_left (Nat.succ_le_succ habove)]
  have hpath : ancestor? path above = some (join ((segments path).take (above.separators + 1))) :=
    ancestor?_eq_some_iff.2 ⟨habove.trans hdepth, hempty, rfl⟩
  rw [hpath]
  refine ancestor?_eq_some_iff.2 ⟨?_, fun hmem => hempty ?_, hsame.symm⟩
  · have hlength := length_segments_of_ancestor? h
    rw [length_segments] at hlength
    omega
  · rw [hsegs] at hmem
    exact List.mem_of_mem_take hmem

/-- A path lies within a place exactly if that place is its ancestor of that kind. -/
theorem contains_iff_ancestor? {outer : String} (hkind : kind? outer = some kind)
    (hpath : "" ∉ segments path) :
    contains outer path = true ↔ ancestor? path kind = some (join (segments outer)) := by
  have hlength := kind?_eq_some_iff.1 hkind
  rw [contains_iff]
  constructor
  · intro hpre
    have hle := hpre.length_le
    rw [hlength, length_segments] at hle
    refine ancestor?_eq_some_iff.2 ⟨Nat.le_of_succ_le_succ hle, hpath, ?_⟩
    rw [← hlength, ← List.prefix_iff_eq_take.1 hpre]
  · intro h
    have hne : segments outer ≠ [] := List.ne_nil_of_length_pos (by omega)
    rw [← segments_join hne fun s => isSegment_of_mem_segments, segments_of_ancestor? h]
    exact List.take_prefix _ _

theorem exists_kind?_of_separators_le (h : separators path ≤ 3) :
    ∃ kind, kind? path = some kind := by
  have hcases : separators path = 0 ∨ separators path = 1 ∨ separators path = 2
      ∨ separators path = 3 := by omega
  rcases hcases with h | h | h | h <;> simp [kind?, h]

/-- Containment and ancestors describe one tree. Containment is reflexive and transitive, and two
    paths contain each other exactly if they have the same segments. The ancestor of a kind is a
    place of that kind that contains the path; it is its own ancestor, and above it stands what
    stands above the path. A place contains a path without empty segments exactly if it is the
    ancestor of its kind. -/
theorem containment_agrees_with_ancestors (p q r : String) :
    contains p p = true ∧
    (contains p q = true → contains q r = true → contains p r = true) ∧
    (contains p q = true ∧ contains q p = true ↔ segments p = segments q) ∧
    (∀ kind a, ancestor? p kind = some a → kind? a = some kind ∧ contains a p = true ∧
      ancestor? a kind = some a ∧
      ∀ above, above.separators ≤ kind.separators → ancestor? a above = ancestor? p above) ∧
    (∀ outer, "" ∉ segments p → separators outer ≤ 3 → ∃ kind, kind? outer = some kind ∧
      (contains outer p = true ↔ ancestor? p kind = some (join (segments outer)))) := by
  refine ⟨contains_refl p, contains_trans, contains_both_iff, fun kind a h => ?_,
    fun outer hp houter => ?_⟩
  · have hself := ancestor?_ancestor? h (Nat.le_refl _)
    exact ⟨kind?_eq_some_iff.2 (length_segments_of_ancestor? h), contains_ancestor? h,
      hself.trans h, fun above => ancestor?_ancestor? h⟩
  · obtain ⟨kind, hkind⟩ := exists_kind?_of_separators_le houter
    exact ⟨kind, hkind, contains_iff_ancestor? hkind hp⟩

/-- A door, its area and its region, in several spellings. -/
theorem door_lies_within_entry :
    (contains "Cave" "Cave>Entry" = true ∧ contains "Cave>Entry" "Cave >Entry > Door" = true ∧
      contains "Cave" "Cave >Entry > Door" = true) ∧
    (ancestor? "Cave >Entry > Door" .area = some "Cave > Entry" ∧
      kind? "Cave > Entry" = some .area ∧
      ancestor? "Cave > Entry" .region = ancestor? "Cave >Entry > Door" .region) ∧
    "" ∉ segments "Cave >Entry > Door" ∧ separators "Cave>Entry" ≤ 3 ∧
    ∃ kind, kind? "Cave>Entry" = some kind ∧ (contains "Cave>Entry" "Cave >Entry > Door" = true ↔
      ancestor? "Cave >Entry > Door" kind = some (join (segments "Cave>Entry"))) := by
  have hinner : contains "Cave" "Cave>Entry" = true := rfl
  have houter : contains "Cave>Entry" "Cave >Entry > Door" = true := rfl
  have hancestor : ancestor? "Cave >Entry > Door" .area = some "Cave > Entry" := rfl
  have hfull : "" ∉ segments "Cave >Entry > Door" := by decide
  have hdepth : separators "Cave>Entry" ≤ 3 := by decide
  obtain ⟨-, htrans, -⟩ :=
    containment_agrees_with_ancestors "Cave" "Cave>Entry" "Cave >Entry > Door"
  obtain ⟨-, -, -, habove, hiff⟩ :=
    containment_agrees_with_ancestors "Cave >Entry > Door" "Cave" "Cave"
  obtain ⟨hkind, -, -, hsame⟩ := habove .area "Cave > Entry" hancestor
  exact ⟨⟨hinner, houter, htrans hinner houter⟩,
    ⟨hancestor, hkind, hsame .region (by decide)⟩, hfull, hdepth, hiff "Cave>Entry" hfull hdepth⟩

end Place

end AccessRules
