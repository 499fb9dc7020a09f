import AccessRules.Code.Scope
import AccessRules.Proofs.Catalog.PlaceTree
import AccessRules.Proofs.Context.KindAgreement
import Mathlib.Data.List.Forall2

set_option autoImplicit false

/-! # Names that code has in common

Places, context variables and members of enumerations are named in code after their own names, in
a form that is safe for identifiers. The form keeps ASCII letters and digits only, so different
names can have it in common. `names_conflated_iff` says which: for places and variables those that
differ in other characters only, and for members of an enumeration those with the same words, run
together. Names of letters and digits are kept apart. -/

namespace AccessRules

namespace Text

/-- The texts are equally long and have the same ASCII letters and digits, at the same positions. -/
def SameLetters (s t : String) : Prop :=
  List.Forall₂ (fun c d => c = d ∨ c.isAlphanum = false ∧ d.isAlphanum = false) s.toList t.toList

instance (s t : String) : Decidable (SameLetters s t) :=
  inferInstanceAs (Decidable (List.Forall₂ _ _ _))

/-- A text of ASCII letters and digits. -/
def Plain (s : String) : Prop :=
  ∀ c ∈ s.toList, c.isAlphanum = true

/-! ## Identifiers -/

def identifierChar (c : Char) : Char :=
  if c.isAlphanum then c else '_'

theorem identifierChar_eq_iff {c d : Char} :
    identifierChar c = identifierChar d ↔
      c = d ∨ c.isAlphanum = false ∧ d.isAlphanum = false := by
  have hletter : ∀ {c : Char}, c.isAlphanum = true → c ≠ '_' := by
    rintro c hc rfl
    exact absurd hc (by decide)
  unfold identifierChar
  split <;> split <;> grind

theorem toList_identifierSafe (s : String) :
    (identifierSafe s).toList = s.toList.map identifierChar :=
  String.toList_ofList

theorem identifierSafe_eq_iff {s t : String} :
    identifierSafe s = identifierSafe t ↔ SameLetters s t := by
  rw [← String.toList_inj, toList_identifierSafe, toList_identifierSafe, ← List.forall₂_eq_eq_eq,
    List.forall₂_map_left_iff, List.forall₂_map_right_iff]
  simp only [identifierChar_eq_iff, SameLetters]

theorem identifierSafe_of_plain {s : String} (h : Plain s) : identifierSafe s = s := by
  rw [← String.toList_inj, toList_identifierSafe]
  exact (List.map_congr_left fun c hc => if_pos (h c hc)).trans (List.map_id _)

theorem identifierSafe_append (s t : String) :
    identifierSafe (s ++ t) = identifierSafe s ++ identifierSafe t := by
  rw [← String.toList_inj]
  simp only [toList_identifierSafe, String.toList_append, List.map_append]

/-- Underscores between names stay underscores. -/
theorem identifierSafe_intercalate (names : List String) :
    identifierSafe ("__".intercalate names) = "__".intercalate (names.map identifierSafe) := by
  induction names with
  | nil => rfl
  | cons s names ih =>
      cases names with
      | nil => simp
      | cons t names =>
          have hjoint : identifierSafe "__" = "__" := by decide
          rw [String.intercalate_cons_cons, identifierSafe_append, identifierSafe_append, hjoint,
            ih, List.map_cons, List.map_cons, List.map_cons, String.intercalate_cons_cons]

/-- The first occurrence of a character cuts a text in one way only. -/
theorem append_cons_inj_of_notMem_left {c : Char} {x y r r' : List Char} (hx : c ∉ x) (hy : c ∉ y)
    (h : x ++ c :: r = y ++ c :: r') : x = y ∧ r = r' := by
  rcases List.append_eq_append_iff.1 h with ⟨z, rfl, hz⟩ | ⟨z, rfl, hz⟩
  · cases z with
    | nil => simpa using hz
    | cons d z =>
        obtain ⟨rfl, -⟩ := List.cons.inj hz
        exact absurd (List.mem_append_right _ (List.mem_cons_self ..)) hy
  · cases z with
    | nil => simpa using hz.symm
    | cons d z =>
        obtain ⟨rfl, -⟩ := List.cons.inj hz
        exact absurd (List.mem_append_right _ (List.mem_cons_self ..)) hx

/-- Plain names can be told from the text in which underscores join them. -/
theorem intercalate_inj_of_plain {xs ys : List String} (hx : ∀ s ∈ xs, Plain s)
    (hy : ∀ s ∈ ys, Plain s) (hlength : xs.length = ys.length)
    (h : "__".intercalate xs = "__".intercalate ys) : xs = ys := by
  have hplain : ∀ {s : String}, Plain s → '_' ∉ s.toList :=
    fun hs hmem => absurd (hs '_' hmem) (by decide)
  induction xs generalizing ys with
  | nil => exact (List.length_eq_zero_iff.1 hlength.symm).symm
  | cons x xs ih =>
      obtain ⟨y, ys, rfl⟩ := List.exists_cons_of_length_eq_add_one hlength.symm
      rw [List.forall_mem_cons] at hx hy
      cases xs with
      | nil =>
          obtain rfl := List.length_eq_zero_iff.1 (Nat.succ.inj hlength).symm
          simpa using h
      | cons x' xs =>
          obtain ⟨y', ys, rfl⟩ := List.exists_cons_of_length_eq_add_one (Nat.succ.inj hlength).symm
          have htext := congrArg String.toList h
          simp only [String.intercalate_cons_cons, String.toList_append, List.append_assoc] at htext
          -- the first underscore is the end of the first name
          obtain ⟨hhead, htail⟩ :=
            append_cons_inj_of_notMem_left (hplain hx.1) (hplain hy.1) htext
          rw [String.toList_inj.1 hhead,
            ih hx.2 hy.2 (Nat.succ.inj hlength) (String.toList_inj.1 (List.cons.inj htail).2)]

/-! ## Words -/

def capitalised : List Char → List Char
  | [] => []
  | c :: cs => c.toUpper :: cs

/-- The words of a text, capitalised and without anything between them. -/
def capitalWords (s : String) : List Char :=
  (s.toList.splitOnP fun c => !c.isAlphanum).flatMap capitalised

/-- A plain text that does not begin with a small letter. -/
def PlainCapital (s : String) : Prop :=
  Plain s ∧ capitalised s.toList = s.toList

end Text

/-- What is left of a text after the start of a word, or within one. -/
theorem enumName_go (cs : List Char) :
    ∃ w ws, (cs.splitOnP fun c => !c.isAlphanum) = w :: ws ∧
      enumName.go true cs = Text.capitalised w ++ ws.flatMap Text.capitalised ∧
      enumName.go false cs = w ++ ws.flatMap Text.capitalised := by
  induction cs with
  | nil => exact ⟨[], [], List.splitOnP_nil, rfl, rfl⟩
  | cons c cs ih =>
      obtain ⟨w, ws, hsplit, htrue, hfalse⟩ := ih
      rw [List.splitOnP_cons_eq_if_modifyHead, hsplit]
      cases hc : c.isAlphanum with
      | false =>
          refine ⟨[], w :: ws, by simp, ?_, ?_⟩ <;>
            simp [enumName.go, hc, htrue, Text.capitalised]
      | true =>
          refine ⟨c :: w, ws, by simp, ?_, ?_⟩ <;>
            simp [enumName.go, hc, hfalse, Text.capitalised]

theorem toList_enumName (s : String) : (enumName s).toList = Text.capitalWords s := by
  obtain ⟨w, ws, hsplit, htrue, -⟩ := enumName_go s.toList
  rw [enumName, String.toList_ofList, htrue, Text.capitalWords, hsplit, List.flatMap_cons]

theorem enumName_of_plainCapital {s : String} (h : Text.PlainCapital s) : enumName s = s := by
  have hword : (s.toList.splitOnP fun c => !c.isAlphanum) = [s.toList] :=
    List.splitOnP_eq_singleton fun c hc => by simp [h.1 c hc]
  rw [← String.toList_inj, toList_enumName, Text.capitalWords, hword, List.flatMap_singleton, h.2]

/-! ## Places, variables and members of enumerations -/

namespace Place

/-- The segments of a path, with underscores between them. -/
def underscored (path : String) : String :=
  "__".intercalate (segments path)

theorem identifier_eq (path : String) : identifier path = Text.identifierSafe (underscored path) :=
  (Text.identifierSafe_intercalate _).symm

theorem segments_eq_of_plain {p q : String} {kind : PlaceKind} (hp : kind? p = some kind)
    (hq : kind? q = some kind) (hplain : ∀ s ∈ segments p ++ segments q, Text.Plain s)
    (h : identifier p = identifier q) : segments p = segments q := by
  rw [List.forall_mem_append] at hplain
  have hsafe : ∀ {names : List String}, (∀ s ∈ names, Text.Plain s) →
      names.map Text.identifierSafe = names := fun hnames =>
    (List.map_congr_left fun s hs => Text.identifierSafe_of_plain (hnames s hs)).trans
      (List.map_id _)
  refine Text.intercalate_inj_of_plain hplain.1 hplain.2 ?_ ?_
  · rw [kind?_eq_some_iff.1 hp, kind?_eq_some_iff.1 hq]
  · rwa [identifier, identifier, hsafe hplain.1, hsafe hplain.2] at h

end Place

theorem placeCode_eq_iff {p q : String} {kind : PlaceKind} (hp : Place.kind? p = some kind)
    (hq : Place.kind? q = some kind) :
    placeCode p = placeCode q ↔ Place.identifier p = Place.identifier q := by
  rw [placeCode, placeCode, hp, hq, String.append_right_inj]

theorem AccessorTable.getter_eq_iff {t : AccessorTable} {p q : String}
    (hp : t.getters.find? p = none) (hq : t.getters.find? q = none) :
    t.getter p = t.getter q ↔ Text.identifierSafe p = Text.identifierSafe q := by
  rw [getter, getter, hp, hq, Option.getD_none, Option.getD_none, String.append_left_inj,
    String.append_right_inj]

theorem textCode_eq_iff {enum s t : String} :
    textCode (some enum) s = textCode (some enum) t ↔ enumName s = enumName t :=
  String.append_right_inj _

/-- Two declared places of one kind have one identifier exactly if their segments, joined by
    underscores, have the same letters; two variables without accessors of their own have one
    getter exactly if their paths have the same letters; two values of an enumeration are one member
    exactly if they have the same capitalised words. Plain names are kept apart. -/
theorem names_conflated_iff (w : Workspace) (accessors : AccessorTable) :
    (∀ kind p q, w.catalog.locationKind? p = some kind → w.catalog.locationKind? q = some kind →
      (placeCode p = placeCode q ↔
        Text.SameLetters (Place.underscored p) (Place.underscored q)) ∧
      ((∀ s ∈ Place.segments p ++ Place.segments q, Text.Plain s) →
        Place.segments p ≠ Place.segments q → placeCode p ≠ placeCode q)) ∧
    (∀ p q, (w.contextRun.1.find? p).isSome = true → (w.contextRun.1.find? q).isSome = true →
      accessors.getters.find? p = none → accessors.getters.find? q = none →
      (accessors.getter p = accessors.getter q ↔ Text.SameLetters p q) ∧
      (Text.Plain p → Text.Plain q → p ≠ q → accessors.getter p ≠ accessors.getter q)) ∧
    (∀ var v enum, w.contextRun.1.find? var = some v → v.kind = some (.enum enum) →
      ∀ s ∈ NameSet.toList v.values, ∀ t ∈ NameSet.toList v.values,
      (textCode (some enum) s = textCode (some enum) t ↔
        Text.capitalWords s = Text.capitalWords t) ∧
      (Text.PlainCapital s → Text.PlainCapital t → s ≠ t →
        textCode (some enum) s ≠ textCode (some enum) t)) := by
  refine ⟨?_, ?_, ?_⟩
  · intro kind p q hp hq
    have hkp := Catalog.kind?_of_locationKind? hp
    have hkq := Catalog.kind?_of_locationKind? hq
    rw [placeCode_eq_iff hkp hkq]
    refine ⟨?_, fun hplain hne h => hne (Place.segments_eq_of_plain hkp hkq hplain ?_)⟩
    · rw [Place.identifier_eq, Place.identifier_eq, Text.identifierSafe_eq_iff]
    · exact (placeCode_eq_iff hkp hkq).1 h
  · intro p q _ _ hp hq
    refine ⟨(AccessorTable.getter_eq_iff hp hq).trans Text.identifierSafe_eq_iff, ?_⟩
    intro hplain hplain' hne h
    have hsafe := (AccessorTable.getter_eq_iff hp hq).1 h
    rw [Text.identifierSafe_of_plain hplain, Text.identifierSafe_of_plain hplain'] at hsafe
    exact hne hsafe
  · intro var v enum _ _ s _ t _
    refine ⟨?_, ?_⟩
    · rw [textCode_eq_iff, ← String.toList_inj, toList_enumName, toList_enumName]
    · intro hs ht hne h
      have hname := textCode_eq_iff.1 h
      rw [enumName_of_plainCapital hs, enumName_of_plainCapital ht] at hname
      exact hne hname

/-! A mill with two ponds, two depths and two ways to wade, whose names differ in blanks, stops and
underscores or in the case of a letter, and with a third of each. -/

def millLedger : Workspace :=
  let l := ledger
    [("pond.depth", { type := some "int" }), ("pond_depth", { type := some "int" }),
      ("pond.width", { type := some "int" }), ("mode", { type := some "enum" })]
    [.set { name := "mode" } (.str "wade in"), .set { name := "mode" } (.str "wadeIn"),
      .set { name := "mode" } (.str "swim")]
  { l with catalog := { l.catalog with
      regions := .ofList [("Mill Pond", {}), ("Mill_Pond", {}), ("Mill Race", {})] } }

theorem millLedger_names_apart :
    placeCode "Mill Pond" ≠ placeCode "Mill Race" ∧
    ({} : AccessorTable).getter "pond.depth" ≠ ({} : AccessorTable).getter "pond.width" ∧
    textCode (some "Mode") "wade in" ≠ textCode (some "Mode") "swim" := by
  obtain ⟨hplaces, hgetters, hmembers⟩ := names_conflated_iff millLedger {}
  refine ⟨?_, ?_, ?_⟩
  · rw [Ne, (hplaces .region "Mill Pond" "Mill Race" (by decide +kernel) (by decide +kernel)).1]
    decide +kernel
  · rw [Ne, (hgetters "pond.depth" "pond.width" rfl rfl rfl rfl).1]
    decide +kernel
  · have hmode : millLedger.contextRun.1.find? "mode" = some _ := rfl
    rw [Ne, (hmembers "mode" _ "Mode" hmode rfl "wade in" (by decide +kernel) "swim"
      (by decide +kernel)).1]
    decide +kernel

/-- Different places, different variables and different values may each have one name. -/
theorem millLedger_names_conflated :
    ¬ (∀ (w : Workspace) (kind : PlaceKind) (p q : String),
      w.catalog.locationKind? p = some kind → w.catalog.locationKind? q = some kind →
      Place.segments p ≠ Place.segments q → placeCode p ≠ placeCode q) ∧
    ¬ (∀ (w : Workspace) (accessors : AccessorTable) (p q : String),
      (w.contextRun.1.find? p).isSome = true → (w.contextRun.1.find? q).isSome = true →
      accessors.getters.find? p = none → accessors.getters.find? q = none →
      p ≠ q → accessors.getter p ≠ accessors.getter q) ∧
    ¬ (∀ (w : Workspace) (var : String) (v : ContextVar) (enum s t : String),
      w.contextRun.1.find? var = some v → v.kind = some (.enum enum) →
      s ∈ NameSet.toList v.values → t ∈ NameSet.toList v.values →
      s ≠ t → textCode (some enum) s ≠ textCode (some enum) t) := by
  refine ⟨?_, ?_, ?_⟩
  · intro h
    exact h millLedger .region "Mill Pond" "Mill_Pond" (by decide +kernel) (by decide +kernel)
      (by decide +kernel) (by decide +kernel)
  · intro h
    exact h millLedger {} "pond.depth" "pond_depth" rfl rfl rfl rfl (by decide) (by decide +kernel)
  · intro h
    have hmode : millLedger.contextRun.1.find? "mode" = some _ := rfl
    exact h millLedger "mode" _ "Mode" "wade in" "wadeIn" hmode rfl (by decide +kernel)
      (by decide +kernel) (by decide) (by decide +kernel)

end AccessRules
