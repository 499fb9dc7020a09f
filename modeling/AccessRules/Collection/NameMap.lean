set_option autoImplicit false

/-! # Finite maps and sets of names

`NameMap ν` is a finite map keyed by names and listed in name order. The entries are kept sorted
and each name occurs once, so a map is determined by what it holds and not by how it was built:
two maps with the same look-ups are equal. `NameSet` is the map without values.

Names compare by code points, which is also the order of their UTF-8 encodings. -/

namespace AccessRules

/-- Names strictly increase along the entries. -/
def SortedByName {ν : Type} (entries : List (String × ν)) : Prop :=
  entries.Pairwise fun a b => a.1 < b.1

/-- Put `value` under `name` into entries sorted by name, replacing what `name` held before. -/
def insertByName {ν : Type} (name : String) (value : ν) : List (String × ν) → List (String × ν)
  | [] => [(name, value)]
  | (k, v) :: rest =>
    if name < k then (name, value) :: (k, v) :: rest
    else if name = k then (name, value) :: rest
    else (k, v) :: insertByName name value rest

theorem lt_of_not_lt_of_ne {a b : String} (h : ¬ a < b) (hne : a ≠ b) : b < a := by
  rcases Decidable.em (b < a) with hba | hba
  · exact hba
  · exact absurd (String.le_antisymm hba h) hne

theorem mem_insertByName {ν : Type} {name : String} {value : ν} {entry : String × ν}
    {entries : List (String × ν)} (h : entry ∈ insertByName name value entries) :
    entry = (name, value) ∨ entry ∈ entries := by
  induction entries with
  | nil => simpa [insertByName] using h
  | cons head rest ih =>
    obtain ⟨k, v⟩ := head
    rw [insertByName] at h
    split at h
    · simpa using h
    · split at h
      · rcases List.mem_cons.1 h with h | h
        · exact Or.inl h
        · exact Or.inr (List.mem_cons_of_mem _ h)
      · rcases List.mem_cons.1 h with h | h
        · exact Or.inr (h ▸ List.mem_cons_self)
        · exact (ih h).imp id (List.mem_cons_of_mem _)

theorem sortedByName_insertByName {ν : Type} (name : String) (value : ν)
    {entries : List (String × ν)} (h : SortedByName entries) :
    SortedByName (insertByName name value entries) := by
  induction entries with
  | nil => simp [insertByName, SortedByName]
  | cons head rest ih =>
    obtain ⟨k, v⟩ := head
    obtain ⟨hk, hrest⟩ := List.pairwise_cons.1 h
    rw [insertByName]
    split
    · rename_i hlt
      refine List.pairwise_cons.2 ⟨fun entry hmem => ?_, h⟩
      rcases List.mem_cons.1 hmem with rfl | hmem
      · exact hlt
      · exact String.lt_trans hlt (hk entry hmem)
    · rename_i hlt
      split
      · rename_i heq
        subst heq
        exact List.pairwise_cons.2 ⟨hk, hrest⟩
      · rename_i hne
        refine List.pairwise_cons.2 ⟨fun entry hmem => ?_, ih hrest⟩
        rcases mem_insertByName hmem with rfl | hmem
        · exact lt_of_not_lt_of_ne hlt hne
        · exact hk entry hmem

/-- A finite map keyed by names, listed in name order. -/
@[ext] structure NameMap (ν : Type) where
  entries : List (String × ν)
  sorted : SortedByName entries

namespace NameMap

variable {ν μ : Type}

instance : EmptyCollection (NameMap ν) := ⟨⟨[], List.Pairwise.nil⟩⟩

instance : Inhabited (NameMap ν) := ⟨∅⟩

/-- The map with `value` under `name`, in place of any value held there before. -/
def insert (m : NameMap ν) (name : String) (value : ν) : NameMap ν :=
  ⟨insertByName name value m.entries, sortedByName_insertByName name value m.sorted⟩

/-- The value under `name`, if any. -/
def find? (m : NameMap ν) (name : String) : Option ν :=
  m.entries.lookup name

def contains (m : NameMap ν) (name : String) : Bool :=
  (m.find? name).isSome

/-- The names in order. -/
def keys (m : NameMap ν) : List String :=
  m.entries.map (·.1)

/-- The values in the order of their names. -/
def values (m : NameMap ν) : List ν :=
  m.entries.map (·.2)

def size (m : NameMap ν) : Nat :=
  m.entries.length

def isEmpty (m : NameMap ν) : Bool :=
  m.entries.isEmpty

/-- Replace what stands under `name`, seen as absent or present, by its image. -/
def alter (m : NameMap ν) (name : String) (f : Option ν → ν) : NameMap ν :=
  m.insert name (f (m.find? name))

/-- The map of a list of pairs; of two pairs with one name the later counts. -/
def ofList (pairs : List (String × ν)) : NameMap ν :=
  pairs.foldl (fun m p => m.insert p.1 p.2) ∅

end NameMap

/-- A finite set of names, listed in name order. -/
abbrev NameSet := NameMap Unit

namespace NameSet

/-- The set with `name` added. -/
def add (s : NameSet) (name : String) : NameSet :=
  NameMap.insert s name ()

/-- The members in order. -/
def toList (s : NameSet) : List String :=
  NameMap.keys s

/-- The set of the members of a list. -/
def ofList (names : List String) : NameSet :=
  names.foldl add ∅

end NameSet

end AccessRules
