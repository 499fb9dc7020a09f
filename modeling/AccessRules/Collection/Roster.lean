set_option autoImplicit false

/-! # Maps that remember the order of arrival

`Roster ν` is a finite map keyed by names whose entries stand in the order in which the names were
first put in. Putting a new value under a known name keeps the place of that name. -/

namespace AccessRules

/-- Put `value` under `name`: in place if the name is there, else at the end. -/
def enroll {ν : Type} (name : String) (value : ν) : List (String × ν) → List (String × ν)
  | [] => [(name, value)]
  | (k, v) :: rest => if k = name then (k, value) :: rest else (k, v) :: enroll name value rest

theorem mem_names_enroll {ν : Type} {name key : String} {value : ν} {entries : List (String × ν)} :
    key ∈ (enroll name value entries).map (·.1) ↔ key = name ∨ key ∈ entries.map (·.1) := by
  induction entries with
  | nil => simp [enroll]
  | cons head rest ih =>
    obtain ⟨k, v⟩ := head
    rw [enroll]
    split
    · rename_i hk
      subst hk
      simp
    · simp only [List.map_cons, List.mem_cons, ih]
      constructor
      · rintro (h | h | h) <;> simp [h]
      · rintro (h | h | h) <;> simp [h]

theorem nodup_names_enroll {ν : Type} (name : String) (value : ν) {entries : List (String × ν)}
    (h : (entries.map (·.1)).Nodup) : ((enroll name value entries).map (·.1)).Nodup := by
  induction entries with
  | nil => simp [enroll]
  | cons head rest ih =>
    obtain ⟨k, v⟩ := head
    obtain ⟨hk, hrest⟩ := List.nodup_cons.1 h
    rw [enroll]
    split
    · exact List.nodup_cons.2 ⟨hk, hrest⟩
    · rename_i hne
      refine List.nodup_cons.2 ⟨fun hmem => ?_, ih hrest⟩
      rcases mem_names_enroll.1 hmem with h' | h'
      · exact hne h'
      · exact hk h'

/-- A finite map keyed by names, listed in the order in which the names arrived. -/
@[ext] structure Roster (ν : Type) where
  entries : List (String × ν)
  nodup : (entries.map (·.1)).Nodup

namespace Roster

variable {ν : Type}

instance : EmptyCollection (Roster ν) := ⟨⟨[], List.nodup_nil⟩⟩

instance : Inhabited (Roster ν) := ⟨∅⟩

/-- The roster with `value` under `name`; a known name keeps its place. -/
def insert (r : Roster ν) (name : String) (value : ν) : Roster ν :=
  ⟨enroll name value r.entries, nodup_names_enroll name value r.nodup⟩

/-- The value under `name`, if any. -/
def find? (r : Roster ν) (name : String) : Option ν :=
  r.entries.lookup name

def contains (r : Roster ν) (name : String) : Bool :=
  (r.find? name).isSome

/-- The names in order of arrival. -/
def keys (r : Roster ν) : List String :=
  r.entries.map (·.1)

/-- The values in the order in which their names arrived. -/
def values (r : Roster ν) : List ν :=
  r.entries.map (·.2)

def size (r : Roster ν) : Nat :=
  r.entries.length

/-- The roster of a list of pairs: a repeated name keeps its first place and its last value. -/
def ofList (pairs : List (String × ν)) : Roster ν :=
  pairs.foldl (fun r p => r.insert p.1 p.2) ∅

end Roster

end AccessRules
