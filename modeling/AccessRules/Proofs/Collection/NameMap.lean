import AccessRules.Collection.NameMap
import Mathlib.Data.List.Dedup
import Mathlib.Data.List.Nodup

set_option autoImplicit false

/-! # Look-ups in maps keyed by names

`NameMap.find?` is the view through which everything else speaks of a map: each operation has one
equation for it, and no proof outside this file opens the list of entries. -/

namespace AccessRules

/-! ## Entries -/

variable {ν μ : Type}

theorem lookup_cons_name (name key : String) (value : ν) (rest : List (String × ν)) :
    ((name, value) :: rest).lookup key = if key = name then some value else rest.lookup key := by
  by_cases h : key = name
  · simp [h]
  · rw [List.lookup_cons, beq_eq_false_iff_ne.2 h, if_neg h]

/-- To replace the first entry is all there is to do for its name. -/
theorem lookup_replace_first (name key : String) (value old : ν) (rest : List (String × ν)) :
    ((name, value) :: rest).lookup key
      = if key = name then some value else ((name, old) :: rest).lookup key := by
  simp only [lookup_cons_name]
  split <;> rfl

/-- An entry with another name may stand before what is put under a name. -/
theorem lookup_put_further {k name key : String} {value v : ν} {rest put : List (String × ν)}
    (hk : name ≠ k) (hput : put.lookup key = if key = name then some value else rest.lookup key) :
    ((k, v) :: put).lookup key
      = if key = name then some value else ((k, v) :: rest).lookup key := by
  rw [lookup_cons_name, lookup_cons_name, hput]
  by_cases hkey : key = k
  · -- the name is another one, so at most one of the two conditions holds
    have hname : key ≠ name := fun h => hk (h.symm.trans hkey)
    rw [if_pos hkey, if_neg hname, if_pos hkey]
  · simp only [if_neg hkey]

theorem lookup_insertByName (name key : String) (value : ν) (entries : List (String × ν)) :
    (insertByName name value entries).lookup key
      = if key = name then some value else entries.lookup key := by
  induction entries with
  | nil => rw [insertByName, lookup_cons_name]
  | cons head rest ih =>
      obtain ⟨k, v⟩ := head
      rw [insertByName]
      split
      · rw [lookup_cons_name]
      · split
        · rename_i heq
          subst heq
          exact lookup_replace_first name key value v rest
        · rename_i hne
          exact lookup_put_further hne ih

/-- With each name once, an entry is what its name is looked up to. -/
theorem lookup_eq_some_iff_of_nodup {entries : List (String × ν)}
    (h : (entries.map (·.1)).Nodup) {name : String} {value : ν} :
    entries.lookup name = some value ↔ (name, value) ∈ entries := by
  induction entries with
  | nil => simp
  | cons head rest ih =>
      obtain ⟨k, v⟩ := head
      obtain ⟨hk, hrest⟩ := List.nodup_cons.1 h
      rw [lookup_cons_name, List.mem_cons, Prod.mk.injEq]
      by_cases hname : name = k
      · subst hname
        have hnot : (name, value) ∉ rest := fun hmem => hk (List.mem_map.2 ⟨_, hmem, rfl⟩)
        simp [hnot, eq_comm]
      · simp [ih hrest, hname]

theorem SortedByName.nodup_names {entries : List (String × ν)} (h : SortedByName entries) :
    (entries.map (·.1)).Nodup :=
  List.pairwise_map.2 (h.imp fun hlt => String.ne_of_lt hlt)

theorem lookup_eq_some_iff_mem {entries : List (String × ν)} (h : SortedByName entries)
    {name : String} {value : ν} :
    entries.lookup name = some value ↔ (name, value) ∈ entries :=
  lookup_eq_some_iff_of_nodup h.nodup_names

namespace NameMap

/-! ## Maps -/

@[simp] theorem find?_empty (name : String) : (∅ : NameMap ν).find? name = none := rfl

@[simp] theorem find?_insert (m : NameMap ν) (name key : String) (value : ν) :
    (m.insert name value).find? key = if key = name then some value else m.find? key :=
  lookup_insertByName name key value m.entries

@[simp] theorem find?_alter (m : NameMap ν) (name key : String) (f : Option ν → ν) :
    (m.alter name f).find? key = if key = name then some (f (m.find? name)) else m.find? key :=
  find?_insert m name key _

theorem find?_eq_some_iff {m : NameMap ν} {name : String} {value : ν} :
    m.find? name = some value ↔ (name, value) ∈ m.entries :=
  lookup_eq_some_iff_mem m.sorted

/-- A map is determined by its look-ups. -/
theorem ext_find? {m m' : NameMap ν} (h : ∀ name, m.find? name = m'.find? name) : m = m' := by
  have hmem : ∀ entry, entry ∈ m.entries ↔ entry ∈ m'.entries := fun entry => by
    rw [← find?_eq_some_iff, ← find?_eq_some_iff, h]
  have hnodup : ∀ m : NameMap ν, m.entries.Nodup := fun m => m.sorted.nodup_names.of_map
  have hperm := (List.perm_ext_iff_of_nodup (hnodup m) (hnodup m')).2 hmem
  exact NameMap.ext (hperm.eq_of_pairwise (fun _ _ _ _ hlt hgt => absurd hlt (String.lt_asymm hgt))
    m.sorted m'.sorted)

theorem mem_values_of_find? {m : NameMap ν} {name : String} {value : ν}
    (h : m.find? name = some value) : value ∈ m.values :=
  List.mem_map.2 ⟨(name, value), find?_eq_some_iff.1 h, rfl⟩

theorem exists_find?_of_mem_values {m : NameMap ν} {value : ν} (h : value ∈ m.values) :
    ∃ name, m.find? name = some value := by
  obtain ⟨⟨name, value⟩, hentry, rfl⟩ := List.mem_map.1 h
  exact ⟨name, find?_eq_some_iff.2 hentry⟩

theorem mem_keys_iff {m : NameMap ν} {name : String} :
    name ∈ m.keys ↔ ∃ value, m.find? name = some value := by
  simp [keys, find?_eq_some_iff]

theorem nodup_keys (m : NameMap ν) : m.keys.Nodup :=
  m.sorted.nodup_names

theorem contains_eq_false_iff {m : NameMap ν} {name : String} :
    m.contains name = false ↔ m.find? name = none := by
  rw [contains, Option.isSome_eq_false_iff, Option.isNone_iff_eq_none]

/-- What a map of pairs holds comes from one of the pairs. -/
theorem mem_of_find?_ofList {pairs : List (String × ν)} {name : String} {value : ν}
    (h : (ofList pairs).find? name = some value) : (name, value) ∈ pairs := by
  have main : ∀ (pairs : List (String × ν)) (m : NameMap ν),
      (pairs.foldl (fun m p => m.insert p.1 p.2) m).find? name = some value →
      (name, value) ∈ pairs ∨ m.find? name = some value := by
    intro pairs
    induction pairs with
    | nil => intro m h; exact Or.inr h
    | cons p rest ih =>
        intro m h
        rcases ih _ h with hmem | hm
        · exact Or.inl (List.mem_cons_of_mem _ hmem)
        · rw [find?_insert] at hm
          split at hm
          · rename_i hname
            obtain rfl := Option.some.inj hm
            exact Or.inl (by simp [hname])
          · exact Or.inr hm
  rcases main pairs ∅ h with hmem | hempty
  · exact hmem
  · simp at hempty

/-- A map of pairs has a value for the name of each pair. -/
theorem exists_find?_ofList {pairs : List (String × ν)} {name : String} {value : ν}
    (h : (name, value) ∈ pairs) : ∃ v, (ofList pairs).find? name = some v := by
  have main : ∀ (pairs : List (String × ν)) (m : NameMap ν),
      (∃ v, (name, v) ∈ pairs) ∨ (∃ v, m.find? name = some v) →
      ∃ v, (pairs.foldl (fun m p => m.insert p.1 p.2) m).find? name = some v := by
    intro pairs
    induction pairs with
    | nil => simp
    | cons p rest ih =>
        intro m h
        refine ih _ ?_
        rw [find?_insert]
        by_cases hname : name = p.1
        · exact Or.inr ⟨p.2, if_pos hname⟩
        · rw [if_neg hname]
          refine h.imp_left fun ⟨v, hv⟩ => ⟨v, ?_⟩
          exact (List.mem_cons.1 hv).resolve_left fun heq => hname (congrArg Prod.fst heq)
  exact main pairs ∅ (Or.inl ⟨value, h⟩)

/-- With each name once, a map of pairs holds the pairs. -/
theorem find?_ofList_iff {pairs : List (String × ν)} (h : (pairs.map (·.1)).Nodup) {name : String}
    {value : ν} : (ofList pairs).find? name = some value ↔ (name, value) ∈ pairs := by
  refine ⟨mem_of_find?_ofList, fun hmem => ?_⟩
  obtain ⟨v, hv⟩ := exists_find?_ofList hmem
  have hpair := List.inj_on_of_nodup_map h (mem_of_find?_ofList hv) hmem rfl
  rw [hv, (Prod.mk.inj hpair).2]

theorem find?_ofList_eq_none_iff {pairs : List (String × ν)} {name : String} :
    (ofList pairs).find? name = none ↔ name ∉ pairs.map (·.1) := by
  constructor
  · intro h hmem
    obtain ⟨⟨key, value⟩, hpair, rfl⟩ := List.mem_map.1 hmem
    obtain ⟨v, hv⟩ := exists_find?_ofList hpair
    rw [h] at hv
    cases hv
  · intro h
    by_contra hsome
    obtain ⟨v, hv⟩ := Option.ne_none_iff_exists'.1 hsome
    exact h (List.mem_map.2 ⟨(name, v), mem_of_find?_ofList hv, rfl⟩)

/-- A map of pairs is as large as their list exactly if each name occurs once. -/
theorem size_ofList_iff {pairs : List (String × ν)} :
    (ofList pairs).size = pairs.length ↔ (pairs.map (·.1)).Nodup := by
  have hkeys : (ofList pairs).keys.Perm (pairs.map (·.1)).dedup := by
    refine (List.perm_ext_iff_of_nodup (nodup_keys _) (List.nodup_dedup _)).2 fun name => ?_
    rw [List.mem_dedup, ← not_iff_not, ← find?_ofList_eq_none_iff, mem_keys_iff, not_exists,
      Option.eq_none_iff_forall_ne_some]
  have hsize : (ofList pairs).size = (pairs.map (·.1)).dedup.length := by
    rw [← hkeys.length_eq, keys, List.length_map, size]
  rw [hsize, ← List.length_map (fun p : String × ν => p.1), ← List.dedup_eq_self]
  exact ⟨(List.dedup_sublist _).eq_of_length, congrArg List.length⟩

/-- What is found in a map of pairs, through a function on the values. -/
theorem map_find?_ofList {μ : Type} (g : ν → μ) (pairs : List (String × ν)) (name : String) :
    ((ofList pairs).find? name).map g
      = (ofList (pairs.map fun p => (p.1, g p.2))).find? name := by
  have main : ∀ (pairs : List (String × ν)) (m : NameMap ν) (m' : NameMap μ),
      (m.find? name).map g = m'.find? name →
      ((pairs.foldl (fun m p => m.insert p.1 p.2) m).find? name).map g
        = ((pairs.map fun p => (p.1, g p.2)).foldl (fun m p => m.insert p.1 p.2) m').find?
            name := by
    intro pairs
    induction pairs with
    | nil => exact fun _ _ h => h
    | cons p rest ih =>
        intro m m' h
        refine ih _ _ ?_
        rw [find?_insert, find?_insert, ← h]
        split <;> rfl
  exact main pairs ∅ ∅ rfl

end NameMap

namespace NameSet

theorem find?_foldl_add (names : List String) (s : NameSet) (name : String) :
    (names.foldl add s).find? name = if name ∈ names then some () else s.find? name := by
  induction names generalizing s with
  | nil => simp
  | cons head names ih =>
      rw [List.foldl_cons, ih, add, NameMap.find?_insert]
      by_cases hmem : name ∈ names
      · simp [hmem]
      · simp [hmem]

theorem mem_toList_add {s : NameSet} {name key : String} :
    name ∈ toList (add s key) ↔ name = key ∨ name ∈ toList s := by
  simp only [toList, NameMap.mem_keys_iff, add, NameMap.find?_insert]
  split
  · simp_all
  · simp_all

theorem mem_toList_ofList {names : List String} {name : String} :
    name ∈ toList (ofList names) ↔ name ∈ names := by
  rw [toList, NameMap.mem_keys_iff, ofList, find?_foldl_add]
  simp

theorem nodup_toList (s : NameSet) : (toList s).Nodup :=
  NameMap.nodup_keys s

end NameSet

end AccessRules
