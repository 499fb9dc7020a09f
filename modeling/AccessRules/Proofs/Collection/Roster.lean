import AccessRules.Collection.Roster
import AccessRules.Proofs.Collection.NameMap
import Mathlib.Data.List.Nodup

set_option autoImplicit false

/-! # Look-ups in maps that remember the order of arrival

As for maps listed in name order, `Roster.find?` is the view through which all else speaks of them.
The order of arrival is that of `Roster.keys`: a name is entered at the end unless it is there, so
after many of them the new ones follow in the order in which each came first. -/

namespace AccessRules

variable {ν : Type}

theorem lookup_enroll (name key : String) (value : ν) (entries : List (String × ν)) :
    (enroll name value entries).lookup key
      = if key = name then some value else entries.lookup key := by
  induction entries with
  | nil => rw [enroll, lookup_cons_name]
  | cons head rest ih =>
      obtain ⟨k, v⟩ := head
      rw [enroll]
      split
      · rename_i hk
        subst hk
        exact lookup_replace_first k key value v rest
      · rename_i hk
        exact lookup_put_further (Ne.symm hk) ih

namespace Roster

@[simp] theorem find?_empty (name : String) : (∅ : Roster ν).find? name = none := rfl

@[simp] theorem find?_insert (r : Roster ν) (name key : String) (value : ν) :
    (r.insert name value).find? key = if key = name then some value else r.find? key :=
  lookup_enroll name key value r.entries

theorem find?_eq_some_iff {r : Roster ν} {name : String} {value : ν} :
    r.find? name = some value ↔ (name, value) ∈ r.entries :=
  lookup_eq_some_iff_of_nodup r.nodup

theorem mem_keys_iff {r : Roster ν} {name : String} :
    name ∈ r.keys ↔ ∃ value, r.find? name = some value := by
  simp only [find?_eq_some_iff, keys, List.mem_map, Prod.exists, exists_and_right, exists_eq_right]

end Roster

/-! ## Order of arrival -/

theorem nodup_eraseDups {α : Type} [BEq α] [LawfulBEq α] (as : List α) : as.eraseDups.Nodup := by
  induction hn : as.length using Nat.strongRecOn generalizing as with
  | _ n ih =>
      cases as with
      | nil => exact List.nodup_nil
      | cons a as =>
          rw [List.eraseDups_cons]
          refine List.nodup_cons.2 ⟨fun hmem => ?_, ih _ ?_ _ rfl⟩
          · simpa using (List.mem_filter.1 (List.mem_eraseDups.1 hmem)).2
          · have hle := List.length_filter_le (fun b => !b == a) as
            rw [← hn, List.length_cons]
            omega

/-- The names with one more at the end, unless it is among them. -/
def enter (names : List String) (name : String) : List String :=
  if name ∈ names then names else names ++ [name]

theorem enter_of_mem {names : List String} {name : String} (h : name ∈ names) :
    enter names name = names :=
  if_pos h

theorem mem_enter {names : List String} {name key : String} :
    key ∈ enter names name ↔ key = name ∨ key ∈ names := by
  unfold enter
  split
  · rename_i hmem
    exact ⟨Or.inr, fun h => h.elim (fun heq => heq ▸ hmem) id⟩
  · simp [or_comm]

theorem mem_foldl_enter {names ns : List String} {key : String} :
    key ∈ ns.foldl enter names ↔ key ∈ ns ∨ key ∈ names := by
  induction ns generalizing names with
  | nil => simp
  | cons n ns ih => rw [List.foldl_cons, ih, mem_enter, List.mem_cons, or_left_comm, or_assoc]

/-- New names follow those that are there, each once, in the order in which they first come. -/
theorem foldl_enter (names ns : List String) :
    ns.foldl enter names = names ++ (ns.filter (· ∉ names)).eraseDups := by
  induction ns generalizing names with
  | nil => simp
  | cons n ns ih =>
      by_cases hn : n ∈ names
      · rw [List.foldl_cons, enter_of_mem hn, ih, List.filter_cons_of_neg (by simpa using hn)]
      · have hrest : ns.filter (· ∉ names ++ [n])
            = (ns.filter (· ∉ names)).filter fun m => !m == n := by
          rw [List.filter_filter]
          refine List.filter_congr fun m _ => ?_
          by_cases hm : m = n <;> simp [hm]
        rw [List.foldl_cons, enter, if_neg hn, ih, hrest,
          List.filter_cons_of_pos (by simpa using hn), List.eraseDups_cons, List.append_assoc]
        rfl

theorem foldl_enter_of_nodup {names ns : List String} (h : (names ++ ns).Nodup) :
    ns.foldl enter names = names ++ ns := by
  induction ns generalizing names with
  | nil => simp
  | cons n ns ih =>
      have hn : n ∉ names := fun hmem =>
        List.disjoint_of_nodup_append h hmem (List.mem_cons_self ..)
      have happend : names ++ n :: ns = (names ++ [n]) ++ ns := by simp
      rw [List.foldl_cons, enter, if_neg hn, happend]
      exact ih (happend ▸ h)

theorem enter_cons_of_ne {k name : String} (h : k ≠ name) (names : List String) :
    enter (k :: names) name = k :: enter names name := by
  simp only [enter, List.mem_cons, or_iff_right (Ne.symm h)]
  split <;> rfl

theorem names_enroll (name : String) (value : ν) (entries : List (String × ν)) :
    (enroll name value entries).map (·.1) = enter (entries.map (·.1)) name := by
  induction entries with
  | nil => rfl
  | cons head rest ih =>
      obtain ⟨k, v⟩ := head
      rw [enroll]
      by_cases hk : k = name
      · rw [if_pos hk, enter_of_mem (by simp [hk])]
        rfl
      · rw [if_neg hk, List.map_cons, ih, List.map_cons, enter_cons_of_ne hk]

theorem Roster.keys_insert (r : Roster ν) (name : String) (value : ν) :
    (r.insert name value).keys = enter r.keys name :=
  names_enroll name value r.entries

end AccessRules
