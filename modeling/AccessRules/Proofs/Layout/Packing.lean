import AccessRules.Layout
import AccessRules.Proofs.Collection.NameMap
import Mathlib.Algebra.Order.Ring.Nat
import Mathlib.Data.List.Nodup
import Mathlib.Order.Bounds.Defs

set_option autoImplicit false

/-! # Where packed flags stand

Entries are cut into chunks of 32, one for each group. With each name once, the entry at position
`i` has bit `i % 32` of group `i / 32 + 1`, whatever stands after it, and the bits that start out
set are those of the entries that do. -/

namespace AccessRules

variable {entries : List FlagEntry}

namespace FlagLayout

/-! ## Chunks -/

theorem lt_length_chunks_iff {k : Nat} :
    k < (chunks entries).length ↔ groupWidth * k < entries.length := by
  simp only [chunks, List.length_map, List.length_range, groupWidth]
  omega

theorem getElem?_chunks (entries : List FlagEntry) (k : Nat) :
    (chunks entries)[k]? = if groupWidth * k < entries.length
      then some ((entries.drop (groupWidth * k)).take groupWidth) else none := by
  split
  · rename_i hk
    have hlt := lt_length_chunks_iff.2 hk
    rw [List.getElem?_eq_getElem hlt]
    simp [chunks]
  · rename_i hk
    exact List.getElem?_eq_none (Nat.le_of_not_lt (mt lt_length_chunks_iff.1 hk))

theorem chunks_of_ne_nil (h : entries ≠ []) :
    chunks entries = entries.take groupWidth :: chunks (entries.drop groupWidth) := by
  have hpos := List.length_pos_of_ne_nil h
  refine List.ext_getElem? fun k => ?_
  cases k with
  | zero => simp [getElem?_chunks, hpos]
  | succ k =>
      have hdrop : groupWidth * (k + 1) < entries.length
          ↔ groupWidth * k < (entries.drop groupWidth).length := by
        rw [List.length_drop, Nat.mul_succ]
        omega
      rw [List.getElem?_cons_succ, getElem?_chunks, getElem?_chunks, List.drop_drop,
        Nat.add_comm groupWidth, ← Nat.mul_succ]
      simp only [hdrop]

/-- What passes from the entries after a first chunk to all of them holds of any entries. -/
theorem chunks_induction {P : List FlagEntry → Prop} (nil : P [])
    (step : ∀ es, es ≠ [] → P (es.drop groupWidth) → P es) (entries : List FlagEntry) :
    P entries :=
  if h : entries = [] then h ▸ nil
  else step entries h (chunks_induction nil step (entries.drop groupWidth))
termination_by entries.length
decreasing_by
  have hpos := List.length_pos_of_ne_nil h
  rw [List.length_drop, groupWidth]
  omega

theorem flatten_chunks (entries : List FlagEntry) : (chunks entries).flatten = entries := by
  induction entries using chunks_induction with
  | nil => rfl
  | step es h ih => rw [chunks_of_ne_nil h, List.flatten_cons, ih, List.take_append_drop]

theorem ne_nil_of_mem_chunks {chunk : List FlagEntry} (h : chunk ∈ chunks entries) :
    chunk ≠ [] := by
  obtain ⟨k, hk⟩ := List.mem_iff_getElem?.1 h
  rw [getElem?_chunks] at hk
  split at hk
  · rename_i hlt
    obtain rfl := Option.some.inj hk
    rw [← List.length_pos_iff, List.length_take, List.length_drop, groupWidth]
    rw [groupWidth] at hlt
    omega
  · cases hk

theorem length_le_of_mem_chunks {chunk : List FlagEntry} (h : chunk ∈ chunks entries) :
    chunk.length ≤ groupWidth := by
  obtain ⟨k, -, rfl⟩ := List.mem_map.1 h
  rw [List.length_take]
  exact Nat.min_le_left _ _

/-- Every chunk but the last is full. -/
theorem length_of_mem_dropLast_chunks {chunk : List FlagEntry}
    (h : chunk ∈ (chunks entries).dropLast) : chunk.length = groupWidth := by
  obtain ⟨k, hk⟩ := List.mem_iff_getElem?.1 h
  have hlt : k < (chunks entries).length - 1 := by
    rw [← List.length_dropLast]
    exact (List.getElem?_eq_some_iff.1 hk).1
  have hnext := lt_length_chunks_iff.1 (show k + 1 < (chunks entries).length by omega)
  rw [List.getElem?_dropLast, if_pos hlt, getElem?_chunks] at hk
  rw [Nat.mul_succ] at hnext
  rw [if_pos (by omega)] at hk
  obtain rfl := Option.some.inj hk
  rw [List.length_take, List.length_drop]
  omega

/-! ## Positions -/

/-- The names with the numbers of their groups. -/
theorem flatten_mapIdx_chunks (entries : List FlagEntry) (k : Nat) :
    ((chunks entries).mapIdx fun i chunk => chunk.map fun e => (e.name, i + k + 1)).flatten
      = entries.mapIdx fun i e => (e.name, i / groupWidth + k + 1) := by
  induction entries using chunks_induction generalizing k with
  | nil => rfl
  | step es h ih =>
      have hfirst : (es.take groupWidth).mapIdx (fun i e => (e.name, i / groupWidth + k + 1))
          = (es.take groupWidth).map fun e => (e.name, k + 1) := by
        refine List.ext_getElem? fun i => ?_
        rw [List.getElem?_mapIdx, List.getElem?_map]
        by_cases hi : i < groupWidth
        · rw [Nat.div_eq_of_lt hi, Nat.zero_add]
        · simp [hi]
      have hrest : (es.drop groupWidth).mapIdx
            (fun i e => (e.name, (i + (es.take groupWidth).length) / groupWidth + k + 1))
          = (es.drop groupWidth).mapIdx fun i e => (e.name, i / groupWidth + (k + 1) + 1) := by
        refine List.ext_getElem? fun i => ?_
        simp only [List.getElem?_mapIdx]
        cases hi : (es.drop groupWidth)[i]? with
        | none => rfl
        | some e =>
            -- there is an entry after the first chunk, so that chunk is full
            have hlen : (es.take groupWidth).length = groupWidth := by
              have hlt := (List.getElem?_eq_some_iff.1 hi).1
              rw [List.length_drop] at hlt
              rw [List.length_take]
              omega
            rw [hlen, Nat.add_div_right i (by decide)]
            simp only [Option.map_some]
            congr 2
            omega
      conv_rhs => rw [← List.take_append_drop groupWidth es, List.mapIdx_append, hfirst, hrest]
      rw [chunks_of_ne_nil h, List.mapIdx_cons, List.flatten_cons, ← ih (k + 1), Nat.zero_add]
      congr 3
      funext i chunk
      simp only [Nat.add_right_comm, Nat.add_assoc, Nat.add_comm 1]

theorem index_pack (entries : List FlagEntry) : (pack entries).index
    = .ofList (entries.mapIdx fun i e => (e.name, i / groupWidth + 1)) :=
  congrArg NameMap.ofList (flatten_mapIdx_chunks entries 0)

theorem map_fst_mapIdx_name (f : Nat → Nat) (entries : List FlagEntry) :
    (entries.mapIdx fun i e => (e.name, f i)).map (·.1) = entries.map (·.name) := by
  refine List.ext_getElem? fun i => ?_
  simp only [List.getElem?_map, List.getElem?_mapIdx, Option.map_map, Function.comp_def]

theorem find?_index_pack (h : (entries.map (·.name)).Nodup) {i : Nat} {e : FlagEntry}
    (hi : entries[i]? = some e) :
    (pack entries).index.find? e.name = some (i / groupWidth + 1) := by
  rw [index_pack, NameMap.find?_ofList_iff (by rwa [map_fst_mapIdx_name])]
  refine List.mem_iff_getElem?.2 ⟨i, ?_⟩
  rw [List.getElem?_mapIdx, hi, Option.map_some]

theorem find?_index_pack_eq_none_iff {name : String} :
    (pack entries).index.find? name = none ↔ name ∉ entries.map (·.name) := by
  rw [index_pack, NameMap.find?_ofList_eq_none_iff, map_fst_mapIdx_name]

theorem getElem?_groups_pack (entries : List FlagEntry) (k : Nat) :
    (pack entries).groups[k]? = ((chunks entries)[k]?).map FlagGroup.ofEntries :=
  List.getElem?_map

/-- The group of an entry has it at the remainder of its position. -/
theorem getElem?_members_pack {i : Nat} {e : FlagEntry} (hi : entries[i]? = some e) :
    ∃ g, (pack entries).groups[i / groupWidth]? = some g ∧
      g.members[i % groupWidth]? = some e.name := by
  have hlt := (List.getElem?_eq_some_iff.1 hi).1
  have hdiv := Nat.div_add_mod i groupWidth
  have hmod := Nat.mod_lt i (show groupWidth > 0 by decide)
  refine ⟨.ofEntries ((entries.drop (groupWidth * (i / groupWidth))).take groupWidth), ?_, ?_⟩
  · rw [getElem?_groups_pack, getElem?_chunks, if_pos (by omega), Option.map_some]
  · rw [FlagGroup.ofEntries, List.getElem?_map, List.getElem?_take, if_pos hmod,
      List.getElem?_drop, hdiv, hi, Option.map_some]

/-- The members of all groups in order. -/
def members (l : FlagLayout) : List String :=
  l.groups.flatMap (·.members)

theorem members_pack (entries : List FlagEntry) :
    (pack entries).members = entries.map (·.name) := by
  have hmembers : ∀ cs : List (List FlagEntry),
      (cs.map FlagGroup.ofEntries).flatMap (·.members) = cs.flatten.map (·.name) := by
    intro cs
    induction cs with
    | nil => rfl
    | cons chunk cs ih =>
        rw [List.map_cons, List.flatMap_cons, ih, List.flatten_cons, List.map_append]
        rfl
  rw [members, pack, hmembers, flatten_chunks]

theorem nodup_members_of_mem_groups (h : (entries.map (·.name)).Nodup) {g : FlagGroup}
    (hg : g ∈ (pack entries).groups) : g.members.Nodup := by
  rw [← members_pack] at h
  exact (List.nodup_flatMap.1 h).1 g hg

theorem findIdx?_eq_of_nodup {names : List String} (h : names.Nodup) {i : Nat} {name : String}
    (hi : names[i]? = some name) : names.findIdx? (· == name) = some i := by
  obtain ⟨hlt, rfl⟩ := List.getElem?_eq_some_iff.1 hi
  refine List.findIdx?_eq_some_iff_getElem.2 ⟨hlt, by simp, fun j hj => ?_⟩
  have hne : names[j] ≠ names[i] := fun heq => Nat.ne_of_lt hj (h.getElem_inj_iff.1 heq)
  simpa using hne

theorem bit?_pack (h : (entries.map (·.name)).Nodup) {i : Nat} {e : FlagEntry}
    (hi : entries[i]? = some e) :
    (pack entries).bit? e.name = some (i / groupWidth + 1, i % groupWidth) := by
  obtain ⟨g, hg, hmember⟩ := getElem?_members_pack hi
  have hbit := findIdx?_eq_of_nodup
    (nodup_members_of_mem_groups h (List.mem_of_getElem? hg)) hmember
  simp [bit?, find?_index_pack h hi, hg, hbit]

theorem bit?_pack_eq_none {name : String} (h : name ∉ entries.map (·.name)) :
    (pack entries).bit? name = none ∧ (pack entries).groupOf name = 0 := by
  have hnone := find?_index_pack_eq_none_iff.2 h
  simp [bit?, groupOf, hnone]

theorem size_pack_iff :
    (pack entries).size = entries.length ↔ (entries.map (·.name)).Nodup := by
  rw [size, index_pack, ← map_fst_mapIdx_name (fun i => i / groupWidth + 1) entries,
    ← NameMap.size_ofList_iff, List.length_mapIdx]

end FlagLayout

/-! ## Widths -/

/-- Up to a full group, the width is the least power of two from 8 on that is large enough. -/
theorem FlagGroup.isLeast_widthFor {n : Nat} (h : n ≤ groupWidth) :
    IsLeast {c : Nat | 8 ≤ c ∧ n ≤ c ∧ c.isPowerOfTwo} (widthFor n) := by
  -- a power of two beyond 8, or beyond 16, is at least the next one
  have hnext : ∀ {k j : Nat}, 2 ^ j < 2 ^ k → 2 ^ (j + 1) ≤ 2 ^ k := fun hlt =>
    Nat.pow_le_pow_right (by decide) ((Nat.pow_lt_pow_iff_right (by decide)).1 hlt)
  unfold widthFor
  split
  · exact ⟨⟨le_refl _, ‹_›, 3, rfl⟩, fun c hc => hc.1⟩
  · split
    · refine ⟨⟨by decide, ‹_›, 4, rfl⟩, ?_⟩
      rintro c ⟨-, hn, k, rfl⟩
      exact hnext (j := 3) (by omega)
    · refine ⟨⟨by decide, h, 5, rfl⟩, ?_⟩
      rintro c ⟨-, hn, k, rfl⟩
      exact hnext (j := 4) (by omega)

/-! ## Bits that start out set -/

namespace FlagGroup

theorem testBit_foldr_or (words : List Nat) (b : Nat) :
    (words.foldr (· ||| ·) 0).testBit b = words.any (·.testBit b) := by
  induction words with
  | nil => simp
  | cons word words ih => rw [List.foldr_cons, Nat.testBit_or, ih, List.any_cons]

/-- Positions do not wrap around in a group, so each bit tells of one member. -/
theorem testBit_defaultBits {g : FlagGroup} (h : g.members.length ≤ groupWidth) (b : Nat) :
    g.defaultBits.testBit b = true ↔ ∃ m, g.members[b]? = some m ∧ m ∈ g.defaultsOn := by
  have hword : ∀ i m, g.members[i]? = some m →
      ((if g.defaultsOn.contains m then positionBit i else 0).testBit b = true
        ↔ i = b ∧ m ∈ g.defaultsOn) := by
    intro i m hi
    have hlt := (List.getElem?_eq_some_iff.1 hi).1
    have hmod : i % 64 = i := Nat.mod_eq_of_lt (by rw [groupWidth] at h; omega)
    by_cases hm : m ∈ g.defaultsOn
    · have hbit : (positionBit i).testBit b = decide (i = b) := by
        rw [positionBit, hmod]
        exact Nat.testBit_two_pow
      simp [hm, hbit]
    · simp [hm]
  rw [defaultBits, testBit_foldr_or, List.any_eq_true]
  constructor
  · rintro ⟨word, hmem, hbit⟩
    obtain ⟨i, hi⟩ := List.mem_iff_getElem?.1 hmem
    rw [List.getElem?_mapIdx] at hi
    obtain ⟨m, hm, rfl⟩ := Option.map_eq_some_iff.1 hi
    obtain ⟨rfl, hon⟩ := (hword i m hm).1 hbit
    exact ⟨m, hm, hon⟩
  · rintro ⟨m, hm, hon⟩
    refine ⟨_, List.mem_iff_getElem?.2 ⟨b, ?_⟩, (hword b m hm).2 ⟨rfl, hon⟩⟩
    rw [List.getElem?_mapIdx, hm, Option.map_some]

theorem defaultBits_lt {g : FlagGroup} (h : g.members.length ≤ groupWidth)
    (hcapacity : g.members.length ≤ g.capacity) : g.defaultBits < 2 ^ g.capacity := by
  refine Nat.lt_pow_two_of_testBit _ fun b hb => ?_
  by_contra hset
  obtain ⟨m, hm, -⟩ := (testBit_defaultBits h b).1 (by simpa using hset)
  have hlt := (List.getElem?_eq_some_iff.1 hm).1
  omega

end FlagGroup

namespace FlagLayout

theorem mem_groups_pack {g : FlagGroup} :
    g ∈ (pack entries).groups ↔ ∃ chunk ∈ chunks entries, FlagGroup.ofEntries chunk = g :=
  List.mem_map

theorem mem_entries_of_mem_chunks {chunk : List FlagEntry} (h : chunk ∈ chunks entries)
    {e : FlagEntry} (he : e ∈ chunk) : e ∈ entries := by
  rw [← flatten_chunks entries]
  exact List.mem_flatten.2 ⟨chunk, h, he⟩

/-- With each name once, the members of a group that start out set are the entries that do. -/
theorem mem_defaultsOn_iff (h : (entries.map (·.name)).Nodup) {chunk : List FlagEntry}
    (hchunk : chunk ∈ chunks entries) {e : FlagEntry} (he : e ∈ chunk) :
    e.name ∈ (FlagGroup.ofEntries chunk).defaultsOn ↔ e.defaultOn = true := by
  constructor
  · intro hmem
    obtain ⟨e', he', hname⟩ := List.mem_map.1 hmem
    obtain ⟨hchunk', hon⟩ := List.mem_filter.1 he'
    have heq : e' = e := List.inj_on_of_nodup_map h (mem_entries_of_mem_chunks hchunk hchunk')
      (mem_entries_of_mem_chunks hchunk he) hname
    rwa [← heq]
  · exact fun hon => List.mem_map.2 ⟨e, List.mem_filter.2 ⟨he, hon⟩, rfl⟩

/-- The entries that the members of a layout stand for. -/
def unpack (l : FlagLayout) : List FlagEntry :=
  l.groups.flatMap fun g => g.members.map fun m => ⟨m, g.defaultsOn.contains m⟩

/-- With each name once, a layout keeps the entries it was made of. -/
theorem unpack_pack (h : (entries.map (·.name)).Nodup) : (pack entries).unpack = entries := by
  have hgroup : ∀ chunk ∈ chunks entries,
      ((FlagGroup.ofEntries chunk).members.map fun m =>
        FlagEntry.mk m ((FlagGroup.ofEntries chunk).defaultsOn.contains m)) = chunk := by
    intro chunk hchunk
    rw [FlagGroup.ofEntries, List.map_map]
    refine (List.map_congr_left fun e he => ?_).trans (List.map_id chunk)
    refine congrArg (FlagEntry.mk e.name) ?_
    rw [Bool.eq_iff_iff, List.contains_iff_mem]
    exact mem_defaultsOn_iff h hchunk he
  rw [unpack, pack, List.flatMap_map, List.flatMap_def, List.map_congr_left hgroup, List.map_id',
    flatten_chunks]

/-! ## Layouts of entries -/

/-- The layout has the entries one after the other, in groups of 32. -/
structure IsPackingOf (l : FlagLayout) (entries : List FlagEntry) : Prop where
  members_eq : l.members = entries.map (·.name)
  bit?_entry : ∀ i e, entries[i]? = some e → l.bit? e.name = some (i / 32 + 1, i % 32)
  bit?_other : ∀ name, name ∉ entries.map (·.name) → l.bit? name = none ∧ l.groupOf name = 0
  members_ne_nil : ∀ g ∈ l.groups, g.members ≠ []
  full : ∀ g ∈ l.groups.dropLast, g.members.length = 32 ∧ g.capacity = 32
  last : ∀ g, l.groups.getLast? = some g →
    IsLeast {c : Nat | 8 ≤ c ∧ g.members.length ≤ c ∧ c.isPowerOfTwo} g.capacity
  defaultBits_iff : ∀ g ∈ l.groups, ∀ b, g.defaultBits.testBit b = true ↔
    ∃ e ∈ entries, g.members[b]? = some e.name ∧ e.defaultOn = true
  defaultBits_lt : ∀ g ∈ l.groups, g.defaultBits < 2 ^ g.capacity

theorem isLeast_capacity_of_mem_groups {g : FlagGroup} (hg : g ∈ (pack entries).groups) :
    IsLeast {c : Nat | 8 ≤ c ∧ g.members.length ≤ c ∧ c.isPowerOfTwo} g.capacity := by
  obtain ⟨chunk, hchunk, rfl⟩ := mem_groups_pack.1 hg
  rw [FlagGroup.ofEntries, List.length_map]
  exact FlagGroup.isLeast_widthFor (length_le_of_mem_chunks hchunk)

theorem length_members_of_mem_groups {g : FlagGroup} (hg : g ∈ (pack entries).groups) :
    g.members.length ≤ groupWidth := by
  obtain ⟨chunk, hchunk, rfl⟩ := mem_groups_pack.1 hg
  rw [FlagGroup.ofEntries, List.length_map]
  exact length_le_of_mem_chunks hchunk

theorem full_of_mem_dropLast_groups {g : FlagGroup} (hg : g ∈ (pack entries).groups.dropLast) :
    g.members.length = groupWidth ∧ g.capacity = groupWidth := by
  rw [pack, ← List.map_dropLast] at hg
  obtain ⟨chunk, hchunk, rfl⟩ := List.mem_map.1 hg
  have hlength := length_of_mem_dropLast_chunks hchunk
  exact ⟨(List.length_map _).trans hlength, congrArg FlagGroup.widthFor hlength⟩

theorem testBit_defaultBits_pack (h : (entries.map (·.name)).Nodup) {g : FlagGroup}
    (hg : g ∈ (pack entries).groups) (b : Nat) : g.defaultBits.testBit b = true ↔
      ∃ e ∈ entries, g.members[b]? = some e.name ∧ e.defaultOn = true := by
  rw [FlagGroup.testBit_defaultBits (length_members_of_mem_groups hg)]
  obtain ⟨chunk, hchunk, rfl⟩ := mem_groups_pack.1 hg
  -- every member of the group is the name of an entry of its chunk
  have hmember : ∀ m, (FlagGroup.ofEntries chunk).members[b]? = some m →
      ∃ e ∈ chunk, e.name = m := by
    intro m hm
    exact List.mem_map.1 (List.mem_of_getElem? hm)
  constructor
  · rintro ⟨m, hm, hon⟩
    obtain ⟨e, he, rfl⟩ := hmember m hm
    exact ⟨e, mem_entries_of_mem_chunks hchunk he, hm, (mem_defaultsOn_iff h hchunk he).1 hon⟩
  · rintro ⟨e, he, hm, hon⟩
    obtain ⟨e', he', hname⟩ := hmember e.name hm
    obtain rfl := List.inj_on_of_nodup_map h (mem_entries_of_mem_chunks hchunk he') he hname
    exact ⟨e'.name, hm, (mem_defaultsOn_iff h hchunk he').2 hon⟩

theorem isPackingOf_pack (h : (entries.map (·.name)).Nodup) :
    (pack entries).IsPackingOf entries where
  members_eq := members_pack entries
  bit?_entry _ _ hi := bit?_pack h hi
  bit?_other _ hname := bit?_pack_eq_none hname
  members_ne_nil g hg := by
    obtain ⟨chunk, hchunk, rfl⟩ := mem_groups_pack.1 hg
    exact mt List.map_eq_nil_iff.1 (ne_nil_of_mem_chunks hchunk)
  full _ hg := full_of_mem_dropLast_groups hg
  last _ hg := isLeast_capacity_of_mem_groups (List.mem_of_getLast? hg)
  defaultBits_iff _ hg := testBit_defaultBits_pack h hg
  defaultBits_lt g hg := FlagGroup.defaultBits_lt (length_members_of_mem_groups hg)
    (isLeast_capacity_of_mem_groups hg).1.2.1

/-- Entries with different names are packed one after the other in groups of 32. More entries after
    them leave their positions as they are, and what a layout was made of can be read off it. -/
theorem pack_in_order (h : (entries.map (·.name)).Nodup) :
    (pack entries).IsPackingOf entries ∧
      (∀ more, ((entries ++ more).map (·.name)).Nodup → ∀ e ∈ entries,
        (pack (entries ++ more)).bit? e.name = (pack entries).bit? e.name) ∧
      pack (pack entries).unpack = pack entries := by
  refine ⟨isPackingOf_pack h, fun more hmore e he => ?_, congrArg pack (unpack_pack h)⟩
  obtain ⟨i, hi⟩ := List.mem_iff_getElem?.1 he
  have hlonger : (entries ++ more)[i]? = some e := by
    rw [List.getElem?_append_left (List.getElem?_eq_some_iff.1 hi).1, hi]
  rw [bit?_pack h hi, bit?_pack hmore hlonger]

/-- As many flags as fill a group and one more, of which only the last starts out set. -/
def overfullEntries : List FlagEntry :=
  (List.range 33).map fun i => ⟨String.ofList (List.replicate i 'x'), i == 32⟩

theorem overfullEntries_packed :
    (overfullEntries.map (·.name)).Nodup ∧ (pack overfullEntries).IsPackingOf overfullEntries ∧
      (pack overfullEntries).bit? (String.ofList (List.replicate 31 'x')) = some (1, 31) ∧
      (pack overfullEntries).bit? (String.ofList (List.replicate 32 'x')) = some (2, 0) := by
  have hnodup : (overfullEntries.map (·.name)).Nodup := by decide +kernel
  obtain ⟨hpacking, -, -⟩ := pack_in_order hnodup
  exact ⟨hnodup, hpacking, hpacking.bit?_entry 31 ⟨_, false⟩ rfl,
    hpacking.bit?_entry 32 ⟨_, true⟩ rfl⟩

end FlagLayout

end AccessRules
