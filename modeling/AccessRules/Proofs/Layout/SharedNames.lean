import AccessRules.Proofs.Compile
import AccessRules.Proofs.Context.Table
import AccessRules.Proofs.Layout.Packing

set_option autoImplicit false

/-! # Flags that share a name

Boolean variables, boolean settings and items that are never needed in quantity come from three
tables, each of which has a name once. The layout knows flags by name alone, so a variable and a
setting of one name are taken for one flag: `flags_have_own_bits_iff` says that all flags have bits
of their own exactly if no two tables share a name. -/

namespace AccessRules

/-- A thing that may take a bit. -/
inductive Flag where
  | var (name : String)
  | setting (name : String)
  | item (name : String)

def Flag.name : Flag → String
  | .var name => name
  | .setting name => name
  | .item name => name

namespace Compilation

/-- The flag takes a bit: a boolean variable of the table, a boolean setting of the catalog, or an
    item of the census that is never needed in quantity. -/
def Packs (comp : Compilation) (catalog : Catalog) : Flag → Prop
  | .var name => ∃ v, comp.contexts.find? name = some v ∧ v.kind = some .bool
  | .setting name => ∃ d, catalog.settings.find? name = some d ∧ d.type = .bool
  | .item name => ∃ usage, comp.items.find? name = some usage ∧ usage.maxCount = 1

/-- No two flags that take a bit have the same name. -/
def FlagNamesApart (comp : Compilation) (catalog : Catalog) : Prop :=
  ∀ f g, comp.Packs catalog f → comp.Packs catalog g → f.name = g.name → f = g

/-- Every flag that takes a bit has a position, and no other flag has the same. -/
def FlagBitsApart (comp : Compilation) (catalog : Catalog) : Prop :=
  ∀ f, comp.Packs catalog f → ∃ position, comp.layout.bit? f.name = some position ∧
    ∀ g, comp.Packs catalog g → comp.layout.bit? g.name = some position → g = f

/-! ## The flags that are packed -/

/-- The boolean variables of the table. -/
def varFlags (comp : Compilation) : List Flag :=
  (comp.contexts.values.filter fun v => v.kind = some .bool).map fun v => .var v.name

/-- The boolean settings of the catalog. -/
def settingFlags (catalog : Catalog) : List Flag :=
  (catalog.settings.entries.filter fun s => s.2.type = .bool).map fun s => .setting s.1

/-- The items of the census that are never needed in quantity. -/
def itemFlags (comp : Compilation) : List Flag :=
  comp.items.booleanItems.map .item

/-- The flags that take a bit, in order. -/
def flags (comp : Compilation) (catalog : Catalog) : List Flag :=
  comp.varFlags ++ settingFlags catalog ++ comp.itemFlags

variable {comp : Compilation} {catalog : Catalog}

theorem map_name_flagEntries (comp : Compilation) (catalog : Catalog) :
    (flagEntries comp.contexts catalog comp.items).map (·.name)
      = (comp.flags catalog).map Flag.name := by
  simp [flagEntries, flags, varFlags, settingFlags, itemFlags, Function.comp_def, Flag.name]

theorem mem_varFlags_iff (h : comp.contexts.Named) {f : Flag} :
    f ∈ comp.varFlags ↔ ∃ name v, comp.contexts.find? name = some v ∧ v.kind = some .bool ∧
      f = .var name := by
  simp only [varFlags, List.mem_map, List.mem_filter, decide_eq_true_eq, Roster.values]
  constructor
  · rintro ⟨v, ⟨⟨⟨name, v⟩, hentry, rfl⟩, hkind⟩, rfl⟩
    have hfind := Roster.find?_eq_some_iff.2 hentry
    exact ⟨name, v, hfind, hkind, congrArg Flag.var (h name v hfind)⟩
  · rintro ⟨name, v, hfind, hkind, rfl⟩
    refine ⟨v, ⟨⟨(name, v), Roster.find?_eq_some_iff.1 hfind, rfl⟩, hkind⟩, ?_⟩
    exact congrArg Flag.var (h name v hfind)

theorem mem_settingFlags_iff {f : Flag} :
    f ∈ settingFlags catalog ↔ ∃ name d, catalog.settings.find? name = some d ∧ d.type = .bool ∧
      f = .setting name := by
  simp only [settingFlags, List.mem_map, List.mem_filter, decide_eq_true_eq]
  constructor
  · rintro ⟨⟨name, d⟩, ⟨hentry, htype⟩, rfl⟩
    exact ⟨name, d, NameMap.find?_eq_some_iff.2 hentry, htype, rfl⟩
  · rintro ⟨name, d, hfind, htype, rfl⟩
    exact ⟨(name, d), ⟨NameMap.find?_eq_some_iff.1 hfind, htype⟩, rfl⟩

theorem mem_itemFlags_iff {f : Flag} :
    f ∈ comp.itemFlags ↔ ∃ name usage, comp.items.find? name = some usage ∧ usage.maxCount = 1 ∧
      f = .item name := by
  simp only [itemFlags, ItemCensus.booleanItems, List.map_map, List.mem_map, List.mem_filter,
    beq_iff_eq]
  constructor
  · rintro ⟨⟨name, usage⟩, ⟨hentry, hcount⟩, rfl⟩
    exact ⟨name, usage, NameMap.find?_eq_some_iff.2 hentry, hcount, rfl⟩
  · rintro ⟨name, usage, hfind, hcount, rfl⟩
    exact ⟨(name, usage), ⟨NameMap.find?_eq_some_iff.1 hfind, hcount⟩, rfl⟩

theorem mem_flags_iff (h : comp.contexts.Named) {f : Flag} :
    f ∈ comp.flags catalog ↔ comp.Packs catalog f := by
  rw [flags, List.mem_append, List.mem_append, mem_varFlags_iff h, mem_settingFlags_iff,
    mem_itemFlags_iff]
  cases f <;> simp [Packs]

theorem nodup_varFlags (h : comp.contexts.Named) : comp.varFlags.Nodup := by
  have hkeys : comp.contexts.values.map (fun v => Flag.var v.name)
      = comp.contexts.keys.map Flag.var := by
    rw [Roster.values, Roster.keys, List.map_map, List.map_map]
    refine List.map_congr_left fun entry hentry => ?_
    exact congrArg Flag.var (h entry.1 entry.2 (Roster.find?_eq_some_iff.2 hentry))
  have hnodup : (comp.contexts.keys.map Flag.var).Nodup :=
    comp.contexts.nodup.map fun a b hab => Flag.var.inj hab
  exact (hkeys ▸ hnodup).sublist (List.filter_sublist.map _)

theorem nodup_settingFlags (catalog : Catalog) : (settingFlags catalog).Nodup := by
  have hnodup : (catalog.settings.keys.map Flag.setting).Nodup :=
    catalog.settings.nodup_keys.map fun a b hab => Flag.setting.inj hab
  rw [NameMap.keys, List.map_map] at hnodup
  exact hnodup.sublist (List.filter_sublist.map _)

theorem nodup_itemFlags (comp : Compilation) : comp.itemFlags.Nodup := by
  have hitems : comp.items.booleanItems.Nodup :=
    comp.items.nodup_keys.sublist (List.filter_sublist.map _)
  exact hitems.map fun a b hab => Flag.item.inj hab

/-- No flag is packed twice: each table has a name once, and the tables hold different flags. -/
theorem nodup_flags (h : comp.contexts.Named) (catalog : Catalog) :
    (comp.flags catalog).Nodup := by
  refine List.nodup_append.2 ⟨List.nodup_append.2 ⟨nodup_varFlags h, nodup_settingFlags catalog,
    fun f hf g hg => ?_⟩, nodup_itemFlags comp, fun f hf g hg => ?_⟩
  · obtain ⟨_, _, -, -, rfl⟩ := (mem_varFlags_iff h).1 hf
    obtain ⟨_, _, -, -, rfl⟩ := mem_settingFlags_iff.1 hg
    exact Flag.noConfusion
  · obtain ⟨_, _, -, -, rfl⟩ := mem_itemFlags_iff.1 hg
    rcases List.mem_append.1 hf with hf | hf
    · obtain ⟨_, _, -, -, rfl⟩ := (mem_varFlags_iff h).1 hf
      exact Flag.noConfusion
    · obtain ⟨_, _, -, -, rfl⟩ := mem_settingFlags_iff.1 hf
      exact Flag.noConfusion

/-- The entries to be packed have different names exactly if the flags do. -/
theorem nodup_map_name_flagEntries_iff (h : comp.contexts.Named) :
    ((flagEntries comp.contexts catalog comp.items).map (·.name)).Nodup ↔
      comp.FlagNamesApart catalog := by
  rw [map_name_flagEntries, List.nodup_map_iff_inj_on (nodup_flags h catalog)]
  simp only [mem_flags_iff h]
  exact ⟨fun hinj f g hf hg => hinj f hf g hg, fun hapart f hf g hg => hapart f g hf hg⟩

/-- The entry of a flag stands somewhere among the entries. -/
theorem exists_entry_of_packs (h : comp.contexts.Named) {f : Flag} (hf : comp.Packs catalog f) :
    ∃ (i : Nat) (e : FlagEntry),
      (flagEntries comp.contexts catalog comp.items)[i]? = some e ∧ e.name = f.name := by
  have hmem : f.name ∈ (flagEntries comp.contexts catalog comp.items).map (·.name) := by
    rw [map_name_flagEntries]
    exact List.mem_map.2 ⟨f, (mem_flags_iff h).2 hf, rfl⟩
  obtain ⟨e, he, hname⟩ := List.mem_map.1 hmem
  obtain ⟨i, hi⟩ := List.mem_iff_getElem?.1 he
  exact ⟨i, e, hi, hname⟩

/-- Flags with different names have different bits, and flags with one name have not. -/
theorem flagBitsApart_iff (h : comp.contexts.Named)
    (hlayout : comp.layout = .pack (flagEntries comp.contexts catalog comp.items)) :
    comp.FlagBitsApart catalog ↔ comp.FlagNamesApart catalog := by
  constructor
  · intro hbits f g hf hg hname
    obtain ⟨position, hposition, hown⟩ := hbits f hf
    exact (hown g hg (hname ▸ hposition)).symm
  · intro hnames f hf
    have hnodup := (nodup_map_name_flagEntries_iff h).2 hnames
    obtain ⟨i, e, hi, hname⟩ := exists_entry_of_packs h hf
    have hbit := FlagLayout.bit?_pack hnodup hi
    refine ⟨_, by rw [hlayout, ← hname, hbit], fun g hg hposition => hnames g f hg hf ?_⟩
    obtain ⟨j, e', hj, hname'⟩ := exists_entry_of_packs h hg
    rw [hlayout, ← hname', FlagLayout.bit?_pack hnodup hj] at hposition
    -- group and bit give the position in the list
    obtain ⟨hgroup, hrest⟩ := Prod.mk.inj (Option.some.inj hposition)
    have hij : j = i := by
      rw [← Nat.div_add_mod j groupWidth, ← Nat.div_add_mod i groupWidth, hrest,
        Nat.succ.inj hgroup]
    subst hij
    rw [← hname', ← hname, Option.some.inj (hi.symm.trans hj)]

end Compilation

/-- In the layout of a compilation each name occurs once, there are as many members as names, and
    every flag has a bit of its own: each of these holds exactly if no boolean variable, boolean
    setting or item that is never needed in quantity has the name of another one. -/
theorem flags_have_own_bits_iff {w : Workspace} {o : CompileOptions} {comp : Compilation}
    (h : (w.compile o).outcome = .ok comp) :
    (comp.layout.members.Nodup ↔ comp.FlagNamesApart w.catalog) ∧
      (comp.layout.members.length = comp.layout.size ↔ comp.FlagNamesApart w.catalog) ∧
      (comp.FlagBitsApart w.catalog ↔ comp.FlagNamesApart w.catalog) := by
  have hcomp : comp.contexts.Named ∧
      comp.layout = .pack (flagEntries comp.contexts w.catalog comp.items) := by
    obtain ⟨-, outputs, -, rfl⟩ := Workspace.compile_eq_ok_iff.1 h
    exact ⟨w.named_contextRun, rfl⟩
  obtain ⟨hnamed, hlayout⟩ := hcomp
  have hmembers : comp.layout.members
      = (flagEntries comp.contexts w.catalog comp.items).map (·.name) := by
    rw [hlayout, FlagLayout.members_pack]
  refine ⟨?_, ?_, Compilation.flagBitsApart_iff hnamed hlayout⟩
  · rw [hmembers, Compilation.nodup_map_name_flagEntries_iff hnamed]
  · rw [hmembers, ← Compilation.nodup_map_name_flagEntries_iff hnamed, ← FlagLayout.size_pack_iff,
      List.length_map, hlayout, eq_comm]

/-- A boolean variable that starts out set, and a boolean setting, without any rules. -/
def lampWorkspace (var setting : String) : Workspace where
  catalog := {
    context := .ofList [(var, { type := some "bool", default := some (.bool true) })]
    settings := .ofList [(setting, { type := .bool })] }
  corpus := {}

theorem lampWorkspace_compiles (var setting : String) :
    ((lampWorkspace var setting).compile {}).outcome = .ok (lampWorkspace var setting).analysed :=
  Workspace.outcome_compile_eq _ _

theorem lamp_bits_apart :
    ((lampWorkspace "lit" "hard").compile {}).outcome
        = .ok (lampWorkspace "lit" "hard").analysed ∧
      (lampWorkspace "lit" "hard").analysed.FlagBitsApart (lampWorkspace "lit" "hard").catalog ∧
      (lampWorkspace "lit" "hard").analysed.layout.bit? "lit" = some (1, 0) ∧
      (lampWorkspace "lit" "hard").analysed.layout.bit? "hard" = some (1, 1) := by
  have hcompiles := lampWorkspace_compiles "lit" "hard"
  obtain ⟨hnodup, -, hbits⟩ := flags_have_own_bits_iff hcompiles
  have hmembers : (lampWorkspace "lit" "hard").analysed.layout.members.Nodup := by
    rw [show (lampWorkspace "lit" "hard").analysed.layout.members = ["lit", "hard"] from rfl]
    decide
  exact ⟨hcompiles, hbits.2 (hnodup.1 hmembers), rfl, rfl⟩

/-- A variable and a setting of one name are packed as two members of one name. -/
theorem lamp_bits_shared :
    ¬ ∀ (w : Workspace) (o : CompileOptions) (comp : Compilation),
      (w.compile o).outcome = .ok comp →
      comp.layout.members.Nodup ∧ comp.layout.members.length = comp.layout.size ∧
        comp.FlagBitsApart w.catalog := by
  intro h
  obtain ⟨hnodup, -, -⟩ := h _ _ _ (lampWorkspace_compiles "lit" "lit")
  rw [show (lampWorkspace "lit" "lit").analysed.layout.members = ["lit", "lit"] from rfl] at hnodup
  exact absurd hnodup (by decide)

end AccessRules
