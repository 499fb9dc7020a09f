import AccessRules.Proofs.Accumulate
import AccessRules.Proofs.Census.Places
import AccessRules.Proofs.Collection.Roster
import AccessRules.Proofs.Expr.Total
import Mathlib.Order.Bounds.Defs

set_option autoImplicit false

/-! # What the census of items holds

`Expr.AsksFor` lists the ways in which a node asks for an item in a quantity, and `Expr.mentions`
counts them. The census has an item exactly if it is declared and some node of some rule asks for
it; it counts all mentions, and the quantity it keeps is the largest that any node asks for, or one.
An item that is not declared is reported once for each rule that mentions it. -/

namespace AccessRules

/-! ## Nodes that ask for items -/

namespace Expr

/-- The node asks for the item in the quantity. A quantity that only a reference gives does not
    count. -/
inductive AsksFor (catalog : Catalog) (item : String) : Int64 → Expr → Prop
  | held : AsksFor catalog item 1 (.hasItem item)
  | literal : AsksFor catalog item 1 (.hasLiteralItem item)
  | listed {names : List String} (h : item ∈ names) : AsksFor catalog item 1 (.items names)
  | member (r : Reference) {names : List String} (h : item ∈ names) :
      AsksFor catalog item 1 (.refInSet r (.items names))
  | equated (r : Reference) (op : CmpOp) : AsksFor catalog item 1 (.refEq r op (.item item))
  | counted (n : Int64) : AsksFor catalog item n (.itemAtLeast item (.count n))
  | bounded {s : String} {d : SettingDecl} {max : Int64} (hs : catalog.settings.find? s = some d)
      (hmax : d.max = some max) : AsksFor catalog item max (.itemAtLeast item (.setting s))
  | unbounded {s : String} (h : ∀ d, catalog.settings.find? s = some d → d.max = none) :
      AsksFor catalog item 1024 (.itemAtLeast item (.setting s))
  | chosen {cases : List (Int64 × Expr)} (d : Expr) {n : Int64} (hn : n ∈ cases.map (·.1))
      (hmax : ∀ m ∈ cases.map (·.1), m ≤ n) : AsksFor catalog item n (.perItem item cases d)

/-- How often the node itself mentions the item in a way that counts. -/
def mentions (item : String) : Expr → Nat
  | .hasItem i => if i = item then 1 else 0
  | .hasLiteralItem i => if i = item then 1 else 0
  | .items names => names.count item
  | .refInSet _ (.items names) => names.count item
  | .refEq _ _ (.item i) => if i = item then 1 else 0
  | .itemAtLeast i (.count _) => if i = item then 1 else 0
  | .itemAtLeast i (.setting _) => if i = item then 1 else 0
  | .perItem i _ _ => if i = item then 1 else 0
  | _ => 0

end Expr

/-! ## Largest quantities -/

/-- The larger of two quantities. -/
def raise (m n : Int64) : Int64 :=
  if m < n then n else m

theorem le_raise_left (m n : Int64) : m ≤ raise m n := by
  unfold raise
  split
  · exact Int64.le_of_lt ‹_›
  · exact Int64.le_refl m

theorem le_raise_right (m n : Int64) : n ≤ raise m n := by
  unfold raise
  split
  · exact Int64.le_refl n
  · exact Int64.not_lt.1 ‹_›

theorem raise_eq_or (m n : Int64) : raise m n = m ∨ raise m n = n := by
  unfold raise
  split
  · exact Or.inr rfl
  · exact Or.inl rfl

theorem isGreatest_foldl_raise (m : Int64) (ns : List Int64) :
    IsGreatest {n | n = m ∨ n ∈ ns} (ns.foldl raise m) := by
  induction ns generalizing m with
  | nil =>
      refine ⟨Or.inl rfl, ?_⟩
      rintro n (rfl | hn)
      · exact Int64.le_refl n
      · cases hn
  | cons k ns ih =>
      obtain ⟨hmem, hmax⟩ := ih (raise m k)
      refine ⟨?_, ?_⟩
      · rcases hmem with hraise | hmem
        · rw [List.foldl_cons, hraise]
          rcases raise_eq_or m k with h | h
          · exact Or.inl h
          · exact Or.inr (List.mem_cons.2 (Or.inl h))
        · exact Or.inr (List.mem_cons_of_mem _ hmem)
      · have hle := hmax (Or.inl rfl)
        rintro n (rfl | hn)
        · exact Int64.le_trans (le_raise_left n k) hle
        · rcases List.mem_cons.1 hn with rfl | hn
          · exact Int64.le_trans (le_raise_right m n) hle
          · exact hmax (Or.inr hn)

theorem isGreatest_largestOrOne {ns : List Int64} (h : ns ≠ []) :
    IsGreatest {n | n ∈ ns} (largestOrOne ns) := by
  cases ns with
  | nil => exact absurd rfl h
  | cons n ns =>
      simp only [List.mem_cons]
      exact isGreatest_foldl_raise n ns

/-! ## What counts in a node -/

namespace Expr

variable {catalog : Catalog} {item : String} {e : Expr}

/-- The items that the node itself mentions, with the quantities that count. -/
def counts (catalog : Catalog) (e : Expr) : List (String × Int64) :=
  (e.demands catalog).filterMap Demand.counted?

theorem filterMap_counted?_names (names : List String) :
    (names.map (Demand.count · 1)).filterMap Demand.counted? = names.map fun name => (name, 1) := by
  rw [List.filterMap_map]
  exact congrFun List.filterMap_eq_map names

theorem countP_names (names : List String) (item : String) :
    (names.map fun name => (name, (1 : Int64))).countP (fun p => p.1 = item)
      = names.count item := by
  rw [List.countP_map, List.count]
  refine List.countP_congr fun name _ => ?_
  simp

/-- A node counts as often as it mentions an item. -/
theorem countP_counts (catalog : Catalog) (item : String) (e : Expr) :
    (e.counts catalog).countP (fun p => p.1 = item) = e.mentions item := by
  unfold counts demands mentions
  split
  all_goals simp only [filterMap_counted?_names, countP_names]
  all_goals simp [Demand.counted?, List.countP_cons]

theorem asksFor_of_mem_names {names : List String} {n : Int64} {e : Expr}
    (he : item ∈ names → e.AsksFor catalog item 1)
    (h : (item, n) ∈ (names.map (Demand.count · 1)).filterMap Demand.counted?) :
    e.AsksFor catalog item n := by
  rw [filterMap_counted?_names] at h
  obtain ⟨name, hname, heq⟩ := List.mem_map.1 h
  obtain ⟨rfl, rfl⟩ := Prod.mk.inj heq
  exact he hname

theorem mem_counts_names {names : List String} (h : item ∈ names) :
    (item, 1) ∈ (names.map (Demand.count · 1)).filterMap Demand.counted? := by
  rw [filterMap_counted?_names]
  exact List.mem_map.2 ⟨item, h, rfl⟩

/-- A quantity set by a setting is the largest value of the setting, if it declares one. -/
theorem asksFor_setting (catalog : Catalog) (item s : String) :
    (itemAtLeast item (.setting s)).AsksFor catalog item
      ((catalog.settings.find? s >>= SettingDecl.max).getD unboundedCount) := by
  cases hs : catalog.settings.find? s with
  | none =>
      refine .unbounded fun d hd => ?_
      rw [hs] at hd
      cases hd
  | some d =>
      show AsksFor catalog item (d.max.getD unboundedCount) _
      cases hmax : d.max with
      | none =>
          refine .unbounded fun d' hd => ?_
          rw [hs] at hd
          rw [← Option.some.inj hd, hmax]
      | some max => exact .bounded hs hmax

theorem asksFor_perItem {cases : List (Int64 × Expr)} {d : Expr}
    (h : (perItem item cases d).shapeFault? = none) :
    (perItem item cases d).AsksFor catalog item (largestOrOne (cases.map (·.1))) := by
  have hcases : cases.map (·.1) ≠ [] := by
    intro hnil
    rw [List.map_eq_nil_iff.1 hnil] at h
    cases h
  obtain ⟨hmem, hmax⟩ := isGreatest_largestOrOne hcases
  exact .chosen d hmem fun m hm => hmax hm

/-- In a node of the right shape, what counts is what the node asks for. -/
theorem mem_counts_iff (h : e.shapeFault? = none) {n : Int64} :
    (item, n) ∈ e.counts catalog ↔ e.AsksFor catalog item n := by
  constructor
  · intro hmem
    unfold counts demands at hmem
    split at hmem
    · obtain ⟨rfl, rfl⟩ := Prod.mk.inj (List.mem_singleton.1 hmem)
      exact .held
    · obtain ⟨rfl, rfl⟩ := Prod.mk.inj (List.mem_singleton.1 hmem)
      exact .literal
    · exact asksFor_of_mem_names .listed hmem
    · exact asksFor_of_mem_names (.member _) hmem
    · obtain ⟨rfl, rfl⟩ := Prod.mk.inj (List.mem_singleton.1 hmem)
      exact .equated _ _
    · obtain ⟨rfl, rfl⟩ := Prod.mk.inj (List.mem_singleton.1 hmem)
      exact .counted _
    · obtain ⟨rfl, rfl⟩ := Prod.mk.inj (List.mem_singleton.1 hmem)
      exact asksFor_setting catalog item _
    · cases hmem
    · obtain ⟨rfl, rfl⟩ := Prod.mk.inj (List.mem_singleton.1 hmem)
      exact asksFor_perItem h
    · cases hmem
  · intro hasks
    cases hasks with
    | held => exact List.mem_singleton_self _
    | literal => exact List.mem_singleton_self _
    | listed hitem => exact mem_counts_names hitem
    | member r hitem => exact mem_counts_names hitem
    | equated r op => exact List.mem_singleton_self _
    | counted n => exact List.mem_singleton_self _
    | bounded hs hmax => simp [counts, demands, Demand.counted?, hs, hmax]
    | unbounded hnone =>
        simp [counts, demands, Demand.counted?, Option.bind_eq_none_iff.2 hnone, unboundedCount]
    | @chosen cases d n hn hmax =>
        obtain ⟨hmem, hgreatest⟩ := isGreatest_largestOrOne (List.ne_nil_of_mem hn)
        rw [Int64.le_antisymm (hgreatest hn) (hmax _ hmem)]
        exact List.mem_singleton_self _

theorem mentions_pos_iff (h : e.shapeFault? = none) :
    0 < e.mentions item ↔ ∃ n, e.AsksFor catalog item n := by
  simp only [← mem_counts_iff h, ← countP_counts catalog, List.countP_pos_iff, decide_eq_true_eq,
    Prod.exists, exists_and_right, exists_eq_right]

end Expr

/-! ## What counts in a corpus -/

namespace Body

/-- A node of the body asks for the item in the quantity. -/
def AsksFor (catalog : Catalog) (item : String) (n : Int64) (b : Body) : Prop :=
  ∃ e, b.HasNode e ∧ e.AsksFor catalog item n

/-- A node of the body mentions the item in a way that counts. -/
def MentionsItem (item : String) (b : Body) : Prop :=
  ∃ e, b.HasNode e ∧ 0 < e.mentions item

end Body

namespace Workspace

variable {w : Workspace} {item : String} {r : Rule}

/-- A rule of the corpus asks for the item in the quantity. -/
def AsksFor (w : Workspace) (item : String) (n : Int64) : Prop :=
  ∃ r ∈ w.corpus.rules.values, r.body.AsksFor w.catalog item n

/-- How often the rules of the corpus mention the item in a way that counts. -/
def mentionCount (w : Workspace) (item : String) : Nat :=
  (w.corpus.rules.values.map fun r => r.body.total (Expr.mentions item)).sum

/-- The items that a rule mentions, with the quantities that count. -/
def counted (w : Workspace) (r : Rule) : List (String × Int64) :=
  r.body.reached.flatMap (Expr.counts w.catalog)

theorem mem_counted_iff (h : r.body.misshapen? = none) {n : Int64} :
    (item, n) ∈ w.counted r ↔ r.body.AsksFor w.catalog item n := by
  have hshape := (Body.shapes h).2
  simp only [counted, List.mem_flatMap, Body.mem_reached_iff (Body.paired_of_shape h)]
  constructor
  · rintro ⟨e, he, hmem⟩
    exact ⟨e, he, (Expr.mem_counts_iff (hshape e he)).1 hmem⟩
  · rintro ⟨e, he, hasks⟩
    exact ⟨e, he, (Expr.mem_counts_iff (hshape e he)).2 hasks⟩

theorem exists_mem_counted_iff (h : r.body.misshapen? = none) :
    (∃ n, (item, n) ∈ w.counted r) ↔ r.body.MentionsItem item := by
  have hshape := (Body.shapes h).2
  simp only [mem_counted_iff h]
  constructor
  · rintro ⟨n, e, he, hasks⟩
    exact ⟨e, he, (Expr.mentions_pos_iff (hshape e he)).2 ⟨n, hasks⟩⟩
  · rintro ⟨e, he, hpos⟩
    obtain ⟨n, hasks⟩ := (Expr.mentions_pos_iff (hshape e he)).1 hpos
    exact ⟨n, e, he, hasks⟩

theorem countP_counted (h : r.body.misshapen? = none) (item : String) :
    (w.counted r).countP (fun p => p.1 = item) = r.body.total (Expr.mentions item) := by
  have hcounts : (List.countP fun p => decide (p.1 = item)) ∘ Expr.counts w.catalog
      = Expr.mentions item := funext (Expr.countP_counts w.catalog item)
  rw [counted, List.countP_flatMap, hcounts, Body.sum_map_reached _ (Body.paired_of_shape h)]

/-! ## The census -/

/-- The quantities in which the rules of a corpus ask for an item, one for each mention. -/
def askedFor (w : Workspace) (item : String) : List Int64 :=
  ((w.corpus.rules.values.flatMap w.counted).filter fun p => p.1 = item).map (·.2)

theorem mem_askedFor_iff (hshape : ∀ r ∈ w.corpus.rules.values, r.body.misshapen? = none)
    {n : Int64} : n ∈ w.askedFor item ↔ w.AsksFor item n := by
  simp only [askedFor, List.mem_map, List.mem_filter, List.mem_flatMap, decide_eq_true_eq]
  constructor
  · rintro ⟨⟨i, n⟩, ⟨⟨r, hr, hmem⟩, rfl⟩, rfl⟩
    exact ⟨r, hr, (mem_counted_iff (hshape r hr)).1 hmem⟩
  · rintro ⟨r, hr, hasks⟩
    exact ⟨(item, n), ⟨⟨r, hr, (mem_counted_iff (hshape r hr)).2 hasks⟩, rfl⟩, rfl⟩

theorem length_askedFor (hshape : ∀ r ∈ w.corpus.rules.values, r.body.misshapen? = none)
    (item : String) : (w.askedFor item).length = w.mentionCount item := by
  rw [askedFor, List.length_map, ← List.countP_eq_length_filter, List.countP_flatMap, mentionCount]
  exact congrArg List.sum (List.map_congr_left fun r hr => countP_counted (hshape r hr) item)

end Workspace

/-- What is held of an item after one more mention. -/
def ItemUsage.take (usage : Option ItemUsage) (n : Int64) : Option ItemUsage :=
  some ⟨(usage.getD ⟨0, 1⟩).uses + 1, raise (usage.getD ⟨0, 1⟩).maxCount n⟩

namespace ItemCensus

/-- A mention of an item together with its quantity. -/
def recordPair (c : ItemCensus) (p : String × Int64) : ItemCensus :=
  c.record p.1 p.2

theorem find?_foldl_recordPair (c : ItemCensus) (ps : List (String × Int64)) (item : String) :
    (ps.foldl recordPair c).find? item
      = ((ps.filter fun p => p.1 = item).map (·.2)).foldl ItemUsage.take (c.find? item) := by
  induction ps generalizing c with
  | nil => rfl
  | cons p ps ih =>
      have hstep : (c.recordPair p).find? item
          = if item = p.1 then ItemUsage.take (c.find? p.1) p.2 else c.find? item :=
        NameMap.find?_alter c p.1 item _
      rw [List.foldl_cons, ih, hstep, List.filter_cons]
      by_cases hitem : item = p.1
      · simp [hitem]
      · simp [hitem, Ne.symm hitem]

end ItemCensus

theorem ItemUsage.foldl_take_some (usage : ItemUsage) (ns : List Int64) :
    ns.foldl take (some usage) = some ⟨usage.uses + ns.length, ns.foldl raise usage.maxCount⟩ := by
  induction ns generalizing usage with
  | nil => rfl
  | cons n ns ih =>
      rw [List.foldl_cons, take, ih, List.length_cons, List.foldl_cons]
      simp only [Option.getD_some, Option.some.injEq, ItemUsage.mk.injEq, and_true]
      omega

theorem ItemUsage.foldl_take_none {ns : List Int64} (h : ns ≠ []) :
    ns.foldl take none = some ⟨ns.length, ns.foldl raise 1⟩ := by
  cases ns with
  | nil => exact absurd rfl h
  | cons n ns =>
      rw [List.foldl_cons, take, foldl_take_some, List.length_cons, List.foldl_cons]
      simp only [Option.getD_none, Option.some.injEq, ItemUsage.mk.injEq, and_true]
      omega

namespace Workspace

variable {w : Workspace} {item : String} {r : Rule}

theorem counted_eq (w : Workspace) (r : Rule) :
    (r.body.nodes.flatMap (Expr.demands w.catalog)).filterMap Demand.counted? = w.counted r := by
  rw [Body.nodes_eq]
  exact List.filterMap_flatMap

theorem countRule_fst (w : Workspace) (c : ItemCensus) (r : Rule) :
    (w.countRule c r).1 = ((w.counted r).filter fun p => w.catalog.items.contains p.1).foldl
      ItemCensus.recordPair c := by
  rw [← counted_eq]
  rfl

/-- The census is taken of all mentions of declared items, rule by rule. -/
theorem countItems_fst (w : Workspace) :
    w.countItems.1 = ((w.corpus.rules.values.flatMap w.counted).filter fun p =>
      w.catalog.items.contains p.1).foldl ItemCensus.recordPair ∅ := by
  rw [List.filter_flatMap]
  exact accumulate_fst_foldl (fun c r => w.countRule_fst c r) ∅ w.corpus.rules.values

theorem find?_countItems (w : Workspace) (item : String) :
    w.countItems.1.find? item = if w.catalog.items.contains item
      then (w.askedFor item).foldl ItemUsage.take none else none := by
  rw [countItems_fst, ItemCensus.find?_foldl_recordPair, List.filter_filter, NameMap.find?_empty]
  by_cases hitem : w.catalog.items.contains item = true
  · rw [if_pos hitem, askedFor]
    congr 2
    refine List.filter_congr fun p _ => ?_
    by_cases hp : p.1 = item
    · simp [hp, hitem]
    · simp [hp]
  · rw [if_neg hitem]
    have hnone : (w.corpus.rules.values.flatMap w.counted).filter
        (fun p => decide (p.1 = item) && w.catalog.items.contains p.1) = [] := by
      refine List.filter_eq_nil_iff.2 fun p _ hp => hitem ?_
      obtain ⟨heq, hcontains⟩ := Bool.and_eq_true_iff.1 hp
      rwa [← of_decide_eq_true heq]
    rw [hnone]
    rfl

/-- The census has an item that is declared and asked for, with all that is asked for it. -/
theorem find?_countItems_eq_some_iff {usage : ItemUsage} :
    w.countItems.1.find? item = some usage ↔ w.catalog.items.contains item = true ∧
      w.askedFor item ≠ [] ∧
      usage = ⟨(w.askedFor item).length, (w.askedFor item).foldl raise 1⟩ := by
  rw [find?_countItems]
  by_cases hitem : w.catalog.items.contains item = true
  · rw [if_pos hitem]
    by_cases hasked : w.askedFor item = []
    · simp [hasked]
    · simp [ItemUsage.foldl_take_none hasked, hitem, hasked, eq_comm]
  · simp [hitem]

/-! ## What is reported -/

/-- What is said about an item that is not declared. -/
def undeclaredProblem (r : Rule) (item : String) : Problem :=
  if r.category = .objective then .undeclaredGoal item else .unknownItem item

/-- The items that a rule mentions and that are not declared, each once. -/
def undeclaredIn (w : Workspace) (r : Rule) : List String :=
  (((w.counted r).filter fun p => !w.catalog.items.contains p.1).map (·.1)).eraseDups

def undeclaredProblems (w : Workspace) (r : Rule) : List Problem :=
  (w.undeclaredIn r).map (undeclaredProblem r)

theorem kind_undeclaredProblem (r : Rule) (item : String) :
    (undeclaredProblem r item).kind = .unknownItem := by
  unfold undeclaredProblem
  split <;> rfl

theorem countRule_snd (w : Workspace) (c : ItemCensus) (r : Rule) :
    (w.countRule c r).2
      = ((r.body.nodes.flatMap (Expr.demands w.catalog)).filterMap Demand.problem?).map
          (Event.problem r.name)
        ++ (w.undeclaredProblems r).map (Event.problem r.name) := by
  rw [undeclaredProblems, undeclaredIn, ← counted_eq, List.map_map]
  rfl

theorem kind_ne_of_problem? {demand : Demand} {p : Problem} (h : demand.problem? = some p) :
    p.kind ≠ .unknownItem := by
  unfold Demand.problem? at h
  split at h
  · obtain rfl := Option.some.inj h
    exact DiagnosticKind.noConfusion
  · obtain rfl := Option.some.inj h
    exact DiagnosticKind.noConfusion
  · cases h

/-- The census reports each item that is not declared once for each rule that mentions it. -/
theorem filter_diagnostics_countItems (w : Workspace) :
    (Event.diagnostics w.countItems.2).filter (·.problem.kind = .unknownItem)
      = w.corpus.diagnosed w.undeclaredProblems := by
  have hevents : Event.diagnostics w.countItems.2
      = Event.diagnostics (accumulate w.countRule ∅ w.corpus.rules.values).2 := by
    show Event.diagnostics (_ ++ [_]) = _
    rw [Event.diagnostics_append, Event.diagnostics_debug, Event.diagnostics_nil, List.append_nil]
  rw [hevents, accumulate_snd_flatMap fun c r => w.countRule_snd c r, Event.diagnostics_flatMap,
    List.filter_flatMap]
  congr
  funext r
  rw [Event.diagnostics_append, Event.diagnostics_problems, Event.diagnostics_problems,
    List.filter_append, List.filter_eq_nil_iff.2, List.filter_eq_self.2, List.nil_append]
  · intro d hd
    obtain ⟨p, hp, rfl⟩ := List.mem_map.1 hd
    obtain ⟨item, -, rfl⟩ := List.mem_map.1 hp
    exact decide_eq_true (kind_undeclaredProblem r item)
  · intro d hd hkind
    obtain ⟨p, hp, rfl⟩ := List.mem_map.1 hd
    obtain ⟨demand, -, hdemand⟩ := List.mem_filterMap.1 hp
    exact kind_ne_of_problem? hdemand (of_decide_eq_true hkind)

/-- A compilation says of undeclared items what the census says. -/
theorem filter_unknownItem_compile (o : CompileOptions)
    (hshape : ∀ r ∈ w.corpus.rules.values, r.body.misshapen? = none) :
    (Event.diagnostics (w.compile o).events).filter (·.problem.kind = .unknownItem)
      = w.corpus.diagnosed w.undeclaredProblems := by
  rw [filter_compile o hshape, ← filter_diagnostics_countItems]
  exact List.append_nil _

theorem mem_undeclaredIn_iff (h : r.body.misshapen? = none) :
    item ∈ w.undeclaredIn r ↔ r.body.MentionsItem item ∧ w.catalog.items.contains item = false := by
  rw [← exists_mem_counted_iff (w := w) h, undeclaredIn, List.mem_eraseDups, List.mem_map]
  simp only [List.mem_filter, Bool.not_eq_true']
  constructor
  · rintro ⟨⟨i, n⟩, ⟨hmem, hitem⟩, rfl⟩
    exact ⟨⟨n, hmem⟩, hitem⟩
  · rintro ⟨⟨n, hmem⟩, hitem⟩
    exact ⟨(item, n), ⟨hmem, hitem⟩, rfl⟩

theorem undeclaredProblem_inj {r : Rule} {a b : String}
    (h : undeclaredProblem r a = undeclaredProblem r b) : a = b := by
  unfold undeclaredProblem at h
  split at h
  · exact Problem.undeclaredGoal.inj h
  · exact Problem.unknownItem.inj h

theorem nodup_undeclaredProblems (w : Workspace) (r : Rule) : (w.undeclaredProblems r).Nodup :=
  (nodup_eraseDups _).map fun _ _ => undeclaredProblem_inj

end Workspace

/-- The item that the problem calls undeclared. -/
def Problem.undeclared? : Problem → Option String
  | .unknownItem item => some item
  | .undeclaredGoal item => some item
  | _ => none

theorem Rule.category_eq_objective_iff {r : Rule} :
    r.category = .objective ↔ r.namespaceName = "objectives" := by
  unfold category
  split
  · rename_i hhelper
    rw [hhelper]
    decide
  · split
    · exact iff_of_true rfl ‹_›
    · exact iff_of_false RuleCategory.noConfusion ‹_›

namespace Workspace

variable {w : Workspace} {item : String} {r : Rule}

theorem undeclared?_undeclaredProblem (r : Rule) (item : String) :
    (undeclaredProblem r item).undeclared? = some item := by
  unfold undeclaredProblem
  split <;> rfl

theorem severity_undeclaredProblem (r : Rule) (item : String) :
    (undeclaredProblem r item).severity
      = if r.namespaceName = "objectives" then .warning else .error := by
  unfold undeclaredProblem
  simp only [Rule.category_eq_objective_iff]
  split <;> rfl

/-- How many diagnostics of a compilation say of a rule that the item is not declared. -/
def undeclaredCount (w : Workspace) (o : CompileOptions) (rule item : String) : Nat :=
  (Event.diagnostics (w.compile o).events).countP fun d =>
    d.problem.kind = .unknownItem && (d.rule = rule && d.problem.undeclared? = some item)

theorem mem_unknownItem_compile_iff (o : CompileOptions)
    (hshape : ∀ r ∈ w.corpus.rules.values, r.body.misshapen? = none) {d : Diagnostic} :
    d ∈ Event.diagnostics (w.compile o).events ∧ d.problem.kind = .unknownItem ↔
      ∃ r ∈ w.corpus.rules.values, ∃ item ∈ w.undeclaredIn r,
        d = ⟨r.name, undeclaredProblem r item⟩ := by
  have hfilter : d ∈ (Event.diagnostics (w.compile o).events).filter
        (·.problem.kind = .unknownItem)
      ↔ d ∈ Event.diagnostics (w.compile o).events ∧ d.problem.kind = .unknownItem := by
    rw [List.mem_filter, decide_eq_true_iff]
  rw [← hfilter, filter_unknownItem_compile o hshape]
  simp [Corpus.diagnosed, undeclaredProblems, eq_comm]

theorem onceIf_undeclaredCount (o : CompileOptions) (hbuilt : w.corpus.Built)
    (hshape : ∀ r ∈ w.corpus.rules.values, r.body.misshapen? = none)
    (hr : r ∈ w.corpus.rules.values) (item : String) :
    OnceIf (w.undeclaredCount o r.name item)
      (r.body.MentionsItem item ∧ w.catalog.items.contains item = false) := by
  have hcount : w.undeclaredCount o r.name item
      = (w.corpus.diagnosed w.undeclaredProblems).count ⟨r.name, undeclaredProblem r item⟩ := by
    rw [← filter_unknownItem_compile o hshape, List.count, List.countP_filter, undeclaredCount]
    refine List.countP_congr fun d hd => ?_
    simp only [Bool.and_eq_true, decide_eq_true_eq, beq_iff_eq]
    constructor
    · rintro ⟨hkind, hrule, hitem⟩
      obtain ⟨r', hr', item', -, rfl⟩ := (mem_unknownItem_compile_iff o hshape).1 ⟨hd, hkind⟩
      obtain rfl := hbuilt.eq_of_name_eq hr' hr hrule
      rw [undeclared?_undeclaredProblem] at hitem
      exact ⟨by rw [Option.some.inj hitem], hkind⟩
    · rintro ⟨rfl, hkind⟩
      exact ⟨hkind, rfl, undeclared?_undeclaredProblem r item⟩
  have hmem : ⟨r.name, undeclaredProblem r item⟩ ∈ w.corpus.diagnosed w.undeclaredProblems
      ↔ r.body.MentionsItem item ∧ w.catalog.items.contains item = false := by
    rw [hbuilt.mem_diagnosed_iff hr, undeclaredProblems,
      List.mem_map_of_injective fun _ _ => undeclaredProblem_inj,
      mem_undeclaredIn_iff (hshape r hr)]
  rw [hcount, ← hmem]
  exact onceIf_count (hbuilt.nodup_diagnosed w.nodup_undeclaredProblems) _

/-- More rules ask for no less. -/
theorem maxCount_mono {catalog : Catalog} {c c' : Corpus}
    (hsub : ∀ r ∈ c.rules.values, r ∈ c'.rules.values) {usage : ItemUsage}
    (h : (⟨catalog, c⟩ : Workspace).countItems.1.find? item = some usage) :
    ∃ usage', (⟨catalog, c'⟩ : Workspace).countItems.1.find? item = some usage' ∧
      usage.maxCount ≤ usage'.maxCount := by
  obtain ⟨hitem, hasked, rfl⟩ := find?_countItems_eq_some_iff.1 h
  have hsubset : (⟨catalog, c⟩ : Workspace).askedFor item
      ⊆ (⟨catalog, c'⟩ : Workspace).askedFor item := by
    intro n hn
    obtain ⟨p, hp, rfl⟩ := List.mem_map.1 hn
    obtain ⟨hmem, hname⟩ := List.mem_filter.1 hp
    obtain ⟨r, hr, hcounted⟩ := List.mem_flatMap.1 hmem
    exact List.mem_map.2 ⟨p, List.mem_filter.2
      ⟨List.mem_flatMap.2 ⟨r, hsub r hr, hcounted⟩, hname⟩, rfl⟩
  have hasked' : (⟨catalog, c'⟩ : Workspace).askedFor item ≠ [] := by
    intro hnil
    rw [hnil] at hsubset
    exact hasked (List.subset_nil.1 hsubset)
  refine ⟨_, find?_countItems_eq_some_iff.2 ⟨hitem, hasked', rfl⟩, ?_⟩
  refine (isGreatest_foldl_raise 1 _).2 ?_
  exact (isGreatest_foldl_raise 1 _).1.imp id fun hmem => hsubset hmem

end Workspace

/-- The census has exactly the declared items that some rule mentions, with the number of their
    mentions and the largest quantity asked for, at least one. An item that is not declared is
    reported once for each rule that mentions it, as a warning for an objective and as an error
    otherwise. With more rules no quantity gets smaller. -/
theorem item_census_exact {w : Workspace} (o : CompileOptions) (hbuilt : w.corpus.Built)
    (hshape : ∀ r ∈ w.corpus.rules.values, r.body.misshapen? = none) (item : String) :
    (w.countItems.1.contains item = true ↔ w.catalog.items.contains item = true ∧
      ∃ r ∈ w.corpus.rules.values, r.body.MentionsItem item) ∧
    (∀ usage, w.countItems.1.find? item = some usage → usage.uses = w.mentionCount item ∧
      IsGreatest {n | n = 1 ∨ w.AsksFor item n} usage.maxCount) ∧
    (∀ r ∈ w.corpus.rules.values, OnceIf (w.undeclaredCount o r.name item)
      (r.body.MentionsItem item ∧ w.catalog.items.contains item = false)) ∧
    (∀ d ∈ Event.diagnostics (w.compile o).events, d.problem.kind = .unknownItem →
      ∃ r ∈ w.corpus.rules.values, d.rule = r.name ∧
        d.severity = if r.namespaceName = "objectives" then .warning else .error) ∧
    ∀ more : Corpus, (∀ r ∈ w.corpus.rules.values, r ∈ more.rules.values) →
      ∀ usage, w.countItems.1.find? item = some usage →
        ∃ usage', (⟨w.catalog, more⟩ : Workspace).countItems.1.find? item = some usage' ∧
          usage.maxCount ≤ usage'.maxCount := by
  have hasked : w.askedFor item ≠ [] ↔ ∃ r ∈ w.corpus.rules.values, r.body.MentionsItem item := by
    constructor
    · intro hne
      obtain ⟨n, hn⟩ := List.exists_mem_of_ne_nil _ hne
      obtain ⟨r, hr, hasks⟩ := (Workspace.mem_askedFor_iff hshape).1 hn
      have hmem := (Workspace.mem_counted_iff (hshape r hr)).2 hasks
      exact ⟨r, hr, (Workspace.exists_mem_counted_iff (hshape r hr)).1 ⟨n, hmem⟩⟩
    · rintro ⟨r, hr, hmentions⟩
      obtain ⟨n, hmem⟩ := (Workspace.exists_mem_counted_iff (w := w) (hshape r hr)).2 hmentions
      have hasks := (Workspace.mem_counted_iff (hshape r hr)).1 hmem
      exact List.ne_nil_of_mem ((Workspace.mem_askedFor_iff hshape).2 ⟨r, hr, hasks⟩)
  refine ⟨?_, fun usage husage => ?_, fun r hr => ?_, fun d hd hkind => ?_,
    fun more hmore usage => ?_⟩
  · rw [← hasked, NameMap.contains, Option.isSome_iff_exists]
    simp only [Workspace.find?_countItems_eq_some_iff]
    constructor
    · rintro ⟨usage, hitem, hne, -⟩
      exact ⟨hitem, hne⟩
    · rintro ⟨hitem, hne⟩
      exact ⟨_, hitem, hne, rfl⟩
  · obtain ⟨-, -, rfl⟩ := Workspace.find?_countItems_eq_some_iff.1 husage
    refine ⟨Workspace.length_askedFor hshape item, ?_⟩
    simp only [← Workspace.mem_askedFor_iff hshape]
    exact isGreatest_foldl_raise 1 _
  · exact Workspace.onceIf_undeclaredCount o hbuilt hshape hr item
  · obtain ⟨r, hr, item', -, rfl⟩ := (Workspace.mem_unknownItem_compile_iff o hshape).1 ⟨hd, hkind⟩
    exact ⟨r, hr, rfl, Workspace.severity_undeclaredProblem r item'⟩
  · exact Workspace.maxCount_mono hmore

/-- A rule that mentions a declared item twice, once in a quantity. -/
def armouryRule : Rule where
  name := "rules:cave"
  body := .requirement (.and (.hasItem "Bomb") (.itemAtLeast "Bomb" (.count 3)))

/-- An objective that mentions an item that is not declared. -/
def crownRule : Rule where
  name := "objectives:win"
  body := .requirement (.hasItem "Crown")

def armoury : Workspace where
  catalog := { items := .ofList ["Bomb"] }
  corpus := { rules := .ofList [("rules:cave", armouryRule), ("objectives:win", crownRule)] }

theorem armoury_built : armoury.corpus.Built := by
  have hrule : Corpus.Built { rules := .ofList [("rules:cave", armouryRule)] } :=
    .rule (r := armouryRule) .empty rfl
  exact .rule (r := crownRule) hrule rfl

theorem armoury_shape : ∀ r ∈ armoury.corpus.rules.values, r.body.misshapen? = none :=
  List.forall_mem_cons.2 ⟨rfl, List.forall_mem_singleton.2 rfl⟩

theorem armoury_counted :
    armoury.corpus.Built ∧ (∀ r ∈ armoury.corpus.rules.values, r.body.misshapen? = none) ∧
      armoury.countItems.1.find? "Bomb" = some ⟨2, 3⟩ ∧ armoury.mentionCount "Bomb" = 2 ∧
      armoury.undeclaredCount {} "objectives:win" "Crown" = 1 := by
  have hbomb : armoury.countItems.1.find? "Bomb" = some ⟨2, 3⟩ := rfl
  obtain ⟨-, husage, -, -, -⟩ := item_census_exact {} armoury_built armoury_shape "Bomb"
  obtain ⟨-, -, hreported, -, -⟩ := item_census_exact {} armoury_built armoury_shape "Crown"
  have hcrown : crownRule ∈ armoury.corpus.rules.values := List.mem_cons_self ..
  refine ⟨armoury_built, armoury_shape, hbomb, (husage _ hbomb).1.symm, ?_⟩
  exact (hreported crownRule hcrown).1 ⟨⟨_, .here, Nat.one_pos⟩, rfl⟩

end AccessRules
