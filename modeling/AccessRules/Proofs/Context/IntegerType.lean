import AccessRules.Proofs.Context.Table
import Mathlib.Data.List.Nodup

set_option autoImplicit false

/-! # Integer types that hold the values of a variable

The integer type of a variable is chosen for its bounds: those of its declaration, widened by every
integer that a rule assigns. So it holds every assigned integer. A declared default is not among the
integers that widen the bounds, and `integer_type_holds_iff` says exactly when the type holds it. -/

namespace AccessRules

/-! ## Integer types -/

/-- An integer type of generated code with the least and the greatest integer that it holds. -/
structure IntegerType where
  name : String
  least : Int
  greatest : Int

namespace IntegerType

/-- The type holds the integer. -/
def Holds (t : IntegerType) (n : Int) : Prop :=
  t.least ≤ n ∧ n ≤ t.greatest

/-- The bounds do not reach beyond those of the type. -/
def Covers (t : IntegerType) (min max : Int) : Prop :=
  t.least ≤ min ∧ max ≤ t.greatest

def u8 : IntegerType := ⟨"u8", 0, 255⟩
def u16 : IntegerType := ⟨"u16", 0, 65535⟩
def u32 : IntegerType := ⟨"u32", 0, 4294967295⟩
def i8 : IntegerType := ⟨"i8", -128, 127⟩
def i16 : IntegerType := ⟨"i16", -32768, 32767⟩
def i32 : IntegerType := ⟨"i32", -2147483648, 2147483647⟩
def i64 : IntegerType := ⟨"i64", -9223372036854775808, 9223372036854775807⟩

def all : List IntegerType := [u8, u16, u32, i8, i16, i32, i64]

/-- The types among which the least bound leaves a choice, from narrow to wide. -/
def candidates (min : Int) : List IntegerType :=
  if 0 ≤ min then [u8, u16, u32, i64] else [i8, i16, i32, i64]

instance (t : IntegerType) (min max : Int) : Decidable (t.Covers min max) :=
  inferInstanceAs (Decidable (_ ∧ _))

theorem i64_covers (min max : Int64) : i64.Covers min.toInt max.toInt := by
  have hmin := min.le_toInt
  have hmax := max.toInt_lt
  constructor <;> simp only [i64] <;> omega

/-- What holds the first also holds the second. -/
def Narrower (s t : IntegerType) : Prop :=
  t.least ≤ s.least ∧ s.greatest ≤ t.greatest

theorem Holds.of_narrower {s t : IntegerType} {n : Int} (h : s.Holds n) (hst : s.Narrower t) :
    t.Holds n :=
  ⟨Int.le_trans hst.1 h.1, Int.le_trans h.2 hst.2⟩

theorem narrower_candidates (min : Int) : (candidates min).Pairwise Narrower := by
  unfold candidates
  split <;> simp [Narrower, u8, u16, u32, i8, i16, i32, i64]

theorem candidates_subset (min : Int) : candidates min ⊆ all := by
  unfold candidates all
  split <;> simp

end IntegerType

open IntegerType

/-- The name is that of an integer type which holds the integer. -/
def Represents (type : String) (n : Int) : Prop :=
  ∃ t ∈ IntegerType.all, t.name = type ∧ t.Holds n

/-- An integer type is the only one of its name. -/
theorem represents_name {t : IntegerType} (ht : t ∈ IntegerType.all) (n : Int) :
    Represents t.name n ↔ t.Holds n := by
  refine ⟨?_, fun h => ⟨t, ht, rfl, h⟩⟩
  rintro ⟨t', ht', hname, h⟩
  have hnodup : (IntegerType.all.map IntegerType.name).Nodup := by decide
  exact List.inj_on_of_nodup_map hnodup ht' ht hname ▸ h

/-- The type for bounds is the first candidate that covers them. -/
theorem find?_candidates (min max : Int) (h : i64.Covers min max) :
    ((candidates min).find? fun t => decide (t.Covers min max)).map IntegerType.name
      = some (integerType min max) := by
  have hlong : -9223372036854775808 ≤ min ∧ max ≤ 9223372036854775807 := h
  by_cases hmin : 0 ≤ min
  · by_cases h8 : max ≤ 255
    · simp [candidates, integerType, Covers, u8, hmin, h8]
    by_cases h16 : max ≤ 65535
    · simp [candidates, integerType, Covers, u8, u16, hmin, h8, h16]
    by_cases h32 : max ≤ 4294967295
    · simp [candidates, integerType, Covers, u8, u16, u32, hmin, h8, h16, h32]
    · simp [candidates, integerType, Covers, u8, u16, u32, i64, hmin, h8, h16, h32, hlong]
  · by_cases h8 : -128 ≤ min ∧ max ≤ 127
    · simp [candidates, integerType, Covers, i8, hmin, h8]
    by_cases h16 : -32768 ≤ min ∧ max ≤ 32767
    · simp [candidates, integerType, Covers, i8, i16, hmin, h8, h16]
    by_cases h32 : -2147483648 ≤ min ∧ max ≤ 2147483647
    · simp [candidates, integerType, Covers, i8, i16, i32, hmin, h8, h16, h32]
    · simp [candidates, integerType, Covers, i8, i16, i32, i64, hmin, h8, h16, h32, hlong]

/-- The type that is chosen for bounds is the narrowest candidate that covers them: it holds what
    all of those hold. -/
theorem represents_integerType_iff {min max : Int} (h : i64.Covers min max) (n : Int) :
    Represents (integerType min max) n ↔ ∀ t ∈ candidates min, t.Covers min max → t.Holds n := by
  obtain ⟨t, hfind, hname⟩ := Option.map_eq_some_iff.1 (find?_candidates min max h)
  have hmem := List.mem_of_find?_eq_some hfind
  have hcovers : t.Covers min max := by simpa using List.find?_some hfind
  rw [← hname, represents_name (candidates_subset min hmem)]
  refine ⟨fun hn s hs hs' => ?_, fun hall => hall t hmem hcovers⟩
  obtain ⟨_, before, after, hsplit, hbefore⟩ := List.find?_eq_some_iff_append.1 hfind
  rw [hsplit] at hs
  rcases List.mem_append.1 hs with hs | hs
  · simpa [hs'] using hbefore s hs
  · rcases List.mem_cons.1 hs with rfl | hs
    · exact hn
    · have hpairwise := narrower_candidates min
      rw [hsplit] at hpairwise
      have hnarrower := (List.pairwise_cons.1 (List.pairwise_append.1 hpairwise).2.1).1 s hs
      exact hn.of_narrower hnarrower

/-- The integer fits the narrowest type for the bounds; without an upper bound that is one of 32
    bits. -/
def FitsBounds (min max : Option Int) (n : Int) : Prop :=
  match max with
  | none => i32.Holds n
  | some max => ∀ t ∈ candidates (min.getD 0), t.Covers (min.getD 0) max → t.Holds n

theorem fitsBounds_of_le {min max n : Int} (hmin : min ≤ n) (hmax : n ≤ max) :
    FitsBounds (some min) (some max) n :=
  fun _ _ hcovers => ⟨Int.le_trans hcovers.1 hmin, Int.le_trans hmax hcovers.2⟩

theorem ContextVar.represents_repr_iff {v : ContextVar}
    (hkind : v.kind = none ∨ v.kind = some .int) (n : Int) :
    Represents v.repr n ↔ FitsBounds (v.min.map Int64.toInt) (v.max.map Int64.toInt) n := by
  cases hmax : v.max with
  | none =>
      have hrepr : v.repr = i32.name := by
        rcases hkind with hkind | hkind <;> simp [ContextVar.repr, hkind, hmax, i32]
      rw [hrepr, represents_name (by simp [IntegerType.all])]
      rfl
  | some max =>
      have hrepr : v.repr = integerType ((v.min.map Int64.toInt).getD 0) max.toInt := by
        rcases hkind with hkind | hkind <;> simp [ContextVar.repr, hkind, hmax]
      have hcovers : i64.Covers ((v.min.map Int64.toInt).getD 0) max.toInt := by
        cases v.min with
        | none => exact i64_covers 0 max
        | some min => exact i64_covers min max
      rw [hrepr, represents_integerType_iff hcovers]
      rfl

/-! ## Bounds of the assigned integers -/

def Literal.int? : Literal → Option Int
  | .int n => some n.toInt
  | _ => none

/-- The integer that a use assigns to a variable. -/
def Use.assignedInt? (u : Use) (var : String) : Option Int :=
  (u.assigned? var).bind Literal.int?

namespace Holdings

/-- The result of an operation over all of some integers, if there are any. -/
def overall (f : Int → Int → Int) : List Int → Option Int
  | [] => none
  | n :: ns => some (ns.foldl f n)

/-- A bound that takes in integers by an operation, and no other literals, ends as the operation
    over all of them. -/
theorem foldl_widen {outer : Int64 → Int64 → Int64} {f : Int → Int → Int}
    (hf : ∀ m n, (outer m n).toInt = f m.toInt n.toInt) (lits : List Literal)
    (bound : Option Int64) :
    (lits.foldl (fun bound lit => lit.widen outer bound) bound).map Int64.toInt
      = overall f ((bound.map Int64.toInt).toList ++ lits.filterMap Literal.int?) := by
  induction lits generalizing bound with
  | nil => cases bound <;> rfl
  | cons lit lits ih =>
      rw [List.foldl_cons, ih]
      cases lit with
      | int n =>
          have hints : (Literal.int n :: lits).filterMap Literal.int?
              = n.toInt :: lits.filterMap Literal.int? := rfl
          rw [hints]
          cases bound with
          | none => rfl
          | some m =>
              rw [Literal.widen, widenBound, Option.elim_some, Option.map_some, hf]
              rfl
      | _ => rfl

theorem min_foldl_take (lits : List Literal) (h : Holdings) :
    (lits.foldl take h).min.map Int64.toInt
      = ((h.min.map Int64.toInt).toList ++ lits.filterMap Literal.int?).min? := by
  have hmin : ∀ ns : List Int, ns.min? = overall Min.min ns := by rintro (_ | _) <;> rfl
  have htake : (lits.foldl take h).min
      = lits.foldl (fun bound lit => lit.widen Min.min bound) h.min :=
    (List.foldl_hom Holdings.min fun _ _ => rfl).symm
  rw [htake, hmin]
  exact foldl_widen toInt_min lits h.min

theorem max_foldl_take (lits : List Literal) (h : Holdings) :
    (lits.foldl take h).max.map Int64.toInt
      = ((h.max.map Int64.toInt).toList ++ lits.filterMap Literal.int?).max? := by
  have hmax : ∀ ns : List Int, ns.max? = overall Max.max ns := by rintro (_ | _) <;> rfl
  have htake : (lits.foldl take h).max
      = lits.foldl (fun bound lit => lit.widen Max.max bound) h.max :=
    (List.foldl_hom Holdings.max fun _ _ => rfl).symm
  rw [htake, hmax]
  exact foldl_widen toInt_max lits h.max

theorem default_foldl_take (lits : List Literal) (h : Holdings) :
    (lits.foldl take h).default = h.default.or lits.head? := by
  induction lits generalizing h with
  | nil => simp
  | cons lit lits ih =>
      rw [List.foldl_cons, ih]
      have htake : (h.take lit).default = h.default.or (some lit) := by
        cases lit <;> simp [take]
      rw [htake]
      cases h.default <;> rfl

theorem declaredDefault_foldl_take (lits : List Literal) (h : Holdings) :
    (lits.foldl take h).declaredDefault = h.declaredDefault := by
  induction lits generalizing h with
  | nil => rfl
  | cons lit lits ih =>
      rw [List.foldl_cons, ih]
      cases lit <;> rfl

end Holdings

namespace Workspace

/-- The integer that an action of a rule assigns to a variable. -/
def assignedInt? (w : Workspace) (r : Rule) (var : String) : Action → Option Int
  | .set target (.int n) => if w.target? r target = some var then some n.toInt else none
  | _ => none

/-- The integers that the rules of the corpus assign to a variable, in order. -/
def assignedInts (w : Workspace) (var : String) : List Int :=
  w.corpus.rules.values.flatMap fun r => r.body.actionsInOrder.filterMap (w.assignedInt? r var)

/-- The least of the declared lower bound and the assigned integers. -/
def lowerBound (w : Workspace) (var : String) : Option Int :=
  let declared := w.catalog.context.find? var >>= ContextDecl.min
  ((declared.map Int64.toInt).toList ++ w.assignedInts var).min?

/-- The greatest of the declared upper bound and the assigned integers. -/
def upperBound (w : Workspace) (var : String) : Option Int :=
  let declared := w.catalog.context.find? var >>= ContextDecl.max
  ((declared.map Int64.toInt).toList ++ w.assignedInts var).max?

theorem assigned?_of_mem_mentions {w : Workspace} {r : Rule} {u : Use} (hu : u ∈ w.mentions r)
    (var : String) : u.assigned? var = none := by
  obtain ⟨path, _, hpath⟩ := List.mem_filterMap.1 hu
  split at hpath
  · cases hpath
  · obtain rfl := Option.some.inj hpath
    rfl

theorem assigned?_of_mem_comparisonUse {w : Workspace} {r : Rule} {side other : Expr} {u : Use}
    (hu : u ∈ w.comparisonUse r side other) (var : String) : u.assigned? var = none := by
  unfold comparisonUse at hu
  split at hu
  · split at hu
    · obtain rfl := List.mem_singleton.1 hu
      rfl
    · obtain rfl := List.mem_singleton.1 hu
      rfl
    · cases hu
  · cases hu

/-- Expressions show kinds and assign nothing. -/
theorem assigned?_of_mem_exprUses {w : Workspace} {r : Rule} {e : Expr} {u : Use}
    (hu : u ∈ w.exprUses r e) (var : String) : u.assigned? var = none := by
  unfold exprUses at hu
  split at hu
  · rcases List.mem_append.1 hu with hu | hu
    · exact assigned?_of_mem_comparisonUse hu var
    · exact assigned?_of_mem_comparisonUse hu var
  · obtain ⟨v, _, hu⟩ := List.mem_flatMap.1 hu
    obtain ⟨kind, _, rfl⟩ := List.mem_map.1 hu
    rfl
  · obtain ⟨v, _, rfl⟩ := List.mem_map.1 hu
    rfl
  · obtain ⟨v, _, hu⟩ := List.mem_flatMap.1 hu
    obtain ⟨kind, _, rfl⟩ := List.mem_map.1 hu
    rfl
  · cases hu

theorem assignedInt?_assignmentUses (w : Workspace) (r : Rule) (v var : String) (value : Expr) :
    (w.assignmentUses r v value).filterMap (Use.assignedInt? · var)
      = if v = var then (value.literal?.bind Literal.int?).toList else [] := by
  unfold assignmentUses
  split
  · rename_i lit hlit
    by_cases hv : v = var
    · cases h : lit.int? <;> simp [Use.assignedInt?, Use.assigned?, hv, hlit, h]
    · simp [Use.assignedInt?, Use.assigned?, hv]
  · simp [Expr.literal?, Use.assignedInt?, Use.assigned?]
  · rename_i _ hlit
    simp [hlit]

theorem assignedInt?_actionUses (w : Workspace) (r : Rule) (var : String) (a : Action) :
    (w.actionUses r a).filterMap (Use.assignedInt? · var) = (w.assignedInt? r var a).toList := by
  cases a with
  | set target value =>
      have hset : w.assignedInt? r var (.set target value)
          = if w.target? r target = some var then value.literal?.bind Literal.int? else none := by
        cases value <;> simp [assignedInt?, Expr.literal?, Literal.int?]
      rw [hset]
      cases htarget : w.target? r target with
      | none => simp [actionUses, htarget]
      | some v =>
          simp only [actionUses, htarget, Option.toList_some, List.flatMap_singleton,
            assignedInt?_assignmentUses, Option.some.injEq]
          split <;> rfl
  | alter target op delta =>
      cases htarget : w.target? r target with
      | none => simp [actionUses, htarget, assignedInt?]
      | some v => simp [actionUses, htarget, assignedInt?, Use.assignedInt?, Use.assigned?]
  | swap first second =>
      cases hfirst : w.target? r first with
      | none => simp [actionUses, hfirst, assignedInt?]
      | some a =>
          cases hsecond : w.target? r second <;>
            simp [actionUses, hfirst, hsecond, assignedInt?, Use.assignedInt?, Use.assigned?]
  | cond conds branches otherwise => rfl
  | call func args => rfl
  | sequence steps => rfl

theorem filterMap_assignedLiterals (w : Workspace) (var : String) :
    (w.assignedLiterals var).filterMap Literal.int? = w.assignedInts var := by
  unfold assignedLiterals assignedInts
  rw [List.filterMap_filterMap, List.filterMap_flatMap]
  refine List.flatMap_congr fun r _ => ?_
  have hsilent : ∀ us : List Use, (∀ u ∈ us, u.assigned? var = none) →
      us.filterMap (Use.assignedInt? · var) = [] := by
    intro us hus
    refine List.filterMap_eq_nil_iff.2 fun u hu => ?_
    rw [Use.assignedInt?, hus u hu]
    rfl
  have hexprs : ∀ u ∈ r.body.reached.flatMap (w.exprUses r), u.assigned? var = none := by
    intro u hu
    obtain ⟨e, _, hu⟩ := List.mem_flatMap.1 hu
    exact assigned?_of_mem_exprUses hu var
  have hacts : ∀ acts : List Action,
      (acts.flatMap (w.actionUses r)).filterMap (Use.assignedInt? · var)
        = acts.filterMap (w.assignedInt? r var) := by
    intro acts
    rw [List.filterMap_flatMap, List.filterMap_eq_flatMap_toList]
    exact List.flatMap_congr fun a _ => assignedInt?_actionUses w r var a
  calc (w.namedUses r).filterMap (fun u => (u.2.assigned? var).bind Literal.int?)
      = (w.uses r).filterMap (Use.assignedInt? · var) := List.filterMap_map ..
    _ = r.body.actionsInOrder.filterMap (w.assignedInt? r var) := by
      rw [uses_eq, List.filterMap_append, List.filterMap_append,
        hsilent _ fun u hu => assigned?_of_mem_mentions hu var, hsilent _ hexprs, hacts]
      rfl

theorem min_contextRun (w : Workspace) (var : String) :
    (w.contextRun.1.holdings var).min.map Int64.toInt = w.lowerBound var := by
  rw [holdings_contextRun, Holdings.min_foldl_take, filterMap_assignedLiterals, lowerBound,
    ContextTable.holdings, ContextTable.find?_ofCatalog]
  cases w.catalog.context.find? var <;> rfl

theorem max_contextRun (w : Workspace) (var : String) :
    (w.contextRun.1.holdings var).max.map Int64.toInt = w.upperBound var := by
  rw [holdings_contextRun, Holdings.max_foldl_take, filterMap_assignedLiterals, upperBound,
    ContextTable.holdings, ContextTable.find?_ofCatalog]
  cases w.catalog.context.find? var <;> rfl

/-- An integer default that is not declared is one of the assigned integers. -/
theorem default_contextRun {w : Workspace} {var : String} {n : Int64}
    (hdefault : (w.contextRun.1.holdings var).default = some (.int n))
    (hdeclared : (w.contextRun.1.holdings var).declaredDefault = none) :
    n.toInt ∈ w.assignedInts var := by
  let start := (ContextTable.ofCatalog w.catalog).1.holdings var
  have hstart : start.default = start.declaredDefault := by
    simp only [start, ContextTable.holdings, ContextTable.find?_ofCatalog]
    cases w.catalog.context.find? var <;> rfl
  rw [holdings_contextRun, Holdings.declaredDefault_foldl_take] at hdeclared
  rw [holdings_contextRun, Holdings.default_foldl_take, show _ = none from hstart.trans hdeclared,
    Option.none_or] at hdefault
  rw [← filterMap_assignedLiterals]
  exact List.mem_filterMap.2 ⟨_, List.mem_of_head? hdefault, rfl⟩

theorem fitsBounds_of_mem_assignedInts {w : Workspace} {var : String} {n : Int}
    (h : n ∈ w.assignedInts var) : FitsBounds (w.lowerBound var) (w.upperBound var) n := by
  have hne : ∀ declared : Option Int, declared.toList ++ w.assignedInts var ≠ [] := by
    intro declared hnil
    exact List.ne_nil_of_mem h (List.append_eq_nil_iff.1 hnil).2
  cases hlower : w.lowerBound var with
  | none => exact absurd (List.min?_eq_none_iff.1 hlower) (hne _)
  | some lower =>
      cases hupper : w.upperBound var with
      | none => exact absurd (List.max?_eq_none_iff.1 hupper) (hne _)
      | some upper =>
          exact fitsBounds_of_le ((List.min?_eq_some_iff.1 hlower).2 n (List.mem_append_right _ h))
            ((List.max?_eq_some_iff.1 hupper).2 n (List.mem_append_right _ h))

end Workspace

/-- The integer type of a variable holds every integer that a rule assigns to it. It holds an
    integer default exactly if that is one of those, or fits the narrowest type for the declared
    bounds and the assigned integers. -/
theorem integer_type_holds_iff (w : Workspace) {var : String} {v : ContextVar}
    (hv : w.contextRun.1.find? var = some v) (hkind : v.kind = none ∨ v.kind = some .int) :
    (∀ n ∈ w.assignedInts var, Represents v.repr n) ∧
    ∀ n : Int64, v.default = some (.int n) →
      (Represents v.repr n.toInt ↔
        v.declaredDefault = none ∨ FitsBounds (w.lowerBound var) (w.upperBound var) n.toInt) := by
  have hholdings : w.contextRun.1.holdings var = v.holdings := by
    simp [ContextTable.holdings, hv]
  have hrepr : ∀ n, Represents v.repr n ↔ FitsBounds (w.lowerBound var) (w.upperBound var) n := by
    intro n
    rw [ContextVar.represents_repr_iff hkind, ← Workspace.min_contextRun,
      ← Workspace.max_contextRun, hholdings]
    rfl
  refine ⟨fun n hn => (hrepr n).2 (Workspace.fitsBounds_of_mem_assignedInts hn), ?_⟩
  intro n hdefault
  rw [hrepr]
  refine ⟨Or.inr, ?_⟩
  rintro (hdeclared | hfits)
  · refine Workspace.fitsBounds_of_mem_assignedInts (Workspace.default_contextRun ?_ ?_)
    · rw [hholdings]
      exact hdefault
    · rw [hholdings]
      exact hdeclared
  · exact hfits

/-- An integer with a declared default and assigned integers on both sides of it. -/
def chargeLedger : Workspace :=
  ledger [("charge", { type := some "int", default := some (.num (.int 300)) })]
    [.set { name := "charge" } (.int 5), .set { name := "charge" } (.int 1000)]

theorem chargeLedger_holds_default :
    ∃ v, chargeLedger.contextRun.1.find? "charge" = some v ∧ v.kind = some .int ∧ v.repr = "u16" ∧
      (∀ n ∈ [5, 1000], Represents v.repr n) ∧ v.default = some (.int 300) ∧
      Represents v.repr 300 := by
  have hv : chargeLedger.contextRun.1.find? "charge" = some _ := rfl
  have hints : chargeLedger.assignedInts "charge" = [5, 1000] := by
    rw [← Workspace.filterMap_assignedLiterals]
    rfl
  obtain ⟨hassigned, hdefault⟩ := integer_type_holds_iff chargeLedger hv (Or.inr rfl)
  rw [hints] at hassigned
  refine ⟨_, hv, rfl, rfl, hassigned, rfl, (hdefault 300 rfl).2 (Or.inr ?_)⟩
  rw [Workspace.lowerBound, Workspace.upperBound, hints]
  exact (fitsBounds_of_le (by decide) (by decide) : FitsBounds (some 5) (some 1000) 300)

/-- An integer whose declared default lies outside what is assigned to it. -/
def healLedger : Workspace :=
  ledger [("hp", { type := some "int", default := some (.num (.int 300)) })]
    [.set { name := "hp" } (.int 1)]

/-- The type of a variable may be too narrow for its default. -/
theorem healLedger_loses_default :
    ¬ ∀ (w : Workspace) (var : String) (v : ContextVar) (n : Int64),
      w.contextRun.1.find? var = some v → v.kind = none ∨ v.kind = some .int →
      v.default = some (.int n) → Represents v.repr n.toInt := by
  intro h
  have hholds : Represents IntegerType.u8.name 300 := h healLedger "hp" _ 300 rfl (Or.inr rfl) rfl
  have hle := ((represents_name (by simp [IntegerType.all]) 300).1 hholds).2
  exact absurd hle (by decide)

end AccessRules
