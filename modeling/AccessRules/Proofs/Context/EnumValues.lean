import AccessRules.Proofs.Context.IntegerType
import AccessRules.Proofs.Context.RuleOrder

set_option autoImplicit false

/-! # The strings of an enumeration

An enumeration has the strings that its variable is assigned, so generated code can name all of
them. A string may be assigned by itself, or as a possible result of an expression: inside
parentheses, in a branch, or as a case of a choice (`Expr.MayGive`). The table collects only strings
that are assigned by themselves, anywhere in any rule, and a declared default. A variable has every
string that it may take exactly if each of them is among those: `enum_values_complete_iff`. -/

namespace AccessRules

/-! ## Possible results -/

namespace Expr

/-- The expressions directly below a node whose value may be the value of the node. -/
def outlets : Expr → List Expr
  | .paren e => [e]
  | .ternary _ y n => [y, n]
  | .ifThenElse _ branches otherwise => branches ++ otherwise.toList
  | .perItem _ cases d => cases.map (·.2) ++ [d]
  | .perSetting _ cases d => cases.map (·.2) ++ [d]
  | _ => []

/-- The string is a possible result of the expression. -/
inductive MayGive (s : String) : Expr → Prop
  | here : MayGive s (.str s)
  | via {c e : Expr} (hc : c ∈ e.outlets) (h : MayGive s c) : MayGive s e

theorem mayGive_iff {s : String} {e : Expr} :
    e.MayGive s ↔ e = .str s ∨ ∃ c ∈ e.outlets, c.MayGive s := by
  constructor
  · intro h
    cases h with
    | here => exact Or.inl rfl
    | via hc h => exact Or.inr ⟨_, hc, h⟩
  · rintro (rfl | ⟨c, hc, h⟩)
    · exact .here
    · exact .via hc h

end Expr

namespace Workspace

variable (w : Workspace) (var s : String)

/-- Some action of the corpus assigns to the variable an expression that may give the string. -/
def MayTake : Prop :=
  ∃ r ∈ w.corpus.rules.values, ∃ target value, r.body.HasAction (.set target value) ∧
    w.target? r target = some var ∧ value.MayGive s

/-- Some action of the corpus assigns the string itself to the variable. -/
def Takes : Prop :=
  ∃ r ∈ w.corpus.rules.values, ∃ target, r.body.HasAction (.set target (.str s)) ∧
    w.target? r target = some var

/-- The variable is declared as an enumeration with the string as its default. -/
def DeclaresText : Prop :=
  ∃ decl, w.catalog.context.find? var = some decl ∧ decl.IsEnum ∧
    decl.default.bind Literal.ofJson? = some (.str s)

end Workspace

/-! ## Strings that a table collects -/

/-- What an addition does to the strings of a variable. -/
def Addition.joinTo (values : NameSet) : Addition → NameSet
  | .literal lit _ => lit.joinTo values
  | .source _ _ => values

theorem ContextVar.view_values : View values Addition.joinTo where
  kind _ _ := rfl
  literal _ lit _ := by cases lit <;> rfl
  source _ _ _ := rfl

theorem mem_foldl_joinTo {s : String} (as : List Addition) (values : NameSet) :
    s ∈ NameSet.toList (as.foldl Addition.joinTo values) ↔
      s ∈ NameSet.toList values ∨ ∃ rule, .literal (.str s) rule ∈ as := by
  induction as generalizing values with
  | nil => simp
  | cons a as ih =>
      have hstep : s ∈ NameSet.toList (a.joinTo values) ↔
          s ∈ NameSet.toList values ∨ ∃ rule, .literal (.str s) rule = a := by
        cases a with
        | literal lit rule =>
            cases lit with
            | str t =>
                rw [Addition.joinTo, Literal.joinTo, NameSet.mem_toList_add, or_comm]
                simp [eq_comm]
            | _ => simp [Addition.joinTo, Literal.joinTo]
        | source var rule => simp [Addition.joinTo]
      rw [List.foldl_cons, ih, hstep, or_assoc, ← exists_or]
      simp only [List.mem_cons]

theorem Use.literal_mem_additions {u : Use} {rule rule' var : String} {lit : Literal} :
    .literal lit rule' ∈ u.additions rule var ↔ u.assigned? var = some lit ∧ rule' = rule := by
  cases u with
  | assign v lit' =>
      by_cases hv : v = var
      · simp [additions, assigned?, hv, eq_comm]
      · simp [additions, assigned?, hv]
  | copy v source => simp [additions, assigned?]
  | swap a b => simp [additions, assigned?]
  | _ => simp [additions, assigned?]

namespace Workspace

variable {w : Workspace} {r : Rule} {var s : String} {lit : Literal}

/-- Of all actions only an assignment of a literal assigns a literal. -/
theorem exists_assigned?_actionUses_iff {a : Action} :
    (∃ u ∈ w.actionUses r a, u.assigned? var = some lit) ↔
      ∃ target value, a = .set target value ∧ w.target? r target = some var ∧
        value.literal? = some lit := by
  cases a with
  | set target value =>
      simp only [actionUses, List.mem_flatMap, Option.mem_toList]
      constructor
      · rintro ⟨u, ⟨v, hv, hu⟩, hlit⟩
        unfold assignmentUses at hu
        split at hu
        · rename_i lit' hliteral
          obtain rfl := List.mem_singleton.1 hu
          simp only [Use.assigned?, Option.ite_none_right_eq_some, Option.some.injEq] at hlit
          obtain ⟨rfl, rfl⟩ := hlit
          exact ⟨target, _, rfl, hv, hliteral⟩
        · obtain ⟨source, -, rfl⟩ := List.mem_map.1 hu
          cases hlit
        · cases hu
      · rintro ⟨target', value', heq, htarget, hliteral⟩
        obtain ⟨rfl, rfl⟩ := Action.set.inj heq
        refine ⟨.assign var lit, ⟨var, htarget, ?_⟩, if_pos rfl⟩
        simp [assignmentUses, hliteral]
  | alter target op delta =>
      simp only [actionUses, List.mem_map]
      constructor
      · rintro ⟨u, ⟨v, -, rfl⟩, hlit⟩
        cases hlit
      · rintro ⟨_, _, heq, _⟩
        cases heq
  | swap first second =>
      constructor
      · rintro ⟨u, hu, hlit⟩
        simp only [actionUses] at hu
        split at hu
        · obtain rfl := List.mem_singleton.1 hu
          cases hlit
        · cases hu
      · rintro ⟨_, _, heq, _⟩
        cases heq
  | _ => simp [actionUses]

theorem exists_assigned?_uses_iff :
    (∃ u ∈ w.uses r, u.assigned? var = some lit) ↔
      ∃ target value, r.body.HasAction (.set target value) ∧ w.target? r target = some var ∧
        value.literal? = some lit := by
  constructor
  · rintro ⟨u, hu, hlit⟩
    rw [uses, List.mem_append, List.mem_append] at hu
    rcases hu with (hu | hu) | hu
    · rw [assigned?_of_mem_mentions hu var] at hlit
      cases hlit
    · obtain ⟨e, -, hu⟩ := List.mem_flatMap.1 hu
      rw [assigned?_of_mem_exprUses hu var] at hlit
      cases hlit
    · obtain ⟨a, ha, hu⟩ := List.mem_flatMap.1 hu
      obtain ⟨target, value, rfl, hset⟩ := exists_assigned?_actionUses_iff.1 ⟨u, hu, hlit⟩
      exact ⟨target, value, Body.mem_actionNodes_iff.1 ha, hset⟩
  · rintro ⟨target, value, ha, hset⟩
    obtain ⟨u, hu, hlit⟩ := exists_assigned?_actionUses_iff.2 ⟨target, value, rfl, hset⟩
    refine ⟨u, List.mem_append_right _ (List.mem_flatMap.2 ⟨_, ?_, hu⟩), hlit⟩
    exact Body.mem_actionNodes_iff.2 ha

/-- The strings of a variable in the table of the corpus are those it has in the table of the
    catalog and those that actions assign. -/
theorem mem_values_contextRun :
    s ∈ NameSet.toList (w.contextRun.1.var var).values ↔
      s ∈ NameSet.toList ((ContextTable.ofCatalog w.catalog).1.var var).values ∨
        w.Takes var s := by
  have hstr : ∀ e : Expr, e.literal? = some (.str s) ↔ e = .str s := by
    intro e
    cases e <;> simp [Expr.literal?]
  rw [contextRun, resolveContext, accumulate_resolveRule_fst, ContextVar.view_values.recordAll,
    mem_foldl_joinTo]
  refine or_congr_right ?_
  simp only [List.mem_flatMap, Use.literal_mem_additions, namedUses, List.mem_map]
  constructor
  · rintro ⟨_, _, ⟨r, hr, u, hu, rfl⟩, hlit, rfl⟩
    obtain ⟨target, value, ha, htarget, hvalue⟩ := exists_assigned?_uses_iff.1 ⟨u, hu, hlit⟩
    rw [hstr] at hvalue
    exact ⟨r, hr, target, hvalue ▸ ha, htarget⟩
  · rintro ⟨r, hr, target, ha, htarget⟩
    obtain ⟨u, hu, hlit⟩ := exists_assigned?_uses_iff.2 ⟨target, .str s, ha, htarget, rfl⟩
    exact ⟨r.name, (r.name, u), ⟨r, hr, u, hu, rfl⟩, hlit, rfl⟩

end Workspace

/-! ## Declared strings -/

namespace ContextVar

variable {name s : String} {decl : ContextDecl}

/-- A variable starts with a string exactly if it is an enumeration with that string as its
    default. -/
theorem mem_values_ofDecl : s ∈ NameSet.toList (ofDecl name decl).1.values ↔
    decl.IsEnum ∧ decl.default.bind Literal.ofJson? = some (.str s) := by
  have hempty : s ∉ NameSet.toList ∅ := List.not_mem_nil
  have henum : decl.IsEnum ↔ ∃ enum, (ofDecl name decl).1.kind = some (.enum enum) := by
    simp [kind_ofDecl_eq_enum_iff]
  have hsettle : ∀ enum, settleDefault (some (.enum enum)) = id := by
    intro enum
    funext default
    cases default <;> rfl
  rw [henum]
  simp only [ofDecl]
  split
  · rename_i enum t hkind hdefault
    rw [hkind, hsettle, id] at hdefault
    rw [and_iff_right ⟨enum, hkind⟩, hdefault, NameSet.mem_toList_add]
    simp [hempty, eq_comm]
  · rename_i hnot
    simp only [hempty, false_iff, not_and]
    rintro ⟨enum, hkind⟩ hliteral
    exact hnot enum s hkind (by rw [hkind, hsettle, id, hliteral])

end ContextVar

theorem Workspace.mem_values_ofCatalog {w : Workspace} {var s : String} :
    s ∈ NameSet.toList ((ContextTable.ofCatalog w.catalog).1.var var).values ↔
      w.DeclaresText var s := by
  rw [ContextTable.var, ContextTable.find?_ofCatalog, DeclaresText]
  cases w.catalog.context.find? var with
  | none =>
      have hempty : s ∉ NameSet.toList ∅ := List.not_mem_nil
      simpa using hempty
  | some decl =>
      rw [Option.map_some, Option.getD_some, ContextVar.mem_values_ofDecl]
      simp

/-- The strings of a variable are its declared default and those that actions assign by themselves.
    So it has all strings that it may take exactly if each of them is declared, or is assigned by
    itself in some place. -/
theorem enum_values_complete_iff (w : Workspace) {var : String} {v : ContextVar}
    (hv : w.contextRun.1.find? var = some v) :
    (∀ s, s ∈ NameSet.toList v.values ↔ w.DeclaresText var s ∨ w.Takes var s) ∧
    ((∀ s, w.MayTake var s → s ∈ NameSet.toList v.values) ↔
      ∀ s, w.MayTake var s → w.DeclaresText var s ∨ w.Takes var s) := by
  have hvar : w.contextRun.1.var var = v := by rw [ContextTable.var, hv, Option.getD_some]
  have hvalues : ∀ s, s ∈ NameSet.toList v.values ↔ w.DeclaresText var s ∨ w.Takes var s := by
    intro s
    rw [← hvar, Workspace.mem_values_contextRun, Workspace.mem_values_ofCatalog]
  exact ⟨hvalues, forall₂_congr fun s _ => hvalues s⟩

/-- A declared enumeration that is assigned a string by itself in one branch and one of two strings
    in the other. -/
def strideLedger : Workspace :=
  ledger [("mode", { type := some "enum", default := some (.str "walk") })]
    [.cond [.hasItem "Boots"] [.set { name := "mode" } (.str "run")]
      (some (.set { name := "mode" }
        (.paren (.ternary (.hasItem "Map") (.str "run") (.str "walk")))))]

theorem strideLedger_complete :
    ∃ v, strideLedger.contextRun.1.find? "mode" = some v ∧ v.kind = some (.enum "Mode") ∧
      ∀ s, strideLedger.MayTake "mode" s → s ∈ NameSet.toList v.values := by
  have hv : strideLedger.contextRun.1.find? "mode" = some _ := rfl
  refine ⟨_, hv, rfl, (enum_values_complete_iff strideLedger hv).2.2 ?_⟩
  rintro s ⟨r, hr, target, value, ha, -, hs⟩
  obtain rfl := List.mem_singleton.1 hr
  have hwalk : strideLedger.DeclaresText "mode" "walk" := ⟨_, rfl, Or.inl rfl, rfl⟩
  have hrun : strideLedger.Takes "mode" "run" :=
    ⟨_, hr, _, .inside (List.mem_singleton.2 rfl) (.inside (List.mem_cons_self ..) .here), rfl⟩
  have hset := Body.mem_actionNodes_iff.2 ha
  simp only [Body.actionNodes, Action.walk, walkSteps, List.flatten_cons, List.flatten_nil,
    List.append_nil, List.singleton_append, List.mem_cons, List.not_mem_nil, reduceCtorEq,
    Action.set.injEq, false_or, or_false] at hset
  have htext : ∀ t : String, (Expr.str t).MayGive s → t = s := by
    intro t ht
    simpa [Expr.outlets] using Expr.mayGive_iff.1 ht
  rcases hset with ⟨-, rfl⟩ | ⟨-, rfl⟩
  · obtain rfl := htext _ hs
    exact Or.inr hrun
  · rw [Expr.mayGive_iff] at hs
    simp only [Expr.outlets, reduceCtorEq, List.mem_singleton, exists_eq_left, false_or] at hs
    rw [Expr.mayGive_iff] at hs
    simp only [Expr.outlets, reduceCtorEq, List.mem_cons, List.not_mem_nil, or_false,
      exists_eq_or_imp, exists_eq_left, false_or] at hs
    rcases hs with hs | hs
    · obtain rfl := htext _ hs
      exact Or.inr hrun
    · obtain rfl := htext _ hs
      exact Or.inl hwalk

/-- An enumeration that is only assigned the result of a conditional. -/
def flightLedger : Workspace :=
  ledger [("mode", { type := some "enum" })]
    [.set { name := "mode" } (.ifThenElse [.hasItem "Bomb"] [.str "fly"] (some (.str "swim")))]

/-- An enumeration may lack a string that an action assigns to it. -/
theorem flightLedger_lacks_fly :
    ¬ ∀ (w : Workspace) (r : Rule) (target : Reference) (value : Expr) (var : String)
        (v : ContextVar) (s : String),
      r ∈ w.corpus.rules.values → r.body.HasAction (.set target value) →
      w.target? r target = some var → w.contextRun.1.find? var = some v →
      (∃ enum, v.kind = some (.enum enum)) → value.MayGive s → s ∈ NameSet.toList v.values := by
  intro h
  have hfly := h flightLedger _ _ _ "mode" _ "fly" (List.mem_cons_self ..)
    (.inside (List.mem_singleton.2 rfl) .here) rfl rfl ⟨"Mode", rfl⟩
    (.via (List.mem_cons_self ..) .here)
  exact List.not_mem_nil hfly

end AccessRules
