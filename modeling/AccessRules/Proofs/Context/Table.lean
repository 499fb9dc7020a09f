import AccessRules.Proofs.Context.KindAgreement

set_option autoImplicit false

/-! # What a table holds of a variable

A table starts from the declarations of a catalog. What it holds of a variable besides the kind
changes only by what uses add, `Use.additions`: literals that rules assign, and variables that they
assign from. So any view of variables that leaves out the kind is taken through the additions one
after another, `ContextVar.View.recordAll`. For range and default only the assigned literals count:
`holdings_contextRun` gives them for the whole corpus. -/

namespace AccessRules

/-! ## Declarations -/

namespace ContextTable

/-- The table with one more declared variable. -/
def declare (t : ContextTable) (entry : String × ContextDecl) : ContextTable × List Event :=
  (t.insert entry.1 (ContextVar.ofDecl entry.1 entry.2).1, (ContextVar.ofDecl entry.1 entry.2).2)

theorem ofCatalog_eq (c : Catalog) : ofCatalog c = accumulate declare ∅ c.context.entries := rfl

theorem find?_accumulate_declare {entries : List (String × ContextDecl)}
    (h : (entries.map (·.1)).Nodup) (t : ContextTable) (name : String) :
    (accumulate declare t entries).1.find? name
      = ((entries.lookup name).map fun d => (ContextVar.ofDecl name d).1).or (t.find? name) := by
  induction entries generalizing t with
  | nil => rfl
  | cons entry rest ih =>
      obtain ⟨k, d⟩ := entry
      obtain ⟨hk, hrest⟩ := List.nodup_cons.1 h
      show (accumulate declare (t.insert k (ContextVar.ofDecl k d).1) rest).1.find? name = _
      rw [ih hrest, Roster.find?_insert, lookup_cons_name]
      by_cases hname : name = k
      · subst hname
        have hnone : rest.lookup name = none := by
          rw [List.lookup_eq_none_iff]
          intro p hp
          exact bne_iff_ne.2 fun heq => hk (List.mem_map.2 ⟨p, hp, heq.symm⟩)
        simp [hnone]
      · simp [hname]

theorem find?_ofCatalog (c : Catalog) (name : String) :
    (ofCatalog c).1.find? name
      = (c.context.find? name).map fun d => (ContextVar.ofDecl name d).1 := by
  rw [ofCatalog_eq, find?_accumulate_declare c.context.nodup, Roster.find?_empty, Option.or_none]
  rfl

end ContextTable

/-! ## The kind of a declared variable -/

/-- The declaration is one of an enumeration: by its type, or without a type by its default. -/
def ContextDecl.IsEnum (d : ContextDecl) : Prop :=
  d.type = some "enum" ∨ d.type = none ∧ ∃ t, d.default.bind Literal.ofJson? = some (.str t)

theorem ContextKind.ofDecl?_eq_enum_iff {type var name : String} :
    ofDecl? type var = some (.enum name) ↔ type = "enum" ∧ name = enumName var := by
  unfold ofDecl?
  split <;> simp_all [eq_comm]

theorem ContextKind.ofLiteral?_eq_enum_iff {lit : Literal} {var name : String} :
    ofLiteral? lit var = some (.enum name) ↔ (∃ t, lit = .str t) ∧ name = enumName var := by
  cases lit with
  | place p => cases hkind : Place.kind? p <;> simp [ofLiteral?, hkind]
  | _ => simp [ofLiteral?, eq_comm]

theorem ContextVar.kind_ofDecl_eq_enum_iff {d : ContextDecl} {var name : String} :
    (ofDecl var d).1.kind = some (.enum name) ↔ d.IsEnum ∧ name = enumName var := by
  unfold ofDecl ContextDecl.IsEnum
  cases d.type with
  | some type => simp [ContextKind.ofDecl?_eq_enum_iff]
  | none =>
      cases d.default.bind Literal.ofJson? with
      | none => simp
      | some lit => simp [ContextKind.ofLiteral?_eq_enum_iff]

/-! ## Names -/

namespace ContextTable

/-- Every variable stands under its own name. -/
def Named (t : ContextTable) : Prop :=
  ∀ key v, t.find? key = some v → v.name = key

theorem named_ofCatalog (c : Catalog) : (ofCatalog c).1.Named := by
  intro key v hv
  rw [find?_ofCatalog] at hv
  obtain ⟨d, -, rfl⟩ := Option.map_eq_some_iff.1 hv
  rfl

theorem Named.modify {t : ContextTable} (h : t.Named) (var : String)
    {f : ContextVar → ContextVar} (hf : ∀ v, (f v).name = v.name) : (t.modify var f).Named := by
  intro key v hv
  rw [ContextTable.modify, Roster.find?_insert] at hv
  split at hv
  · rename_i hkey
    rw [← Option.some.inj hv, hf, hkey]
    cases hfind : t.find? var with
    | none => rfl
    | some known => exact h var known hfind
  · exact h key v hv

theorem Named.observe {t : ContextTable} (h : t.Named) (rule var : String) (kind : ContextKind) :
    (t.observe rule var kind).1.Named := by
  unfold ContextTable.observe
  split
  · exact h.modify var fun _ => rfl
  · exact h

theorem Named.unify {t : ContextTable} (h : t.Named) (rule a b : String) :
    (t.unify rule a b).1.Named := by
  unfold ContextTable.unify
  split
  · exact h
  · exact h
  · exact h.modify b fun _ => rfl
  · exact h.modify a fun _ => rfl
  · exact h

theorem name_takeLiteral (v : ContextVar) (lit : Literal) (rule : String) :
    (v.takeLiteral lit rule).name = v.name := by
  cases lit <;> rfl

theorem name_addVarSetter (v : ContextVar) (source rule : String) :
    (v.addVarSetter source rule).name = v.name := rfl

theorem Named.record {t : ContextTable} (h : t.Named) (rule : String) (u : Use) :
    (record rule t u).1.Named := by
  cases u with
  | mention var => exact h.modify var fun _ => rfl
  | shows var kind => exact h.observe rule var kind
  | assign var lit =>
      simp only [ContextTable.record]
      cases ContextKind.ofLiteral? lit var with
      | none => exact h.modify var fun v => name_takeLiteral v lit rule
      | some kind => exact (h.observe rule var kind).modify var fun v => name_takeLiteral v lit rule
  | copy var source =>
      exact (h.unify rule var source).modify var fun v => name_addVarSetter v source rule
  | swap a b =>
      have hfirst := (h.unify rule a b).modify a fun v => name_addVarSetter v b rule
      exact hfirst.modify b fun v => name_addVarSetter v a rule

end ContextTable

theorem Workspace.named_contextRun (w : Workspace) : w.contextRun.1.Named := by
  rw [contextRun, resolveContext, accumulate_resolveRule_fst, ContextTable.recordAll]
  exact accumulate_keeps (fun t u _ ht => ht.record u.1 u.2)
    (ContextTable.named_ofCatalog w.catalog)

/-! ## What uses add -/

/-- What a rule adds to what is known of a variable. -/
inductive Addition where
  | literal (lit : Literal) (rule : String)
  /-- A variable that is assigned from. -/
  | source (var rule : String)

/-- What a use in a rule adds to a variable. -/
def Use.additions (rule var : String) : Use → List Addition
  | .assign v lit => if v = var then [.literal lit rule] else []
  | .copy v source => if v = var then [.source source rule] else []
  | .swap a b =>
    (if a = var then [.source b rule] else []) ++ (if b = var then [.source a rule] else [])
  | _ => []

/-- The variable of a name; a new one if the table has none. -/
def ContextTable.var (t : ContextTable) (name : String) : ContextVar :=
  (t.find? name).getD { name }

/-- A view of variables that kinds have no bearing on, and that additions go through. -/
structure ContextVar.View {τ : Type} (φ : ContextVar → τ) (add : τ → Addition → τ) : Prop where
  kind : ∀ v k, φ { v with kind := k } = φ v
  literal : ∀ v lit rule, φ (v.takeLiteral lit rule) = add (φ v) (.literal lit rule)
  source : ∀ v var rule, φ (v.addVarSetter var rule) = add (φ v) (.source var rule)

namespace ContextVar.View

variable {τ : Type} {φ : ContextVar → τ} {add : τ → Addition → τ}

/-- A change of a variable that makes additions, or none. -/
theorem modify {f : ContextVar → ContextVar} (as : List Addition)
    (hf : ∀ v, φ (f v) = as.foldl add (φ v)) (t : ContextTable) (key name : String) :
    φ ((t.modify key f).var name) = (if key = name then as else []).foldl add (φ (t.var name)) := by
  unfold ContextTable.var ContextTable.modify
  rw [Roster.find?_insert]
  by_cases hkey : key = name
  · subst hkey
    rw [if_pos rfl, if_pos rfl, Option.getD_some, hf]
  · rw [if_neg (Ne.symm hkey), if_neg hkey]
    rfl

theorem modify_of_eq {f : ContextVar → ContextVar} (hf : ∀ v, φ (f v) = φ v) (t : ContextTable)
    (key name : String) : φ ((t.modify key f).var name) = φ (t.var name) := by
  have hnone : _ = (if key = name then [] else []).foldl (fun x (_ : Addition) => x) _ :=
    modify [] hf t key name
  rwa [ite_self] at hnone

variable (h : View φ add)
include h

theorem observe (t : ContextTable) (rule key name : String) (kind : ContextKind) :
    φ ((t.observe rule key kind).1.var name) = φ (t.var name) := by
  unfold ContextTable.observe
  cases t.kind? key with
  | none => exact modify_of_eq (fun v => h.kind v _) t key name
  | some known => rfl

theorem unify (t : ContextTable) (rule a b name : String) :
    φ ((t.unify rule a b).1.var name) = φ (t.var name) := by
  cases ha : t.kind? a with
  | none =>
      cases hb : t.kind? b with
      | none => rw [ContextTable.unify_unknown rule ha hb]
      | some kb =>
          rw [ContextTable.unify_second_known rule ha hb]
          exact modify_of_eq (fun v => h.kind v _) t a name
  | some ka =>
      cases hb : t.kind? b with
      | none =>
          rw [ContextTable.unify_first_known rule ha hb]
          exact modify_of_eq (fun v => h.kind v _) t b name
      | some kb => rw [ContextTable.unify_known rule ha hb]

theorem record (rule : String) (t : ContextTable) (u : Use) (name : String) :
    φ ((ContextTable.record rule t u).1.var name)
      = (u.additions rule name).foldl add (φ (t.var name)) := by
  have hsource : ∀ (t : ContextTable) (key var : String),
      φ ((t.modify key fun v => v.addVarSetter var rule).var name)
        = (if key = name then [.source var rule] else []).foldl add (φ (t.var name)) :=
    fun t key var => modify [.source var rule] (fun v => h.source v var rule) t key name
  cases u with
  | mention key => exact modify_of_eq (fun _ => rfl) t key name
  | shows key kind => exact h.observe t rule key name kind
  | assign key lit =>
      have hliteral : ∀ t' : ContextTable, φ (t'.var name) = φ (t.var name) →
          φ ((t'.modify key fun v => v.takeLiteral lit rule).var name)
            = ((Use.assign key lit).additions rule name).foldl add (φ (t.var name)) := by
        intro t' ht'
        rw [← ht']
        exact modify [.literal lit rule] (fun v => h.literal v lit rule) t' key name
      simp only [ContextTable.record]
      cases ContextKind.ofLiteral? lit key with
      | none => exact hliteral t rfl
      | some kind => exact hliteral _ (h.observe t rule key name kind)
  | copy key source =>
      simp only [ContextTable.record]
      rw [hsource, h.unify]
      rfl
  | swap a b =>
      simp only [ContextTable.record]
      rw [hsource, hsource, h.unify, ← List.foldl_append]
      rfl

/-- A run over uses makes their additions, one after the other. -/
theorem recordAll (t : ContextTable) (uses : List (String × Use)) (name : String) :
    φ ((t.recordAll uses).1.var name)
      = (uses.flatMap fun u => u.2.additions u.1 name).foldl add (φ (t.var name)) :=
  accumulate_fst_foldl_view (v := fun t : ContextTable => φ (t.var name))
    (fun t u _ => h.record u.1 t u.2 name) t

end ContextVar.View

/-! ## Assigned literals -/

/-- The literal that the use assigns to the variable. -/
def Use.assigned? (u : Use) (var : String) : Option Literal :=
  match u with
  | .assign v lit => if v = var then some lit else none
  | _ => none

/-- What assigned literals have a bearing on. -/
@[ext] structure Holdings where
  min : Option Int64 := none
  max : Option Int64 := none
  default : Option Literal := none
  declaredDefault : Option Literal := none

def ContextVar.holdings (v : ContextVar) : Holdings where
  min := v.min
  max := v.max
  default := v.default
  declaredDefault := v.declaredDefault

/-- A bound, moved to take in an integer literal; other literals are left out of account. -/
def Literal.widen (outer : Int64 → Int64 → Int64) (lit : Literal) (bound : Option Int64) :
    Option Int64 :=
  match lit with
  | .int n => widenBound outer bound n
  | _ => bound

theorem toInt_min (m n : Int64) : (Min.min m n).toInt = Min.min m.toInt n.toInt := by
  show (if m ≤ n then m else n).toInt = _
  simp only [Int64.le_iff_toInt_le]
  split <;> omega

theorem toInt_max (m n : Int64) : (Max.max m n).toInt = Max.max m.toInt n.toInt := by
  show (if m ≤ n then n else m).toInt = _
  simp only [Int64.le_iff_toInt_le]
  split <;> omega

def Holdings.take (h : Holdings) (lit : Literal) : Holdings :=
  { h with
    min := lit.widen Min.min h.min
    max := lit.widen Max.max h.max
    default := h.default <|> some lit }

def Holdings.add (h : Holdings) : Addition → Holdings
  | .literal lit _ => h.take lit
  | .source _ _ => h

theorem ContextVar.view_holdings : View holdings Holdings.add where
  kind _ _ := rfl
  literal _ lit _ := by cases lit <;> rfl
  source _ _ _ := rfl

/-- Only an assigned literal changes range and default of a variable. -/
theorem Use.foldl_add_additions (rule var : String) (u : Use) (h : Holdings) :
    (u.additions rule var).foldl Holdings.add h = (u.assigned? var).toList.foldl Holdings.take h := by
  cases u with
  | assign v lit =>
      rw [additions, assigned?]
      split <;> rfl
  | copy v source =>
      rw [additions]
      split <;> rfl
  | swap a b =>
      rw [additions]
      split <;> split <;> rfl
  | _ => rfl

namespace ContextTable

/-- What the table holds of a variable; nothing if it is not there. -/
def holdings (t : ContextTable) (var : String) : Holdings :=
  ((t.find? var).map ContextVar.holdings).getD {}

theorem holdings_var (t : ContextTable) (var : String) :
    (t.var var).holdings = t.holdings var := by
  unfold ContextTable.var holdings
  cases t.find? var <;> rfl

theorem holdings_recordAll (t : ContextTable) (uses : List (String × Use)) (var : String) :
    (t.recordAll uses).1.holdings var
      = (uses.filterMap fun u => u.2.assigned? var).foldl Holdings.take (t.holdings var) := by
  rw [← holdings_var, ← holdings_var, ContextVar.view_holdings.recordAll]
  generalize (t.var var).holdings = h
  induction uses generalizing h with
  | nil => rfl
  | cons u uses ih =>
      rw [List.flatMap_cons, List.foldl_append, Use.foldl_add_additions, ih, List.filterMap_cons]
      cases u.2.assigned? var <;> rfl

end ContextTable

namespace Workspace

/-- The literals that the rules of the corpus assign to a variable, in order. -/
def assignedLiterals (w : Workspace) (var : String) : List Literal :=
  (w.corpus.rules.values.flatMap w.namedUses).filterMap fun u => u.2.assigned? var

/-- The declaration of a variable and then its assigned literals give what the table of the corpus
    holds of it. -/
theorem holdings_contextRun (w : Workspace) (var : String) :
    w.contextRun.1.holdings var = (w.assignedLiterals var).foldl Holdings.take
      ((ContextTable.ofCatalog w.catalog).1.holdings var) := by
  rw [contextRun, resolveContext, accumulate_resolveRule_fst, ContextTable.holdings_recordAll]
  rfl

end Workspace

end AccessRules
