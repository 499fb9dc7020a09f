import AccessRules.Proofs.Context.References
import Mathlib.Data.Multiset.FinsetOps

set_option autoImplicit false

/-! # Rules in another order

All rules fill one table. Of what it knows of a variable, the kind and the default are those that
come first. All else is gathered: `ContextVar.gathered` is that part, with the rules under a key as
a multiset. What uses add to it commutes, so the order of the rules does not matter to what is
gathered in the end.

Nor does it matter to which variables there are. A use may enter a variable or not, depending on the
kinds at that moment, but each rule mentions all variables of its uses before. -/

namespace AccessRules

/-! ## Rules under keys -/

/-- The rules under each key, in no order. -/
abbrev Setters := String → Option (Multiset String)

namespace Setters

def ofMap (m : NameMap (List String)) : Setters :=
  fun key => (m.find? key).map Multiset.ofList

/-- One more rule under a key, unless it is there. -/
def add (s : Setters) (key rule : String) : Setters :=
  Function.update s key (some (((s key).getD 0).ndinsert rule))

theorem ndinsert_comm (a b : String) (rules : Multiset String) :
    (rules.ndinsert a).ndinsert b = (rules.ndinsert b).ndinsert a := by
  induction rules using Quotient.inductionOn with
  | h rules =>
      rw [Multiset.quot_mk_to_coe]
      simp only [Multiset.coe_ndinsert]
      exact Multiset.coe_eq_coe.2 (List.perm_insert_swap b a rules)

theorem add_comm (s : Setters) (key key' rule rule' : String) :
    (s.add key rule).add key' rule' = (s.add key' rule').add key rule := by
  unfold add
  by_cases hkey : key = key'
  · subst hkey
    simp only [Function.update_self, Option.getD_some, Function.update_idem]
    rw [ndinsert_comm]
  · simp only [Function.update_of_ne hkey, Function.update_of_ne (Ne.symm hkey)]
    exact Function.update_comm hkey ..

theorem coe_addOnce (rule : String) (rules : List String) :
    (ContextVar.addOnce rule rules : Multiset String)
      = (rules : Multiset String).ndinsert rule := by
  unfold ContextVar.addOnce
  split
  · rename_i h
    exact (Multiset.ndinsert_of_mem (List.contains_iff_mem.1 h)).symm
  · rename_i h
    rw [Multiset.ndinsert_of_notMem fun hmem => h (List.contains_iff_mem.2 hmem)]
    exact Multiset.coe_eq_coe.2 (List.perm_append_singleton rule rules)

theorem ofMap_alter (m : NameMap (List String)) (key rule : String) :
    ofMap (m.alter key fun rules => ContextVar.addOnce rule (rules.getD []))
      = (ofMap m).add key rule := by
  funext k
  simp only [ofMap, add, NameMap.find?_alter]
  by_cases hk : k = key
  · subst hk
    rw [if_pos rfl, Function.update_self, Option.map_some, coe_addOnce]
    cases m.find? k <;> rfl
  · rw [if_neg hk, Function.update_of_ne hk]
    rfl

/-- The same rules are listed under each key, in some order. -/
theorem perm_of_ofMap_eq {m m' : NameMap (List String)} (h : ofMap m = ofMap m') (key : String) :
    Option.Rel List.Perm (m.find? key) (m'.find? key) := by
  have hkey : (m.find? key).map Multiset.ofList = (m'.find? key).map Multiset.ofList :=
    congrFun h key
  cases hm : m.find? key with
  | none =>
      rw [hm] at hkey
      rw [Option.map_eq_none_iff.1 hkey.symm]
      exact .none
  | some rules =>
      rw [hm] at hkey
      obtain ⟨rules', hm', heq⟩ := Option.map_eq_some_iff.1 hkey.symm
      rw [hm']
      exact .some (Multiset.coe_eq_coe.1 heq).symm

end Setters

/-! ## What is gathered of a variable -/

/-- What is known of a variable whatever comes first: all but its kind and its default. -/
@[ext] structure Gathered where
  name : String
  min : Option Int64
  max : Option Int64
  declaredDefault : Option Literal
  values : NameSet
  valueSetters : Setters
  varSetters : Setters
  declared : Bool

def ContextVar.gathered (v : ContextVar) : Gathered where
  name := v.name
  min := v.min
  max := v.max
  declaredDefault := v.declaredDefault
  values := v.values
  valueSetters := .ofMap v.valueSetters
  varSetters := .ofMap v.varSetters
  declared := v.declared

namespace Literal

/-- Values with that of a string literal among them. -/
def joinTo (lit : Literal) (values : NameSet) : NameSet :=
  match lit with
  | .str s => NameSet.add values s
  | _ => values

theorem widen_comm {outer : Int64 → Int64 → Int64} {f : Int → Int → Int}
    (hf : ∀ m n, (outer m n).toInt = f m.toInt n.toInt) (hcomm : ∀ a b, f a b = f b a)
    (hright : ∀ a b c, f (f a b) c = f (f a c) b) (lit lit' : Literal) (bound : Option Int64) :
    lit.widen outer (lit'.widen outer bound) = lit'.widen outer (lit.widen outer bound) := by
  cases lit with
  | int n =>
      cases lit' with
      | int n' =>
          refine congrArg some (Int64.toInt_inj.1 ?_)
          cases bound with
          | none =>
              show (outer n' n).toInt = (outer n n').toInt
              rw [hf, hf, hcomm]
          | some m =>
              show (outer (outer m n') n).toInt = (outer (outer m n) n').toInt
              rw [hf, hf, hf, hf, hright]
      | _ => rfl
  | _ => rfl

theorem joinTo_comm (lit lit' : Literal) (values : NameSet) :
    lit.joinTo (lit'.joinTo values) = lit'.joinTo (lit.joinTo values) := by
  cases lit with
  | str s =>
      cases lit' with
      | str s' =>
          refine NameMap.ext_find? fun name => ?_
          simp only [joinTo, NameSet.add, NameMap.find?_insert]
          split <;> split <;> rfl
      | _ => rfl
  | _ => rfl

end Literal

namespace Gathered

def add (g : Gathered) : Addition → Gathered
  | .literal lit rule => { g with
      min := lit.widen Min.min g.min
      max := lit.widen Max.max g.max
      values := lit.joinTo g.values
      valueSetters := g.valueSetters.add (ContextVar.setterKey lit) rule }
  | .source var rule => { g with varSetters := g.varSetters.add var rule }

theorem add_comm (g : Gathered) (a b : Addition) : (g.add a).add b = (g.add b).add a := by
  cases a with
  | literal lit rule =>
      cases b with
      | literal lit' rule' =>
          have hmin := lit.widen_comm toInt_min Int.min_comm (fun a b c => by omega) lit'
          have hmax := lit.widen_comm toInt_max Int.max_comm (fun a b c => by omega) lit'
          simp only [add, hmin, hmax, lit.joinTo_comm lit', g.valueSetters.add_comm]
      | source var rule' => rfl
  | source var rule =>
      cases b with
      | literal lit rule' => rfl
      | source var' rule' => simp only [add, g.varSetters.add_comm]

end Gathered

theorem ContextVar.view_gathered : View gathered Gathered.add where
  kind _ _ := rfl
  literal _ lit _ := by
    cases lit <;> simp only [takeLiteral, addValueSetter, widen, gathered, Setters.ofMap_alter] <;>
      rfl
  source _ _ _ := by
    simp only [addVarSetter, gathered, Setters.ofMap_alter]
    rfl

/-! ## Runs over rules -/

/-- The two know the same of a variable, but for its kind and its default and for the order of the
    rules under a key. -/
structure ContextVar.SameButOrder (v v' : ContextVar) : Prop where
  name : v.name = v'.name
  min : v.min = v'.min
  max : v.max = v'.max
  declaredDefault : v.declaredDefault = v'.declaredDefault
  values : v.values = v'.values
  valueSetters : ∀ key, Option.Rel List.Perm (v.valueSetters.find? key) (v'.valueSetters.find? key)
  varSetters : ∀ source,
    Option.Rel List.Perm (v.varSetters.find? source) (v'.varSetters.find? source)
  declared : v.declared = v'.declared

theorem ContextVar.sameButOrder_of_gathered {v v' : ContextVar} (h : v.gathered = v'.gathered) :
    v.SameButOrder v' where
  name := congrArg Gathered.name h
  min := congrArg Gathered.min h
  max := congrArg Gathered.max h
  declaredDefault := congrArg Gathered.declaredDefault h
  values := congrArg Gathered.values h
  valueSetters := Setters.perm_of_ofMap_eq (congrArg Gathered.valueSetters h)
  varSetters := Setters.perm_of_ofMap_eq (congrArg Gathered.varSetters h)
  declared := congrArg Gathered.declared h

namespace Workspace

variable {w : Workspace} {rules rules' : List Rule}

/-- The same is gathered of each variable. -/
theorem gathered_accumulate_perm (hperm : rules.Perm rules') (t : ContextTable) (var : String) :
    ((accumulate w.resolveRule t rules).1.var var).gathered
      = ((accumulate w.resolveRule t rules').1.var var).gathered := by
  rw [accumulate_resolveRule_fst, accumulate_resolveRule_fst, ContextVar.view_gathered.recordAll,
    ContextVar.view_gathered.recordAll]
  have hadditions := (hperm.flatMap_right w.namedUses).flatMap_right fun u =>
    u.2.additions u.1 var
  exact hadditions.foldl_eq' (fun a _ b _ g => g.add_comm a b) _

/-- The same variables are new, in some order. -/
theorem keys_accumulate_perm (hperm : rules.Perm rules') (t : ContextTable) :
    ∃ new new' : List String, (accumulate w.resolveRule t rules).1.keys = t.keys ++ new ∧
      (accumulate w.resolveRule t rules').1.keys = t.keys ++ new' ∧ new.Perm new' := by
  refine ⟨_, _, w.keys_accumulate_resolveRule t rules, w.keys_accumulate_resolveRule t rules', ?_⟩
  refine (List.perm_ext_iff_of_nodup (nodup_eraseDups _) (nodup_eraseDups _)).2 fun var => ?_
  rw [List.mem_eraseDups, List.mem_eraseDups]
  exact ((hperm.flatMap_right _).filter _).mem_iff

end Workspace

/-- Rules taken in another order lead from a table to the same variables. Those that were there keep
    their places, and of each variable the same is known in the end, but for its kind, its default
    and the order of the rules that set it. -/
theorem resolveContext_any_order (w : Workspace) (t : ContextTable) {rules : List Rule}
    (hperm : rules.Perm w.corpus.rules.values) :
    (∃ new new' : List String, (w.resolveContext t).1.keys = t.keys ++ new ∧
      (accumulate w.resolveRule t rules).1.keys = t.keys ++ new' ∧ new.Perm new') ∧
    ∀ var, Option.Rel ContextVar.SameButOrder ((w.resolveContext t).1.find? var)
      ((accumulate w.resolveRule t rules).1.find? var) := by
  obtain ⟨new, new', hnew, hnew', hkeys⟩ := Workspace.keys_accumulate_perm hperm.symm t
  refine ⟨⟨new, new', hnew, hnew', hkeys⟩, fun var => ?_⟩
  have hmem : var ∈ (w.resolveContext t).1.keys ↔
      var ∈ (accumulate w.resolveRule t rules).1.keys := by
    rw [Workspace.resolveContext, hnew, hnew']
    exact (hkeys.append_left _).mem_iff
  rw [Roster.mem_keys_iff, Roster.mem_keys_iff] at hmem
  cases hv : (w.resolveContext t).1.find? var with
  | none =>
      cases hv' : (accumulate w.resolveRule t rules).1.find? var with
      | none => exact .none
      | some v' =>
          obtain ⟨v, hsome⟩ := hmem.2 ⟨v', hv'⟩
          rw [hv] at hsome
          cases hsome
  | some v =>
      obtain ⟨v', hv'⟩ := hmem.1 ⟨v, hv⟩
      have hgathered := Workspace.gathered_accumulate_perm (w := w) hperm.symm t var
      rw [← Workspace.resolveContext, ContextTable.var, ContextTable.var, hv, hv'] at hgathered
      rw [hv']
      exact .some (ContextVar.sameButOrder_of_gathered hgathered)

/-- Two rules that assign the same two values, the one in the order of the other reversed. -/
def earnRule : Rule where
  name := "rules:earn"
  body := .actions (.sequence
    [.set { name := "gold" } (.int 5), .set { name := "gold" } (.bool true)])

def loseRule : Rule where
  name := "rules:lose"
  body := .actions (.sequence
    [.set { name := "gold" } (.bool true), .set { name := "gold" } (.int 5)])

def purse : Workspace where
  catalog := { context := .ofList [("gold", {})] }
  corpus := { rules := .ofList [("rules:earn", earnRule), ("rules:lose", loseRule)] }

/-- Kind, default and the order of setters do depend on the order of the rules. -/
theorem purse_any_order :
    [loseRule, earnRule].Perm purse.corpus.rules.values ∧
      (purse.resolveContext (ContextTable.ofCatalog purse.catalog).1).1.kind? "gold" = some .int ∧
      (accumulate purse.resolveRule (ContextTable.ofCatalog purse.catalog).1
        [loseRule, earnRule]).1.kind? "gold" = some .bool ∧
      Option.Rel ContextVar.SameButOrder
        ((purse.resolveContext (ContextTable.ofCatalog purse.catalog).1).1.find? "gold")
        ((accumulate purse.resolveRule (ContextTable.ofCatalog purse.catalog).1
          [loseRule, earnRule]).1.find? "gold") := by
  have hperm : [loseRule, earnRule].Perm purse.corpus.rules.values :=
    List.Perm.swap earnRule loseRule []
  exact ⟨hperm, rfl, rfl, (resolveContext_any_order purse _ hperm).2 "gold"⟩

end AccessRules
