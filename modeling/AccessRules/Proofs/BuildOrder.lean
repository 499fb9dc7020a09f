import AccessRules.Compile
import AccessRules.Proofs.Corpus
import Mathlib.Data.List.Induction

set_option autoImplicit false

/-! # The order of definitions

A corpus holds what was added to it, whatever the order: `Corpus.Holds` says what it holds, each
definition that is added extends it (`Corpus.Holds.add`), and no two corpora hold the same. So a
compilation does not depend on the order in which its corpus was built. -/

namespace AccessRules

/-! ## Maps of named things -/

/-- The map holds the things with a property, each under its own name. -/
def NameMap.Files {ν : Type} (m : NameMap ν) (nameOf : ν → String) (P : ν → Prop) : Prop :=
  ∀ name value, m.find? name = some value ↔ nameOf value = name ∧ P value

namespace NameMap.Files

variable {ν : Type} {m m' : NameMap ν} {nameOf : ν → String} {P Q : ν → Prop}

theorem congr (h : m.Files nameOf P) (hPQ : ∀ value, P value ↔ Q value) : m.Files nameOf Q :=
  fun name value => (h name value).trans (and_congr_right' (hPQ value))

/-- One more under a new name. -/
theorem insert {x : ν} (h : m.Files nameOf P) (hnew : ∀ value, P value → nameOf value ≠ nameOf x) :
    (m.insert (nameOf x) x).Files nameOf fun value => P value ∨ value = x := by
  intro name value
  rw [find?_insert]
  split
  · rename_i hname
    subst hname
    constructor
    · intro heq
      obtain rfl := Option.some.inj heq
      exact ⟨rfl, .inr rfl⟩
    · rintro ⟨hname, hvalue | rfl⟩
      · exact absurd hname (hnew value hvalue)
      · rfl
  · rename_i hname
    rw [h name value]
    refine and_congr_right fun hvalue => (or_iff_left ?_).symm
    rintro rfl
    exact hname hvalue.symm

theorem find?_eq_none {name : String} (h : m.Files nameOf P)
    (hnew : ∀ value, P value → nameOf value ≠ name) : m.find? name = none := by
  rw [Option.eq_none_iff_forall_ne_some]
  intro value hvalue
  obtain ⟨hname, hP⟩ := (h name value).1 hvalue
  exact hnew value hP hname

theorem unique (h : m.Files nameOf P) (h' : m'.Files nameOf P) : m = m' := by
  refine ext_find? fun name => Option.ext fun value => ?_
  rw [h name value, h' name value]

end NameMap.Files

/-! ## Definitions -/

theorem eq_ok_of_toOption {ε α : Type} {x : Except ε α} {a : α} (h : x.toOption = some a) :
    x = .ok a := by
  cases x with
  | error e => cases h
  | ok b =>
      cases h
      rfl

/-- A definition that can be added to a corpus. -/
inductive Definition where
  | rule (r : Rule)
  | helper (signature : String) (body : Body)
  /-- A helper whose body is given by a text. -/
  | helperText (signature text : String) (isAction : Bool)

namespace Definition

/-- The rule that is defined, and the signature if it is the body of a helper. -/
def content? : Definition → Option (Rule × Option Signature)
  | .rule r => some (r, none)
  | .helper signature body =>
    (parseSignature signature).toOption.map fun s => ({ name := s.ruleName, body }, some s)
  | .helperText signature text isAction => do
    let body ← (Corpus.parseBody signature text isAction).toOption
    let s ← (parseSignature signature).toOption
    return ({ name := s.ruleName, body }, some s)

/-- The name of the rule that is defined; nothing if the definition cannot be read. -/
def qualifiedName? (d : Definition) : Option String :=
  d.content?.map fun e => e.1.name

/-- The corpus with the definition added. -/
def addTo : Definition → Corpus → Except CorpusError Corpus
  | .rule r, c => c.addRule r
  | .helper signature body, c => c.addHelper signature body
  | .helperText signature text isAction, c => c.parseHelper signature text isAction

variable {d : Definition} {r : Rule} {s? : Option Signature}

/-- A definition adds a rule, or a helper under the name in its signature. -/
theorem content?_eq_some (h : d.content? = some (r, s?)) :
    (s? = none ∧ ∀ c, d.addTo c = c.addRule r) ∨
      ∃ signature body s, parseSignature signature = .ok s ∧ s? = some s ∧
        r = { name := s.ruleName, body } ∧ ∀ c, d.addTo c = c.addHelper signature body := by
  cases d with
  | rule r =>
      cases h
      exact .inl ⟨rfl, fun _ => rfl⟩
  | helper signature body =>
      obtain ⟨s, hs, heq⟩ := Option.map_eq_some_iff.1 h
      cases heq
      exact .inr ⟨signature, body, s, eq_ok_of_toOption hs, rfl, rfl, fun _ => rfl⟩
  | helperText signature text isAction =>
      simp only [content?, Option.bind_eq_bind, Option.bind_eq_some_iff] at h
      obtain ⟨body, hbody, s, hs, heq⟩ := h
      cases heq
      refine .inr ⟨signature, body, s, eq_ok_of_toOption hs, rfl, rfl, fun c => ?_⟩
      rw [addTo, Corpus.parseHelper, eq_ok_of_toOption hbody]
      rfl

theorem qualifiedName?_of_content? (h : d.content? = some (r, s?)) :
    d.qualifiedName? = some r.name := by
  rw [qualifiedName?, h]
  rfl

end Definition

/-! ## What a corpus holds -/

namespace Corpus

variable {c c' : Corpus} {ds ds' : List Definition} {d : Definition}

/-- The corpus holds the rules and the helpers of the definitions and nothing else. -/
structure Holds (c : Corpus) (ds : List Definition) : Prop where
  rules : c.rules.Files Rule.name fun r => ∃ d ∈ ds, ∃ s?, d.content? = some (r, s?)
  helpers : c.helpers.Files Signature.name fun s => ∃ d ∈ ds, ∃ r, d.content? = some (r, some s)

/-- Definitions one after the other, starting from nothing. -/
def build (ds : List Definition) : Except CorpusError Corpus :=
  ds.foldlM (fun c d => d.addTo c) {}

theorem holds_nil : Holds {} [] where
  rules name r := by simp
  helpers name s := by simp

/-- A definition under a new name is added to what the corpus holds. -/
theorem Holds.add (h : c.Holds ds) (hread : d.qualifiedName? ≠ none)
    (hnew : ∀ d' ∈ ds, d'.qualifiedName? ≠ d.qualifiedName?) :
    ∃ c', d.addTo c = .ok c' ∧ c'.Holds (ds ++ [d]) := by
  obtain ⟨⟨r, s?⟩, hcontent⟩ : ∃ e, d.content? = some e :=
    Option.ne_none_iff_exists'.1 fun hnone => hread (by rw [Definition.qualifiedName?, hnone]; rfl)
  have hname := Definition.qualifiedName?_of_content? hcontent
  have hrules : ∀ r', (∃ d' ∈ ds, ∃ s?, d'.content? = some (r', s?)) → r'.name ≠ r.name := by
    rintro r' ⟨d', hd', s?', hcontent'⟩ heq
    exact hnew d' hd' (by rw [Definition.qualifiedName?_of_content? hcontent', heq, hname])
  have hrule := h.rules.find?_eq_none hrules
  have hinserted : (c.rules.insert r.name r).Files Rule.name
      fun r => ∃ d' ∈ ds ++ [d], ∃ s?, d'.content? = some (r, s?) := by
    refine (h.rules.insert hrules).congr fun r' => ?_
    simp [or_and_right, exists_or, hcontent, eq_comm]
  rcases Definition.content?_eq_some hcontent with
    ⟨rfl, hadd⟩ | ⟨signature, body, s, hs, rfl, rfl, hadd⟩
  · refine ⟨_, (hadd c).trans (addRule_eq_ok_iff.2 ⟨hrule, rfl⟩), hinserted, ?_⟩
    refine h.helpers.congr fun s => ?_
    simp [or_and_right, exists_or, hcontent]
  · have hhelpers : ∀ t, (∃ d' ∈ ds, ∃ r', d'.content? = some (r', some t)) → t.name ≠ s.name := by
      rintro t ⟨d', hd', r', hcontent'⟩ heq
      -- helpers of one name have bodies of one name
      rcases Definition.content?_eq_some hcontent' with ⟨hnone, -⟩ | ⟨_, _, t', -, ht, rfl, -⟩
      · cases hnone
      · obtain rfl := Option.some.inj ht
        exact hrules _ ⟨d', hd', _, hcontent'⟩ (by rw [Signature.ruleName, heq]; rfl)
    have hhelper := h.helpers.find?_eq_none hhelpers
    refine ⟨_, (hadd c).trans (addHelper_eq_ok_iff.2 ⟨s, hs, hhelper, hrule, rfl⟩), hinserted, ?_⟩
    refine (h.helpers.insert hhelpers).congr fun t => ?_
    simp [or_and_right, exists_or, hcontent, eq_comm]

/-- No two corpora hold the same. -/
theorem Holds.unique (h : c.Holds ds) (h' : c'.Holds ds') (hmem : ∀ d, d ∈ ds ↔ d ∈ ds') :
    c = c' := by
  have hrules := h.rules.unique (h'.rules.congr fun r => by simp only [hmem])
  have hhelpers := h.helpers.unique (h'.helpers.congr fun s => by simp only [hmem])
  cases c
  cases c'
  cases hrules
  cases hhelpers
  rfl

theorem exists_build (hread : ∀ d ∈ ds, d.qualifiedName? ≠ none)
    (hnames : (ds.map Definition.qualifiedName?).Nodup) : ∃ c, build ds = .ok c ∧ c.Holds ds := by
  induction ds using List.reverseRecOn with
  | nil => exact ⟨{}, rfl, holds_nil⟩
  | append_singleton ds d ih =>
      rw [List.forall_mem_append, List.forall_mem_singleton] at hread
      rw [List.map_append, List.nodup_append] at hnames
      obtain ⟨c, hbuild, hholds⟩ := ih hread.1 hnames.1
      have hnew : ∀ d' ∈ ds, d'.qualifiedName? ≠ d.qualifiedName? := fun d' hd' =>
        hnames.2.2 _ (List.mem_map_of_mem hd') _ (List.mem_singleton_self _)
      obtain ⟨c', hadd, hholds'⟩ := hholds.add hread.2 hnew
      refine ⟨c', ?_, hholds'⟩
      rw [build] at hbuild
      rw [build, List.foldlM_append, hbuild]
      show (d.addTo c >>= pure) = .ok c'
      rw [hadd]
      rfl

end Corpus

/-- Definitions whose qualified names differ can be added in any order. The corpus holds them all,
    and its compilation is the same: the same defect or the same result, and the same events. -/
theorem compile_build_perm {ds ds' : List Definition} (hperm : ds.Perm ds')
    (hread : ∀ d ∈ ds, d.qualifiedName? ≠ none)
    (hnames : (ds.map Definition.qualifiedName?).Nodup) :
    ∃ c c', Corpus.build ds = .ok c ∧ Corpus.build ds' = .ok c' ∧ c.Holds ds ∧
      ∀ (catalog : Catalog) (o : CompileOptions),
        (Workspace.mk catalog c).compile o = (Workspace.mk catalog c').compile o := by
  obtain ⟨c, hbuild, hholds⟩ := Corpus.exists_build hread hnames
  obtain ⟨c', hbuild', hholds'⟩ := Corpus.exists_build (fun d hd => hread d (hperm.mem_iff.2 hd))
    ((hperm.map _).nodup_iff.1 hnames)
  have heq : c = c' := hholds.unique hholds' fun d => hperm.mem_iff
  exact ⟨c, c', hbuild, hbuild', hholds, fun catalog o => by rw [heq]⟩

/-- A rule and two helpers, one of which is called by the other two. -/
def gateDefinitions : List Definition :=
  [.rule { name := "gates:lift", body := .requirement (.call "open" [.int 2]) },
    .helper "$open(^n)" (.requirement (.numCompare (.ref ⟨"n", none⟩) .lt (.ref ⟨"keys", none⟩))),
    .helperText "$unlock" "IF ($open(1)) \x7b ^keys -= 1; \x7d" true]

theorem gateDefinitions_any_order :
    (∀ d ∈ gateDefinitions, d.qualifiedName? ≠ none) ∧
    (gateDefinitions.map Definition.qualifiedName?).Nodup ∧
    ∃ c c', Corpus.build gateDefinitions = .ok c ∧ Corpus.build gateDefinitions.reverse = .ok c' ∧
      c.Holds gateDefinitions ∧ ∀ (catalog : Catalog) (o : CompileOptions),
        (Workspace.mk catalog c).compile o = (Workspace.mk catalog c').compile o := by
  have hnames : gateDefinitions.map Definition.qualifiedName?
      = [some "gates:lift", some "helpers:open", some "helpers:unlock"] := rfl
  have hread : ∀ d ∈ gateDefinitions, d.qualifiedName? ≠ none := by
    intro d hd hnone
    have hmem := List.mem_map.2 ⟨d, hd, hnone⟩
    rw [hnames] at hmem
    exact absurd hmem (by decide)
  have hnodup : (gateDefinitions.map Definition.qualifiedName?).Nodup := by
    rw [hnames]
    decide
  exact ⟨hread, hnodup, compile_build_perm (List.reverse_perm _).symm hread hnodup⟩

end AccessRules
