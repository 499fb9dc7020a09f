import AccessRules.Proofs.Expr.Total
import Mathlib.Data.List.Induction

set_option autoImplicit false

/-! # Walks visit everything once

An address leads from a tree to one occurrence of a node in it: at each level it says which child to
go on to, counted from the left. Addresses are ordered as the nodes are read, what stands above or
to the left first. A walk shows nodes to a visitor, which answers whether to go on below a node and
may make this depend on all it has been shown before. `walks_visit_each_once` says where the calls
of the visitor are: on every occurrence in the order of addresses, less those below a node that the
visitor has refused. -/

namespace AccessRules

/-! ## Calls of a visitor -/

/-- A call of a visitor: where the node stands that it is shown, the node, and the answer. -/
structure Call (ι α : Type) where
  address : ι
  node : α
  answer : Bool

section Trees

variable {α κ ι : Type}

/-- The answers are those of the visitor, which knows the nodes that it has been shown before. -/
def Answered (visitor : List α → α → Bool) : List α → List (Call ι α) → Prop
  | _, [] => True
  | before, c :: calls =>
    c.answer = visitor before c.node ∧ Answered visitor (before ++ [c.node]) calls

theorem answered_append {visitor : List α → α → Bool} {before : List α}
    {calls more : List (Call ι α)} :
    Answered visitor before (calls ++ more) ↔
      Answered visitor before calls ∧ Answered visitor (before ++ calls.map (·.node)) more := by
  induction calls generalizing before with
  | nil => simp [Answered]
  | cons c calls ih => simp [Answered, ih, and_assoc]

/-- The same call, at another address. -/
def Call.move (f : ι → κ) (c : Call ι α) : Call κ α :=
  ⟨f c.address, c.node, c.answer⟩

@[simp] theorem map_node_move (f : ι → κ) (calls : List (Call ι α)) :
    (calls.map (Call.move f)).map (·.node) = calls.map (·.node) :=
  List.map_map

@[simp] theorem answered_move {visitor : List α → α → Bool} {before : List α} {f : ι → κ}
    {calls : List (Call ι α)} :
    Answered visitor before (calls.map (.move f)) ↔ Answered visitor before calls := by
  induction calls generalizing before with
  | nil => exact Iff.rfl
  | cons c calls ih => simp [Answered, ih, Call.move]

/-- The nodes shown by walks over several trees in turn, each with those of the walks before. -/
def tourAll (tour : List α → α → List α) (before : List α) (es : List α) : List α :=
  es.foldl (fun shown e => shown ++ tour (before ++ shown) e) []

theorem tourAll_concat (tour : List α → α → List α) (before : List α) (es : List α) (e : α) :
    tourAll tour before (es ++ [e])
      = tourAll tour before es ++ tour (before ++ tourAll tour before es) e := by
  simp [tourAll]

/-- Walks of visitors without a memory do not depend on each other. -/
theorem tourAll_eq_flatMap {tour : List α → α → List α} {walk : α → List α} {es : List α}
    (h : ∀ e ∈ es, ∀ before, tour before e = walk e) (before : List α) :
    tourAll tour before es = es.flatMap walk := by
  induction es using List.reverseRecOn with
  | nil => rfl
  | append_singleton es e ih =>
      have hfirst := ih fun c hc => h c (List.mem_append_left _ hc)
      have hlast := h e (List.mem_append_right _ (List.mem_singleton.2 rfl))
      rw [tourAll_concat, hfirst, hlast, List.flatMap_append, List.flatMap_singleton]

/-! ## Addresses -/

variable (children : α → List α)

/-- What stands at an address. -/
def follow : List Nat → α → Option α
  | [], e => some e
  | i :: p, e => (children e)[i]? >>= follow p

/-- The second address leads to something properly below what the first one leads to. -/
def Below (q p : List Nat) : Prop :=
  q <+: p ∧ q ≠ p

theorem not_below_nil (q : List Nat) : ¬ Below q [] :=
  fun h => h.2 (List.prefix_nil.1 h.1)

theorem below_cons_iff {i j : Nat} {p q : List Nat} :
    Below (j :: q) (i :: p) ↔ j = i ∧ Below q p := by
  simp only [Below, List.cons_prefix_cons, ne_eq, List.cons.injEq]
  constructor
  · rintro ⟨⟨rfl, hpre⟩, hne⟩
    exact ⟨rfl, hpre, fun h => hne ⟨rfl, h⟩⟩
  · rintro ⟨rfl, hpre, hne⟩
    exact ⟨⟨rfl, hpre⟩, fun h => hne h.2⟩

/-- The calls of a walk over a tree: in the order of addresses, with the nodes that stand there, and
    at all addresses that are not below one with a refusal. -/
structure Tours (e : α) (calls : List (Call (List Nat) α)) : Prop where
  ordered : calls.Pairwise fun c d => c.address < d.address
  placed : ∀ c ∈ calls, follow children c.address e = some c.node
  complete : ∀ p n, follow children p e = some n →
    (p ∈ calls.map (·.address) ↔ ∀ c ∈ calls, Below c.address p → c.answer = true)

/-- The calls of walks over several trees, which are told apart by keys. -/
structure ToursAll (lt : κ → κ → Prop) (roots : List (κ × α))
    (calls : List (Call (κ × List Nat) α)) : Prop where
  ordered : calls.Pairwise fun c d => Prod.Lex lt (· < ·) c.address d.address
  placed : ∀ c ∈ calls, ∃ root, (c.address.1, root) ∈ roots ∧
    follow children c.address.2 root = some c.node
  complete : ∀ k root p n, (k, root) ∈ roots → follow children p root = some n →
    ((k, p) ∈ calls.map (·.address) ↔
      ∀ c ∈ calls, c.address.1 = k → Below c.address.2 p → c.answer = true)

variable {children}

theorem toursAll_nil (lt : κ → κ → Prop) : ToursAll children lt [] [] :=
  ⟨.nil, by simp, by simp⟩

theorem ToursAll.concat {lt : κ → κ → Prop} {roots : List (κ × α)}
    {calls : List (Call (κ × List Nat) α)} (h : ToursAll children lt roots calls) {k : κ} {root : α}
    {more : List (Call (List Nat) α)} (hmore : Tours children root more)
    (hlt : ∀ x ∈ roots, lt x.1 k) (hirrefl : ¬ lt k k) :
    ToursAll children lt (roots ++ [(k, root)]) (calls ++ more.map (.move (k, ·))) := by
  -- the calls so far have other keys
  have hkey : ∀ c ∈ calls, lt c.address.1 k := by
    intro c hc
    obtain ⟨r, hr, -⟩ := h.placed c hc
    exact hlt _ hr
  have hne : ∀ c ∈ calls, c.address.1 ≠ k := fun c hc heq => hirrefl (heq ▸ hkey c hc)
  refine ⟨?_, ?_, ?_⟩
  · refine List.pairwise_append.2 ⟨h.ordered, ?_, ?_⟩
    · exact List.pairwise_map.2 (hmore.ordered.imp fun hlt => .right k hlt)
    · intro c hc d hd
      obtain ⟨d, -, rfl⟩ := List.mem_map.1 hd
      exact .left _ _ (hkey c hc)
  · intro c hc
    rcases List.mem_append.1 hc with hc | hc
    · obtain ⟨r, hr, hfollow⟩ := h.placed c hc
      exact ⟨r, List.mem_append_left _ hr, hfollow⟩
    · obtain ⟨d, hd, rfl⟩ := List.mem_map.1 hc
      exact ⟨root, List.mem_append_right _ (List.mem_singleton.2 rfl), hmore.placed d hd⟩
  · intro k' r p n hr hfollow
    simp only [List.map_append, List.mem_append, List.map_map, List.mem_map, or_imp, forall_and,
      forall_exists_index, and_imp, forall_apply_eq_imp_iff₂, Function.comp_apply, Call.move,
      Prod.mk.injEq]
    -- only calls with the key of the tree can refuse what is in it
    rcases List.mem_append.1 hr with hr | hr
    · have hk' : k ≠ k' := fun heq => hirrefl (heq ▸ hlt _ hr)
      simpa [hk'] using h.complete k' r p n hr hfollow
    · obtain ⟨rfl, rfl⟩ := Prod.mk.inj (List.mem_singleton.1 hr)
      have hold : ¬ ∃ c ∈ calls, c.address = (k', p) := by
        rintro ⟨c, hc, heq⟩
        exact hne c hc (congrArg Prod.fst heq)
      simpa +contextual [hne, hold] using hmore.complete p n hfollow

/-- If each tree has a walk with the right calls, then so do all of them in turn. -/
theorem exists_toursAll {visitor : List α → α → Bool} {tour : List α → α → List α}
    {lt : κ → κ → Prop} (hirrefl : ∀ k, ¬ lt k k) {roots : List (κ × α)}
    (hroots : roots.Pairwise fun x y => lt x.1 y.1)
    (h : ∀ x ∈ roots, ∀ before, ∃ calls, Tours children x.2 calls ∧
      Answered visitor before calls ∧ calls.map (·.node) = tour before x.2) (before : List α) :
    ∃ calls, ToursAll children lt roots calls ∧ Answered visitor before calls ∧
      calls.map (·.node) = tourAll tour before (roots.map (·.2)) := by
  induction roots using List.reverseRecOn with
  | nil => exact ⟨[], toursAll_nil lt, trivial, rfl⟩
  | append_singleton roots x ih =>
      obtain ⟨hroots, -, hlt⟩ := List.pairwise_append.1 hroots
      obtain ⟨calls, hcalls, hanswered, hnodes⟩ :=
        ih hroots fun y hy => h y (List.mem_append_left _ hy)
      -- the last walk starts when all the others have been shown
      obtain ⟨more, hmore, hanswered', hnodes'⟩ :=
        h x (List.mem_append_right _ (List.mem_singleton.2 rfl)) (before ++ calls.map (·.node))
      refine ⟨calls ++ more.map (.move (x.1, ·)),
        hcalls.concat hmore (fun y hy => ?_) (hirrefl x.1), answered_append.2 ⟨hanswered, ?_⟩, ?_⟩
      · exact hlt y hy x (List.mem_singleton.2 rfl)
      · exact answered_move.2 hanswered'
      · rw [List.map_append, map_node_move, hnodes', hnodes, List.map_append, List.map_singleton,
          tourAll_concat]

/-- The children of a node, with their numbers as keys. -/
def numbered (es : List α) : List (Nat × α) :=
  es.zipIdx.map fun x => (x.2, x.1)

theorem mem_numbered_iff {es : List α} {i : Nat} {e : α} :
    (i, e) ∈ numbered es ↔ es[i]? = some e := by
  simp [numbered, List.mem_zipIdx_iff_getElem?]

theorem pairwise_numbered (es : List α) : (numbered es).Pairwise fun x y => x.1 < y.1 := by
  have hkeys : (numbered es).map (·.1) = List.range' 0 es.length := by
    rw [numbered, List.map_map, ← List.zipIdx_map_snd 0 es]
    rfl
  exact List.pairwise_map.1 (hkeys ▸ List.pairwise_lt_range' 1)

@[simp] theorem map_snd_numbered (es : List α) : (numbered es).map (·.2) = es := by
  rw [numbered, List.map_map]
  exact List.zipIdx_map_fst 0 es

/-- A walk that is refused at the root. -/
theorem tours_refused (e : α) : Tours children e [⟨[], e, false⟩] := by
  refine ⟨List.pairwise_singleton _ _, ?_, ?_⟩
  · intro c hc
    cases List.mem_singleton.1 hc
    rfl
  · intro p n _
    cases p with
    | nil => simp [not_below_nil]
    | cons i p => simp [Below]

/-- A walk that goes on from the root to all children. -/
theorem ToursAll.tours {e : α} {calls : List (Call (Nat × List Nat) α)}
    (h : ToursAll children (· < ·) (numbered (children e)) calls) :
    Tours children e (⟨[], e, true⟩ :: calls.map (.move fun x => x.1 :: x.2)) := by
  refine ⟨?_, ?_, ?_⟩
  · refine List.pairwise_cons.2 ⟨?_, List.pairwise_map.2 (h.ordered.imp ?_)⟩
    · intro c hc
      obtain ⟨d, -, rfl⟩ := List.mem_map.1 hc
      exact List.nil_lt_cons _ _
    · intro c d hlt
      exact List.cons_lt_cons_iff.2 (Prod.lex_def.1 hlt)
  · intro c hc
    rcases List.mem_cons.1 hc with rfl | hc
    · rfl
    · obtain ⟨d, hd, rfl⟩ := List.mem_map.1 hc
      obtain ⟨root, hroot, hfollow⟩ := h.placed d hd
      exact Option.bind_eq_some_iff.2 ⟨root, mem_numbered_iff.1 hroot, hfollow⟩
  · intro p n hfollow
    cases p with
    | nil => simp [not_below_nil]
    | cons i p =>
        obtain ⟨root, hroot, hfollow⟩ := Option.bind_eq_some_iff.1 hfollow
        have hcomplete := h.complete i root p n (mem_numbered_iff.2 hroot) hfollow
        simp only [List.mem_map, Prod.ext_iff] at hcomplete
        simpa [Call.move, below_cons_iff] using hcomplete

/-- A walk that follows the answers of the visitor makes the right calls. -/
theorem exists_tours (visitor : List α → α → Bool) (tour : List α → α → List α) (Good : α → Prop)
    (induct : ∀ {P : α → Prop}, (∀ e, (∀ c ∈ children e, P c) → P e) → ∀ e, P e)
    (hgood : ∀ e, Good e → ∀ c ∈ children e, Good c)
    (htour : ∀ before e, Good e → tour before e
      = e :: if visitor before e then tourAll tour (before ++ [e]) (children e) else [])
    {e : α} (he : Good e) (before : List α) :
    ∃ calls, Tours children e calls ∧ Answered visitor before calls ∧
      calls.map (·.node) = tour before e := by
  induction e using induct generalizing before with
  | _ e ih =>
    cases hanswer : visitor before e with
    | false =>
        refine ⟨[⟨[], e, false⟩], tours_refused e, ⟨hanswer.symm, trivial⟩, ?_⟩
        simp [htour before e he, hanswer]
    | true =>
        have hchild : ∀ x ∈ numbered (children e), ∀ before, ∃ calls, Tours children x.2 calls ∧
            Answered visitor before calls ∧ calls.map (·.node) = tour before x.2 := by
          intro x hx before
          have hmem : x.2 ∈ children e := List.mem_of_getElem? (mem_numbered_iff.1 hx)
          exact ih x.2 hmem (hgood e he x.2 hmem) before
        -- the node itself has been shown before its children
        obtain ⟨calls, hcalls, hanswered, hnodes⟩ := exists_toursAll Nat.lt_irrefl
          (pairwise_numbered (children e)) hchild (before ++ [e])
        refine ⟨⟨[], e, true⟩ :: calls.map (.move fun x => x.1 :: x.2), hcalls.tours,
          ⟨hanswer.symm, ?_⟩, ?_⟩
        · exact answered_move.2 hanswered
        · rw [List.map_cons, map_node_move, hnodes, map_snd_numbered, htour before e he,
            if_pos hanswer]

theorem Answered.answer_eq_true {before : List α} {calls : List (Call ι α)}
    (h : Answered (fun _ _ => true) before calls) : ∀ c ∈ calls, c.answer = true := by
  induction calls generalizing before with
  | nil => simp
  | cons c calls ih => exact List.forall_mem_cons.2 ⟨h.1, ih h.2⟩

end Trees

/-! ## Actions -/

namespace Action

/-- The action at an address. -/
def at? (a : Action) (q : List Nat) : Option Action :=
  follow parts q a

/-- The list in pre-order has each of the actions once. -/
theorem exists_calls (a : Action) :
    ∃ calls, Tours parts a calls ∧ Answered (fun _ _ => true) [] calls ∧
      calls.map (·.node) = a.preorder := by
  refine exists_tours (fun _ _ => true) (fun _ => preorder) (fun _ => True) parts_induction
    (fun _ _ _ _ => trivial) (fun before a _ => ?_) trivial []
  have hbelow : tourAll (fun _ => preorder) (before ++ [a]) a.parts
      = a.parts.flatMap preorder := by
    refine tourAll_eq_flatMap ?_ _
    exact fun _ _ _ => rfl
  rw [if_pos rfl, hbelow, preorder_eq]

end Action

/-! ## Expressions -/

namespace Expr

theorem inOrder_induction {P : Expr → Prop} (step : ∀ e, (∀ c ∈ e.inOrder, P c) → P e)
    (e : Expr) : P e := by
  induction e using children_induction with
  | step e ih => exact step e fun c hc => ih c (e.perm_inOrder.mem_iff.1 hc)

/-- The node at an address. -/
def at? (e : Expr) (p : List Nat) : Option Expr :=
  follow inOrder p e

/-- The nodes that a walk shows to a visitor which has been shown `before`. The walk goes on below a
    node if the visitor says so. -/
def tour (visitor : List Expr → Expr → Bool) (before : List Expr) (e : Expr) : List Expr :=
  e :: if visitor before e then
    e.visited.attach.foldl (fun shown c => shown ++ tour visitor (before ++ [e] ++ shown) c.1) []
  else []
termination_by sizeOf e
decreasing_by exact sizeOf_lt_of_mem_children (mem_children_of_mem_visited c.2)

theorem tour_eq (visitor : List Expr → Expr → Bool) (before : List Expr) (e : Expr) :
    e.tour visitor before
      = e :: if visitor before e then tourAll (tour visitor) (before ++ [e]) e.visited else [] := by
  rw [tour, tourAll,
    List.foldl_attach (f := fun shown c => shown ++ tour visitor (before ++ [e] ++ shown) c)]

/-- A walk that is told beforehand where to go on has a visitor without a memory. -/
theorem walk_eq_tour (descend : Expr → Bool) (before : List Expr) (e : Expr) :
    e.walk descend = e.tour (fun _ => descend) before := by
  induction e using children_induction generalizing before with
  | step e ih =>
      have hbelow : tourAll (tour fun _ => descend) (before ++ [e]) e.visited
          = e.visited.flatMap (walk descend) := by
        refine tourAll_eq_flatMap (fun c hc before => ?_) _
        exact (ih c (mem_children_of_mem_visited hc) before).symm
      rw [walk_eq, tour_eq, hbelow]

/-- In no chain of the expression a condition or a branch has no partner. -/
def AllPaired (e : Expr) : Prop :=
  ∀ m : Expr, m.Node e → m.Paired

/-- Where nothing lacks a partner, a walk shows each occurrence of a node once. -/
theorem AllPaired.exists_calls {e : Expr} (h : e.AllPaired) (visitor : List Expr → Expr → Bool)
    (before : List Expr) :
    ∃ calls, Tours inOrder e calls ∧ Answered visitor before calls ∧
      calls.map (·.node) = e.tour visitor before := by
  refine exists_tours visitor (tour visitor) AllPaired inOrder_induction ?_ ?_ h before
  · intro e he c hc m hm
    exact he m (.inside (e.perm_inOrder.mem_iff.1 hc) hm)
  · intro before e he
    rw [tour_eq, visited_eq_inOrder (he e .here)]

end Expr

/-! ## Bodies -/

namespace Body

/-- The action at an address; a requirement has none. -/
def actionAt? : Body → List Nat → Option Action
  | .requirement _, _ => none
  | .actions a, q => a.at? q

/-- The expression that the action at an address holds under a number. A requirement counts as the
    only expression of an action. -/
def rootAt? : Body → List Nat × Nat → Option Expr
  | .requirement e, k => if k = ([], 0) then some e else none
  | .actions a, k => a.at? k.1 >>= fun part => part.held[k.2]?

/-- The address of a node: that of an action, the number of one of its expressions, and the address
    of the node in this expression. -/
abbrev Address := (List Nat × Nat) × List Nat

/-- The node at an address. -/
def exprAt? (b : Body) (x : Address) : Option Expr :=
  b.rootAt? x.1 >>= fun e => e.at? x.2

/-- Earlier actions come first, then earlier expressions of an action, then earlier nodes. -/
def Address.Before : Address → Address → Prop :=
  Prod.Lex (Prod.Lex (· < ·) (· < ·)) (· < ·)

/-- The nodes of a body that a walk shows to a visitor. -/
def tour (visitor : List Expr → Expr → Bool) (b : Body) : List Expr :=
  tourAll (Expr.tour visitor) [] b.tops

/-- The calls of a walk over a body: with the answers of the visitor, in the order of addresses,
    with the nodes that stand there, and at all addresses that are not below one with a refusal. -/
structure Visits (b : Body) (visitor : List Expr → Expr → Bool) (calls : List (Call Address Expr)) :
    Prop where
  answered : Answered visitor [] calls
  ordered : calls.Pairwise fun c d => c.address.Before d.address
  placed : ∀ c ∈ calls, b.exprAt? c.address = some c.node
  complete : ∀ x n, b.exprAt? x = some n → (x ∈ calls.map (·.address) ↔
    ∀ c ∈ calls, c.address.1 = x.1 → Below c.address.2 x.2 → c.answer = true)

/-- The expressions at the top of a body or held by its actions, with their addresses. -/
theorem exists_keyed_roots (b : Body) : ∃ roots : List ((List Nat × Nat) × Expr),
    roots.Pairwise (fun x y => Prod.Lex (· < ·) (· < ·) x.1 y.1) ∧
    (∀ k e, (k, e) ∈ roots ↔ b.rootAt? k = some e) ∧ roots.map (·.2) = b.tops := by
  cases b with
  | requirement e =>
      refine ⟨[(([], 0), e)], List.pairwise_singleton _ _, fun k e' => ?_, rfl⟩
      simp [rootAt?, eq_comm]
  | actions a =>
      obtain ⟨calls, hcalls, hanswered, hnodes⟩ := a.exists_calls
      refine ⟨calls.flatMap fun c => (numbered c.node.held).map fun x => ((c.address, x.1), x.2),
        List.pairwise_flatMap.2 ⟨fun c _ => ?_, hcalls.ordered.imp fun hlt => ?_⟩,
        fun k e => ?_, ?_⟩
      · exact List.pairwise_map.2 ((pairwise_numbered _).imp fun hlt => .right _ hlt)
      · intro x hx y hy
        obtain ⟨x, -, rfl⟩ := List.mem_map.1 hx
        obtain ⟨y, -, rfl⟩ := List.mem_map.1 hy
        exact .left _ _ hlt
      · simp only [List.mem_flatMap, List.mem_map, rootAt?, Option.bind_eq_bind,
          Option.bind_eq_some_iff]
        constructor
        · rintro ⟨c, hc, ⟨i, e'⟩, hx, heq⟩
          cases heq
          exact ⟨c.node, hcalls.placed c hc, mem_numbered_iff.1 hx⟩
        · rintro ⟨part, hpart, he⟩
          obtain ⟨c, hc, hq⟩ := List.mem_map.1
            ((hcalls.complete k.1 part hpart).2 fun c hc _ => hanswered.answer_eq_true c hc)
          obtain rfl : c.node = part := Option.some.inj ((hq ▸ hcalls.placed c hc).symm.trans hpart)
          exact ⟨c, hc, (k.2, e), mem_numbered_iff.2 he, by rw [hq]⟩
      · have hnumbered : ∀ c : Call (List Nat) Action,
            ((numbered c.node.held).map fun x => ((c.address, x.1), x.2)).map (·.2)
              = c.node.held := fun c => by
          rw [List.map_map]
          exact map_snd_numbered _
        simp only [List.map_flatMap, hnumbered, tops, ← hnodes, List.flatMap_map]

variable {b : Body}

/-- Where nothing lacks a partner, a walk makes the right calls. -/
theorem exists_visits (h : b.Paired) (visitor : List Expr → Expr → Bool) :
    ∃ calls, b.Visits visitor calls ∧ calls.map (·.node) = b.tour visitor := by
  obtain ⟨roots, hordered, hmem, hroots⟩ := b.exists_keyed_roots
  have hirrefl : ∀ k : List Nat × Nat, ¬ Prod.Lex (· < ·) (· < ·) k k := by
    intro k hk
    rcases Prod.lex_def.1 hk with hlt | ⟨-, hlt⟩
    · exact List.lt_irrefl _ hlt
    · exact Nat.lt_irrefl _ hlt
  have hpaired : ∀ x ∈ roots, x.2.AllPaired := by
    intro x hx m hm
    exact h m (hasNode_iff.2 ⟨x.2, hroots ▸ List.mem_map_of_mem hx, hm⟩)
  obtain ⟨calls, hcalls, hanswered, hnodes⟩ := exists_toursAll hirrefl hordered
    (fun x hx => (hpaired x hx).exists_calls visitor) []
  refine ⟨calls, ⟨hanswered, hcalls.ordered, fun c hc => ?_, fun x n hx => ?_⟩, ?_⟩
  · obtain ⟨root, hroot, hfollow⟩ := hcalls.placed c hc
    exact Option.bind_eq_some_iff.2 ⟨root, (hmem _ _).1 hroot, hfollow⟩
  · obtain ⟨root, hroot, hfollow⟩ := Option.bind_eq_some_iff.1 hx
    exact hcalls.complete x.1 root x.2 n ((hmem _ _).2 hroot) hfollow
  · rw [hnodes, hroots, tour]

theorem walk_eq_tour (descend : Expr → Bool) (b : Body) :
    b.walk descend = b.tour fun _ => descend := by
  rw [walk, roots_eq]
  refine (tourAll_eq_flatMap (fun e _ before => ?_) []).symm
  exact (e.walk_eq_tour descend before).symm

/-- A walk that goes on everywhere comes to every address. -/
theorem Visits.mem_addresses_iff {calls : List (Call Address Expr)}
    (h : b.Visits (fun _ _ => true) calls) {x : Address} :
    x ∈ calls.map (·.address) ↔ (b.exprAt? x).isSome := by
  rw [Option.isSome_iff_exists]
  constructor
  · intro hx
    obtain ⟨c, hc, rfl⟩ := List.mem_map.1 hx
    exact ⟨c.node, h.placed c hc⟩
  · rintro ⟨n, hn⟩
    exact (h.complete x n hn).2 fun c hc _ _ => h.answered.answer_eq_true c hc

/-- The actions of a body by their addresses. -/
theorem exists_action_addresses (b : Body) : ∃ addresses : List (List Nat),
    addresses.Pairwise (· < ·) ∧ (∀ q, q ∈ addresses ↔ (b.actionAt? q).isSome) ∧
    addresses.map b.actionAt? = b.actionNodes.map some := by
  cases b with
  | requirement e => exact ⟨[], .nil, by simp [actionAt?], rfl⟩
  | actions a =>
      obtain ⟨calls, hcalls, hanswered, hnodes⟩ := a.exists_calls
      refine ⟨calls.map (·.address), List.pairwise_map.2 hcalls.ordered, fun q => ?_, ?_⟩
      · rw [Option.isSome_iff_exists]
        constructor
        · intro hq
          obtain ⟨c, hc, rfl⟩ := List.mem_map.1 hq
          exact ⟨c.node, hcalls.placed c hc⟩
        · rintro ⟨part, hpart⟩
          exact (hcalls.complete q part hpart).2 fun c hc _ => hanswered.answer_eq_true c hc
      · rw [actionNodes_eq, actionsInOrder, ← hnodes, List.map_map, List.map_map]
        exact List.map_congr_left hcalls.placed

end Body

/-- In a body of the right shape walks visit everything exactly once. The actions are listed in the
    order of their addresses, and each address once. A visitor is called in the order of addresses
    on exactly the nodes that are not below one that it has refused, whatever its answers depend on;
    one that goes on everywhere is called on every occurrence of a node. The walk with fixed answers
    is the walk of a visitor that gives them. -/
theorem walks_visit_each_once (b : Body) (h : b.misshapen? = none) :
    (∃ addresses : List (List Nat), addresses.Pairwise (· < ·) ∧
      (∀ q, q ∈ addresses ↔ (b.actionAt? q).isSome) ∧
      addresses.map b.actionAt? = b.actionNodes.map some) ∧
    (∀ visitor, ∃ calls, b.Visits visitor calls ∧ calls.map (·.node) = b.tour visitor) ∧
    (∃ calls, b.Visits (fun _ _ => true) calls ∧ calls.map (·.node) = b.nodes ∧
      ∀ x, x ∈ calls.map (·.address) ↔ (b.exprAt? x).isSome) ∧
    ∀ descend, b.walk descend = b.tour fun _ => descend := by
  have hpaired := Body.paired_of_shape h
  refine ⟨b.exists_action_addresses, Body.exists_visits hpaired, ?_, b.walk_eq_tour⟩
  obtain ⟨calls, hcalls, hnodes⟩ := Body.exists_visits hpaired fun _ _ => true
  refine ⟨calls, hcalls, ?_, fun x => hcalls.mem_addresses_iff⟩
  rw [hnodes, Body.nodes, Body.walk_eq_tour]

/-- Light a lamp and ring if there is a bell. -/
def lampBody : Body :=
  .actions (.sequence [.set ⟨"light", none⟩ (.binOp (.int 1) .add (.int 2)),
    .call "ring" [.not (.hasItem "Bell")]])

/-- A visitor that does not want to go on below a sum. -/
theorem sum_refused :
    lampBody.misshapen? = none ∧
    (∃ calls, lampBody.Visits (fun _ e => e.kind != "BinOp") calls ∧ calls.map (·.node)
      = [.binOp (.int 1) .add (.int 2), .not (.hasItem "Bell"), .hasItem "Bell"]) ∧
    ∃ calls, lampBody.Visits (fun _ _ => true) calls ∧
      calls.map (·.node) = [.binOp (.int 1) .add (.int 2), .int 1, .int 2, .not (.hasItem "Bell"),
        .hasItem "Bell"] := by
  have hshape : lampBody.misshapen? = none := rfl
  obtain ⟨-, hvisits, ⟨calls, hcalls, hnodes, -⟩, hwalk⟩ := walks_visit_each_once lampBody hshape
  obtain ⟨fewer, hsome, hrefused⟩ := hvisits fun _ e => e.kind != "BinOp"
  exact ⟨hshape, ⟨fewer, hsome, hrefused.trans (hwalk fun e => e.kind != "BinOp").symm⟩,
    calls, hcalls, hnodes⟩

end AccessRules
