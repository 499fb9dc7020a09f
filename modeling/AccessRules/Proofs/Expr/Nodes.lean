import AccessRules.Expr.Shape
import AccessRules.Proofs.Expr.Children

set_option autoImplicit false

/-! # The nodes of a tree

`Expr.Node` and `Action.Part` say which nodes a tree has: the tree itself and those of everything
directly below it. `Expr.preorder`, `Action.preorder` and `Body.reached` list nodes by recursion on
what stands directly below a node, in the order in which passes are to come to them, and the walks
give these lists. A walk over actions comes to all of them. A walk over an expression leaves out
conditions and branches without a partner; in a body of the shape that every pass relies on there
are none, so there too it comes to all nodes. -/

namespace AccessRules

/-- The names in a reference: its own, and that of the reference that it is qualified with. -/
def Reference.mentioned : Reference → List String
  | ⟨name, some (.ref q)⟩ => [name, q]
  | ⟨name, _⟩ => [name]

theorem Reference.names_eq (r : Reference) : r.names = r.mentioned := by
  obtain ⟨name, _ | q | path⟩ := r <;> rfl

/-! ## Orders of the children of a node -/

namespace Expr

/-- Conditions and branches in the order in which they are read, each condition before its branch.
    Nothing is left out. -/
def arms : List Expr → List Expr → List Expr
  | c :: conds, b :: branches => c :: b :: arms conds branches
  | [], branches => branches
  | conds, [] => conds

/-- The children of a node in the order in which they are read. -/
def inOrder : Expr → List Expr
  | .ifThenElse conds branches otherwise => arms conds branches ++ otherwise.toList
  | e => e.children

/-- The children of a node that a walk goes on to. In a chain of conditions what has no partner is
    left out. -/
def visited : Expr → List Expr
  | .ifThenElse conds branches otherwise =>
    ((conds.zip branches).flatMap fun arm => [arm.1, arm.2]) ++ otherwise.toList
  | e => e.children

theorem perm_arms (conds branches : List Expr) :
    (arms conds branches).Perm (conds ++ branches) := by
  fun_induction arms conds branches with
  | case1 c conds b branches ih =>
      exact ((ih.cons b).trans List.perm_middle.symm).cons c
  | case2 branches => exact .refl _
  | case3 conds _ => rw [List.append_nil]

/-- Reading order is an order of all children. -/
theorem perm_inOrder (e : Expr) : e.inOrder.Perm e.children := by
  cases e with
  | ifThenElse conds branches otherwise => exact (perm_arms conds branches).append_right _
  | _ => exact .refl _

theorem arms_eq_of_length {conds branches : List Expr} (h : conds.length = branches.length) :
    ((conds.zip branches).flatMap fun arm => [arm.1, arm.2]) = arms conds branches := by
  fun_induction arms conds branches with
  | case1 c conds b branches ih => rw [← ih (Nat.succ.inj h)]; rfl
  | case2 branches => rw [List.length_eq_zero_iff.1 h.symm]; rfl
  | case3 conds _ => rw [List.length_eq_zero_iff.1 h]; rfl

theorem eq_of_chainFault? {conds branches : Nat} (h : chainFault? conds branches = none) :
    conds = branches := by
  by_contra hne
  simp [chainFault?, hne] at h

/-- The node is no chain in which a condition or a branch has no partner. -/
def Paired : Expr → Prop
  | .ifThenElse conds branches _ => conds.length = branches.length
  | _ => True

theorem paired_of_shape {e : Expr} (h : e.shapeFault? = none) : e.Paired := by
  cases e with
  | ifThenElse conds branches otherwise => exact eq_of_chainFault? h
  | _ => trivial

/-- A walk goes on to all children of a node in which nothing lacks a partner, in reading order. -/
theorem visited_eq_inOrder {e : Expr} (h : e.Paired) : e.visited = e.inOrder := by
  cases e with
  | ifThenElse conds branches otherwise =>
      exact congrArg (· ++ otherwise.toList) (arms_eq_of_length h)
  | _ => rfl

theorem perm_visited {e : Expr} (h : e.Paired) : e.visited.Perm e.children := by
  rw [visited_eq_inOrder h]
  exact e.perm_inOrder

theorem mem_children_of_mem_visited {c e : Expr} (h : c ∈ e.visited) : c ∈ e.children := by
  cases e with
  | ifThenElse conds branches otherwise =>
      rcases List.mem_append.1 h with h | h
      · obtain ⟨⟨cond, branch⟩, harm, hc⟩ := List.mem_flatMap.1 h
        obtain ⟨hcond, hbranch⟩ := List.of_mem_zip harm
        rcases List.mem_cons.1 hc with rfl | hc
        · simp [children, hcond]
        · obtain rfl := List.mem_singleton.1 hc
          simp [children, hbranch]
      · exact List.mem_append_right _ h
  | _ => exact h

/-! ## Lists of nodes -/

/-- The nodes of an expression in pre-order: the expression itself, then those of each child that a
    walk goes on to. -/
def preorder (e : Expr) : List Expr :=
  e :: (e.visited.attach.map fun c => preorder c.1).flatten
termination_by sizeOf e
decreasing_by exact sizeOf_lt_of_mem_children (mem_children_of_mem_visited c.2)

theorem preorder_eq (e : Expr) : e.preorder = e :: e.visited.flatMap preorder := by
  rw [preorder, List.attach_map_val, List.flatMap_def]

theorem self_mem_preorder (e : Expr) : e ∈ e.preorder := by
  rw [preorder_eq]
  exact List.mem_cons_self ..

theorem preorder_subset_of_mem_visited {c e : Expr} (h : c ∈ e.visited) :
    c.preorder ⊆ e.preorder := by
  intro n hn
  rw [preorder_eq e]
  exact List.mem_cons_of_mem _ (List.mem_flatMap.2 ⟨c, h, hn⟩)

theorem mem_preorder_of_visited {e n c : Expr} (h : n ∈ e.preorder) (hc : c ∈ n.visited) :
    c ∈ e.preorder := by
  induction e using children_induction with
  | step e ih =>
      rw [preorder_eq] at h
      rcases List.mem_cons.1 h with rfl | h
      · exact preorder_subset_of_mem_visited hc c.self_mem_preorder
      · obtain ⟨d, hd, hn⟩ := List.mem_flatMap.1 h
        exact preorder_subset_of_mem_visited hd (ih d (mem_children_of_mem_visited hd) hn)

/-! ## Walks over expressions -/

theorem walkAll_eq_map (descend : Expr → Bool) (es : List Expr) :
    walkAll descend es = es.map (walk descend) := by
  induction es with
  | nil => rfl
  | cons e es ih => rw [walkAll, ih, List.map_cons]

theorem walkCounts_eq_map (descend : Expr → Bool) (cases : List (Int64 × Expr)) :
    walkCounts descend cases = (cases.map (·.2)).map (walk descend) := by
  induction cases with
  | nil => rfl
  | cons c cases ih => rw [walkCounts, ih, List.map_cons, List.map_cons]

theorem walkOptions_eq_map (descend : Expr → Bool) (cases : List (Literal × Expr)) :
    walkOptions descend cases = (cases.map (·.2)).map (walk descend) := by
  induction cases with
  | nil => rfl
  | cons c cases ih => rw [walkOptions, ih, List.map_cons, List.map_cons]

theorem flatten_zipWith_append (f : Expr → List Expr) (conds branches : List Expr) :
    (List.zipWith (fun c b => f c ++ f b) conds branches).flatten
      = ((conds.zip branches).flatMap fun arm => [arm.1, arm.2]).flatMap f := by
  induction conds generalizing branches with
  | nil => rfl
  | cons c conds ih =>
      cases branches with
      | nil => rfl
      | cons b branches => simp [ih]

/-- A walk lists a node and then, if it may, goes on to children of the node. -/
theorem walk_eq (descend : Expr → Bool) (e : Expr) :
    e.walk descend = e :: if descend e then e.visited.flatMap (walk descend) else [] := by
  cases e with
  | ifThenElse conds branches otherwise =>
      cases otherwise with
      | none =>
          rw [walk, walkAll_eq_map, walkAll_eq_map, List.zipWith_map, flatten_zipWith_append]
          simp [visit, visited]
      | some o =>
          rw [walk, walkAll_eq_map, walkAll_eq_map, List.zipWith_map, flatten_zipWith_append]
          simp [visit, visited]
  | invoke func args negated =>
      simp [walk, visit, walkAll_eq_map, visited, children, List.flatMap_def]
  | call func args => simp [walk, visit, walkAll_eq_map, visited, children, List.flatMap_def]
  | perItem item cases d =>
      simp [walk, visit, walkCounts_eq_map, visited, children, List.flatMap_def]
  | perSetting setting cases d =>
      simp [walk, visit, walkOptions_eq_map, visited, children, List.flatMap_def]
  | _ => simp [walk, visit, visited, children]

/-- A walk that is never refused lists the nodes in pre-order. -/
theorem walk_eq_preorder (e : Expr) : e.walk (fun _ => true) = e.preorder := by
  induction e using children_induction with
  | step e ih =>
      rw [walk_eq, if_pos rfl, preorder_eq]
      exact congrArg _ (List.flatMap_congr fun c hc => ih c (mem_children_of_mem_visited hc))

/-! ## Nodes of expressions -/

/-- The first expression is the second one or stands somewhere below it. -/
inductive Node (n : Expr) : Expr → Prop
  | here : Node n n
  | inside {c e : Expr} (hc : c ∈ e.children) (h : Node n c) : Node n e

theorem Node.child {n c e : Expr} (h : Node n e) (hc : c ∈ n.children) : Node c e := by
  induction h with
  | here => exact .inside hc .here
  | inside hc' _ ih => exact .inside hc' ih

theorem every_iff_forall_node {p : Expr → Prop} {e : Expr} : e.Every p ↔ ∀ n, Node n e → p n := by
  refine ⟨fun h n hn => ?_, fun h => ?_⟩
  · induction hn with
    | here => exact h.self
    | inside hc _ ih => exact ih (h.child hc)
  · induction e using children_induction with
    | step e ih => exact .node (h e .here) fun c hc => ih c hc fun n hn => h n (.inside hc hn)

theorem node_of_mem_preorder {n e : Expr} (h : n ∈ e.preorder) : Node n e := by
  induction e using children_induction with
  | step e ih =>
      rw [preorder_eq] at h
      rcases List.mem_cons.1 h with rfl | h
      · exact .here
      · obtain ⟨c, hc, hn⟩ := List.mem_flatMap.1 h
        have hchild := mem_children_of_mem_visited hc
        exact .inside hchild (ih c hchild hn)

/-- Where nothing listed lacks a partner, all nodes are listed. -/
theorem mem_preorder_of_node {n e : Expr} (hn : Node n e) (h : ∀ m ∈ e.preorder, m.Paired) :
    n ∈ e.preorder := by
  induction hn with
  | here => exact n.self_mem_preorder
  | @inside c e hc _ ih =>
      have hvisited := (perm_visited (h e e.self_mem_preorder)).mem_iff.2 hc
      have hsub := preorder_subset_of_mem_visited hvisited
      exact hsub (ih fun m hm => h m (hsub hm))

/-! ## References -/

/-- The references that a node holds itself, its children apart. -/
def references : Expr → List Reference
  | .refEq r _ (.ref other) => [r, other]
  | .refEq r _ _ => [r]
  | .refEqCall r _ _ => [r]
  | .argFlag r _ => [r]
  | .itemAtLeast _ (.ref r) => [r]
  | .hasArgItem r => [r]
  | .refInSet r _ => [r]
  | .within (.ref r) _ => [r]
  | .ref r => [r]
  | _ => []

theorem refNames_eq (e : Expr) : e.refNames = e.references.flatMap Reference.mentioned := by
  cases e with
  | refEq r op rhs => cases rhs <;> simp [refNames, references, Reference.names_eq]
  | within p negated => cases p <;> simp [refNames, references, Reference.names_eq]
  | itemAtLeast item t => cases t <;> simp [refNames, references, Reference.names_eq]
  | _ => simp [refNames, references, Reference.names_eq]

end Expr

/-! ## Parts of actions -/

namespace Action

/-- The actions directly below an action. -/
def parts : Action → List Action
  | .cond _ branches otherwise => branches ++ otherwise.toList
  | .sequence steps => steps
  | _ => []

theorem sizeOf_lt_of_mem_parts {b a : Action} (h : b ∈ a.parts) : sizeOf b < sizeOf a := by
  cases a with
  | cond conds branches otherwise =>
      simp only [Action.cond.sizeOf_spec]
      rcases List.mem_append.1 h with h | h
      · have hlt := List.sizeOf_lt_of_mem h
        omega
      · obtain rfl := Option.mem_toList.1 h
        simp only [Option.some.sizeOf_spec]
        omega
  | sequence steps =>
      have hlt : sizeOf b < sizeOf steps := List.sizeOf_lt_of_mem h
      simp only [Action.sequence.sizeOf_spec]
      omega
  | _ => cases h

theorem parts_induction {P : Action → Prop} (step : ∀ a, (∀ b ∈ a.parts, P b) → P a)
    (a : Action) : P a :=
  step a fun b _ => parts_induction step b
termination_by sizeOf a
decreasing_by exact sizeOf_lt_of_mem_parts ‹_›

/-- The expressions that an action holds itself, from left to right: a value, an amount, the
    conditions of a chain or the arguments of a call. -/
def held : Action → List Expr
  | .set _ value => [value]
  | .alter _ _ delta => [delta]
  | .swap _ _ => []
  | .cond conds _ _ => conds
  | .call _ args => args
  | .sequence _ => []

theorem exprs_eq_held (a : Action) : a.exprs = a.held := by
  cases a <;> rfl

/-- The references that an action assigns to, from left to right. -/
def assigned : Action → List Reference
  | .set target _ => [target]
  | .alter target _ _ => [target]
  | .swap first second => [first, second]
  | .cond _ _ _ => []
  | .call _ _ => []
  | .sequence _ => []

theorem targets_eq_assigned (a : Action) : a.targets = a.assigned := by
  cases a <;> rfl

/-- An action and those below it in pre-order. -/
def preorder (a : Action) : List Action :=
  a :: (a.parts.attach.map fun b => preorder b.1).flatten
termination_by sizeOf a
decreasing_by exact sizeOf_lt_of_mem_parts b.2

theorem preorder_eq (a : Action) : a.preorder = a :: a.parts.flatMap preorder := by
  rw [preorder, List.attach_map_val, List.flatMap_def]

theorem walkSteps_eq_map (steps : List Action) : walkSteps steps = steps.map walk := by
  induction steps with
  | nil => rfl
  | cons a steps ih => rw [walkSteps, ih, List.map_cons]

theorem walk_eq (a : Action) : a.walk = a :: a.parts.flatMap walk := by
  cases a with
  | cond conds branches otherwise =>
      cases otherwise <;> simp [walk, walkSteps_eq_map, parts, List.flatMap_def]
  | sequence steps => simp [walk, walkSteps_eq_map, parts, List.flatMap_def]
  | _ => simp [walk, parts]

theorem walk_eq_preorder (a : Action) : a.walk = a.preorder := by
  induction a using parts_induction with
  | step a ih => rw [walk_eq, preorder_eq, List.flatMap_congr ih]

/-- The first action is the second one or stands somewhere below it. -/
inductive Part (b : Action) : Action → Prop
  | here : Part b b
  | inside {c a : Action} (hc : c ∈ a.parts) (h : Part b c) : Part b a

theorem forall_part_iff {P : Action → Prop} {a : Action} :
    (∀ b : Action, b.Part a → P b) ↔ P a ∧ ∀ c ∈ a.parts, ∀ b : Action, b.Part c → P b := by
  refine ⟨fun h => ⟨h a .here, fun c hc b hb => h b (.inside hc hb)⟩, fun h b hb => ?_⟩
  cases hb with
  | here => exact h.1
  | inside hc hb => exact h.2 _ hc b hb

theorem mem_preorder_iff {a b : Action} : b ∈ a.preorder ↔ b.Part a := by
  refine ⟨fun h => ?_, fun h => ?_⟩
  · induction a using parts_induction with
    | step a ih =>
        rw [preorder_eq] at h
        rcases List.mem_cons.1 h with rfl | h
        · exact .here
        · obtain ⟨c, hc, hb⟩ := List.mem_flatMap.1 h
          exact .inside hc (ih c hc hb)
  · induction h with
    | here =>
        rw [preorder_eq]
        exact List.mem_cons_self ..
    | inside hc _ ih =>
        rw [preorder_eq]
        exact List.mem_cons_of_mem _ (List.mem_flatMap.2 ⟨_, hc, ih⟩)

end Action

/-! ## Bodies -/

namespace Body

/-- The action is one of the body or of its actions. -/
def HasAction : Body → Action → Prop
  | .requirement _, _ => False
  | .actions a, b => b.Part a

/-- The expression is a node of the requirement, or of an expression that an action holds. -/
def HasNode : Body → Expr → Prop
  | .requirement e, n => n.Node e
  | .actions a, n => ∃ b : Action, b.Part a ∧ ∃ e ∈ b.held, n.Node e

/-- The actions of a body in pre-order; a requirement has none. -/
def actionsInOrder : Body → List Action
  | .requirement _ => []
  | .actions a => a.preorder

/-- The expressions that stand in no other one: the requirement, or those that the actions hold. -/
def tops : Body → List Expr
  | .requirement e => [e]
  | .actions a => a.preorder.flatMap Action.held

/-- The nodes of a body that a walk is to come to, in order. -/
def reached (b : Body) : List Expr :=
  b.tops.flatMap Expr.preorder

theorem reached_requirement (e : Expr) : (Body.requirement e).reached = e.preorder :=
  List.append_nil _

theorem actionNodes_eq (b : Body) : b.actionNodes = b.actionsInOrder := by
  cases b with
  | requirement e => rfl
  | actions a => exact a.walk_eq_preorder

theorem roots_eq (b : Body) : b.roots = b.tops := by
  cases b with
  | requirement e => rfl
  | actions a => rw [roots, tops, a.walk_eq_preorder, funext Action.exprs_eq_held]

theorem nodes_eq (b : Body) : b.nodes = b.reached := by
  rw [nodes, walk, roots_eq, reached]
  exact List.flatMap_congr fun e _ => e.walk_eq_preorder

theorem mem_actionsInOrder_iff {b : Body} {a : Action} :
    a ∈ b.actionsInOrder ↔ b.HasAction a := by
  cases b with
  | requirement e => simp [actionsInOrder, HasAction]
  | actions a => exact Action.mem_preorder_iff

theorem mem_actionNodes_iff {b : Body} {a : Action} : a ∈ b.actionNodes ↔ b.HasAction a := by
  rw [actionNodes_eq, mem_actionsInOrder_iff]

theorem mem_reached {b : Body} {n : Expr} : n ∈ b.reached ↔ ∃ e ∈ b.tops, n ∈ e.preorder :=
  List.mem_flatMap

theorem hasNode_iff {b : Body} {n : Expr} : b.HasNode n ↔ ∃ e ∈ b.tops, n.Node e := by
  cases b with
  | requirement e => simp [HasNode, tops]
  | actions a =>
      simp only [HasNode, tops, List.mem_flatMap, Action.mem_preorder_iff]
      constructor
      · rintro ⟨b, hb, e, he, hn⟩
        exact ⟨e, ⟨b, hb, he⟩, hn⟩
      · rintro ⟨e, ⟨b, hb, he⟩, hn⟩
        exact ⟨b, hb, e, he, hn⟩

theorem hasNode_of_mem_reached {b : Body} {n : Expr} (h : n ∈ b.reached) : b.HasNode n := by
  obtain ⟨e, he, hn⟩ := mem_reached.1 h
  exact hasNode_iff.2 ⟨e, he, Expr.node_of_mem_preorder hn⟩

/-- A walk goes on from a node that it comes to. -/
theorem mem_reached_of_visited {b : Body} {n c : Expr} (h : n ∈ b.reached) (hc : c ∈ n.visited) :
    c ∈ b.reached := by
  obtain ⟨e, he, hn⟩ := mem_reached.1 h
  exact mem_reached.2 ⟨e, he, Expr.mem_preorder_of_visited hn hc⟩

theorem mem_reached_of_held {b : Body} {a : Action} {e : Expr} (ha : b.HasAction a)
    (he : e ∈ a.held) : e ∈ b.reached := by
  cases b with
  | requirement root => exact ha.elim
  | actions root =>
      have htop : e ∈ (Body.actions root).tops :=
        List.mem_flatMap.2 ⟨a, Action.mem_preorder_iff.2 ha, he⟩
      exact mem_reached.2 ⟨e, htop, e.self_mem_preorder⟩

theorem HasNode.child {b : Body} {n c : Expr} (h : b.HasNode n) (hc : c ∈ n.children) :
    b.HasNode c := by
  obtain ⟨e, he, hn⟩ := hasNode_iff.1 h
  exact hasNode_iff.2 ⟨e, he, hn.child hc⟩

theorem misshapen?_eq_none_iff {b : Body} :
    b.misshapen? = none ↔ (∀ a, b.HasAction a → a.shapeFault? = none) ∧
      ∀ e ∈ b.reached, e.shapeFault? = none := by
  simp [misshapen?, List.findSome?_eq_none_iff, mem_actionNodes_iff, nodes_eq]

theorem mem_reached_of_hasNode {b : Body} (h : ∀ e ∈ b.reached, e.Paired) {n : Expr}
    (hn : b.HasNode n) : n ∈ b.reached := by
  obtain ⟨e, he, hn⟩ := hasNode_iff.1 hn
  exact mem_reached.2 ⟨e, he, Expr.mem_preorder_of_node hn fun m hm =>
    h m (mem_reached.2 ⟨e, he, hm⟩)⟩

/-- In no chain of the body a condition or a branch has no partner. -/
def Paired (b : Body) : Prop :=
  ∀ e, b.HasNode e → e.Paired

/-- In a body of the right shape nothing lacks a partner. -/
theorem paired_of_shape {b : Body} (h : b.misshapen? = none) : b.Paired := by
  have hreached : ∀ e ∈ b.reached, e.Paired := fun e he =>
    Expr.paired_of_shape ((misshapen?_eq_none_iff.1 h).2 e he)
  exact fun e he => hreached e (mem_reached_of_hasNode hreached he)

/-- Where nothing lacks a partner, all nodes are reached. -/
theorem mem_reached_iff {b : Body} (h : b.Paired) {n : Expr} : n ∈ b.reached ↔ b.HasNode n :=
  ⟨hasNode_of_mem_reached,
    mem_reached_of_hasNode fun e he => h e (hasNode_of_mem_reached he)⟩

/-- In a body of the right shape every action and every expression has the right shape. -/
theorem shapes {b : Body} (h : b.misshapen? = none) :
    (∀ a, b.HasAction a → a.shapeFault? = none) ∧ ∀ e, b.HasNode e → e.shapeFault? = none := by
  obtain ⟨hactions, hnodes⟩ := misshapen?_eq_none_iff.1 h
  exact ⟨hactions, fun e he => hnodes e ((mem_reached_iff (paired_of_shape h)).2 he)⟩

end Body

end AccessRules
