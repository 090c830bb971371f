import AnnotatedSource.Proofs.Span
import AnnotatedSource.Proofs.Tree.Ancestry
import Mathlib.Data.List.Chain
import Mathlib.Data.List.Nodup

/-!
Well-formed drafts.  Whatever steps of building are taken, the array of a draft stands in document
order: parents come before their children, the children of a node are listed in order, and a node
and all below it fill one stretch of the array.  The stretch of an open node reaches to the end of
the array.  That keeps the stretches whole when a node is added, since a new node goes below the
open nodes and below no others.
-/

set_option autoImplicit false
set_option relaxedAutoImplicit false

namespace AnnotatedSource

def childrenAt (nodes : Array Node) (index : Nat) : List Nat :=
  nodes[index]?.elim [] fun node => node.children.toList

/-- The subtree of an index: the index itself and every index from which parents lead to it. -/
inductive InSubtree (nodes : Array Node) (top : Nat) : Nat → Prop
  | top : InSubtree nodes top top
  | child {parent index : Nat} (above : InSubtree nodes top parent)
      (found : parentAt nodes index = some parent) : InSubtree nodes top index

/-- The subtree of an index fills the array from the index up to `stop`. -/
structure Stretch (nodes : Array Node) (index stop : Nat) : Prop where
  lt_stop : index < stop
  stop_le : stop ≤ nodes.size
  inSubtree_iff : ∀ other, InSubtree nodes index other ↔ index ≤ other ∧ other < stop

def IsLastChild (nodes : Array Node) (inner outer : Nat) : Prop :=
  parentAt nodes inner = some outer ∧ (childrenAt nodes outer).getLast? = some inner

/-- Open nodes, the innermost first, that lead to the first node by way of last children. -/
structure OpenPath (nodes : Array Node) (opened : List Nat) : Prop where
  chain : opened.IsChain (IsLastChild nodes)
  outermost : ∀ index, opened.getLast? = some index → index = 0

/-- A draft whose nodes are numbered and linked in document order. -/
structure Draft.WellFormed (draft : Draft) : Prop where
  /-- The first node has no parent. -/
  first_parentless : parentAt draft.nodes 0 = none
  /-- Every other node has a parent that stands before it. -/
  exists_parent : ∀ index, 0 < index → index < draft.nodes.size →
    ∃ parent < index, parentAt draft.nodes index = some parent
  /-- Children are listed in order, each once. -/
  children_sorted : ∀ parent, (childrenAt draft.nodes parent).Pairwise (· < ·)
  /-- The children of a node are the nodes that have it for a parent. -/
  mem_children_iff : ∀ parent index,
    index ∈ childrenAt draft.nodes parent ↔ parentAt draft.nodes index = some parent
  /-- Every node but the first is listed once among the children of one node. -/
  listed_once : ∀ index, 0 < index → index < draft.nodes.size →
    ∃ parent, (childrenAt draft.nodes parent).count index = 1 ∧
      ∀ other, other ≠ parent → index ∉ childrenAt draft.nodes other
  /-- The open nodes lead from the innermost one to the first node, each the last child of the
  next. -/
  openPath : OpenPath draft.nodes draft.opened
  /-- Every subtree is one stretch of the array. -/
  exists_stretch : ∀ index, index < draft.nodes.size → ∃ stop, Stretch draft.nodes index stop

section Subtree

variable {nodes : Array Node}

theorem parentAt_eq_some_iff {index parent : Nat} :
    parentAt nodes index = some parent ↔
      ∃ node, nodes[index]? = some node ∧ node.parent = some parent :=
  Option.bind_eq_some_iff

theorem parentAt_lt (linked : Linked nodes) {index parent : Nat}
    (h : parentAt nodes index = some parent) : parent < index ∧ index < nodes.size := by
  obtain ⟨node, found, isParent⟩ := parentAt_eq_some_iff.1 h
  have order := linked.parent_lt found isParent
  have bound := (Array.getElem?_eq_some_iff.1 found).choose
  exact ⟨order, bound⟩

theorem parentAt_zero (linked : Linked nodes) : parentAt nodes 0 = none := by
  cases h : parentAt nodes 0 with
  | none => rfl
  | some parent => exact absurd (parentAt_lt linked h).1 (Nat.not_lt_zero parent)

theorem InSubtree.le (linked : Linked nodes) {top index : Nat} (h : InSubtree nodes top index) :
    top ≤ index := by
  induction h with
  | top => exact Nat.le_refl _
  | child above found ih =>
    have order := (parentAt_lt linked found).1
    omega

theorem inSubtree_iff {top index : Nat} :
    InSubtree nodes top index ↔
      top = index ∨ ∃ parent, parentAt nodes index = some parent ∧ InSubtree nodes top parent := by
  constructor
  · intro h
    cases h with
    | top => exact .inl rfl
    | child above found => exact .inr ⟨_, found, above⟩
  · rintro (rfl | ⟨parent, found, above⟩)
    · exact .top
    · exact .child above found

theorem InSubtree.of_parentAt {other : Array Node}
    (same : ∀ index parent, parentAt nodes index = some parent →
      parentAt other index = some parent)
    {top index : Nat} (h : InSubtree nodes top index) : InSubtree other top index := by
  induction h with
  | top => exact .top
  | child above found ih => exact .child ih (same _ _ found)

theorem inSubtree_adopt_iff (linked : Linked nodes) {node : Node}
    (parent_lt : ∀ parent, node.parent = some parent → parent < nodes.size) {top index : Nat} :
    InSubtree (Draft.adopt nodes node) top index ↔
      InSubtree nodes top index ∨
        index = nodes.size ∧ ∃ parent, node.parent = some parent ∧ InSubtree nodes top parent := by
  constructor
  · intro h
    induction h with
    | top => exact .inl .top
    | @child parent index above found ih =>
      rw [Draft.parentAt_adopt] at found
      split at found
      · next isNew =>
        -- The parent is an older node, so its own place among the subtrees is unchanged.
        have old := parent_lt parent found
        rcases ih with before | ⟨isNew', -⟩
        · exact .inr ⟨isNew, parent, found, before⟩
        · omega
      · have order := parentAt_lt linked found
        rcases ih with before | ⟨isNew', -⟩
        · exact .inl (.child before found)
        · omega
  · have grown {top index : Nat} (h : InSubtree nodes top index) :
        InSubtree (Draft.adopt nodes node) top index := by
      refine h.of_parentAt fun index parent found => ?_
      have bound := (parentAt_lt linked found).2
      rw [Draft.parentAt_adopt, if_neg (by omega)]
      exact found
    rintro (before | ⟨rfl, parent, isParent, before⟩)
    · exact grown before
    · refine .child (grown before) ?_
      rw [Draft.parentAt_adopt, if_pos rfl]
      exact isParent

end Subtree

theorem Arranged.childrenAt_eq {nodes : Array Node} (arranged : Arranged nodes)
    (linked : Linked nodes) (index : Nat) : childrenAt nodes index = childrenOf nodes index := by
  unfold childrenAt
  cases found : nodes[index]? with
  | some node => exact arranged.children_eq found
  | none =>
    have outside := Array.getElem?_eq_none_iff.1 found
    refine (List.filter_eq_nil_iff.2 fun child _ isParent => ?_).symm
    have order := parentAt_lt linked (of_decide_eq_true isParent)
    omega

theorem mem_childrenOf_iff {nodes : Array Node} (linked : Linked nodes) {parent index : Nat} :
    index ∈ childrenOf nodes parent ↔ parentAt nodes index = some parent := by
  unfold childrenOf
  rw [List.mem_filter, List.mem_range, decide_eq_true_iff]
  constructor
  · intro h
    exact h.2
  · intro found
    exact ⟨(parentAt_lt linked found).2, found⟩

theorem pairwise_childrenOf (nodes : Array Node) (parent : Nat) :
    (childrenOf nodes parent).Pairwise (· < ·) :=
  List.pairwise_lt_range.filter _

namespace OpenPath

variable {nodes : Array Node}

theorem tail {innermost : Nat} {outer : List Nat} (path : OpenPath nodes (innermost :: outer)) :
    OpenPath nodes outer where
  chain := path.chain.tail
  outermost index last := by
    apply path.outermost index
    rw [List.getLast?_cons, last]
    rfl

theorem decreasing (linked : Linked nodes) {opened : List Nat} (path : OpenPath nodes opened) :
    opened.Pairwise (· > ·) := by
  apply List.isChain_iff_pairwise.1
  refine path.chain.imp fun inner outer link => ?_
  exact (parentAt_lt linked link.1).1

theorem inSubtree_innermost_iff (linked : Linked nodes) {top innermost : Nat} {outer : List Nat}
    (path : OpenPath nodes (innermost :: outer)) :
    InSubtree nodes top innermost ↔ top ∈ innermost :: outer := by
  induction outer generalizing innermost with
  | nil =>
    obtain rfl := path.outermost innermost rfl
    rw [inSubtree_iff, parentAt_zero linked]
    simp
  | cons next outer ih =>
    have link := (List.isChain_cons_cons.1 path.chain).1
    rw [inSubtree_iff, List.mem_cons, ← ih path.tail, link.1]
    simp

end OpenPath

namespace Draft

variable {draft : Draft}

private theorem lt_size_of_head? {parent : Nat} (h : draft.opened.head? = some parent) :
    parent < draft.nodes.size :=
  draft.opened_lt parent (List.mem_of_mem_head? h)

theorem childrenAt_push (arranged : Arranged draft.nodes) {kind : NodeKind} {span : Span}
    {loc : Location} (ready : draft.opened = [] → draft.nodes = #[]) (index : Nat) :
    childrenAt (draft.push kind span loc).nodes index =
      childrenAt draft.nodes index ++
        if draft.opened.head? = some index then [draft.nodes.size] else [] := by
  have after := arranged_push arranged kind span loc ready
  rw [after.childrenAt_eq (draft.push kind span loc).linked, arranged.childrenAt_eq draft.linked]
  exact childrenOf_adopt _ _ _

theorem openPath_push (arranged : Arranged draft.nodes)
    (path : OpenPath draft.nodes draft.opened) {kind : NodeKind} {span : Span} {loc : Location}
    (ready : draft.opened = [] → draft.nodes = #[]) :
    OpenPath (draft.push kind span loc).nodes (draft.push kind span loc).opened := by
  have parents (index : Nat) : parentAt (draft.push kind span loc).nodes index =
      if index = draft.nodes.size then draft.opened.head? else parentAt draft.nodes index :=
    parentAt_adopt _ _ _
  have children (index : Nat) : childrenAt (draft.push kind span loc).nodes index =
      childrenAt draft.nodes index ++
        if draft.opened.head? = some index then [draft.nodes.size] else [] :=
    childrenAt_push arranged ready index
  change OpenPath _ (draft.nodes.size :: draft.opened)
  cases opened : draft.opened with
  | nil =>
    refine ⟨List.isChain_singleton _, ?_⟩
    intro index last
    obtain rfl := Option.some.inj last
    rw [ready opened]
    rfl
  | cons innermost outer =>
    rw [opened] at path parents children
    have order := path.decreasing draft.linked
    have bound : ∀ index ∈ innermost :: outer, index < draft.nodes.size :=
      fun index member => draft.opened_lt index (opened ▸ member)
    refine ⟨List.isChain_cons_cons.2 ⟨⟨?_, ?_⟩, ?_⟩, ?_⟩
    · rw [parents, if_pos rfl, List.head?_cons]
    · rw [children, if_pos List.head?_cons, List.getLast?_append]
      rfl
    · refine path.chain.imp_of_mem_tail_imp fun inner next inside member link => ?_
      have further : next < innermost := (List.pairwise_cons.1 order).1 next member
      have old := bound inner inside
      have kept : ¬(innermost :: outer).head? = some next := by
        rw [List.head?_cons, Option.some.injEq]
        omega
      refine ⟨?_, ?_⟩
      · rw [parents, if_neg (by omega)]
        exact link.1
      · rw [children, if_neg kept, List.append_nil]
        exact link.2
    · intro index last
      apply path.outermost index
      rw [← last, List.getLast?_cons_cons]

private theorem openPath_congr {nodes other : Array Node} {opened : List Nat}
    (parents : ∀ index, parentAt other index = parentAt nodes index)
    (children : ∀ index, childrenAt other index = childrenAt nodes index)
    (path : OpenPath nodes opened) : OpenPath other opened where
  chain := path.chain.imp fun inner outer link => by
    unfold IsLastChild
    rw [parents, children]
    exact link
  outermost := path.outermost

theorem childrenAt_withHoles (nodes : Array Node) (place count index : Nat) :
    childrenAt (nodes.modify place (withHoles · count)) index = childrenAt nodes index := by
  unfold childrenAt
  rw [Array.getElem?_modify]
  split
  · cases nodes[index]? <;> rfl
  · rfl

theorem openPath_step {after : Draft} {step : Step} (arranged : Arranged draft.nodes)
    (path : OpenPath draft.nodes draft.opened) (h : draft.step step = .ok after) :
    OpenPath after.nodes after.opened := by
  rcases step_cases h with ⟨kind, span, loc, rfl, ready, rfl⟩ |
    ⟨count, innermost, outer, rfl, -, nodes, opened⟩ |
    ⟨innermost, outer, rfl, opened, nodes, left⟩
  · exact openPath_push arranged path ready
  · rw [nodes, opened]
    exact openPath_congr (parentAt_withHoles _ _ _) (childrenAt_withHoles _ _ _) path
  · rw [nodes, left]
    rw [opened] at path
    exact path.tail

/-- Every subtree is a stretch, and those of the open nodes reach to the end. -/
def Stretched (draft : Draft) : Prop :=
  ∀ index, index < draft.nodes.size →
    ∃ stop, Stretch draft.nodes index stop ∧ (index ∈ draft.opened → stop = draft.nodes.size)

theorem size_push {kind : NodeKind} {span : Span} {loc : Location} :
    (draft.push kind span loc).nodes.size = draft.nodes.size + 1 := size_adopt _ _

theorem inSubtree_push_iff (path : OpenPath draft.nodes draft.opened) {kind : NodeKind}
    {span : Span} {loc : Location} {top index : Nat} :
    InSubtree (draft.push kind span loc).nodes top index ↔
      InSubtree draft.nodes top index ∨ index = draft.nodes.size ∧ top ∈ draft.opened := by
  refine (inSubtree_adopt_iff draft.linked fun parent => lt_size_of_head?).trans ?_
  refine or_congr_right (and_congr_right fun _ => ?_)
  change (∃ parent, draft.opened.head? = some parent ∧ _) ↔ _
  cases opened : draft.opened with
  | nil => simp
  | cons innermost outer =>
    rw [opened] at path
    rw [← path.inSubtree_innermost_iff draft.linked]
    simp

theorem stretch_push_of_opened (path : OpenPath draft.nodes draft.opened) {kind : NodeKind}
    {span : Span} {loc : Location} {index : Nat} (opened : index ∈ draft.opened)
    (stretch : Stretch draft.nodes index draft.nodes.size) :
    Stretch (draft.push kind span loc).nodes index (draft.nodes.size + 1) where
  lt_stop := Nat.lt_succ_of_lt stretch.lt_stop
  stop_le := Nat.le_of_eq size_push.symm
  inSubtree_iff other := by
    have started := stretch.lt_stop
    rw [inSubtree_push_iff path, stretch.inSubtree_iff]
    constructor
    · rintro (⟨above, below⟩ | ⟨isNew, -⟩) <;> omega
    · rintro ⟨above, below⟩
      by_cases isNew : other = draft.nodes.size
      · exact .inr ⟨isNew, opened⟩
      · exact .inl ⟨above, by omega⟩

theorem stretch_push_of_finished (path : OpenPath draft.nodes draft.opened) {kind : NodeKind}
    {span : Span} {loc : Location} {index stop : Nat} (finished : index ∉ draft.opened)
    (stretch : Stretch draft.nodes index stop) :
    Stretch (draft.push kind span loc).nodes index stop where
  lt_stop := stretch.lt_stop
  stop_le := by
    rw [size_push]
    exact Nat.le_succ_of_le stretch.stop_le
  inSubtree_iff other := by
    rw [inSubtree_push_iff path, ← stretch.inSubtree_iff]
    exact or_iff_left fun new => finished new.2

theorem stretch_push_of_new (path : OpenPath draft.nodes draft.opened) {kind : NodeKind}
    {span : Span} {loc : Location} :
    Stretch (draft.push kind span loc).nodes draft.nodes.size (draft.nodes.size + 1) where
  lt_stop := Nat.lt_succ_self _
  stop_le := Nat.le_of_eq size_push.symm
  inSubtree_iff other := by
    rw [inSubtree_push_iff path]
    constructor
    · rintro (itself | ⟨isNew, -⟩)
      · -- No older node is below the new one, and what is in its own subtree may only be itself.
        have above := itself.le draft.linked
        rcases inSubtree_iff.1 itself with same | ⟨parent, found, -⟩
        · omega
        · have inside := (parentAt_lt draft.linked found).2
          omega
      · omega
    · rintro ⟨above, below⟩
      obtain rfl : other = draft.nodes.size := by omega
      exact .inl .top

theorem stretched_push (path : OpenPath draft.nodes draft.opened) (stretched : draft.Stretched)
    {kind : NodeKind} {span : Span} {loc : Location} :
    (draft.push kind span loc).Stretched := by
  intro index bound
  rw [size_push] at bound ⊢
  rcases Nat.lt_or_eq_of_le (Nat.le_of_lt_succ bound) with old | rfl
  · obtain ⟨stop, stretch, reaches⟩ := stretched index old
    by_cases opened : index ∈ draft.opened
    · obtain rfl := reaches opened
      exact ⟨_, stretch_push_of_opened path opened stretch, fun _ => rfl⟩
    · refine ⟨stop, stretch_push_of_finished path opened stretch, fun member => ?_⟩
      rcases List.mem_cons.1 member with isNew | opened'
      · omega
      · exact absurd opened' opened
  · exact ⟨_, stretch_push_of_new path, fun _ => rfl⟩

theorem stretched_step {after : Draft} {step : Step} (path : OpenPath draft.nodes draft.opened)
    (stretched : draft.Stretched) (h : draft.step step = .ok after) : after.Stretched := by
  rcases step_cases h with ⟨kind, span, loc, rfl, -, rfl⟩ |
    ⟨count, innermost, outer, rfl, -, nodes, opened⟩ |
    ⟨innermost, outer, rfl, opened, nodes, left⟩
  · exact stretched_push path stretched
  · unfold Stretched
    rw [nodes, opened, Array.size_modify]
    intro index bound
    obtain ⟨stop, stretch, reaches⟩ := stretched index bound
    refine ⟨stop, ⟨stretch.lt_stop, ?_, fun other => ?_⟩, reaches⟩
    · rw [Array.size_modify]
      exact stretch.stop_le
    · rw [← stretch.inSubtree_iff]
      constructor
      · exact InSubtree.of_parentAt fun child parent found => by
          rwa [parentAt_withHoles] at found
      · exact InSubtree.of_parentAt fun child parent found => by
          rwa [parentAt_withHoles]
  · unfold Stretched
    rw [nodes, left]
    intro index bound
    obtain ⟨stop, stretch, reaches⟩ := stretched index bound
    refine ⟨stop, stretch, fun member => reaches ?_⟩
    rw [opened]
    exact List.mem_cons_of_mem innermost member

/-- What every step of building preserves. -/
structure Orderly (draft : Draft) : Prop where
  arranged : Arranged draft.nodes
  openPath : OpenPath draft.nodes draft.opened
  stretched : draft.Stretched

theorem orderly_empty : empty.Orderly where
  arranged := ⟨by simp [empty], by simp [empty]⟩
  openPath := ⟨List.isChain_nil, by simp [empty]⟩
  stretched index bound := absurd bound (Nat.not_lt_zero index)

theorem orderly_step {after : Draft} {step : Step} (orderly : draft.Orderly)
    (h : draft.step step = .ok after) : after.Orderly where
  arranged := arranged_step orderly.arranged h
  openPath := openPath_step orderly.arranged orderly.openPath h
  stretched := stretched_step orderly.openPath orderly.stretched h

theorem orderly_of_run {steps : List Step} (h : empty.run steps = .ok draft) : draft.Orderly :=
  run_induction orderly_step orderly_empty h

theorem Orderly.wellFormed (orderly : draft.Orderly) : draft.WellFormed := by
  have children (parent : Nat) := orderly.arranged.childrenAt_eq draft.linked parent
  have members (parent index : Nat) :
      index ∈ childrenAt draft.nodes parent ↔ parentAt draft.nodes index = some parent := by
    rw [children]
    exact mem_childrenOf_iff draft.linked
  have sorted (parent : Nat) : (childrenAt draft.nodes parent).Pairwise (· < ·) := by
    rw [children]
    exact pairwise_childrenOf _ _
  have parents (index : Nat) (notFirst : 0 < index) (bound : index < draft.nodes.size) :
      ∃ parent < index, parentAt draft.nodes index = some parent := by
    have found := Array.getElem?_eq_getElem bound
    cases stored : parentAt draft.nodes index with
    | some parent => exact ⟨parent, (parentAt_lt draft.linked stored).1, rfl⟩
    | none =>
      rw [parentAt, found] at stored
      have first := orderly.arranged.parentless found stored
      omega
  refine ⟨parentAt_zero draft.linked, parents, sorted, members, ?_, orderly.openPath, ?_⟩
  · intro index notFirst bound
    obtain ⟨parent, -, stored⟩ := parents index notFirst bound
    refine ⟨parent, ?_, fun other different member => ?_⟩
    · have distinct : (childrenAt draft.nodes parent).Nodup :=
        (sorted parent).imp fun order => Nat.ne_of_lt order
      exact List.count_eq_one_of_mem distinct ((members parent index).2 stored)
    · have stored' := (members other index).1 member
      rw [stored] at stored'
      exact different (Option.some.inj stored').symm
  · intro index bound
    obtain ⟨stop, stretch, -⟩ := orderly.stretched index bound
    exact ⟨stop, stretch⟩

end Draft

namespace Tree

variable {tree : Tree}

theorem pairwise_lineage (id : tree.Id) : (tree.lineage id).Pairwise (· > ·) := by
  induction id using parent_induction with
  | top id none =>
    rw [lineage, ancestors_eq_nil none]
    exact List.pairwise_singleton _ _
  | below id parent found ih =>
    rw [lineage, ancestors_of_parent? found]
    refine List.pairwise_cons.2 ⟨fun above member => ?_, ih⟩
    rw [← ancestors_of_parent? found] at member
    exact lt_of_mem_ancestors member

theorem parentAt_nodes (tree : Tree) (id : tree.Id) :
    parentAt tree.nodes id.val = (tree.parent? id).map Fin.val := by
  rw [map_val_parent?, parentAt, getElem?_nodes]
  rfl

theorem parentAt_val (tree : Tree) (id : tree.Id) :
    parentAt tree.nodes id.val = (tree.node id).parent := by
  rw [parentAt_nodes, map_val_parent?]

theorem inSubtree_iff_mem_lineage {id above : tree.Id} :
    InSubtree tree.nodes above.val id.val ↔ above ∈ tree.lineage id := by
  induction id using parent_induction with
  | top id none =>
    rw [inSubtree_iff, parentAt_nodes, none, lineage, ancestors_eq_nil none]
    simp [Fin.ext_iff]
  | below id parent found ih =>
    rw [inSubtree_iff, parentAt_nodes, found, lineage, ancestors_of_parent? found, List.mem_cons]
    change _ ↔ above = id ∨ above ∈ tree.lineage parent
    rw [← ih]
    simp [Fin.ext_iff]

theorem Built.orderly (built : tree.Built) :
    ∃ draft : Draft, draft.Orderly ∧ draft.nodes = tree.nodes := by
  obtain ⟨steps, hsteps⟩ := built
  obtain ⟨draft, ran, completed⟩ := Draft.run_of_build hsteps
  exact ⟨draft, Draft.orderly_of_run ran, (Draft.nodes_of_complete completed).2⟩

theorem Built.pairwise_children (built : tree.Built) (id : tree.Id) :
    (tree.children id).Pairwise (· < ·) := by
  have sorted : (tree.node id).children.toList.Pairwise (· < ·) := by
    rw [built.arranged.children_eq (tree.getElem?_nodes id)]
    exact pairwise_childrenOf _ _
  refine List.Pairwise.filterMap tree.id? ?_ sorted
  intro first second order child hchild other hother
  rw [id?_eq_some_iff.1 hchild, id?_eq_some_iff.1 hother] at order
  exact order

theorem Built.mem_lineage_of_between (built : tree.Built) {id above other : tree.Id}
    (below : above ∈ tree.lineage id) (behind : above ≤ other) (before : other ≤ id) :
    above ∈ tree.lineage other := by
  obtain ⟨draft, orderly, nodes⟩ := built.orderly
  have bound : above.val < draft.nodes.size := by
    rw [nodes]
    exact above.isLt
  obtain ⟨stop, stretch, -⟩ := orderly.stretched above.val bound
  rw [nodes] at stretch
  have inside : id.val < stop :=
    ((stretch.inSubtree_iff id.val).1 (inSubtree_iff_mem_lineage.2 below)).2
  have outer : other.val < stop := Nat.lt_of_le_of_lt before inside
  exact inSubtree_iff_mem_lineage.1 ((stretch.inSubtree_iff other.val).2 ⟨behind, outer⟩)

theorem Built.lt_of_siblings (built : tree.Built) {parent left right id : tree.Id}
    (hleft : tree.parent? left = some parent) (hright : tree.parent? right = some parent)
    (order : left < right) (below : left ∈ tree.lineage id) : id < right := by
  by_contra notBefore
  have above := built.mem_lineage_of_between below (Fin.le_of_lt order) (Fin.not_lt.1 notBefore)
  rcases mem_lineage_iff.1 above with same | higher
  · exact Fin.ne_of_lt order same
  · rw [ancestors_of_parent? hright] at higher
    have reverse : left ≤ parent := le_of_mem_lineage higher
    exact Fin.not_lt.2 reverse (parent_lt hleft)

theorem Built.getLast?_lineage (built : tree.Built) (id : tree.Id) :
    (tree.lineage id).getLast? = some tree.root := by
  induction id using parent_induction with
  | top id none =>
    rw [lineage, ancestors_eq_nil none, built.eq_root_of_parent? none]
    rfl
  | below id parent found ih =>
    rw [lineage, ancestors_of_parent? found, List.getLast?_cons_cons]
    exact ih

end Tree

/-- Every run of building steps that succeeds leads to a well-formed draft.  In the tree that it is
completed to, the way from a node upwards has falling indices and ends at the root, which stands
first. -/
theorem Draft.wellFormed_of_run {steps : List Draft.Step} {draft : Draft}
    (h : Draft.empty.run steps = .ok draft) :
    draft.WellFormed ∧
      ∀ tree, draft.complete = .ok tree → tree.root.val = 0 ∧ ∀ id : tree.Id,
        (tree.lineage id).Pairwise (· > ·) ∧ (tree.lineage id).getLast? = some tree.root := by
  refine ⟨(orderly_of_run h).wellFormed, fun tree completed => ⟨rfl, fun id => ?_⟩⟩
  have built : tree.Built := ⟨steps, (build_of_run h).trans completed⟩
  exact ⟨Tree.pairwise_lineage id, built.getLast?_lineage id⟩

/-- A call with a name and an array in it, and a hole in front of the array's only element. -/
def nestedCall : List Draft.Step :=
  [.start .program (.ofWidth 0 9) .zero, .start .callExpression (.ofWidth 0 8) .zero,
    .start .identifier (.ofWidth 0 1) .zero, .finish,
    .start .arrayExpression (.ofWidth 2 5) .zero, .holes 1,
    .start .literal (.ofWidth 5 1) .zero, .finish, .finish, .finish, .finish]

theorem Draft.wellFormed_of_run_nestedCall :
    (∃ draft, Draft.empty.run (nestedCall.take 7) = .ok draft ∧ draft.opened = [4, 3, 1, 0] ∧
      draft.WellFormed) ∧
    ∃ draft tree, Draft.empty.run nestedCall = .ok draft ∧ draft.complete = .ok tree ∧
      draft.opened = [] ∧ draft.WellFormed ∧
      ∀ id : tree.Id, (tree.lineage id).getLast? = some tree.root := by
  constructor
  · have ran : Draft.empty.run (nestedCall.take 7) = .ok _ := rfl
    exact ⟨_, ran, rfl, (wellFormed_of_run ran).1⟩
  · have ran : Draft.empty.run nestedCall = .ok _ := rfl
    obtain ⟨wellFormed, completed⟩ := wellFormed_of_run ran
    exact ⟨_, _, ran, rfl, rfl, wellFormed, fun id => ((completed _ rfl).2 id).2⟩

end AnnotatedSource
