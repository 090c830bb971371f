import AnnotatedSource.Proofs.Tree.Balance
import AnnotatedSource.Proofs.Tree.Replay
import Mathlib.Data.List.Sort

/-!
Walks that skip.  A walk that skips what is below every entered node with some property takes the
events of a recursive traversal that does not go below such nodes.  It enters the nodes without a
node of the property above them, in the order of their indices.
-/

set_option autoImplicit false
set_option relaxedAutoImplicit false

namespace AnnotatedSource.Tree

variable {tree : Tree}

namespace Walk

/-- The walk after an event, with a skip if the event enters a node that has a property. -/
def proceed (pruned : tree.Id → Bool) (event : Event tree) (after : Walk tree) :
    Except Misuse (Walk tree) :=
  if event.entered?.any pruned then after.skip else .ok after

theorem remaining_proceed_le {pruned : tree.Id → Bool} {event : Event tree}
    {after next : Walk tree} (h : proceed pruned event after = .ok next) :
    next.remaining ≤ after.remaining := by
  unfold proceed skip at h
  split at h
  · split at h
    · contradiction
    · obtain rfl := Except.ok.inj h
      exact after.remaining_prune_le
  · obtain rfl := Except.ok.inj h
    exact Nat.le_refl _

/-- The events of a walk from here to its end, with a skip right after each event that enters a node
that has a property. -/
def drain (pruned : tree.Id → Bool) (walk : Walk tree) : Except Misuse (List (Event tree)) :=
  match h : walk.next? with
  | some (event, after) =>
    match hnext : proceed pruned event after with
    | .error misuse => .error misuse
    | .ok next =>
      have : next.remaining < walk.remaining := by
        have step := remaining_of_next? h
        have kept := remaining_proceed_le hnext
        omega
      (next.drain pruned).map (event :: ·)
  | none => .ok []
termination_by walk.remaining

end Walk

/-- The events of walking a node that goes below no node with a property: the node is entered with
its parent, its children are walked in order unless it has the property, and it is left. -/
def prunedTraversal (tree : Tree) (pruned : tree.Id → Bool) (id : tree.Id) : List (Event tree) :=
  .enter id (tree.parent? id) ::
    (if pruned id then []
    else
      (tree.children id).attach.flatMap fun ⟨child, h⟩ =>
        have : tree.room child < tree.room id := room_lt h
        tree.prunedTraversal pruned child) ++ [.leave id]
termination_by tree.room id

variable {pruned : tree.Id → Bool}

/-- The children that a walk goes on to below a node. -/
def walkedChildren (tree : Tree) (pruned : tree.Id → Bool) (id : tree.Id) : List tree.Id :=
  if pruned id then [] else tree.children id

theorem mem_walkedChildren_iff {id child : tree.Id} :
    child ∈ tree.walkedChildren pruned id ↔ pruned id = false ∧ child ∈ tree.children id := by
  unfold walkedChildren
  cases pruned id <;> simp

theorem prunedTraversal_eq (pruned : tree.Id → Bool) (id : tree.Id) :
    tree.prunedTraversal pruned id =
      .enter id (tree.parent? id) ::
        (tree.walkedChildren pruned id).flatMap (tree.prunedTraversal pruned) ++ [.leave id] := by
  rw [prunedTraversal, walkedChildren]
  split
  · rfl
  · simp only [List.flatMap_subtype, List.unattach_attach]

theorem Built.prunedTraversal_of_none (built : tree.Built) (id : tree.Id) :
    tree.prunedTraversal (fun _ => false) id = tree.traversal (tree.parent? id) id := by
  induction id using child_induction with
  | above id ih =>
    rw [prunedTraversal_eq, traversal_eq]
    congr 2
    refine List.flatMap_congr fun child member => ?_
    rw [ih child member, built.mem_children_iff.1 member]

namespace Walk

theorem drain_of_none {walk : Walk tree} (h : walk.next? = none) : walk.drain pruned = .ok [] := by
  rw [drain]
  split
  · next found => simp [h] at found
  · rfl

theorem drain_of_next? {walk after next : Walk tree} {event : Event tree}
    {events : List (Event tree)} (h : walk.next? = some (event, after))
    (proceeds : proceed pruned event after = .ok next) (later : next.drain pruned = .ok events) :
    walk.drain pruned = .ok (event :: events) := by
  rw [drain]
  split
  · next found behind isNext =>
    obtain ⟨rfl, rfl⟩ : event = found ∧ after = behind := by simpa [h] using isNext
    split
    · next failed => rw [proceeds] at failed; contradiction
    · next other isOther =>
      obtain rfl := Except.ok.inj (proceeds.symm.trans isOther)
      rw [later]
      rfl
  · next none => simp [h] at none

theorem proceed_enter (id : tree.Id) (parent entrance : Option tree.Id)
    (outer : List (Frame tree)) :
    proceed pruned (.enter id parent) ⟨entrance, .enter id :: outer⟩ =
      .ok ⟨entrance, ⟨id, tree.walkedChildren pruned id⟩ :: outer⟩ := by
  unfold proceed walkedChildren
  cases skipped : pruned id with
  | false => simp [Event.entered?, skipped, Frame.enter]
  | true => simp [Event.entered?, skipped, Frame.enter, skip, prune]

theorem drain_pending {entrance : Option tree.Id} {outer : List (Frame tree)} {id : tree.Id}
    {events : List (Event tree)} (pending : List tree.Id)
    (walked : ∀ child ∈ pending, ∀ later events,
      (⟨entrance, ⟨id, later⟩ :: outer⟩ : Walk tree).drain pruned = .ok events →
      (⟨entrance, ⟨id, child :: later⟩ :: outer⟩ : Walk tree).drain pruned =
        .ok (tree.prunedTraversal pruned child ++ events))
    (around : (⟨entrance, outer⟩ : Walk tree).drain pruned = .ok events) :
    (⟨entrance, ⟨id, pending⟩ :: outer⟩ : Walk tree).drain pruned =
      .ok (pending.flatMap (tree.prunedTraversal pruned) ++ .leave id :: events) := by
  induction pending with
  | nil => exact drain_of_next? rfl rfl around
  | cons child later ih =>
    have rest := ih fun other member => walked other (List.mem_cons_of_mem child member)
    rw [walked child List.mem_cons_self later _ rest, List.flatMap_cons, List.append_assoc]

theorem drain_of_enter (built : tree.Built) {walk : Walk tree} {id : tree.Id}
    {entrance : Option tree.Id} {outer : List (Frame tree)} {events : List (Event tree)}
    (h : walk.next? = some (.enter id (tree.parent? id), ⟨entrance, .enter id :: outer⟩))
    (around : (⟨entrance, outer⟩ : Walk tree).drain pruned = .ok events) :
    walk.drain pruned = .ok (tree.prunedTraversal pruned id ++ events) := by
  induction id using child_induction generalizing walk outer events with
  | above id ih =>
    have inside : (⟨entrance, ⟨id, tree.walkedChildren pruned id⟩ :: outer⟩ : Walk tree).drain
        pruned = .ok ((tree.walkedChildren pruned id).flatMap (tree.prunedTraversal pruned) ++
          .leave id :: events) := by
      refine drain_pending _ (fun child member later events rest => ?_) around
      have among := (mem_walkedChildren_iff.1 member).2
      refine ih child among ?_ rest
      rw [built.mem_children_iff.1 among]
      rfl
    rw [drain_of_next? h (proceed_enter id _ entrance outer) inside, prunedTraversal_eq]
    simp

/-- A walk that skips is the traversal that goes below no node with the property, and none of its
skips fails. -/
theorem drain_walk (built : tree.Built) (pruned : tree.Id → Bool) :
    tree.walk.drain pruned = .ok (tree.prunedTraversal pruned tree.root) := by
  have finished : (⟨none, []⟩ : Walk tree).drain pruned = .ok [] := drain_of_none rfl
  have first : tree.walk.next? =
      some (.enter tree.root (tree.parent? tree.root), ⟨none, [.enter tree.root]⟩) := by
    rw [tree.parent?_root]
    rfl
  rw [drain_of_enter built first finished, List.append_nil]

end Walk

theorem entered_prunedTraversal (pruned : tree.Id → Bool) (id : tree.Id) :
    entered (tree.prunedTraversal pruned id) =
      id :: (tree.walkedChildren pruned id).flatMap fun child =>
        entered (tree.prunedTraversal pruned child) := by
  rw [prunedTraversal_eq]
  simp [entered, Event.entered?, List.filterMap_flatMap]

/-- What is entered on the way through a node lies at or below it, and between the two stands no
node with the property. -/
theorem Built.mem_entered_iff (built : tree.Built) {top id : tree.Id} :
    id ∈ entered (tree.prunedTraversal pruned top) ↔
      top ∈ tree.lineage id ∧
        ∀ above ∈ tree.ancestors id, top ∈ tree.lineage above → pruned above = false := by
  induction top using child_induction with
  | above top ih =>
    rw [entered_prunedTraversal, List.mem_cons, List.mem_flatMap]
    constructor
    · rintro (rfl | ⟨child, member, inside⟩)
      · refine ⟨List.mem_cons_self, fun above higher lower => ?_⟩
        exact absurd (lt_of_mem_ancestors higher) (Fin.not_lt.2 (le_of_mem_lineage lower))
      · obtain ⟨walks, among⟩ := mem_walkedChildren_iff.1 member
        obtain ⟨below, free⟩ := (ih child among).1 inside
        have isParent := built.mem_children_iff.1 among
        have topAbove : top ∈ tree.lineage child :=
          mem_lineage_of_parent? isParent List.mem_cons_self
        refine ⟨mem_lineage_trans below topAbove, fun above higher lower => ?_⟩
        have onWay : above ∈ tree.lineage id := mem_lineage_iff.2 (.inr higher)
        rcases eq_or_mem_lineage_of_between isParent below onWay lower with rfl | further
        · exact walks
        · exact free above higher further
    · rintro ⟨below, free⟩
      rcases mem_lineage_iff.1 below with rfl | higher
      · exact .inl rfl
      · obtain ⟨child, member, isParent⟩ := exists_child_of_mem_ancestors higher
        have among := built.mem_children_iff.2 isParent
        have topAbove : top ∈ tree.lineage child :=
          mem_lineage_of_parent? isParent List.mem_cons_self
        have walks := free top higher List.mem_cons_self
        refine .inr ⟨child, mem_walkedChildren_iff.2 ⟨walks, among⟩, (ih child among).2 ?_⟩
        refine ⟨member, fun above inside lower => free above inside ?_⟩
        exact mem_lineage_trans lower topAbove

theorem Built.pairwise_entered (built : tree.Built) (top : tree.Id) :
    (entered (tree.prunedTraversal pruned top)).Pairwise (· < ·) := by
  have below {node id : tree.Id} (h : id ∈ entered (tree.prunedTraversal pruned node)) :
      node ∈ tree.lineage id := (built.mem_entered_iff.1 h).1
  induction top using child_induction with
  | above top ih =>
    rw [entered_prunedTraversal, List.pairwise_cons, List.pairwise_flatMap]
    refine ⟨fun id inside => ?_, fun child member => ?_, ?_⟩
    · obtain ⟨child, member, within⟩ := List.mem_flatMap.1 inside
      have order := child_gt (mem_walkedChildren_iff.1 member).2
      exact Fin.lt_of_lt_of_le order (le_of_mem_lineage (below within))
    · exact ih child (mem_walkedChildren_iff.1 member).2
    · have sorted : (tree.walkedChildren pruned top).Pairwise (· < ·) := by
        unfold walkedChildren
        split
        · exact List.Pairwise.nil
        · exact built.pairwise_children top
      refine sorted.imp_of_mem fun {left right} hleft hright order => ?_
      intro first inLeft second inRight
      have leftParent := built.mem_children_iff.1 (mem_walkedChildren_iff.1 hleft).2
      have rightParent := built.mem_children_iff.1 (mem_walkedChildren_iff.1 hright).2
      have before := built.lt_of_siblings leftParent rightParent order (below inLeft)
      exact Fin.lt_of_lt_of_le before (le_of_mem_lineage (below inRight))

theorem Built.entered_eq_filter (built : tree.Built) (pruned : tree.Id → Bool) :
    entered (tree.prunedTraversal pruned tree.root) =
      tree.ids.filter fun id => !(tree.ancestors id).any pruned := by
  have increasing : tree.ids.Pairwise (· < ·) := List.pairwise_lt_finRange _
  refine (built.pairwise_entered tree.root).eq_of_mem_iff (increasing.filter _) fun id => ?_
  have every : id ∈ tree.ids := List.mem_finRange id
  rw [built.mem_entered_iff, List.mem_filter, Bool.not_eq_true', List.any_eq_false]
  simp only [built.root_mem_lineage, every, true_and, forall_const, Bool.not_eq_true]

theorem length_prunedTraversal (pruned : tree.Id → Bool) (id : tree.Id) :
    (tree.prunedTraversal pruned id).length =
      2 * (entered (tree.prunedTraversal pruned id)).length := by
  induction id using child_induction with
  | above id ih =>
    have below : ∀ children : List tree.Id, (∀ child ∈ children, child ∈ tree.children id) →
        (children.flatMap (tree.prunedTraversal pruned)).length =
          2 * (children.flatMap fun child =>
            entered (tree.prunedTraversal pruned child)).length := by
      intro children among
      induction children with
      | nil => rfl
      | cons child later rest =>
        have here := ih child (among child List.mem_cons_self)
        have there := rest fun other member => among other (List.mem_cons_of_mem child member)
        simp only [List.flatMap_cons, List.length_append]
        omega
    have inside := below (tree.walkedChildren pruned id) fun child member =>
      (mem_walkedChildren_iff.1 member).2
    rw [entered_prunedTraversal, prunedTraversal_eq]
    simp only [List.length_cons, List.length_append, List.length_nil]
    omega

theorem Built.events_walk_eq (built : tree.Built) :
    tree.walk.events = tree.prunedTraversal (fun _ => false) tree.root := by
  rw [Walk.events_walk, built.prunedTraversal_of_none, tree.parent?_root]

theorem Built.entered_events (built : tree.Built) : entered tree.walk.events = tree.ids := by
  rw [built.events_walk_eq, built.entered_eq_filter]
  simp

/-- A walk that skips what is below each entered node with a property fails nowhere, and its events
are those of the recursive traversal that does not go below such nodes.  It enters the nodes that
have none of them above, in the order of their indices; without skips it enters all nodes from the
first to the last, and has two events for each. -/
theorem drain_eq_prunedTraversal (tree : Tree) (built : tree.Built) (pruned : tree.Id → Bool) :
    tree.walk.drain pruned = .ok (tree.prunedTraversal pruned tree.root) ∧
    entered (tree.prunedTraversal pruned tree.root) =
      tree.ids.filter (fun id => !(tree.ancestors id).any pruned) ∧
    tree.walk.drain (fun _ => false) = .ok tree.walk.events ∧
    (entered tree.walk.events).map Fin.val = List.range tree.size ∧
    tree.walk.events.length = 2 * tree.size := by
  have all : (entered tree.walk.events).map Fin.val = List.range tree.size := by
    rw [built.entered_events]
    exact List.map_coe_finRange_eq_range
  have count : tree.walk.events.length = 2 * (entered tree.walk.events).length := by
    rw [built.events_walk_eq]
    exact length_prunedTraversal _ _
  have number : (entered tree.walk.events).length = tree.size := by
    rw [← List.length_map, all, List.length_range]
  refine ⟨Walk.drain_walk built pruned, built.entered_eq_filter pruned, ?_, all, ?_⟩
  · rw [built.events_walk_eq]
    exact Walk.drain_walk built _
  · rw [count, number]

theorem drain_eq_prunedTraversal_product :
    product.Built ∧
      ∃ events, product.walk.drain (fun id => (product.node id).span.start == 5) = .ok events ∧
        events.length = 8 ∧ (entered events).map Fin.val = [0, 1, 2, 3] := by
  have built : product.Built := Shape.built_toTree _
  obtain ⟨drained, inOrder, -⟩ := drain_eq_prunedTraversal product built
    fun id => (product.node id).span.start == 5
  have numbers : (entered (product.prunedTraversal (fun id => (product.node id).span.start == 5)
      product.root)).map Fin.val = [0, 1, 2, 3] := by
    rw [inOrder]
    decide +kernel
  refine ⟨built, _, drained, ?_, numbers⟩
  rw [length_prunedTraversal, ← List.length_map, numbers]
  rfl

end AnnotatedSource.Tree
