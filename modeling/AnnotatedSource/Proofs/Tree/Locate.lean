import AnnotatedSource.Proofs.Tree.Coherent
import AnnotatedSource.Tree.Locate

/-!
What the search for the node at an offset finds.  The search follows a walk, but it never gets past
the node that it found: it ends where a direct descent from the root does, which goes from a node to
the first child that contains the offset.  In a tree whose spans follow the tree that node and the
nodes above it are all that contain the offset.
-/

set_option autoImplicit false
set_option relaxedAutoImplicit false

namespace AnnotatedSource.Tree

def childAt? (tree : Tree) (offset : Nat) (id : tree.Id) : Option tree.Id :=
  (tree.children id).find? fun child => (tree.node child).span.contains offset

theorem mem_children_of_childAt? {tree : Tree} {offset : Nat} {id child : tree.Id}
    (h : tree.childAt? offset id = some child) : child ∈ tree.children id :=
  List.mem_of_find?_eq_some h

theorem contains_of_childAt? {tree : Tree} {offset : Nat} {id child : tree.Id}
    (h : tree.childAt? offset id = some child) :
    (tree.node child).span.contains offset = true := by
  simpa using List.find?_some h

/-- The node reached from a node by moving to the first child whose span contains an offset, until
no child's does. -/
def descend (tree : Tree) (offset : Nat) (id : tree.Id) : tree.Id :=
  match h : tree.childAt? offset id with
  | none => id
  | some child =>
    have : tree.room child < tree.room id := room_lt (mem_children_of_childAt? h)
    tree.descend offset child
termination_by tree.room id

variable {tree : Tree} {offset : Nat}

theorem descend_of_none {id : tree.Id} (h : tree.childAt? offset id = none) :
    tree.descend offset id = id := by
  rw [descend]
  split
  · rfl
  · next child found => rw [h] at found; contradiction

theorem descend_of_some {id child : tree.Id} (h : tree.childAt? offset id = some child) :
    tree.descend offset id = tree.descend offset child := by
  rw [descend]
  split
  · next none => rw [h] at none; contradiction
  · next found hfound =>
    obtain rfl := Option.some.inj (h.symm.trans hfound)
    rfl

namespace Walk

variable {walk after : Walk tree} {found : Option (Match tree)}

theorem skip_of_enter {node : tree.Id} {parent : Option tree.Id}
    (h : walk.next? = some (.enter node parent, after)) : after.skip = .ok after.prune := by
  have entered : after.path ≠ [] := by
    obtain ⟨entrance, path⟩ := walk
    match path, entrance with
    | [], none => simp [next?] at h
    | [], some root =>
      obtain ⟨-, rfl⟩ : _ ∧ _ = after := by simpa [next?] using h
      simp
    | ⟨_, []⟩ :: _, _ => simp [next?] at h
    | ⟨_, _ :: _⟩ :: _, _ =>
      obtain ⟨-, rfl⟩ : _ ∧ _ = after := by simpa [next?] using h
      simp
  rw [skip, if_neg (by simpa using entered)]

theorem locate_of_enter {node : tree.Id} {parent : Option tree.Id}
    (h : walk.next? = some (.enter node parent, after)) :
    walk.locate offset found =
      if (tree.node node).span.contains offset then after.locate offset (some ⟨node, parent⟩)
      else after.prune.locate offset found := by
  rw [locate]
  split
  · next none => rw [h] at none; contradiction
  · next entered above later hnext =>
    obtain ⟨⟨rfl, rfl⟩, rfl⟩ : (node = entered ∧ parent = above) ∧ after = later := by
      simpa [h] using hnext
    rfl
  · next left later hnext => simp [h] at hnext

theorem locate_of_skip {node : tree.Id} {parent : Option tree.Id} {later : Walk tree}
    (h : walk.next? = some (.enter node parent, after))
    (misses : (tree.node node).span.contains offset = false) (skipped : after.skip = .ok later) :
    walk.locate offset found = later.locate offset found := by
  rw [skip_of_enter h] at skipped
  obtain rfl := Except.ok.inj skipped
  exact (locate_of_enter h).trans (if_neg (by simp [misses]))

theorem locate_of_leave {node : tree.Id} (h : walk.next? = some (.leave node, after)) :
    walk.locate offset found =
      if found.any fun best => best.node = node then found else after.locate offset found := by
  rw [locate]
  split
  · next none => rw [h] at none; contradiction
  · next entered above later hnext => simp [h] at hnext
  · next left later hnext =>
    obtain ⟨rfl, rfl⟩ : node = left ∧ after = later := by
      simpa [h] using hnext
    rfl

theorem locate_of_none (h : walk.next? = none) : walk.locate offset found = found := by
  rw [locate]
  split
  · rfl
  · next hnext => simp [h] at hnext
  · next hnext => simp [h] at hnext

theorem locate_of_misses {entrance : Option tree.Id} {outer : List (Frame tree)}
    {node child : tree.Id} {later : List tree.Id} {best : Match tree}
    (misses : (tree.node child).span.contains offset = false) (other : best.node ≠ child) :
    (⟨entrance, ⟨node, child :: later⟩ :: outer⟩ : Walk tree).locate offset (some best) =
      (⟨entrance, ⟨node, later⟩ :: outer⟩ : Walk tree).locate offset (some best) := by
  rw [locate_of_skip rfl misses rfl]
  refine (locate_of_leave rfl).trans (if_neg ?_)
  simp [Frame.enter, other]

theorem locate_pending {entrance : Option tree.Id} {outer : List (Frame tree)} {id : tree.Id}
    {parent : Option tree.Id} (pending : List tree.Id) (below : ∀ child ∈ pending, id < child)
    (goal : tree.Id → Option (Match tree))
    (reached : ∀ child ∈ pending, ∀ outer : List (Frame tree),
      (⟨entrance, .enter child :: outer⟩ : Walk tree).locate offset (some ⟨child, some id⟩) =
        goal child) :
    (⟨entrance, ⟨id, pending⟩ :: outer⟩ : Walk tree).locate offset (some ⟨id, parent⟩) =
      (pending.find? fun child => (tree.node child).span.contains offset).elim
        (some ⟨id, parent⟩) goal := by
  induction pending with
  | nil => exact (locate_of_leave rfl).trans (if_pos (by simp))
  | cons child later ih =>
    rw [List.find?_cons]
    cases contains : (tree.node child).span.contains offset with
    | true =>
      rw [locate_of_enter rfl, if_pos contains]
      exact reached child List.mem_cons_self _
    | false =>
      have distinct : id ≠ child := Fin.ne_of_lt (below child List.mem_cons_self)
      rw [locate_of_misses contains distinct]
      exact ih (fun other member => below other (List.mem_cons_of_mem _ member))
        fun other member => reached other (List.mem_cons_of_mem _ member)

/-- Once the search has entered a node that contains the offset, it ends where the descent from
that node does, whatever is left of the walk around it. -/
theorem locate_entered (built : tree.Built) (id : tree.Id) {entrance : Option tree.Id}
    (outer : List (Frame tree)) :
    (⟨entrance, .enter id :: outer⟩ : Walk tree).locate offset (some ⟨id, tree.parent? id⟩) =
      some ⟨tree.descend offset id, tree.parent? (tree.descend offset id)⟩ := by
  induction id using child_induction generalizing outer with
  | above id ih =>
    rw [Frame.enter, locate_pending (tree.children id) (fun child member => child_gt member)
      fun child => some ⟨tree.descend offset child, tree.parent? (tree.descend offset child)⟩]
    · change (tree.childAt? offset id).elim _ _ = _
      cases found : tree.childAt? offset id with
      | none => rw [descend_of_none found, Option.elim_none]
      | some child => rw [descend_of_some found, Option.elim_some]
    · intro child member outer
      rw [← built.mem_children_iff.1 member]
      exact ih child member outer

end Walk

theorem Built.nodeAt?_eq (built : tree.Built) (offset : Nat) :
    tree.nodeAt? offset =
      if (tree.node tree.root).span.contains offset then
        some ⟨tree.descend offset tree.root, tree.parent? (tree.descend offset tree.root)⟩
      else none := by
  have entered : (⟨none, [.enter tree.root]⟩ : Walk tree).locate offset
      (some ⟨tree.root, tree.parent? tree.root⟩) = _ :=
    Walk.locate_entered built tree.root []
  rw [tree.parent?_root] at entered
  rw [nodeAt?]
  cases contains : (tree.node tree.root).span.contains offset with
  | true =>
    rw [Walk.locate_of_enter rfl, if_pos contains, if_pos rfl]
    exact entered
  | false =>
    rw [Walk.locate_of_skip rfl contains rfl, if_neg (by simp)]
    refine (Walk.locate_of_leave rfl).trans ((if_neg ?_).trans (Walk.locate_of_none rfl))
    simp

/-- The search for an offset is the descent from the root, in every tree that was built, even where
children overlap or reach beyond their parent.  The parent that it reports is the one stored in the
node. -/
theorem nodeAt?_eq_descend (tree : Tree) (built : tree.Built) (offset : Nat) :
    (tree.nodeAt? offset =
      if (tree.node tree.root).span.contains offset then
        some ⟨tree.descend offset tree.root, tree.parent? (tree.descend offset tree.root)⟩
      else none) ∧
    ∀ found, tree.nodeAt? offset = some found →
      found.parent.map Fin.val = (tree.node found.node).parent ∧
        (found.parent = none ↔ found.node = tree.root) := by
  refine ⟨built.nodeAt?_eq offset, ?_⟩
  intro found located
  rw [built.nodeAt?_eq] at located
  split at located
  · obtain rfl := Option.some.inj located
    refine ⟨tree.map_val_parent? _, built.eq_root_of_parent?, ?_⟩
    intro atRoot
    simp only at atRoot ⊢
    rw [atRoot]
    exact tree.parent?_root
  · contradiction

/-- Two statements that overlap, the first with a name that reaches beyond the program. -/
def overlapping : Tree :=
  Shape.toTree <|
    .node .program (.ofWidth 0 10) .zero 0
      [.node .expressionStatement (.ofWidth 2 6) .zero 0
        [.node .identifier (.ofWidth 6 6) .zero 0 []],
      .node .expressionStatement (.ofWidth 4 5) .zero 0 []]

theorem nodeAt?_eq_descend_overlapping :
    overlapping.nodeAt? 6 = some ⟨⟨2, by decide⟩, some ⟨1, by decide⟩⟩ ∧
      overlapping.nodeAt? 8 = some ⟨⟨3, by decide⟩, some ⟨0, by decide⟩⟩ ∧
      overlapping.nodeAt? 10 = none := by
  have built : overlapping.Built := Shape.built_toTree _
  have first : overlapping.childAt? 6 overlapping.root = some ⟨1, by decide⟩ := by decide
  have name : overlapping.childAt? 6 ⟨1, by decide⟩ = some ⟨2, by decide⟩ := by decide
  have second : overlapping.childAt? 8 overlapping.root = some ⟨3, by decide⟩ := by decide
  refine ⟨?_, ?_, ?_⟩
  · rw [(nodeAt?_eq_descend overlapping built 6).1, if_pos (by decide), descend_of_some first,
      descend_of_some name, descend_of_none (by decide)]
    decide
  · rw [(nodeAt?_eq_descend overlapping built 8).1, if_pos (by decide), descend_of_some second,
      descend_of_none (by decide)]
    decide
  · rw [(nodeAt?_eq_descend overlapping built 10).1, if_neg (by decide)]

theorem contains_descend {id : tree.Id} (h : (tree.node id).span.contains offset = true) :
    (tree.node (tree.descend offset id)).span.contains offset = true := by
  induction id using child_induction with
  | above id ih =>
    cases found : tree.childAt? offset id with
    | none =>
      rw [descend_of_none found]
      exact h
    | some child =>
      rw [descend_of_some found]
      exact ih child (mem_children_of_childAt? found) (contains_of_childAt? found)

theorem childAt?_descend (id : tree.Id) :
    tree.childAt? offset (tree.descend offset id) = none := by
  induction id using child_induction with
  | above id ih =>
    cases found : tree.childAt? offset id with
    | none =>
      rw [descend_of_none found]
      exact found
    | some child =>
      rw [descend_of_some found]
      exact ih child (mem_children_of_childAt? found)

theorem contains_of_mem_lineage (built : tree.Built) (nested : tree.Nested) {id above : tree.Id}
    (h : above ∈ tree.lineage id) (inside : (tree.node id).span.contains offset = true) :
    (tree.node above).span.contains offset = true :=
  (encloses_of_mem_lineage built nested h).contains inside

/-- A node that contains an offset none of its children contains is the innermost one: what contains
the offset is that node and the nodes above it. -/
theorem contains_iff_mem_lineage (built : tree.Built) (nested : tree.Nested)
    (apart : tree.SiblingsApart) {innermost : tree.Id}
    (inside : (tree.node innermost).span.contains offset = true)
    (deepest : tree.childAt? offset innermost = none) (id : tree.Id) :
    (tree.node id).span.contains offset = true ↔ id ∈ tree.lineage innermost := by
  refine ⟨fun contains => ?_, fun above => contains_of_mem_lineage built nested above inside⟩
  rcases built.kinship innermost id with
    above | below | ⟨left, hleft, right, hright, distinct, parent, leftParent, rightParent⟩
  · rcases mem_lineage_iff.1 above with rfl | higher
    · exact List.mem_cons_self
    -- The node lies below the innermost one, so below a child that contains the offset.
    · obtain ⟨child, member, isParent⟩ := exists_child_of_mem_ancestors higher
      have missed := List.find?_eq_none.1 deepest child (built.mem_children_iff.2 isParent)
      exact absurd (contains_of_mem_lineage built nested member contains) missed
  · exact below
  · have disjoint := apart parent left right (built.mem_children_iff.2 leftParent)
      (built.mem_children_iff.2 rightParent) distinct
    exact absurd ⟨contains_of_mem_lineage built nested hleft inside,
      contains_of_mem_lineage built nested hright contains⟩ (disjoint offset)

/-- In a tree whose spans follow the tree the search misses nothing.  It fails only where no node
contains the offset, and what it finds is, of all nodes that contain the offset, the one below all
others. -/
theorem nodeAt?_innermost (tree : Tree) (built : tree.Built) (nested : tree.Nested)
    (apart : tree.SiblingsApart) (offset : Nat) :
    (tree.nodeAt? offset = none ↔ ∀ id, (tree.node id).span.contains offset = false) ∧
    ∀ found, tree.nodeAt? offset = some found →
      (∀ id, (tree.node id).span.contains offset = true ↔ id ∈ tree.lineage found.node) ∧
      ∀ id, (tree.node id).span.contains offset = true → id ≠ found.node →
        tree.depth id < tree.depth found.node ∧ id < found.node := by
  rw [built.nodeAt?_eq]
  by_cases inRoot : (tree.node tree.root).span.contains offset = true
  · rw [if_pos inRoot]
    refine ⟨⟨(nomatch ·), fun none => ?_⟩, ?_⟩
    · rw [none tree.root] at inRoot
      contradiction
    · rintro found located
      obtain rfl := Option.some.inj located
      have innermost := contains_iff_mem_lineage built nested apart (contains_descend inRoot)
        (childAt?_descend tree.root)
      refine ⟨innermost, fun id contains distinct => ?_⟩
      have above := (mem_lineage_iff.1 ((innermost id).1 contains)).resolve_left distinct
      exact ⟨depth_lt_of_mem_ancestors above, lt_of_mem_ancestors above⟩
  · rw [if_neg inRoot]
    refine ⟨⟨fun _ id => ?_, fun _ => rfl⟩, fun _ located => nomatch located⟩
    cases contains : (tree.node id).span.contains offset with
    | false => rfl
    | true =>
      have above := built.root_mem_lineage id
      exact absurd (contains_of_mem_lineage built nested above contains) inRoot

/-- Statements that touch, an empty one between them, and a name as long as its statement. -/
def touching : Tree :=
  Shape.toTree <|
    .node .program (.ofWidth 0 6) .zero 0
      [.node .expressionStatement (.ofWidth 0 3) .zero 0 [],
      .node .emptyStatement (.ofWidth 3 0) .zero 0 [],
      .node .expressionStatement (.ofWidth 3 3) .zero 0
        [.node .identifier (.ofWidth 3 3) .zero 0 []]]

theorem nodeAt?_innermost_touching :
    touching.Nested ∧ touching.SiblingsApart ∧
      ∃ found, touching.nodeAt? 3 = some found ∧ found.node = ⟨4, by decide⟩ ∧
        ∀ id, (touching.node id).span.contains 3 = true ↔ id ∈ touching.lineage found.node := by
  have built : touching.Built := Shape.built_toTree _
  have nested : touching.Nested := by decide
  have apart : touching.SiblingsApart := by decide
  have last : (touching.node ⟨4, by decide⟩).span.contains 3 = true := by decide
  obtain ⟨missed, hit⟩ := nodeAt?_innermost touching built nested apart 3
  refine ⟨nested, apart, ?_⟩
  cases located : touching.nodeAt? 3 with
  | none =>
    rw [missed.1 located ⟨4, by decide⟩] at last
    contradiction
  | some found =>
    obtain ⟨innermost, lower⟩ := hit found located
    refine ⟨found, rfl, ?_, innermost⟩
    by_contra other
    have order : 4 < found.node.val := (lower _ last fun same => other same.symm).2
    have bound := found.node.isLt
    have size : touching.nodes.size = 5 := by decide
    omega

end AnnotatedSource.Tree
