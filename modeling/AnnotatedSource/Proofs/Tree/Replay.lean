import AnnotatedSource.Proofs.Span
import AnnotatedSource.Proofs.Tree.Ancestry
import AnnotatedSource.Proofs.Tree.Canonical
import AnnotatedSource.Tree.Walk
import Mathlib.Data.List.Basic

/-!
Walking a tree and building it are inverse.  The events of a walk are those of a recursive
traversal, and taken as steps of building they are the steps of the tree's shape; so replaying a
walk builds the same tree again.  The other way round every shape is read back from the tree that it
builds.
-/

set_option autoImplicit false
set_option relaxedAutoImplicit false

namespace AnnotatedSource

namespace Tree

/-- The events of walking a node: it is entered, its children are walked in order, and it is
left. -/
def traversal (tree : Tree) (parent : Option tree.Id) (id : tree.Id) : List (Event tree) :=
  .enter id parent ::
    ((tree.children id).attach.flatMap fun ⟨child, h⟩ =>
      have : tree.room child < tree.room id := room_lt h
      tree.traversal (some id) child) ++ [.leave id]
termination_by tree.room id

/-- The steps of building that an event of a walk stands for. -/
def Event.steps {tree : Tree} : Event tree → List Draft.Step
  | .enter id _ =>
    let node := tree.node id
    [.start node.kind node.span node.loc, .holes node.holes]
  | .leave _ => [.finish]

variable {tree : Tree}

theorem traversal_eq (parent : Option tree.Id) (id : tree.Id) :
    tree.traversal parent id =
      .enter id parent :: (tree.children id).flatMap (tree.traversal (some id)) ++ [.leave id] := by
  rw [traversal]
  simp only [List.flatMap_subtype, List.unattach_attach]

namespace Walk

theorem events_of_next? {walk after : Walk tree} {event : Event tree}
    (h : walk.next? = some (event, after)) : walk.events = event :: after.events := by
  rw [events]
  split
  · next none => rw [h] at none; contradiction
  · next found later hnext =>
    obtain ⟨rfl, rfl⟩ : event = found ∧ after = later := by
      simpa [h] using hnext
    rfl

theorem events_of_none {walk : Walk tree} (h : walk.next? = none) : walk.events = [] := by
  rw [events]
  split
  · rfl
  · next hnext => simp [h] at hnext

theorem events_pending {entrance : Option tree.Id} {outer : List (Frame tree)} {id : tree.Id}
    (pending : List tree.Id)
    (walked : ∀ child ∈ pending, ∀ outer : List (Frame tree),
      .enter child (some id) :: (⟨entrance, .enter child :: outer⟩ : Walk tree).events =
        tree.traversal (some id) child ++ (⟨entrance, outer⟩ : Walk tree).events) :
    (⟨entrance, ⟨id, pending⟩ :: outer⟩ : Walk tree).events =
      pending.flatMap (tree.traversal (some id)) ++
        .leave id :: (⟨entrance, outer⟩ : Walk tree).events := by
  induction pending with
  | nil => exact events_of_next? rfl
  | cons child later ih =>
    rw [events_of_next? rfl, walked child List.mem_cons_self,
      ih fun other member => walked other (List.mem_cons_of_mem _ member), List.flatMap_cons,
      List.append_assoc]

theorem enter_cons_events (id : tree.Id) (parent : Option tree.Id) {entrance : Option tree.Id}
    (outer : List (Frame tree)) :
    .enter id parent :: (⟨entrance, .enter id :: outer⟩ : Walk tree).events =
      tree.traversal parent id ++ (⟨entrance, outer⟩ : Walk tree).events := by
  induction id using child_induction generalizing parent outer with
  | above id ih =>
    rw [Frame.enter, events_pending _ fun child member => ih child member (some id), traversal_eq]
    simp

/-- A walk through a tree is its traversal. -/
theorem events_walk (tree : Tree) : tree.walk.events = tree.traversal none tree.root := by
  rw [events_of_next? rfl, enter_cons_events, events_of_none rfl, List.append_nil]

end Walk

theorem flatMap_steps_traversal (parent : Option tree.Id) (id : tree.Id) :
    (tree.traversal parent id).flatMap Event.steps = (tree.shapeAt id).steps := by
  induction id using child_induction generalizing parent with
  | above id ih =>
    have below : ((tree.children id).flatMap (tree.traversal (some id))).flatMap Event.steps =
        Shape.stepsAll ((tree.children id).map tree.shapeAt) := by
      rw [Shape.stepsAll_eq_flatMap, List.flatMap_map, List.flatMap_assoc]
      exact List.flatMap_congr fun child member => ih child member (some id)
    rw [traversal_eq, shapeAt_eq, Shape.steps, List.flatMap_append, List.flatMap_cons, below]
    rfl

theorem flatMap_steps_events (tree : Tree) :
    tree.walk.events.flatMap Event.steps = tree.shape.steps := by
  rw [Walk.events_walk, flatMap_steps_traversal]
  rfl

end Tree

/-- A built tree is built again, the same in all its nodes and links, by replaying a walk through
it; and every shape can be built and is read back from its tree. -/
theorem build_walk_and_shape_build :
    (∀ tree : Tree, tree.Built →
      Draft.build (tree.walk.events.flatMap Tree.Event.steps) = .ok tree) ∧
    ∀ shape : Shape, ∃ tree, Draft.build shape.steps = .ok tree ∧ tree.shape = shape := by
  constructor
  · intro tree built
    rw [Tree.flatMap_steps_events]
    exact built.build_shape
  · intro shape
    obtain ⟨tree, built⟩ := shape.build_steps
    exact ⟨tree, built, Shape.shape_of_build_steps built⟩

/-- An array whose holes are counted before and after its only element. -/
def scatteredHoles : List Draft.Step :=
  [.start .program (.ofWidth 0 9) .zero,
    .start .arrayExpression (.ofWidth 0 8) .zero, .holes 1,
    .start .identifier (.ofWidth 3 1) .zero, .finish, .holes 2, .finish, .finish]

theorem build_walk_scatteredHoles :
    ∃ tree, Draft.build scatteredHoles = .ok tree ∧
      tree.nodes.toList.map Node.holes = [0, 3, 0] ∧
      Draft.build (tree.walk.events.flatMap Tree.Event.steps) = .ok tree :=
  ⟨_, rfl, rfl, build_walk_and_shape_build.1 _ ⟨scatteredHoles, rfl⟩⟩

end AnnotatedSource
