import AnnotatedSource.Tree.Shape
import Mathlib.Tactic.ByContra

/-!
Trees that were built.  What a step of building does is said once, by cases; from it follows what
holds of every draft and so of every built tree: only the root has no parent, and the children of a
node are the nodes that have it for a parent, in the order of their indices.
-/

set_option autoImplicit false
set_option relaxedAutoImplicit false

namespace AnnotatedSource

namespace Draft

theorem step_cases {draft after : Draft} {step : Step} (h : draft.step step = .ok after) :
    (∃ kind span loc, step = .start kind span loc ∧
      (draft.opened = [] → draft.nodes = #[]) ∧ after = draft.push kind span loc) ∨
    (∃ count innermost outer, step = .holes count ∧ draft.opened = innermost :: outer ∧
      after.nodes = draft.nodes.modify innermost (withHoles · count) ∧
      after.opened = draft.opened) ∨
    (∃ innermost outer, step = .finish ∧ draft.opened = innermost :: outer ∧
      after.nodes = draft.nodes ∧ after.opened = outer) := by
  cases step with
  | start kind span loc =>
    left
    simp only [Draft.step, start] at h
    split at h
    · contradiction
    · next allowed =>
      refine ⟨kind, span, loc, rfl, ?_, ?_⟩
      · intro nothingOpen
        simpa [nothingOpen] using allowed
      · simpa [Except.map] using h.symm
  | holes count =>
    right; left
    simp only [Draft.step, addHoles] at h
    split at h
    · contradiction
    · next innermost outer opened =>
      obtain rfl := Except.ok.inj h
      exact ⟨count, innermost, outer, rfl, opened, rfl, rfl⟩
  | finish =>
    right; right
    simp only [Draft.step, finish] at h
    split at h
    · contradiction
    · next innermost outer opened =>
      obtain rfl := Except.ok.inj h
      exact ⟨innermost, outer, rfl, opened, rfl, rfl⟩

theorem run_cons_eq_ok_iff {draft after : Draft} {step : Step} {rest : List Step} :
    draft.run (step :: rest) = .ok after ↔
      ∃ next, draft.step step = .ok next ∧ next.run rest = .ok after := by
  unfold run
  rw [List.foldlM_cons]
  cases draft.step step with
  | error misuse => simp [bind, Except.bind]
  | ok next => simp [bind, Except.bind]

theorem run_append_eq_ok_iff {draft after : Draft} {first rest : List Step} :
    draft.run (first ++ rest) = .ok after ↔
      ∃ middle, draft.run first = .ok middle ∧ middle.run rest = .ok after := by
  unfold run
  rw [List.foldlM_append]
  cases first.foldlM step draft with
  | error misuse => simp [bind, Except.bind]
  | ok middle => simp [bind, Except.bind]

theorem run_nil_eq_ok_iff {draft after : Draft} : draft.run [] = .ok after ↔ draft = after :=
  ⟨Except.ok.inj, congrArg Except.ok⟩

/-- What every step preserves, a run preserves. -/
theorem run_induction {property : Draft → Prop}
    (preserved : ∀ {before after : Draft} {step : Step}, property before →
      before.step step = .ok after → property after)
    {draft after : Draft} {steps : List Step} (initial : property draft)
    (h : draft.run steps = .ok after) : property after := by
  induction steps generalizing draft with
  | nil =>
    obtain rfl := run_nil_eq_ok_iff.1 h
    exact initial
  | cons step rest ih =>
    obtain ⟨next, taken, ran⟩ := run_cons_eq_ok_iff.1 h
    exact ih (preserved initial taken) ran

theorem nodes_of_complete {draft : Draft} {tree : Tree} (h : draft.complete = .ok tree) :
    draft.opened = [] ∧ draft.nodes = tree.nodes := by
  unfold complete at h
  split at h
  · next closed =>
    split at h
    · obtain rfl := Except.ok.inj h
      exact ⟨List.isEmpty_iff.1 closed, rfl⟩
    · contradiction
  · contradiction

theorem run_of_build {steps : List Step} {tree : Tree} (h : build steps = .ok tree) :
    ∃ draft, empty.run steps = .ok draft ∧ draft.complete = .ok tree := by
  unfold build at h
  cases ran : empty.run steps with
  | error misuse =>
    rw [ran] at h
    contradiction
  | ok draft =>
    rw [ran] at h
    exact ⟨draft, rfl, h⟩

theorem build_of_run {steps : List Step} {draft : Draft} (h : empty.run steps = .ok draft) :
    build steps = draft.complete := by
  unfold build
  rw [h]
  rfl

end Draft

def parentAt (nodes : Array Node) (index : Nat) : Option Nat := nodes[index]?.bind Node.parent

def childrenOf (nodes : Array Node) (parent : Nat) : List Nat :=
  (List.range nodes.size).filter fun index => parentAt nodes index = some parent

/-- Only the first node has no parent, and the children of a node are those that it is the parent
of, in order. -/
structure Arranged (nodes : Array Node) : Prop where
  parentless : ∀ {i : Nat} {node : Node}, nodes[i]? = some node → node.parent = none → i = 0
  children_eq : ∀ {i : Nat} {node : Node}, nodes[i]? = some node →
    node.children.toList = childrenOf nodes i

namespace Draft

theorem parentAt_adopt (nodes : Array Node) (node : Node) (index : Nat) :
    parentAt (adopt nodes node) index =
      if index = nodes.size then node.parent else parentAt nodes index := by
  unfold parentAt
  rw [getElem?_adopt]
  split
  · rfl
  · split
    · cases nodes[index]? <;> rfl
    · rfl

theorem childrenOf_adopt (nodes : Array Node) (node : Node) (parent : Nat) :
    childrenOf (adopt nodes node) parent =
      childrenOf nodes parent ++ if node.parent = some parent then [nodes.size] else [] := by
  unfold childrenOf
  rw [size_adopt, List.range_succ, List.filter_append]
  congr 1
  · refine List.filter_congr fun index member => ?_
    have before := List.mem_range.1 member
    rw [parentAt_adopt, if_neg (by omega)]
  · rw [List.filter_cons, List.filter_nil, parentAt_adopt, if_pos rfl]
    simp

theorem parentAt_withHoles (nodes : Array Node) (place count index : Nat) :
    parentAt (nodes.modify place (withHoles · count)) index = parentAt nodes index := by
  unfold parentAt
  rw [Array.getElem?_modify]
  split
  · cases nodes[index]? <;> rfl
  · rfl

theorem childrenOf_withHoles (nodes : Array Node) (place count parent : Nat) :
    childrenOf (nodes.modify place (withHoles · count)) parent = childrenOf nodes parent := by
  unfold childrenOf
  simp only [Array.size_modify, parentAt_withHoles]

private theorem childrenOf_size {nodes : Array Node} (linked : Linked nodes) :
    childrenOf nodes nodes.size = [] := by
  refine List.filter_eq_nil_iff.2 fun index member => ?_
  intro isParent
  obtain ⟨node, found, parent⟩ := Option.bind_eq_some_iff.1 (of_decide_eq_true isParent)
  have order := linked.parent_lt found parent
  have bound := List.mem_range.1 member
  omega

theorem arranged_push {draft : Draft} (arranged : Arranged draft.nodes) (kind : NodeKind)
    (span : Span) (loc : Location) (ready : draft.opened = [] → draft.nodes = #[]) :
    Arranged (draft.push kind span loc).nodes where
  parentless {i node} found noParent := by
    rw [push, getElem?_adopt] at found
    split at found
    · next isNew =>
      cases found
      -- A node without a parent is started only while there is no node yet.
      have nothing := ready (List.head?_eq_none_iff.1 noParent)
      rw [isNew, nothing]
      rfl
    · split at found
      · obtain ⟨before, hbefore, rfl⟩ := Option.map_eq_some_iff.1 found
        exact arranged.parentless hbefore noParent
      · exact arranged.parentless found noParent
  children_eq {i node} found := by
    rw [push, getElem?_adopt] at found
    rw [push, childrenOf_adopt]
    split at found
    · next isNew =>
      cases found
      rw [isNew, childrenOf_size draft.linked, if_neg]
      · rfl
      · intro itself
        have bound := draft.opened_lt _ (List.mem_of_mem_head? itself)
        omega
    · split at found
      · next isParent =>
        obtain ⟨before, hbefore, rfl⟩ := Option.map_eq_some_iff.1 found
        rw [if_pos isParent, ← arranged.children_eq hbefore]
        exact Array.toList_push
      · next otherParent =>
        rw [if_neg otherParent, List.append_nil]
        exact arranged.children_eq found

theorem arranged_step {draft after : Draft} {step : Step} (arranged : Arranged draft.nodes)
    (h : draft.step step = .ok after) : Arranged after.nodes := by
  rcases step_cases h with ⟨kind, span, loc, rfl, ready, rfl⟩ |
    ⟨count, innermost, outer, rfl, -, nodes, -⟩ | ⟨innermost, outer, rfl, -, nodes, -⟩
  · exact arranged_push arranged kind span loc ready
  · rw [nodes]
    refine ⟨fun {i node} found noParent => ?_, fun {i node} found => ?_⟩
    · rw [Array.getElem?_modify] at found
      split at found
      · obtain ⟨before, hbefore, rfl⟩ := Option.map_eq_some_iff.1 found
        exact arranged.parentless hbefore noParent
      · exact arranged.parentless found noParent
    · rw [childrenOf_withHoles]
      rw [Array.getElem?_modify] at found
      split at found
      · obtain ⟨before, hbefore, rfl⟩ := Option.map_eq_some_iff.1 found
        have unchanged := arranged.children_eq hbefore
        exact unchanged
      · exact arranged.children_eq found
  · rw [nodes]
    exact arranged

end Draft

namespace Tree

/-- A tree is built when some steps build it. -/
def Built (tree : Tree) : Prop := ∃ steps, Draft.build steps = .ok tree

theorem Built.arranged {tree : Tree} (built : tree.Built) : Arranged tree.nodes := by
  obtain ⟨steps, hsteps⟩ := built
  obtain ⟨draft, ran, completed⟩ := Draft.run_of_build hsteps
  have initial : Arranged Draft.empty.nodes := ⟨by simp [Draft.empty], by simp [Draft.empty]⟩
  have arranged : Arranged draft.nodes :=
    Draft.run_induction (fun arranged taken => Draft.arranged_step arranged taken) initial ran
  rw [← (Draft.nodes_of_complete completed).2]
  exact arranged

theorem parent?_root (tree : Tree) : tree.parent? tree.root = none := by
  cases parent : tree.parent? tree.root with
  | none => rfl
  | some above => exact absurd (parent_lt parent) (Nat.not_lt_zero above.val)

theorem map_val_parent? (tree : Tree) (id : tree.Id) :
    (tree.parent? id).map Fin.val = (tree.node id).parent := by
  cases stored : (tree.node id).parent with
  | none => simp [parent?, stored]
  | some above =>
    have bound := Nat.lt_trans (tree.linked.parent_lt (tree.getElem?_nodes id) stored) id.isLt
    have known : tree.parent? id = some ⟨above, bound⟩ := parent?_eq_some_iff.2 stored
    rw [known]
    rfl

theorem Built.eq_root_of_parent? {tree : Tree} (built : tree.Built) {id : tree.Id}
    (h : tree.parent? id = none) : id = tree.root := by
  have noParent : (tree.node id).parent = none := by
    rw [← map_val_parent?, h]
    rfl
  exact Fin.ext (built.arranged.parentless (tree.getElem?_nodes id) noParent)

theorem Built.mem_children_iff {tree : Tree} (built : tree.Built) {id child : tree.Id} :
    child ∈ tree.children id ↔ tree.parent? child = some id := by
  rw [Tree.mem_children_iff, parent?_eq_some_iff, ← Array.mem_toList_iff,
    built.arranged.children_eq (tree.getElem?_nodes id), childrenOf, List.mem_filter,
    List.mem_range, parentAt, getElem?_nodes]
  simp

end Tree

theorem Shape.build_toTree (shape : Shape) : Draft.build shape.steps = .ok shape.toTree := by
  unfold Shape.toTree
  split
  · next tree built => exact built
  · next misuse failed =>
    obtain ⟨tree, built⟩ := shape.build_steps
    rw [failed] at built
    contradiction

theorem Shape.built_toTree (shape : Shape) : shape.toTree.Built :=
  ⟨shape.steps, shape.build_toTree⟩

end AnnotatedSource
