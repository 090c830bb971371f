import AnnotatedSource.Proofs.Tree.Built

/-!
How shapes lie in the array of a tree.  Building a shape adds its nodes at the end of the array, the
root first and what is below each child in one stretch behind it, and names the root as the last
child of the node around it.  Reading the children back from the root gives the shape again.
-/

set_option autoImplicit false
set_option relaxedAutoImplicit false

namespace AnnotatedSource

namespace Shape

mutual

def size : Shape → Nat
  | .node _ _ _ _ children => 1 + sizeAll children

def sizeAll : List Shape → Nat
  | [] => 0
  | shape :: rest => size shape + sizeAll rest

end

/-- The indices of the roots of shapes that lie one after another from an index on. -/
def roots (first : Nat) : List Shape → List Nat
  | [] => []
  | shape :: rest => first :: roots (first + size shape) rest

mutual

/-- The nodes of a shape below a parent, as they lie from an index on. -/
def layout (parent : Option Nat) (first : Nat) : Shape → List Node
  | .node kind span loc holes children =>
    ⟨kind, span, loc, parent, (roots (first + 1) children).toArray, holes⟩ ::
      layoutAll first (first + 1) children

def layoutAll (parent first : Nat) : List Shape → List Node
  | [] => []
  | shape :: rest => layout (some parent) first shape ++ layoutAll parent (first + size shape) rest

end

mutual

theorem length_layout (shape : Shape) (parent : Option Nat) (first : Nat) :
    (shape.layout parent first).length = shape.size := by
  match shape with
  | .node kind span loc holes children =>
    rw [layout, List.length_cons, length_layoutAll children, size]
    omega

theorem length_layoutAll (shapes : List Shape) (parent first : Nat) :
    (layoutAll parent first shapes).length = sizeAll shapes := by
  match shapes with
  | [] => rfl
  | shape :: rest =>
    rw [layoutAll, List.length_append, length_layout shape, length_layoutAll rest, sizeAll]

end

theorem layout_ne_nil (shape : Shape) (parent : Option Nat) (first : Nat) :
    shape.layout parent first ≠ [] := by
  match shape with
  | .node kind span loc holes children => simp [layout]

end Shape

namespace Draft

/-- A node with more children behind those it has. -/
def withChildren (node : Node) (children : List Nat) : Node :=
  { node with children := node.children ++ children.toArray }

/-- The list with new nodes at its end, whose roots become the last children of their parent. -/
def graft (nodes : List Node) (parent : Option Nat) (roots : List Nat) (new : List Node) :
    List Node :=
  (parent.elim nodes fun index => nodes.modify index (withChildren · roots)) ++ new

private theorem modify_append_of_lt {α : Type} {front back : List α} {index : Nat} (f : α → α)
    (h : index < front.length) :
    (front ++ back).modify index f = front.modify index f ++ back := by
  induction front generalizing index with
  | nil => simp at h
  | cons item rest ih =>
    cases index with
    | zero => rfl
    | succ index =>
      rw [List.cons_append, List.modify_succ_cons, List.modify_succ_cons, List.cons_append,
        ih (Nat.lt_of_succ_lt_succ h)]

private theorem modify_append_length {α : Type} (front : List α) (item : α) (back : List α)
    (f : α → α) : (front ++ item :: back).modify front.length f = front ++ f item :: back := by
  induction front with
  | nil => rfl
  | cons first rest ih =>
    rw [List.cons_append, List.length_cons, List.modify_succ_cons, ih, List.cons_append]

theorem withChildren_nil (node : Node) : withChildren node [] = node := by
  simp [withChildren]

theorem withChildren_withChildren (node : Node) (first second : List Nat) :
    withChildren (withChildren node first) second = withChildren node (first ++ second) := by
  simp [withChildren]

theorem withChild_eq (node : Node) (child : Nat) :
    withChild node child = withChildren node [child] := by
  simp [withChild, withChildren]

theorem toList_adopt (nodes : Array Node) (node : Node) :
    (adopt nodes node).toList = graft nodes.toList node.parent [nodes.size] [node] := by
  unfold adopt graft
  cases node.parent with
  | none => simp
  | some parent => simp [withChild_eq]

theorem graft_nil (nodes : List Node) (parent : Option Nat) : graft nodes parent [] [] = nodes := by
  unfold graft
  rw [List.append_nil]
  cases parent with
  | none => rfl
  | some index =>
    have same : (withChildren · []) = id := funext withChildren_nil
    rw [Option.elim_some, same, List.modify_id]

theorem length_graft (nodes : List Node) (parent : Option Nat) (roots : List Nat)
    (new : List Node) : (graft nodes parent roots new).length = nodes.length + new.length := by
  unfold graft
  cases parent <;> simp

theorem graft_graft {nodes : List Node} {parent : Nat} (inside : parent < nodes.length)
    (roots later : List Nat) (new behind : List Node) :
    graft (graft nodes (some parent) roots new) (some parent) later behind =
      graft nodes (some parent) (roots ++ later) (new ++ behind) := by
  unfold graft
  simp only [Option.elim_some]
  rw [modify_append_of_lt _ (by simpa using inside), List.modify_modify_eq, List.append_assoc]
  congr 2
  funext node
  exact withChildren_withChildren node roots later

theorem withHoles_zero (node : Node) : withHoles node 0 = node := rfl

theorem withHoles_withHoles (node : Node) (first second : Nat) :
    withHoles (withHoles node first) second = withHoles node (first + second) := by
  simp [withHoles, Nat.add_assoc]

theorem withHoles_graft {nodes : List Node} {parent : Nat} (inside : parent < nodes.length)
    (roots : List Nat) (new : List Node) (count : Nat) :
    (graft nodes (some parent) roots new).modify parent (withHoles · count) =
      graft (nodes.modify parent (withHoles · count)) (some parent) roots new := by
  unfold graft
  rw [Option.elim_some, Option.elim_some, modify_append_of_lt _ (by simpa using inside),
    List.modify_modify_eq, List.modify_modify_eq]
  rfl

theorem modify_graft (nodes : List Node) (parent : Option Nat) (roots : List Nat) (node : Node)
    (behind : List Node) (f : Node → Node) :
    (graft nodes parent roots (node :: behind)).modify nodes.length f =
      graft nodes parent roots (f node :: behind) := by
  have length : (parent.elim nodes fun index => nodes.modify index (withChildren · roots)).length =
      nodes.length := by
    cases parent <;> simp
  unfold graft
  rw [← length, modify_append_length]

theorem graft_graft_first (nodes : List Node) (parent : Option Nat) (roots later : List Nat)
    (node : Node) (behind : List Node) :
    graft (graft nodes parent roots [node]) (some nodes.length) later behind =
      graft nodes parent roots (withChildren node later :: behind) := by
  rw [graft, Option.elim_some, modify_graft]
  unfold graft
  rw [List.append_assoc, List.singleton_append]

theorem nodes_of_start {draft after : Draft} {kind : NodeKind} {span : Span} {loc : Location}
    (h : draft.step (.start kind span loc) = .ok after) :
    after.opened = draft.nodes.size :: draft.opened ∧
      after.nodes.toList = graft draft.nodes.toList draft.opened.head? [draft.nodes.size]
        [⟨kind, span, loc, draft.opened.head?, #[], 0⟩] := by
  rcases step_cases h with ⟨_, _, _, same, -, rfl⟩ | ⟨_, _, _, other, -⟩ | ⟨_, _, other, -⟩
  · cases same
    exact ⟨rfl, toList_adopt _ _⟩
  · contradiction
  · contradiction

theorem nodes_of_holes {draft after : Draft} {count innermost : Nat} {outer : List Nat}
    (opened : draft.opened = innermost :: outer) (h : draft.step (.holes count) = .ok after) :
    after.opened = draft.opened ∧
      after.nodes.toList = draft.nodes.toList.modify innermost (withHoles · count) := by
  rcases step_cases h with ⟨_, _, _, other, -⟩ | ⟨_, _, _, same, opened', nodes, stays⟩ |
    ⟨_, _, other, -⟩
  · contradiction
  · cases same
    rw [opened] at opened'
    cases opened'
    rw [nodes, Array.toList_modify]
    exact ⟨stays, rfl⟩
  · contradiction

theorem nodes_of_finish {draft after : Draft} {innermost : Nat} {outer : List Nat}
    (opened : draft.opened = innermost :: outer) (h : draft.step .finish = .ok after) :
    after.opened = outer ∧ after.nodes = draft.nodes := by
  rcases step_cases h with ⟨_, _, _, other, -⟩ | ⟨_, _, _, other, -⟩ |
    ⟨_, _, -, opened', nodes, left⟩
  · contradiction
  · contradiction
  · rw [opened] at opened'
    cases opened'
    exact ⟨left, nodes⟩

end Draft

namespace Shape

open Draft (graft withChildren)

mutual

theorem nodes_of_run_steps (shape : Shape) {draft after : Draft}
    (h : draft.run shape.steps = .ok after) :
    after.opened = draft.opened ∧
      after.nodes.toList = graft draft.nodes.toList draft.opened.head? [draft.nodes.size]
        (shape.layout draft.opened.head? draft.nodes.size) := by
  match shape with
  | .node kind span loc holes children =>
    rw [steps, Draft.run_cons_eq_ok_iff] at h
    obtain ⟨started, hstarted, h⟩ := h
    obtain ⟨counted, hcounted, h⟩ := Draft.run_cons_eq_ok_iff.1 h
    obtain ⟨filled, hfilled, h⟩ := Draft.run_append_eq_ok_iff.1 h
    obtain ⟨closed, hclosed, h⟩ := Draft.run_cons_eq_ok_iff.1 h
    obtain rfl := Draft.run_nil_eq_ok_iff.1 h
    obtain ⟨startedOpened, startedNodes⟩ := Draft.nodes_of_start hstarted
    obtain ⟨countedOpened, countedNodes⟩ := Draft.nodes_of_holes startedOpened hcounted
    have opened := countedOpened.trans startedOpened
    obtain ⟨filledOpened, filledNodes⟩ := nodes_of_run_stepsAll children opened hfilled
    obtain ⟨closedOpened, closedNodes⟩ := Draft.nodes_of_finish (filledOpened.trans opened) hclosed
    have size : counted.nodes.size = draft.nodes.size + 1 := by
      rw [← Array.length_toList, countedNodes, List.length_modify, startedNodes,
        Draft.length_graft, Array.length_toList, List.length_singleton]
    refine ⟨closedOpened, ?_⟩
    rw [closedNodes, filledNodes, size, countedNodes, startedNodes, ← Array.length_toList,
      Draft.modify_graft, Draft.graft_graft_first, layout]
    simp [Draft.withHoles, withChildren]

theorem nodes_of_run_stepsAll (shapes : List Shape) {draft after : Draft} {parent : Nat}
    {outer : List Nat} (opened : draft.opened = parent :: outer)
    (h : draft.run (stepsAll shapes) = .ok after) :
    after.opened = draft.opened ∧
      after.nodes.toList = graft draft.nodes.toList (some parent) (roots draft.nodes.size shapes)
        (layoutAll parent draft.nodes.size shapes) := by
  match shapes with
  | [] =>
    obtain rfl := Draft.run_nil_eq_ok_iff.1 h
    exact ⟨rfl, (Draft.graft_nil _ _).symm⟩
  | shape :: rest =>
    rw [stepsAll, Draft.run_append_eq_ok_iff] at h
    obtain ⟨middle, hfirst, hrest⟩ := h
    obtain ⟨middleOpened, middleNodes⟩ := nodes_of_run_steps shape hfirst
    obtain ⟨afterOpened, afterNodes⟩ :=
      nodes_of_run_stepsAll rest (middleOpened.trans opened) hrest
    have size : middle.nodes.size = draft.nodes.size + shape.size := by
      rw [← Array.length_toList, middleNodes, Draft.length_graft, Array.length_toList,
        length_layout]
    have inside : parent < draft.nodes.toList.length :=
      draft.opened_lt parent (opened ▸ List.mem_cons_self)
    refine ⟨afterOpened.trans middleOpened, ?_⟩
    rw [afterNodes, size, middleNodes, opened, List.head?_cons, Draft.graft_graft inside]
    rfl

end

/-- The tree that the steps of a shape build holds the nodes of the shape and nothing else. -/
theorem nodes_of_build_steps {shape : Shape} {tree : Tree}
    (h : Draft.build shape.steps = .ok tree) : tree.nodes.toList = shape.layout none 0 := by
  obtain ⟨draft, ran, completed⟩ := Draft.run_of_build h
  rw [← (Draft.nodes_of_complete completed).2, (nodes_of_run_steps shape ran).2]
  rfl

end Shape

namespace Tree

theorem shapeAt_eq (tree : Tree) (id : tree.Id) :
    tree.shapeAt id =
      .node (tree.node id).kind (tree.node id).span (tree.node id).loc (tree.node id).holes
        ((tree.children id).map tree.shapeAt) := by
  rw [shapeAt]
  simp only [List.map_subtype, List.unattach_attach]

end Tree

namespace Shape

mutual

theorem shapeAt_of_layout (shape : Shape) {tree : Tree} {id : tree.Id} {parent : Option Nat}
    (laid : shape.layout parent id.val <+: tree.nodes.toList.drop id.val) :
    tree.shapeAt id = shape := by
  match shape with
  | .node kind span loc holes children =>
    obtain ⟨behind, split⟩ := laid
    rw [layout, List.cons_append] at split
    have stored : tree.node id =
        ⟨kind, span, loc, parent, (roots (id.val + 1) children).toArray, holes⟩ := by
      have head := congrArg List.head? split
      rw [List.head?_cons, List.head?_drop, Array.getElem?_toList, tree.getElem?_nodes] at head
      exact (Option.some.inj head).symm
    have below :
        layoutAll id.val (id.val + 1) children <+: tree.nodes.toList.drop (id.val + 1) := by
      rw [← List.tail_drop, ← split, List.tail_cons]
      exact List.prefix_append _ _
    rw [Tree.shapeAt_eq, Tree.children, stored, shapesAt_of_layoutAll children below]

theorem shapesAt_of_layoutAll (shapes : List Shape) {tree : Tree} {parent first : Nat}
    (laid : layoutAll parent first shapes <+: tree.nodes.toList.drop first) :
    ((roots first shapes).filterMap tree.id?).map tree.shapeAt = shapes := by
  match shapes with
  | [] => rfl
  | shape :: rest =>
    rw [layoutAll] at laid
    have here := (List.prefix_append _ _).trans laid
    have there : layoutAll parent (first + shape.size) rest <+:
        tree.nodes.toList.drop (first + shape.size) := by
      obtain ⟨behind, split⟩ := laid
      rw [List.append_assoc] at split
      rw [← List.drop_drop, ← split, List.drop_left' (length_layout shape _ _)]
      exact List.prefix_append _ _
    have inside : first < tree.nodes.size := by
      by_contra outside
      rw [List.drop_eq_nil_of_le (by simpa using outside), List.prefix_nil] at here
      exact layout_ne_nil shape _ _ here
    have root : tree.id? first = some ⟨first, inside⟩ := Tree.id?_eq_some_iff.2 rfl
    rw [roots, List.filterMap_cons_some root, List.map_cons, shapeAt_of_layout shape here,
      shapesAt_of_layoutAll rest there]

end

theorem shape_of_build_steps {shape : Shape} {tree : Tree}
    (h : Draft.build shape.steps = .ok tree) : tree.shape = shape := by
  have laid : shape.layout none tree.root.val <+: tree.nodes.toList.drop tree.root.val := by
    rw [nodes_of_build_steps h]
    exact List.prefix_rfl
  exact shapeAt_of_layout shape laid

end Shape

end AnnotatedSource
