import AnnotatedSource.Kind
import AnnotatedSource.Span
import AnnotatedSource.Tree.Misuse

/-!
Syntax trees.  The nodes of a tree stand in one array and name each other by index, each with its
parent and its children in order.  Indices grow from parent to child, so both the way up and the
way down end.
-/

set_option autoImplicit false
set_option relaxedAutoImplicit false

namespace AnnotatedSource

/-- A node as it stands in the array of its tree. -/
structure Node where
  kind : NodeKind
  span : Span
  loc : Location
  parent : Option Nat
  children : Array Nat
  holes : Nat
deriving DecidableEq

def Node.label (node : Node) : List Char :=
  node.kind.name.toList ++ ['@'] ++ node.span.render

/-- Every parent stands before its children and every child stands in the array. -/
structure Linked (nodes : Array Node) : Prop where
  parent_lt : ∀ {i p : Nat} {node : Node}, nodes[i]? = some node → node.parent = some p → p < i
  child_gt : ∀ {i c : Nat} {node : Node}, nodes[i]? = some node → c ∈ node.children → i < c
  child_lt_size : ∀ {i c : Nat} {node : Node},
    nodes[i]? = some node → c ∈ node.children → c < nodes.size

/-- A syntax tree.  Its root stands first. -/
structure Tree where
  nodes : Array Node
  nonempty : 0 < nodes.size
  linked : Linked nodes
deriving DecidableEq

namespace Tree

def size (tree : Tree) : Nat := tree.nodes.size

/-- The nodes of a tree, by index. -/
abbrev Id (tree : Tree) : Type := Fin tree.nodes.size

def id? (tree : Tree) (index : Nat) : Option tree.Id :=
  if bound : index < tree.nodes.size then some ⟨index, bound⟩ else none

/-- The node of an index, which must lie within the tree. -/
def idOf (tree : Tree) (index : Nat) : Except Misuse tree.Id :=
  match tree.id? index with
  | some id => .ok id
  | none => .error .foreignNode

def node (tree : Tree) (id : tree.Id) : Node := tree.nodes[id]

/-- The node that has no parent. -/
def root (tree : Tree) : tree.Id := ⟨0, tree.nonempty⟩

def ids (tree : Tree) : List tree.Id := List.finRange tree.nodes.size

def parent? (tree : Tree) (id : tree.Id) : Option tree.Id :=
  (tree.node id).parent.bind tree.id?

def children (tree : Tree) (id : tree.Id) : List tree.Id :=
  (tree.node id).children.toList.filterMap tree.id?

theorem getElem?_nodes (tree : Tree) (id : tree.Id) : tree.nodes[id.val]? = some (tree.node id) :=
  Array.getElem?_eq_getElem id.isLt

theorem id?_eq_some_iff {tree : Tree} {index : Nat} {id : tree.Id} :
    tree.id? index = some id ↔ index = id.val := by
  unfold id?
  constructor
  · intro h
    split at h
    · exact congrArg Fin.val (Option.some.inj h)
    · contradiction
  · intro h
    subst h
    simp

theorem parent?_eq_some_iff {tree : Tree} {id parent : tree.Id} :
    tree.parent? id = some parent ↔ (tree.node id).parent = some parent.val := by
  unfold parent?
  constructor
  · intro h
    obtain ⟨index, hindex, hparent⟩ := Option.bind_eq_some_iff.1 h
    rw [hindex, id?_eq_some_iff.1 hparent]
  · intro h
    rw [h]
    exact id?_eq_some_iff.2 rfl

theorem parent_lt {tree : Tree} {id parent : tree.Id} (h : tree.parent? id = some parent) :
    parent < id :=
  tree.linked.parent_lt (tree.getElem?_nodes id) (parent?_eq_some_iff.1 h)

theorem mem_children_iff {tree : Tree} {id child : tree.Id} :
    child ∈ tree.children id ↔ child.val ∈ (tree.node id).children := by
  unfold children
  rw [List.mem_filterMap]
  constructor
  · rintro ⟨index, hindex, hchild⟩
    rw [← id?_eq_some_iff.1 hchild]
    exact Array.mem_toList_iff.1 hindex
  · intro h
    exact ⟨child.val, Array.mem_toList_iff.2 h, id?_eq_some_iff.2 rfl⟩

theorem child_gt {tree : Tree} {id child : tree.Id} (h : child ∈ tree.children id) : id < child :=
  tree.linked.child_gt (tree.getElem?_nodes id) (mem_children_iff.1 h)

/-- The number of nodes from a node on, which shrinks on the way down. -/
def room (tree : Tree) (id : tree.Id) : Nat := tree.nodes.size - id.val

theorem room_lt {tree : Tree} {id child : tree.Id} (h : child ∈ tree.children id) :
    tree.room child < tree.room id := by
  have below : id.val < child.val := child_gt h
  unfold room
  omega

/-- The nodes above a node, the nearest first. -/
def ancestors (tree : Tree) (id : tree.Id) : List tree.Id :=
  match h : tree.parent? id with
  | none => []
  | some parent =>
    have : parent < id := parent_lt h
    parent :: tree.ancestors parent
termination_by id.val

/-- A node and the nodes above it, the nearest first. -/
def lineage (tree : Tree) (id : tree.Id) : List tree.Id := id :: tree.ancestors id

end Tree

end AnnotatedSource
