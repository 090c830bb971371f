import AnnotatedSource.Tree

/-!
The outline of a tree shows every node on a line of its own, parents before children, indented by
two spaces for each node above it.
-/

set_option autoImplicit false
set_option relaxedAutoImplicit false

namespace AnnotatedSource.Tree

def outlineLine (tree : Tree) (depth : Nat) (id : tree.Id) : List Char :=
  List.replicate (2 * depth) ' ' ++ (tree.node id).label ++ ['\n']

/-- The lines of a node at a depth and of all nodes below it. -/
def outlineFrom (tree : Tree) (depth : Nat) (id : tree.Id) : List Char :=
  tree.outlineLine depth id ++
    (tree.children id).attach.flatMap fun ⟨child, h⟩ =>
      have : tree.room child < tree.room id := room_lt h
      tree.outlineFrom (depth + 1) child
termination_by tree.room id

def outline (tree : Tree) : List Char := tree.outlineFrom 0 tree.root

end AnnotatedSource.Tree
