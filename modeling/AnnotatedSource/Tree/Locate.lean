import AnnotatedSource.Tree.Walk

/-!
The node at an offset.  The search follows a walk: it passes over every node whose span misses the
offset, remembers the last node whose span contains it, and stops on leaving that node.
-/

set_option autoImplicit false
set_option relaxedAutoImplicit false

namespace AnnotatedSource.Tree

/-- A node and the node it was entered from. -/
structure Match (tree : Tree) where
  node : tree.Id
  parent : Option tree.Id
deriving DecidableEq

/-- Follow a walk in search of an offset, given what was found so far. -/
def Walk.locate {tree : Tree} (offset : Nat) (found : Option (Match tree)) (walk : Walk tree) :
    Option (Match tree) :=
  match h : walk.next? with
  | none => found
  | some (.enter node parent, after) =>
    have := remaining_of_next? h
    if (tree.node node).span.contains offset then
      after.locate offset (some ⟨node, parent⟩)
    else
      have := after.remaining_prune_le
      after.prune.locate offset found
  | some (.leave node, after) =>
    have := remaining_of_next? h
    -- On leaving the best node so far, everything below it has been seen.
    if found.any fun best => best.node = node then found else after.locate offset found
termination_by walk.remaining

/-- The deepest node whose span contains an offset. -/
def nodeAt? (tree : Tree) (offset : Nat) : Option (Match tree) :=
  tree.walk.locate offset none

end AnnotatedSource.Tree
