/-!
The ways to misuse a tree, its builder or a walk over it.  Each is a broken precondition of the
caller, named by its cause.
-/

set_option autoImplicit false
set_option relaxedAutoImplicit false

namespace AnnotatedSource

/-- A broken precondition. -/
inductive Misuse where
  | foreignNode
  | nothingToSkip
  | nothingOpen
  | secondRoot
  | unfinished (openNodes : Nat)
  | emptyTree
  | abandoned
deriving DecidableEq

def Misuse.message : Misuse → String
  | .foreignNode => "node does not belong here"
  | .nothingToSkip => "must have a subtree to skip"
  | .nothingOpen => "no opened nodes?"
  | .secondRoot => "the tree already has a root"
  | .unfinished openNodes => "unfinished nodes: " ++ toString openNodes
  | .emptyTree => "cannot finish an empty tree"
  | .abandoned => "you should call `TreeBuilder::finish_node()` for every started node"

end AnnotatedSource
