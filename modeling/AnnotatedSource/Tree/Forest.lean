import AnnotatedSource.Tree

/-!
References to nodes of several trees at once.  A reference knows its tree by the tree's place among
the others, so nodes of two trees differ even where the trees are equal.
-/

set_option autoImplicit false
set_option relaxedAutoImplicit false

namespace AnnotatedSource

abbrev Forest : Type := Array Tree

/-- A node of one of several trees. -/
structure Forest.Ref (forest : Forest) where
  place : Fin forest.size
  node : (forest[place]).Id
deriving DecidableEq

def Forest.ref (forest : Forest) (place : Fin forest.size) (index : Nat) :
    Except Misuse forest.Ref :=
  (forest[place]).idOf index |>.map (⟨place, ·⟩)

end AnnotatedSource
