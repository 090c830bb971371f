import AnnotatedSource.Estree
import AnnotatedSource.Proofs.Span
import Mathlib.Data.List.Nodup

/-!
Siblings in the order of where they start.  Siblings that are in order stay as they are, and where
no two start together there is one order for them, whatever order they are found in.
-/

set_option autoImplicit false
set_option relaxedAutoImplicit false

namespace AnnotatedSource

/-- A property of siblings that all children of a shape and of the shapes below it have. -/
inductive Shape.Throughout (property : List Shape → Prop) : Shape → Prop
  | node {kind : NodeKind} {span : Span} {loc : Location} {holes : Nat} {children : List Shape}
      (here : property children) (below : ∀ child ∈ children, Throughout property child) :
      Throughout property (.node kind span loc holes children)

namespace Estree

/-- Siblings of which none starts before the one in front of it. -/
def InStartOrder (shapes : List Shape) : Prop :=
  shapes.Pairwise fun left right => left.span.start ≤ right.span.start

/-- Siblings of which no two start at the same offset. -/
def StartsDiffer (shapes : List Shape) : Prop :=
  (shapes.map fun shape => shape.span.start).Nodup

instance (shapes : List Shape) : Decidable (InStartOrder shapes) :=
  inferInstanceAs (Decidable (List.Pairwise _ shapes))

instance (shapes : List Shape) : Decidable (StartsDiffer shapes) :=
  inferInstanceAs (Decidable (List.Nodup _))

variable {shapes others : List Shape}

theorem perm_sortByStart (shapes : List Shape) : (sortByStart shapes).Perm shapes :=
  List.mergeSort_perm _ _

theorem inStartOrder_sortByStart (shapes : List Shape) : InStartOrder (sortByStart shapes) :=
  Span.pairwise_mergeSort_start Shape.span shapes

theorem sortByStart_eq_self (ordered : InStartOrder shapes) : sortByStart shapes = shapes :=
  List.mergeSort_of_pairwise (ordered.imp fun order => decide_eq_true order)

theorem sortByStart_eq_of_perm (differ : StartsDiffer shapes) (perm : shapes.Perm others) :
    sortByStart shapes = sortByStart others := by
  have sorted : (sortByStart shapes).Perm (sortByStart others) :=
    (perm_sortByStart shapes).trans (perm.trans (perm_sortByStart others).symm)
  refine List.Perm.eq_of_pairwise ?_ (inStartOrder_sortByStart shapes)
    (inStartOrder_sortByStart others) sorted
  intro left right hleft hright before after
  have inLeft := (perm_sortByStart shapes).mem_iff.1 hleft
  have inRight := (perm_sortByStart shapes).mem_iff.1 (sorted.mem_iff.2 hright)
  exact List.inj_on_of_nodup_map differ inLeft inRight (Nat.le_antisymm before after)

end Estree

end AnnotatedSource
