/-!
Binary search for the boundary of a property that holds on a first part of an array and on nothing
after it.
-/

set_option autoImplicit false
set_option relaxedAutoImplicit false

namespace AnnotatedSource

/-- Halve the window of `width` items from `base` on until one item is left, keeping the last item
on which the property was seen to hold at the window's front. -/
def boundaryWithin {α : Type} (items : Array α) (holds : α → Bool) (base width : Nat)
    (nonempty : 0 < width) (within : base + width ≤ items.size) : Nat :=
  if single : width = 1 then
    if holds items[base] then base + 1 else base
  else
    let half := width / 2
    if holds items[base + half] then
      boundaryWithin items holds (base + half) (width - half) (by omega) (by omega)
    else
      boundaryWithin items holds base (width - half) (by omega) (by omega)
termination_by width

/-- The number of items in front of the boundary of a property. -/
def boundary {α : Type} (items : Array α) (holds : α → Bool) : Nat :=
  if nonempty : 0 < items.size then
    boundaryWithin items holds 0 items.size nonempty (by omega)
  else 0

end AnnotatedSource
