import AnnotatedSource.Boundary
import Mathlib.Tactic.ByContra

/-!
What binary search finds.  Where a property holds of a first part of an array and of nothing after
it, its boundary parts the items that have the property from those that do not.
-/

set_option autoImplicit false
set_option relaxedAutoImplicit false

namespace AnnotatedSource

/-- A property parts an array when every item before one that has it has it too. -/
def Parts {α : Type} (items : Array α) (holds : α → Bool) : Prop :=
  ∀ (i j : Nat) (_ : i < items.size) (_ : j < items.size),
    i ≤ j → holds items[j] = true → holds items[i] = true

variable {α : Type} (items : Array α) (holds : α → Bool)

private theorem boundaryWithin_le (base width : Nat) (nonempty : 0 < width)
    (within : base + width ≤ items.size) :
    boundaryWithin items holds base width nonempty within ≤ base + width := by
  fun_induction boundaryWithin items holds base width nonempty within with
  | case1 => omega
  | case2 => omega
  | case3 base width nonempty within single half found ih => omega
  | case4 base width nonempty within single half missed ih => omega

theorem boundary_le_size : boundary items holds ≤ items.size := by
  unfold boundary
  split
  · next nonempty =>
    have bound := boundaryWithin_le items holds 0 items.size nonempty (by omega)
    omega
  · omega

variable {items holds}

private theorem lt_boundaryWithin_iff (parts : Parts items holds) (base width : Nat)
    (nonempty : 0 < width) (within : base + width ≤ items.size)
    (front : ∀ (i : Nat) (_ : i < items.size), i < base → holds items[i] = true)
    (back : ∀ (i : Nat) (_ : i < items.size), base + width ≤ i → holds items[i] = false)
    {i : Nat} (hi : i < items.size) :
    i < boundaryWithin items holds base width nonempty within ↔ holds items[i] = true := by
  fun_induction boundaryWithin items holds base width nonempty within with
  | case1 base nonempty within found =>
    constructor
    · intro below
      exact parts i base hi (by omega) (by omega) found
    · intro has
      by_contra above
      rw [back i hi (by omega)] at has
      contradiction
  | case2 base nonempty within missed =>
    constructor
    · exact front i hi
    · intro has
      by_contra above
      exact missed (parts base i (by omega) hi (by omega) has)
  | case3 base width nonempty within single half found ih =>
    refine ih (fun j hj below => ?_) (fun j hj above => back j hj (by omega))
    exact parts j (base + half) hj (by omega) (by omega) found
  | case4 base width nonempty within single half missed ih =>
    refine ih front (fun j hj above => ?_)
    by_contra has
    exact missed (parts (base + half) j (by omega) hj (by omega) (by simpa using has))

/-- The items before the boundary are those that have the property. -/
theorem lt_boundary_iff (parts : Parts items holds) {i : Nat} (hi : i < items.size) :
    i < boundary items holds ↔ holds items[i] = true := by
  unfold boundary
  split
  · next nonempty =>
    exact lt_boundaryWithin_iff parts 0 items.size nonempty (by omega)
      (fun j _ below => absurd below (Nat.not_lt_zero j)) (fun j hj above => by omega) hi
  · omega

end AnnotatedSource
