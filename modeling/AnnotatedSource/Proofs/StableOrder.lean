import AnnotatedSource.Proofs.Span

/-!
Stable order.  Items of a list are in stable order when none starts before the one in front of it
and those that start together stand as they stood in the list.  There is one stable order of a list,
and sorting finds it; where a list is two ordered lists one behind the other, merging the two finds
it as well.
-/

set_option autoImplicit false
set_option relaxedAutoImplicit false

namespace AnnotatedSource.Span

variable {α : Type} (spanOf : α → Span)

/-- The items of a list with their places, in stable order: by start, and by place where starts
agree. -/
structure StableOrder (items : List α) (numbered : List (α × Nat)) : Prop where
  perm : numbered.Perm items.zipIdx
  ordered : numbered.Pairwise fun left right => (spanOf left.1).start ≤ (spanOf right.1).start
  tiesKept : numbered.Pairwise fun left right =>
    (spanOf left.1).start = (spanOf right.1).start → left.2 < right.2

/-- The items of a list in stable order. -/
def StablyOrders (items arranged : List α) : Prop :=
  ∃ numbered, StableOrder spanOf items numbered ∧ numbered.map Prod.fst = arranged

variable {spanOf} {items arranged : List α}

theorem StableOrder.unique {first second : List (α × Nat)} (hfirst : StableOrder spanOf items first)
    (hsecond : StableOrder spanOf items second) : first = second := by
  refine List.Perm.eq_of_pairwise ?_ (hfirst.ordered.and hfirst.tiesKept)
    (hsecond.ordered.and hsecond.tiesKept) (hfirst.perm.trans hsecond.perm.symm)
  rintro left right - - ⟨before, early⟩ ⟨after, late⟩
  have tie := Nat.le_antisymm before after
  have order := early tie
  have reverse := late tie.symm
  omega

theorem zipIdxLE_iff {left right : α × Nat} :
    List.zipIdxLE (startsBy spanOf) left right = true ↔
      (spanOf left.1).start ≤ (spanOf right.1).start ∧
        ((spanOf left.1).start = (spanOf right.1).start → left.2 ≤ right.2) := by
  by_cases before : (spanOf left.1).start ≤ (spanOf right.1).start
  · by_cases after : (spanOf right.1).start ≤ (spanOf left.1).start
    · simp [List.zipIdxLE, Nat.le_antisymm before after]
    · have differ : (spanOf left.1).start ≠ (spanOf right.1).start := by omega
      simp [List.zipIdxLE, before, after, differ]
  · simp [List.zipIdxLE, before]

theorem stableOrder_of_pairwise {numbered : List (α × Nat)} (perm : numbered.Perm items.zipIdx)
    (sorted : numbered.Pairwise fun left right =>
      List.zipIdxLE (startsBy spanOf) left right = true) : StableOrder spanOf items numbered := by
  have places : (numbered.map Prod.snd).Nodup := by
    rw [(perm.map Prod.snd).nodup_iff, List.zipIdx_map_snd]
    exact List.nodup_range'
  have differ : numbered.Pairwise fun left right => left.2 ≠ right.2 := List.pairwise_map.1 places
  refine ⟨perm, sorted.imp fun order => (zipIdxLE_iff.1 order).1, ?_⟩
  refine (sorted.and differ).imp ?_
  rintro left right ⟨order, ne⟩ tie
  exact Nat.lt_of_le_of_ne ((zipIdxLE_iff.1 order).2 tie) ne

theorem pairwise_zipIdx
    (ordered : items.Pairwise fun left right => (spanOf left).start ≤ (spanOf right).start)
    (place : Nat) : (items.zipIdx place).Pairwise fun left right =>
      List.zipIdxLE (startsBy spanOf) left right = true := by
  rw [List.pairwise_iff_getElem] at ordered ⊢
  intro i j hi hj order
  rw [List.length_zipIdx] at hi hj
  rw [List.getElem_zipIdx, List.getElem_zipIdx, zipIdxLE_iff]
  exact ⟨ordered i j hi hj order, fun _ => by omega⟩

theorem stablyOrders_mergeSort (spanOf : α → Span) (items : List α) :
    StablyOrders spanOf items (items.mergeSort (startsBy spanOf)) := by
  refine ⟨items.zipIdx.mergeSort (List.zipIdxLE (startsBy spanOf)), ?_, List.mergeSort_zipIdx⟩
  exact stableOrder_of_pairwise (List.mergeSort_perm _ _)
    (List.pairwise_mergeSort (List.zipIdxLE_trans (startsBy_trans spanOf))
      (List.zipIdxLE_total (startsBy_total spanOf)) _)

theorem stablyOrders_merge {first second : List α}
    (hfirst : first.Pairwise fun left right => (spanOf left).start ≤ (spanOf right).start)
    (hsecond : second.Pairwise fun left right => (spanOf left).start ≤ (spanOf right).start) :
    StablyOrders spanOf (first ++ second) (first.merge second (startsBy spanOf)) := by
  have perm : (first.zipIdx.merge (second.zipIdx first.length)
      (List.zipIdxLE (startsBy spanOf))).Perm (first ++ second).zipIdx := by
    rw [List.zipIdx_append, Nat.zero_add]
    exact List.merge_perm_append _
  have sorted := List.pairwise_merge (List.zipIdxLE_trans (startsBy_trans spanOf))
    (List.zipIdxLE_total (startsBy_total spanOf)) _ _ (pairwise_zipIdx hfirst 0)
    (pairwise_zipIdx hsecond first.length)
  refine ⟨_, stableOrder_of_pairwise perm sorted, ?_⟩
  -- Places in the second list lie behind all places in the first one.
  have behind : ∀ left right, left ∈ first.zipIdx → right ∈ second.zipIdx first.length →
      left.2 ≤ right.2 := by
    intro left right inFirst inSecond
    have upper := List.snd_lt_of_mem_zipIdx inFirst
    have lower := List.le_snd_of_mem_zipIdx inSecond
    omega
  rw [List.merge_stable _ _ behind, List.zipIdx_map_fst, List.zipIdx_map_fst]

/-- There is one stable order of a list, and sorting finds it. -/
theorem stablyOrders_iff :
    StablyOrders spanOf items arranged ↔ arranged = items.mergeSort (startsBy spanOf) := by
  obtain ⟨numbered, order, sorted⟩ := stablyOrders_mergeSort spanOf items
  constructor
  · rintro ⟨other, otherOrder, rfl⟩
    rw [otherOrder.unique order, sorted]
  · rintro rfl
    exact ⟨numbered, order, sorted⟩

theorem StablyOrders.pairwise {relates : α → α → Prop}
    (stable : StablyOrders spanOf items arranged) (related : items.Pairwise relates) :
    arranged.Pairwise fun left right => (spanOf left).start ≤ (spanOf right).start ∧
      ((spanOf left).start = (spanOf right).start → relates left right) := by
  obtain ⟨numbered, order, rfl⟩ := stable
  have stands {item : α × Nat} (among : item ∈ numbered) : items[item.2]? = some item.1 :=
    List.mem_zipIdx_iff_getElem?.1 (order.perm.mem_iff.1 among)
  rw [List.pairwise_map]
  refine (order.ordered.and order.tiesKept).imp_of_mem ?_
  intro left right inLeft inRight ⟨ordered, tie⟩
  refine ⟨ordered, fun same => ?_⟩
  obtain ⟨leftBound, leftItem⟩ := List.getElem?_eq_some_iff.1 (stands inLeft)
  obtain ⟨rightBound, rightItem⟩ := List.getElem?_eq_some_iff.1 (stands inRight)
  rw [← leftItem, ← rightItem]
  exact List.pairwise_iff_getElem.1 related _ _ leftBound rightBound (tie same)

end AnnotatedSource.Span
