import AnnotatedSource.Span
import Mathlib.Tactic.ByContra

/-!
How spans lie to each other: one before the other, one inside the other, or without an offset in
common.
-/

set_option autoImplicit false
set_option relaxedAutoImplicit false

namespace AnnotatedSource.Span

def ofWidth (start width : UInt8) : Span where
  start := start.toNat
  stop := start.toNat + width.toNat
  stop_lt := by
    have bounds := Nat.add_lt_add start.toNat_lt width.toNat_lt
    exact Nat.lt_trans bounds (by decide)

/-- A span precedes another when it stops at or before the start of the other. -/
abbrev Precedes (left right : Span) : Prop := left.stop ≤ right.start

/-- A span encloses another when the other starts and stops within it. -/
abbrev Encloses (outer inner : Span) : Prop :=
  outer.start ≤ inner.start ∧ inner.stop ≤ outer.stop

/-- Spans are apart when no offset lies in both. -/
def Apart (left right : Span) : Prop :=
  ∀ offset, ¬(left.contains offset = true ∧ right.contains offset = true)

theorem contains_iff {span : Span} {offset : Nat} :
    span.contains offset = true ↔ span.start ≤ offset ∧ offset < span.stop := by
  simp [contains]

theorem Precedes.trans {left middle right : Span} (first : left.Precedes middle)
    (second : middle.Precedes right) : left.Precedes right := by
  have order := middle.start_le_stop
  omega

theorem Encloses.refl (span : Span) : span.Encloses span := ⟨Nat.le_refl _, Nat.le_refl _⟩

theorem Encloses.trans {outer middle inner : Span} (first : outer.Encloses middle)
    (second : middle.Encloses inner) : outer.Encloses inner := by
  omega

theorem Encloses.contains {outer inner : Span} {offset : Nat} (h : outer.Encloses inner)
    (inside : inner.contains offset = true) : outer.contains offset = true := by
  have bounds := contains_iff.1 inside
  exact contains_iff.2 ⟨by omega, by omega⟩

theorem Precedes.of_encloses {left right innerLeft innerRight : Span}
    (order : left.Precedes right) (hleft : left.Encloses innerLeft)
    (hright : right.Encloses innerRight) : innerLeft.Precedes innerRight := by
  omega

theorem apart_iff {left right : Span} :
    left.Apart right ↔ min left.stop right.stop ≤ max left.start right.start := by
  constructor
  · intro apart
    by_contra crossing
    -- The later of the two starts lies in both spans.
    refine apart (max left.start right.start) ⟨contains_iff.2 ?_, contains_iff.2 ?_⟩ <;> omega
  · intro order offset ⟨inLeft, inRight⟩
    have leftBounds := contains_iff.1 inLeft
    have rightBounds := contains_iff.1 inRight
    omega

instance (left right : Span) : Decidable (left.Apart right) := decidable_of_iff' _ apart_iff

theorem precedes_or_precedes_of_apart {left right : Span} (hleft : left.start < left.stop)
    (hright : right.start < right.stop) (apart : left.Apart right) :
    left.Precedes right ∨ right.Precedes left := by
  have order := apart_iff.1 apart
  omega

section Sorting

variable {α : Type} (spanOf : α → Span)

abbrev startsBy (left right : α) : Bool := (spanOf left).start ≤ (spanOf right).start

theorem startsBy_trans (left middle right : α) (first : startsBy spanOf left middle = true)
    (second : startsBy spanOf middle right = true) : startsBy spanOf left right = true := by
  rw [decide_eq_true_iff] at first second ⊢
  exact Nat.le_trans first second

theorem startsBy_total (left right : α) :
    (startsBy spanOf left right || startsBy spanOf right left) = true := by
  rw [Bool.or_eq_true, decide_eq_true_iff, decide_eq_true_iff]
  exact Nat.le_total _ _

theorem pairwise_mergeSort_start (items : List α) :
    (items.mergeSort fun left right => (spanOf left).start ≤ (spanOf right).start).Pairwise
      fun left right => (spanOf left).start ≤ (spanOf right).start := by
  have sorted := List.pairwise_mergeSort (startsBy_trans spanOf) (startsBy_total spanOf) items
  exact sorted.imp fun order => of_decide_eq_true order

end Sorting

end AnnotatedSource.Span
