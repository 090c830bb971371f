import AnnotatedSource.Text.Slice

/-!
Slices between characters.  The slice between two offsets that cut no character is the run of
characters between them, and it is empty when the second offset does not lie behind the first.
-/

set_option autoImplicit false
set_option relaxedAutoImplicit false

namespace AnnotatedSource.Text

theorem byteLength_eq_zero_iff {text : List Char} : byteLength text = 0 ↔ text = [] := by
  cases text with
  | nil => simp [byteLength]
  | cons c rest =>
    have positive : 0 < c.utf8Size := c.utf8Size_pos
    simp only [byteLength, reduceCtorEq, iff_false]
    omega

section Covering

variable {start stop offset : Nat}

theorem covering_append (left right : List Char) :
    covering start stop offset (left ++ right) =
      covering start stop offset left ++
        covering start stop (offset + byteLength left) right := by
  induction left generalizing offset with
  | nil => rfl
  | cons c rest ih =>
    simp only [List.cons_append, covering, byteLength, ih, ← Nat.add_assoc]
    split <;> rfl

theorem covering_of_before {text : List Char} (before : offset + byteLength text ≤ start) :
    covering start stop offset text = [] := by
  induction text generalizing offset with
  | nil => rfl
  | cons c rest ih =>
    simp only [byteLength] at before
    rw [covering, if_neg (by omega), ih (by omega)]

theorem covering_of_behind {text : List Char} (behind : stop ≤ offset) :
    covering start stop offset text = [] := by
  induction text generalizing offset with
  | nil => rfl
  | cons c rest ih => rw [covering, if_neg (by omega), ih (by omega)]

theorem covering_of_inside {text : List Char} (after : start ≤ offset)
    (inside : offset + byteLength text ≤ stop) : covering start stop offset text = text := by
  induction text generalizing offset with
  | nil => rfl
  | cons c rest ih =>
    have positive : 0 < c.utf8Size := c.utf8Size_pos
    simp only [byteLength] at inside
    rw [covering, if_pos (by omega), ih (by omega) (by omega)]

end Covering

section Slice

variable {text : List Char} {start stop : Nat}

theorem slice_eq_nil (h : min stop (byteLength text) ≤ start) : slice text start stop = [] := by
  rw [slice, if_neg (Nat.not_lt.2 h)]

theorem slice_eq_covering (h : start < min stop (byteLength text)) :
    slice text start stop = covering start (min stop (byteLength text)) 0 text := by
  rw [slice, if_pos h]

end Slice

theorem slice_append (front inside back : List Char) :
    slice (front ++ inside ++ back) (byteLength front) (byteLength front + byteLength inside) =
      inside := by
  have bound : min (byteLength front + byteLength inside)
      (byteLength (front ++ inside ++ back)) = byteLength front + byteLength inside := by
    rw [byteLength_append, byteLength_append]
    omega
  rcases Nat.eq_zero_or_pos (byteLength inside) with empty | nonempty
  · rw [slice_eq_nil (by omega), byteLength_eq_zero_iff.1 empty]
  · rw [slice_eq_covering (by omega), bound, covering_append, covering_append, Nat.zero_add,
      byteLength_append, covering_of_before (by omega),
      covering_of_inside (Nat.le_refl _) (Nat.le_refl _), covering_of_behind (by omega),
      List.nil_append, List.append_nil]

theorem take_eq_append_extract {text : List Char} {first second : Nat} (order : first ≤ second) :
    text.take second = text.take first ++ text.extract first second := by
  rw [List.extract_eq_take_drop, ← List.take_add, Nat.add_sub_cancel' order]

theorem byteLength_take {text : List Char} {first second : Nat} (order : first ≤ second) :
    byteLength (text.take second) =
      byteLength (text.take first) + byteLength (text.extract first second) := by
  rw [take_eq_append_extract order, byteLength_append]

theorem byteLength_take_le {text : List Char} {first second : Nat} (order : first ≤ second) :
    byteLength (text.take first) ≤ byteLength (text.take second) := by
  rw [byteLength_take order]
  exact Nat.le_add_right _ _

theorem slice_eq_extract (text : List Char) (first second : Nat) :
    slice text (byteLength (text.take first)) (byteLength (text.take second)) =
      text.extract first second := by
  rcases Nat.le_total first second with order | order
  · have sliced := slice_append (text.take first) (text.extract first second) (text.drop second)
    rw [← byteLength_take order, ← take_eq_append_extract order, List.take_append_drop] at sliced
    exact sliced
  · have none : byteLength (text.take second) ≤ byteLength (text.take first) :=
      byteLength_take_le order
    rw [List.extract_eq_take_drop, Nat.sub_eq_zero_of_le order, List.take_zero]
    exact slice_eq_nil (Nat.le_trans (Nat.min_le_left _ _) none)

end AnnotatedSource.Text
