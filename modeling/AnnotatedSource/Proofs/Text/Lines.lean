import AnnotatedSource.Proofs.Boundary
import AnnotatedSource.Text.Place
import Mathlib.Algebra.Order.BigOperators.Group.List
import Mathlib.Algebra.Order.Ring.Nat

/-!
Where lines start.  A line starts where the closed lines before it take all bytes up to there, so
the starts are sums of widths, and an offset lies on the line that is found among them by binary
search.
-/

set_option autoImplicit false
set_option relaxedAutoImplicit false

namespace AnnotatedSource.Text

theorem byteLength_flatMap {α : Type} (items : List α) (chars : α → List Char) :
    byteLength (items.flatMap chars) = (items.map fun item => byteLength (chars item)).sum := by
  induction items with
  | nil => rfl
  | cons item rest ih =>
    rw [List.flatMap_cons, byteLength_append, ih, List.map_cons, List.sum_cons]

namespace Lines

/-- The number of bytes that each closed line takes with its terminator. -/
def widths (lines : Lines) : List Nat := lines.closed.map fun line => byteLength line.chars

/-- An offset lies on a line, counted from one, when the line has started and is not over, or is the
last one and ends there. -/
structure LiesOn (lines : Lines) (line offset : Nat) : Prop where
  one_le : 1 ≤ line
  le_count : line ≤ lines.count
  startOf_le : lines.startOf line ≤ offset
  before : offset < lines.stopOf line ∨ line = lines.count ∧ offset = lines.length

variable (lines : Lines)

theorem length_widths : lines.widths.length = lines.closed.length := List.length_map _

theorem getElem?_startsFrom (closed : List ClosedLine) (offset index : Nat)
    (h : index ≤ closed.length) :
    (startsFrom offset closed)[index]? =
      some (offset + ((closed.map fun line => byteLength line.chars).take index).sum) := by
  induction closed generalizing offset index with
  | nil =>
    obtain rfl : index = 0 := Nat.le_zero.1 h
    rfl
  | cons line rest ih =>
    cases index with
    | zero => rfl
    | succ index =>
      rw [startsFrom, List.getElem?_cons_succ, ih _ _ (Nat.le_of_succ_le_succ h), List.map_cons,
        List.take_succ_cons, List.sum_cons, Nat.add_assoc]

theorem startOf_eq_sum {line : Nat} (h : line < lines.count) :
    lines.startOf (line + 1) = (lines.widths.take line).sum := by
  have found := getElem?_startsFrom lines.closed 0 line (Nat.le_of_lt_succ h)
  rw [startOf, starts, List.getD_eq_getElem?_getD, Nat.add_sub_cancel, found]
  simp [widths]

theorem startOf_one : lines.startOf 1 = 0 := lines.startOf_eq_sum (Nat.succ_pos _)

theorem startOf_succ {line : Nat} (h : line < lines.closed.length) :
    lines.startOf (line + 2) = lines.startOf (line + 1) + byteLength lines.closed[line].chars := by
  have bound : line < lines.widths.length := by
    rw [length_widths]
    exact h
  rw [lines.startOf_eq_sum (Nat.succ_lt_succ h), lines.startOf_eq_sum (Nat.lt_succ_of_lt h),
    List.take_succ_eq_append_getElem bound, List.sum_append]
  simp [widths]

theorem startOf_count : lines.startOf lines.count = lines.widths.sum := by
  rw [count, lines.startOf_eq_sum (Nat.lt_succ_self _), List.take_of_length_le]
  exact Nat.le_of_eq lines.length_widths

theorem length_eq : lines.length = lines.startOf lines.count + byteLength lines.last := by
  rw [length, toText, byteLength_append, byteLength_flatMap, startOf_count]
  rfl

theorem stopOf_count : lines.stopOf lines.count = lines.length := if_pos rfl

theorem stopOf_of_lt {line : Nat} (h : line < lines.closed.length) :
    lines.stopOf (line + 1) = lines.startOf (line + 1) + byteLength lines.closed[line].chars := by
  have notLast : line + 1 ≠ lines.count := by
    unfold count
    omega
  rw [stopOf, if_neg notLast]
  exact lines.startOf_succ h

theorem one_le_width {width : Nat} (h : width ∈ lines.widths) : 1 ≤ width := by
  obtain ⟨line, -, rfl⟩ := List.mem_map.1 h
  have terminated : 1 ≤ byteLength line.terminator.chars := by
    cases line.terminator <;> decide
  rw [ClosedLine.chars, byteLength_append]
  omega

theorem count_le : lines.count ≤ lines.length + 1 := by
  have wide := List.length_le_sum_of_one_le lines.widths fun width => lines.one_le_width
  have length := lines.length_eq
  rw [length_widths] at wide
  rw [startOf_count] at length
  unfold count
  omega

theorem startOf_le_startOf {first second : Nat} (order : first ≤ second) (one_le : 1 ≤ first)
    (le_count : second ≤ lines.count) : lines.startOf first ≤ lines.startOf second := by
  obtain ⟨first, rfl⟩ := Nat.exists_eq_add_of_le' one_le
  obtain ⟨second, rfl⟩ := Nat.exists_eq_add_of_le' (Nat.le_trans one_le order)
  rw [lines.startOf_eq_sum (by omega), lines.startOf_eq_sum (by omega)]
  have sublist : (lines.widths.take first).Sublist (lines.widths.take second) :=
    List.take_sublist_take_left (Nat.le_of_succ_le_succ order)
  exact sublist.sum_le_sum fun width _ => Nat.zero_le width

theorem startOf_lt_startOf {first second : Nat} (order : first < second) (one_le : 1 ≤ first)
    (le_count : second ≤ lines.count) : lines.startOf first < lines.startOf second := by
  obtain ⟨index, rfl⟩ := Nat.exists_eq_add_of_le' one_le
  have closed : index < lines.closed.length := by
    unfold count at le_count
    omega
  have wide : 1 ≤ byteLength lines.closed[index].chars :=
    lines.one_le_width (List.mem_map_of_mem (List.getElem_mem closed))
  have next := lines.startOf_succ closed
  have later : lines.startOf (index + 2) ≤ lines.startOf second :=
    lines.startOf_le_startOf order (Nat.succ_pos _) le_count
  omega

theorem getElem_starts {index : Nat} (h : index < lines.starts.toArray.size) :
    lines.starts.toArray[index] = lines.startOf (index + 1) := by
  rw [List.size_toArray] at h
  rw [startOf, Nat.add_sub_cancel, List.getD_eq_getElem?_getD, List.getElem?_eq_getElem h]
  rfl

theorem size_starts : lines.starts.toArray.size = lines.count := by
  rw [List.size_toArray, length_starts]

theorem parts_starts (offset : Nat) :
    Parts lines.starts.toArray fun start => start ≤ offset := by
  intro i j hi hj order has
  rw [getElem_starts, decide_eq_true_iff] at has ⊢
  rw [size_starts] at hj
  exact Nat.le_trans (lines.startOf_le_startOf (Nat.succ_le_succ order) (Nat.succ_pos i) hj) has

theorem lt_lineAt_iff {index : Nat} (h : index < lines.count) (offset : Nat) :
    index < lines.lineAt offset ↔ lines.startOf (index + 1) ≤ offset := by
  have bound : index < lines.starts.toArray.size := by
    rw [size_starts]
    exact h
  rw [lineAt, lt_boundary_iff (lines.parts_starts offset) bound, getElem_starts,
    decide_eq_true_iff]

/-- An offset inside the text lies on the line that is found for it. -/
theorem liesOn_lineAt {offset : Nat} (h : offset < lines.length) :
    lines.LiesOn (lines.lineAt offset) offset := by
  have some_line : 0 < lines.lineAt offset := by
    rw [lines.lt_lineAt_iff (Nat.succ_pos _), lines.startOf_one]
    exact Nat.zero_le offset
  have le_count : lines.lineAt offset ≤ lines.count := by
    rw [← size_starts]
    exact boundary_le_size _ _
  obtain ⟨line, found⟩ := Nat.exists_eq_add_of_le' some_line
  rw [found] at le_count ⊢
  refine ⟨Nat.succ_pos line, le_count, ?_, .inl ?_⟩
  · rw [← lines.lt_lineAt_iff le_count, found]
    exact Nat.lt_succ_self line
  · rcases Nat.lt_or_eq_of_le le_count with more | last
    · have next := lines.lt_lineAt_iff more offset
      rw [stopOf, if_neg (Nat.ne_of_lt more)]
      omega
    · rw [last, stopOf_count]
      exact h

theorem liesOn_count : lines.LiesOn lines.count lines.length where
  one_le := Nat.succ_pos _
  le_count := Nat.le_refl _
  startOf_le := by
    rw [length_eq]
    exact Nat.le_add_right _ _
  before := .inr ⟨rfl, rfl⟩

variable {lines}

theorem LiesOn.startOf_le_iff {line offset other : Nat} (h : lines.LiesOn line offset)
    (one_le : 1 ≤ other) (le_count : other ≤ lines.count) :
    lines.startOf other ≤ offset ↔ other ≤ line := by
  constructor
  · intro started
    by_contra later
    have notLast : line ≠ lines.count := by omega
    have before := h.before.resolve_right fun atEnd => notLast atEnd.1
    rw [stopOf, if_neg notLast] at before
    have next : lines.startOf (line + 1) ≤ lines.startOf other :=
      lines.startOf_le_startOf (Nat.lt_of_not_le later) (Nat.succ_pos line) le_count
    omega
  · intro order
    have started := h.startOf_le
    have earlier := lines.startOf_le_startOf order one_le h.le_count
    omega

theorem LiesOn.le {first second offset : Nat} (hfirst : lines.LiesOn first offset)
    (hsecond : lines.LiesOn second offset) : second ≤ first :=
  (hfirst.startOf_le_iff hsecond.one_le hsecond.le_count).1 hsecond.startOf_le

theorem LiesOn.unique {first second offset : Nat} (hfirst : lines.LiesOn first offset)
    (hsecond : lines.LiesOn second offset) : first = second :=
  Nat.le_antisymm (hsecond.le hfirst) (hfirst.le hsecond)

theorem LiesOn.le_length {line offset : Nat} (h : lines.LiesOn line offset) :
    offset ≤ lines.length := by
  rcases h.before with before | ⟨-, atEnd⟩
  · by_cases last : line = lines.count
    · rw [last, stopOf_count] at before
      exact Nat.le_of_lt before
    · rw [stopOf, if_neg last] at before
      have bound := h.le_count
      have starts : lines.startOf (line + 1) ≤ lines.startOf lines.count :=
        lines.startOf_le_startOf (by omega) (Nat.succ_pos line) (Nat.le_refl lines.count)
      have length := lines.length_eq
      omega
  · exact Nat.le_of_eq atEnd

end Lines

end AnnotatedSource.Text
