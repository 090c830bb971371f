import AnnotatedSource.Proofs.Text.Lines

/-!
Offsets and positions.  Each of the two conversions finds the line that the offset lies on and the
distance from where that line starts, so each undoes the other: on every offset of a text, inside
characters and terminators too, and on every position of its lines.
-/

set_option autoImplicit false
set_option relaxedAutoImplicit false

namespace AnnotatedSource.Text

/-- The positions of the lines of a text.  On a closed line the column stays in front of the end of
the terminator; on the last line it may reach the end. -/
inductive Lines.Has (lines : Lines) (position : Position) : Prop
  | closed {line : ClosedLine} (one_le : 1 ≤ position.line)
      (found : lines.closed[position.line - 1]? = some line)
      (inside : position.column < byteLength line.chars) : Lines.Has lines position
  | last (isLast : position.line = lines.count)
      (inside : position.column ≤ byteLength lines.last) : Lines.Has lines position

/-- A position names an offset that lies on its line as far from the start as its column says. -/
structure Lines.Names (lines : Lines) (position : Position) (offset : Nat) : Prop where
  liesOn : lines.LiesOn position.line offset
  offset_eq : offset = lines.startOf position.line + position.column

section Names

variable {lines : Lines} {position : Position} {offset : Nat}

theorem Lines.Has.names (h : lines.Has position) :
    lines.Names position (lines.startOf position.line + position.column) := by
  cases h with
  | @closed line one_le found inside =>
    obtain ⟨index, atIndex⟩ := Nat.exists_eq_add_of_le' one_le
    rw [atIndex, Nat.add_sub_cancel] at found
    obtain ⟨bound, same⟩ := List.getElem?_eq_some_iff.1 found
    have stop := lines.stopOf_of_lt bound
    rw [same] at stop
    refine ⟨⟨one_le, ?_, Nat.le_add_right _ _, .inl ?_⟩, rfl⟩
    · unfold Lines.count
      omega
    · rw [atIndex, stop]
      omega
  | last isLast inside =>
    have length := lines.length_eq
    rw [isLast]
    refine ⟨⟨?_, Nat.le_of_eq isLast, ?_, ?_⟩, ?_⟩
    · rw [isLast]
      exact Nat.succ_pos _
    · rw [isLast]
      exact Nat.le_add_right _ _
    · rw [isLast, lines.stopOf_count]
      omega
    · rw [isLast]

theorem Lines.Names.has (h : lines.Names position offset) : lines.Has position := by
  obtain ⟨⟨one_le, le_count, -, before⟩, rfl⟩ := h
  obtain ⟨index, atIndex⟩ := Nat.exists_eq_add_of_le' one_le
  rcases Nat.lt_or_eq_of_le le_count with more | isLast
  · have bound : index < lines.closed.length := by
      unfold Lines.count at more
      omega
    have inside := before.resolve_right fun atEnd => Nat.ne_of_lt more atEnd.1
    rw [atIndex, lines.stopOf_of_lt bound] at inside
    have found : lines.closed[position.line - 1]? = some lines.closed[index] := by
      rw [atIndex, Nat.add_sub_cancel]
      exact List.getElem?_eq_getElem bound
    exact .closed one_le found (by omega)
  · have length := lines.length_eq
    rw [isLast, lines.stopOf_count] at before
    exact .last isLast (by omega)

theorem Lines.Names.unique {other : Position} (h : lines.Names position offset)
    (hother : lines.Names other offset) : position = other := by
  have line := h.liesOn.unique hother.liesOn
  have column : position.column = other.column := by
    have first := h.offset_eq
    have second := hother.offset_eq
    rw [line] at first
    omega
  cases position
  cases other
  simp_all

end Names

theorem length_ofText (text : List Char) : (Lines.ofText text).length = byteLength text := by
  rw [Lines.length, Lines.toText_ofText]

variable {text : List Char}

private theorem not_beyond_iff (lines : Lines) (line offset : Nat) :
    (¬if line = lines.count then lines.stopOf line < offset else lines.stopOf line ≤ offset) ↔
      offset < lines.stopOf line ∨ line = lines.count ∧ offset = lines.length := by
  by_cases last : line = lines.count
  · rw [if_pos last, last, lines.stopOf_count]
    constructor
    · intro notBeyond
      have le_length := Nat.le_of_not_lt notBeyond
      rcases Nat.lt_or_eq_of_le le_length with inside | atEnd
      · exact .inl inside
      · exact .inr ⟨rfl, atEnd⟩
    · rintro (inside | ⟨-, atEnd⟩) <;> omega
  · rw [if_neg last, Nat.not_le]
    constructor
    · exact .inl
    · rintro (inside | ⟨isLast, -⟩)
      · exact inside
      · exact absurd isLast last

/-- A position has the offset that it names. -/
theorem offsetAt_eq_ok_iff {position : Position} {offset : Nat} :
    offsetAt text position = .ok offset ↔ (Lines.ofText text).Names position offset := by
  have reach := not_beyond_iff (Lines.ofText text) position.line
  simp only [offsetAt]
  split
  · next outside =>
    refine ⟨(nomatch ·), fun named => ?_⟩
    have one_le := named.liesOn.one_le
    have le_count := named.liesOn.le_count
    omega
  · next inside =>
    have one_le : 1 ≤ position.line := by omega
    have le_count : position.line ≤ (Lines.ofText text).count := by omega
    by_cases beyond : if position.line = (Lines.ofText text).count then
        (Lines.ofText text).stopOf position.line <
          (Lines.ofText text).startOf position.line + position.column
      else (Lines.ofText text).stopOf position.line ≤
        (Lines.ofText text).startOf position.line + position.column
    · rw [if_pos beyond]
      refine ⟨(nomatch ·), fun named => ?_⟩
      have before := named.liesOn.before
      rw [named.offset_eq, ← reach] at before
      exact absurd beyond before
    · rw [if_neg beyond]
      constructor
      · intro h
        obtain rfl := Except.ok.inj h
        exact ⟨⟨one_le, le_count, Nat.le_add_right _ _, (reach _).1 beyond⟩, rfl⟩
      · intro named
        rw [named.offset_eq]

theorem eq_ofCounts {line column : Nat} (lineBound : line < offsetBound)
    (columnBound : column < offsetBound) :
    Position.ofCounts line column = ⟨line, column, lineBound, columnBound⟩ := by
  unfold Position.ofCounts
  congr
  · exact Nat.mod_eq_of_lt lineBound
  · exact Nat.mod_eq_of_lt columnBound

theorem names_ofCounts (small : byteLength text < offsetBound - 1) {line offset : Nat}
    (h : (Lines.ofText text).LiesOn line offset) :
    (Lines.ofText text).Names
      (.ofCounts line (offset - (Lines.ofText text).startOf line)) offset := by
  have count := (Lines.ofText text).count_le
  have length := h.le_length
  have le_count := h.le_count
  have started := h.startOf_le
  rw [length_ofText] at count length
  rw [eq_ofCounts (by omega) (by omega)]
  exact ⟨h, (Nat.add_sub_cancel' started).symm⟩

theorem exists_positionAt (small : byteLength text < offsetBound - 1) {offset : Nat}
    (h : offset ≤ byteLength text) :
    ∃ position, positionAt text offset = .ok position ∧
      (Lines.ofText text).Names position offset := by
  have length := length_ofText text
  simp only [positionAt]
  rw [if_neg (Nat.not_lt.2 h)]
  split
  · next atEnd =>
    refine ⟨_, rfl, ?_⟩
    have column : byteLength (Lines.ofText text).last =
        offset - (Lines.ofText text).startOf (Lines.ofText text).count := by
      have split := (Lines.ofText text).length_eq
      omega
    rw [column]
    apply names_ofCounts small
    rw [atEnd, ← length]
    exact (Lines.ofText text).liesOn_count
  · next notAtEnd =>
    refine ⟨_, rfl, names_ofCounts small ?_⟩
    apply Lines.liesOn_lineAt
    omega

/-- An offset has the position that names it. -/
theorem positionAt_eq_ok_iff (small : byteLength text < offsetBound - 1) {position : Position}
    {offset : Nat} :
    positionAt text offset = .ok position ↔ (Lines.ofText text).Names position offset := by
  constructor
  · intro h
    have inside : offset ≤ byteLength text := by
      by_contra outside
      simp only [positionAt] at h
      rw [if_pos (Nat.lt_of_not_le outside)] at h
      contradiction
    obtain ⟨found, hfound, named⟩ := exists_positionAt small inside
    rw [h] at hfound
    obtain rfl := Except.ok.inj hfound
    exact named
  · intro named
    have inside := named.liesOn.le_length
    rw [length_ofText] at inside
    obtain ⟨found, hfound, named'⟩ := exists_positionAt small inside
    rw [hfound, named'.unique named]

/-- Offsets and positions of a text correspond one to one.  The offsets that have a position are
those up to the end, the positions that have an offset are those on the lines, and either conversion
takes back what the other gave. -/
theorem positionAt_offsetAt_bijective (text : List Char)
    (small : byteLength text < offsetBound - 1) :
    (∀ offset, (∃ position, positionAt text offset = .ok position) ↔ offset ≤ byteLength text) ∧
    (∀ offset position, positionAt text offset = .ok position →
      offsetAt text position = .ok offset) ∧
    (∀ position offset, offsetAt text position = .ok offset →
      positionAt text offset = .ok position) ∧
    ∀ position, (∃ offset, offsetAt text position = .ok offset) ↔
      (Lines.ofText text).Has position := by
  refine ⟨fun offset => ⟨?_, ?_⟩, fun offset position h => ?_, fun position offset h => ?_,
    fun position => ⟨?_, ?_⟩⟩
  · rintro ⟨position, h⟩
    have named := (positionAt_eq_ok_iff small).1 h
    rw [← length_ofText]
    exact named.liesOn.le_length
  · intro inside
    obtain ⟨position, h, -⟩ := exists_positionAt small inside
    exact ⟨position, h⟩
  · exact offsetAt_eq_ok_iff.2 ((positionAt_eq_ok_iff small).1 h)
  · exact (positionAt_eq_ok_iff small).2 (offsetAt_eq_ok_iff.1 h)
  · rintro ⟨offset, h⟩
    exact (offsetAt_eq_ok_iff.1 h).has
  · intro has
    exact ⟨_, offsetAt_eq_ok_iff.2 has.names⟩

/-- A text whose lines end in three ways, the last of them empty. -/
def mixedLines : List Char := ['a', '\r', '\n', 'é', '\u2028', 'b', '\n']

theorem positionAt_offsetAt_bijective_mixedLines :
    byteLength mixedLines < offsetBound - 1 ∧
      positionAt mixedLines 2 = .ok ⟨1, 2, by decide, by decide⟩ ∧
      positionAt mixedLines 4 = .ok ⟨2, 1, by decide, by decide⟩ ∧
      positionAt mixedLines 10 = .ok ⟨4, 0, by decide, by decide⟩ := by
  have small : byteLength mixedLines < offsetBound - 1 := by decide
  obtain ⟨-, -, back, -⟩ := positionAt_offsetAt_bijective mixedLines small
  refine ⟨small, back _ _ ?_, back _ _ ?_, back _ _ ?_⟩ <;> decide

end AnnotatedSource.Text
