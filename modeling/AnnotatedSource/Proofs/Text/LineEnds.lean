import AnnotatedSource.Proofs.Text.Place
import Mathlib.Data.Finset.Lattice.Fold
import Mathlib.Data.List.GetD
import Mathlib.Data.Prod.Lex
import Mathlib.Order.Interval.Finset.Nat
import Mathlib.Order.Lattice.Nat

/-!
Positions read off the text.  The line of an offset counts the terminators that end up to there, and
the column is the distance from the end of the last of them, so that positions are in the order of
their offsets.
-/

set_option autoImplicit false
set_option relaxedAutoImplicit false

namespace AnnotatedSource.Text

/-- A character at the front of a text is the last one of a terminator when it ends a line and does
not share its terminator with the character behind it. -/
def ClosesLine (c : Char) (rest : List Char) : Prop :=
  endsLine c = true ∧ ¬(c = '\r' ∧ rest.head? = some '\n')

instance (c : Char) (rest : List Char) : Decidable (ClosesLine c rest) :=
  inferInstanceAs (Decidable (_ ∧ _))

/-- A terminator of a text ends at an offset. -/
def EndsTerminator (text : List Char) (offset : Nat) : Prop :=
  ∃ front c back, text = front ++ c :: back ∧ ClosesLine c back ∧
    offset = byteLength front + c.utf8Size

/-- The offsets at which the terminators of a text end, the text starting at `offset`. -/
def terminatorEnds (offset : Nat) : List Char → List Nat
  | [] => []
  | c :: rest =>
    let next := offset + c.utf8Size
    if ClosesLine c rest then next :: terminatorEnds next rest else terminatorEnds next rest

theorem mem_terminatorEnds_iff {text : List Char} {offset stop : Nat} :
    stop ∈ terminatorEnds offset text ↔
      ∃ front c back, text = front ++ c :: back ∧ ClosesLine c back ∧
        stop = offset + byteLength front + c.utf8Size := by
  induction text generalizing offset with
  | nil => simp [terminatorEnds]
  | cons first rest ih =>
    have here : stop ∈ terminatorEnds offset (first :: rest) ↔
        ClosesLine first rest ∧ stop = offset + first.utf8Size ∨
          stop ∈ terminatorEnds (offset + first.utf8Size) rest := by
      rw [terminatorEnds]
      by_cases closes : ClosesLine first rest
      · rw [if_pos closes, List.mem_cons, and_iff_right closes]
      · rw [if_neg closes, iff_or_self]
        intro here
        exact absurd here.1 closes
    rw [here, ih]
    constructor
    · rintro (⟨closes, rfl⟩ | ⟨front, c, back, rfl, closes, rfl⟩)
      · exact ⟨[], first, rest, rfl, closes, rfl⟩
      · refine ⟨first :: front, c, back, rfl, closes, ?_⟩
        simp only [byteLength]
        omega
    · rintro ⟨front, c, back, split, closes, rfl⟩
      cases front with
      | nil =>
        obtain ⟨rfl, rfl⟩ := List.cons.inj split
        exact .inl ⟨closes, rfl⟩
      | cons other front =>
        obtain ⟨rfl, rfl⟩ := List.cons.inj split
        refine .inr ⟨front, c, back, rfl, closes, ?_⟩
        simp only [byteLength]
        omega

theorem endsTerminator_iff {text : List Char} {offset : Nat} :
    EndsTerminator text offset ↔ offset ∈ terminatorEnds 0 text := by
  rw [mem_terminatorEnds_iff, EndsTerminator]
  simp only [Nat.zero_add]

instance (text : List Char) : DecidablePred (EndsTerminator text) :=
  fun _ => decidable_of_iff' _ endsTerminator_iff

/-- The ends of the terminators of a text up to an offset. -/
def endsUpTo (text : List Char) (offset : Nat) : Finset Nat :=
  (Finset.range (offset + 1)).filter (EndsTerminator text)

namespace Lines

theorem startsFrom_extend (lines : Lines) (c : Char) (offset : Nat) :
    startsFrom offset (lines.extend c).closed =
      offset :: (startsFrom (offset + c.utf8Size) lines.closed).tail := by
  obtain ⟨closed, last⟩ := lines
  cases closed with
  | nil => rfl
  | cons line rest =>
    simp only [extend, startsFrom, ClosedLine.chars, List.cons_append, byteLength, List.tail_cons,
      Nat.add_assoc]

theorem startsFrom_ofText (text : List Char) (offset : Nat) :
    startsFrom offset (ofText text).closed = offset :: terminatorEnds offset text := by
  fun_induction ofText text generalizing offset with
  | case1 => rfl
  | case2 rest ih =>
    have half : ¬ClosesLine '\r' ('\n' :: rest) := fun closes => closes.2 ⟨rfl, rfl⟩
    have whole : ClosesLine '\n' rest := ⟨rfl, fun shared => absurd shared.1 (by decide)⟩
    have width : byteLength (ClosedLine.chars ⟨[], .returnFeed⟩) = 2 := rfl
    rw [close, startsFrom, ih, width, terminatorEnds, if_neg half, terminatorEnds, if_pos whole]
    rfl
  | case3 c rest notFeed terminator found ih =>
    have closes : ClosesLine c rest := by
      refine ⟨by rw [endsLine, found]; rfl, ?_⟩
      rintro ⟨rfl, feed⟩
      obtain ⟨tail, rfl⟩ := List.head?_eq_some_iff.1 feed
      exact notFeed tail rfl rfl
    have width : byteLength (ClosedLine.chars ⟨[], terminator⟩) = c.utf8Size := by
      rw [ClosedLine.chars, chars_of_ofChar? found]
      rfl
    rw [close, startsFrom, ih, width, terminatorEnds, if_pos closes]
  | case4 c rest _ stays ih =>
    have inLine : ¬ClosesLine c rest := by
      rintro ⟨ends, -⟩
      rw [endsLine, stays] at ends
      contradiction
    rw [startsFrom_extend, ih, terminatorEnds, if_neg inLine, List.tail_cons]

theorem endsTerminator_iff_startOf {text : List Char} {offset : Nat} :
    EndsTerminator text offset ↔
      ∃ line, 1 ≤ line ∧ line < (ofText text).count ∧ (ofText text).startOf (line + 1) = offset := by
  have starts : (ofText text).starts = 0 :: terminatorEnds 0 text := startsFrom_ofText text 0
  have count : (ofText text).count = (terminatorEnds 0 text).length + 1 := by
    rw [← length_starts, starts, List.length_cons]
  have startOf (index : Nat) :
      (ofText text).startOf (index + 2) = (terminatorEnds 0 text).getD index 0 := by
    rw [Lines.startOf, starts]
    rfl
  rw [endsTerminator_iff, List.mem_iff_getElem, count]
  constructor
  · rintro ⟨index, bound, rfl⟩
    refine ⟨index + 1, Nat.succ_pos index, Nat.succ_lt_succ bound, ?_⟩
    rw [startOf, List.getD_eq_getElem]
  · rintro ⟨line, one_le, bound, rfl⟩
    obtain ⟨index, rfl⟩ := Nat.exists_eq_add_of_le' one_le
    have inside : index < (terminatorEnds 0 text).length := Nat.lt_of_succ_lt_succ bound
    refine ⟨index, inside, ?_⟩
    rw [startOf, List.getD_eq_getElem]

end Lines

section Counts

variable {text : List Char} {line offset : Nat}

theorem endsUpTo_eq_image (h : (Lines.ofText text).LiesOn line offset) :
    endsUpTo text offset =
      (Finset.Ico 1 line).image fun before => (Lines.ofText text).startOf (before + 1) := by
  have le_count := h.le_count
  ext stop
  rw [endsUpTo, Finset.mem_filter, Finset.mem_range, Lines.endsTerminator_iff_startOf,
    Finset.mem_image]
  constructor
  · rintro ⟨upTo, before, one_le, bound, rfl⟩
    have within := (h.startOf_le_iff (Nat.succ_pos before) bound).1 (Nat.le_of_lt_succ upTo)
    exact ⟨before, Finset.mem_Ico.2 ⟨one_le, within⟩, rfl⟩
  · rintro ⟨before, member, rfl⟩
    obtain ⟨one_le, within⟩ := Finset.mem_Ico.1 member
    have bound : before + 1 ≤ (Lines.ofText text).count := by omega
    have upTo := (h.startOf_le_iff (Nat.succ_pos before) bound).2 within
    exact ⟨Nat.lt_succ_of_le upTo, before, one_le, bound, rfl⟩

theorem card_endsUpTo (h : (Lines.ofText text).LiesOn line offset) :
    (endsUpTo text offset).card + 1 = line := by
  have one_le := h.one_le
  have le_count := h.le_count
  have increasing : StrictMonoOn (fun before => (Lines.ofText text).startOf (before + 1))
      (Finset.Ico 1 line) := by
    intro first _ second hsecond order
    rw [Finset.mem_coe, Finset.mem_Ico] at hsecond
    exact (Lines.ofText text).startOf_lt_startOf (Nat.succ_lt_succ order) (Nat.succ_pos first)
      (by omega)
  rw [endsUpTo_eq_image h, Finset.card_image_of_injOn increasing.injOn, Nat.card_Ico]
  omega

theorem sup_endsUpTo (h : (Lines.ofText text).LiesOn line offset) :
    (endsUpTo text offset).sup id = (Lines.ofText text).startOf line := by
  have le_count := h.le_count
  obtain ⟨before, rfl⟩ := Nat.exists_eq_add_of_le' h.one_le
  rw [endsUpTo_eq_image h, Finset.sup_image]
  apply Nat.le_antisymm
  · apply Finset.sup_le
    intro other member
    have bound := (Finset.mem_Ico.1 member).2
    exact (Lines.ofText text).startOf_le_startOf bound (Nat.succ_pos other) le_count
  · cases before with
    | zero =>
      rw [Lines.startOf_one]
      exact Nat.zero_le _
    | succ earlier =>
      have last : earlier + 1 ∈ Finset.Ico 1 (earlier + 2) :=
        Finset.mem_Ico.2 ⟨Nat.succ_pos earlier, Nat.lt_succ_self _⟩
      exact Finset.le_sup (f := id ∘ fun before => (Lines.ofText text).startOf (before + 1)) last

end Counts

/-- The position of an offset counts the terminators that end up to there and the bytes behind the
last of them, and a later offset has a later position. -/
theorem positionAt_eq_counts (text : List Char) (small : byteLength text < offsetBound - 1) :
    (∀ offset, offset ≤ byteLength text → ∃ position, positionAt text offset = .ok position ∧
      position.line = (endsUpTo text offset).card + 1 ∧
      position.column = offset - (endsUpTo text offset).sup id) ∧
    ∀ first second, first < second → second ≤ byteLength text →
      ∃ earlier later, positionAt text first = .ok earlier ∧ positionAt text second = .ok later ∧
        Prod.Lex (· < ·) (· < ·) (earlier.line, earlier.column) (later.line, later.column) := by
  constructor
  · intro offset inside
    obtain ⟨position, found, named⟩ := exists_positionAt small inside
    refine ⟨position, found, (card_endsUpTo named.liesOn).symm, ?_⟩
    rw [sup_endsUpTo named.liesOn]
    exact Nat.eq_sub_of_add_eq' named.offset_eq.symm
  · intro first second order inside
    obtain ⟨earlier, foundFirst, hfirst⟩ :=
      exists_positionAt small (Nat.le_of_lt (Nat.lt_of_lt_of_le order inside))
    obtain ⟨later, foundSecond, hsecond⟩ := exists_positionAt small inside
    refine ⟨earlier, later, foundFirst, foundSecond, ?_⟩
    have started := hfirst.liesOn.startOf_le
    have lines : earlier.line ≤ later.line := by
      apply (hsecond.liesOn.startOf_le_iff hfirst.liesOn.one_le hfirst.liesOn.le_count).1
      omega
    rw [Prod.lex_def]
    rcases Nat.lt_or_eq_of_le lines with before | same
    · exact .inl before
    · refine .inr ⟨same, ?_⟩
      have atFirst := hfirst.offset_eq
      have atSecond := hsecond.offset_eq
      rw [same] at atFirst
      show earlier.column < later.column
      omega

theorem positionAt_eq_counts_mixedLines :
    byteLength mixedLines < offsetBound - 1 ∧ 3 ≤ byteLength mixedLines ∧
      endsUpTo mixedLines 2 = ∅ ∧ endsUpTo mixedLines 3 = {3} ∧
      ∃ inside behind, positionAt mixedLines 2 = .ok inside ∧ positionAt mixedLines 3 = .ok behind ∧
        Prod.Lex (· < ·) (· < ·) (inside.line, inside.column) (behind.line, behind.column) ∧
        (behind.line, behind.column) = (2, 0) := by
  have small : byteLength mixedLines < offsetBound - 1 := by decide
  have bound : 3 ≤ byteLength mixedLines := by decide
  have ends : endsUpTo mixedLines 3 = {3} := by decide
  obtain ⟨counts, ordered⟩ := positionAt_eq_counts mixedLines small
  obtain ⟨inside, behind, foundFirst, foundSecond, order⟩ := ordered 2 3 (by decide) bound
  obtain ⟨position, found, line, column⟩ := counts 3 bound
  obtain rfl := Except.ok.inj (foundSecond.symm.trans found)
  rw [ends] at line column
  refine ⟨small, bound, by decide, ends, inside, behind, foundFirst, foundSecond, order, ?_⟩
  rw [line, column]
  rfl

end AnnotatedSource.Text
