import AnnotatedSource.Proofs.Span
import AnnotatedSource.Proofs.Text.Slice
import AnnotatedSource.Source
import AnnotatedSource.Tree.Shape
import Mathlib.Order.Bounds.Basic

/-!
Padded slices.  The slice between any two offsets is cut where characters meet: at the last such
place up to the first offset and at the first one from the second offset on.  No other run of bytes
that holds all between the offsets and is UTF-8 by itself is shorter.
-/

set_option autoImplicit false
set_option relaxedAutoImplicit false

namespace AnnotatedSource

namespace Text

/-- An offset at which a character of a text starts or the text ends. -/
def IsBoundary (text : List Char) (offset : Nat) : Prop :=
  ∃ count, offset = byteLength (text.take count)

/-- The bytes `[first, last)` of a text are UTF-8 by themselves, and all of `[start, stop)` are
among them. -/
structure Covers (text : List Char) (start stop first last : Nat) : Prop where
  first_le : first ≤ start
  le_last : stop ≤ last
  last_le : last ≤ byteLength text
  wellFormed : (text.utf8Encode.extract first last).IsValidUTF8

variable {text : List Char} {start stop : Nat}

theorem size_utf8Encode (text : List Char) : text.utf8Encode.size = byteLength text := by
  induction text with
  | nil => rfl
  | cons c rest ih =>
    rw [List.utf8Encode_cons, ByteArray.size_append, ih, List.utf8Encode_singleton,
      List.size_toByteArray, String.length_utf8EncodeChar, byteLength]

theorem utf8ByteSize_ofList (text : List Char) :
    (String.ofList text).utf8ByteSize = byteLength text := by
  rw [← String.size_toByteArray, String.toByteArray_ofList, size_utf8Encode]

theorem utf8Encode_extract {first last : Nat} (order : first ≤ last) :
    (text.extract first last).utf8Encode =
      text.utf8Encode.extract (byteLength (text.take first)) (byteLength (text.take last)) := by
  have whole : text.utf8Encode = (text.take first).utf8Encode ++
      ((text.extract first last).utf8Encode ++ (text.drop last).utf8Encode) := by
    rw [← List.utf8Encode_append, ← List.utf8Encode_append, ← List.append_assoc,
      ← take_eq_append_extract order, List.take_append_drop]
  have behind := ByteArray.extract_append_size_add' (i := 0)
    (j := byteLength (text.extract first last)) (a := (text.take first).utf8Encode)
    (b := (text.extract first last).utf8Encode ++ (text.drop last).utf8Encode)
    (size_utf8Encode (text.take first)).symm
  rw [Nat.add_zero] at behind
  rw [whole, byteLength_take order, behind,
    ByteArray.extract_append_eq_left (size_utf8Encode _).symm]

theorem isBoundary_iff_isValid {offset : Nat} :
    IsBoundary text offset ↔ (String.Pos.Raw.mk offset).IsValid (String.ofList text) := by
  rw [String.Pos.Raw.isValid_ofList, IsBoundary]
  simp only [utf8ByteSize_ofList]

theorem isBoundary_of_isValidUTF8 {first last : Nat} (order : first < last)
    (last_le : last ≤ byteLength text)
    (wellFormed : (text.utf8Encode.extract first last).IsValidUTF8) :
    IsBoundary text first ∧ IsBoundary text last := by
  have within : String.Pos.Raw.mk last ≤ (String.ofList text).rawEndPos := by
    rw [String.Pos.Raw.le_iff, String.byteIdx_rawEndPos, utf8ByteSize_ofList]
    exact last_le
  have valid := String.Pos.Raw.isValidUTF8_extract_iff ⟨first⟩ ⟨last⟩ (Nat.le_of_lt order) within
  rw [String.toByteArray_ofList] at valid
  rw [isBoundary_iff_isValid, isBoundary_iff_isValid]
  refine (valid.1 wellFormed).resolve_left ?_
  intro same
  exact Nat.ne_of_lt order (congrArg String.Pos.Raw.byteIdx same)

theorem exists_owner {offset : Nat} (h : offset < byteLength text) :
    ∃ count, byteLength (text.take count) ≤ offset ∧
      offset < byteLength (text.take (count + 1)) := by
  induction text generalizing offset with
  | nil => contradiction
  | cons c rest ih =>
    rw [byteLength] at h
    by_cases inFirst : offset < c.utf8Size
    · exact ⟨0, Nat.zero_le _, by simpa [byteLength] using inFirst⟩
    · have inRest : offset - c.utf8Size < byteLength rest := by omega
      obtain ⟨count, lower, upper⟩ := ih inRest
      refine ⟨count + 1, ?_, ?_⟩ <;> rw [List.take_succ_cons, byteLength] <;> omega

theorem covering_eq_self {offset : Nat}
    (owns : ∀ count < text.length, start < offset + byteLength (text.take (count + 1)) ∧
      offset + byteLength (text.take count) < stop) : covering start stop offset text = text := by
  induction text generalizing offset with
  | nil => rfl
  | cons c rest ih =>
    have here := owns 0 (Nat.succ_pos _)
    simp only [List.take_succ_cons, List.take_zero, byteLength, Nat.add_zero] at here
    rw [covering, if_pos here, ih]
    intro count bound
    have behind := owns (count + 1) (Nat.succ_lt_succ bound)
    simpa only [List.take_succ_cons, byteLength, Nat.add_assoc] using behind

theorem covering_eq_extract {first last : Nat} (order : first ≤ last)
    (startsUpTo : byteLength (text.take first) ≤ start)
    (stopsAfter : start < byteLength (text.take (first + 1)))
    (startsBefore : byteLength (text.take last) < stop)
    (stopsFrom : stop ≤ byteLength (text.take (last + 1))) :
    covering start stop 0 text = text.extract first (last + 1) := by
  have ordered : first ≤ last + 1 := Nat.le_succ_of_le order
  rw [byteLength_take ordered] at stopsFrom
  have front : covering start stop 0 (text.take first) = [] := covering_of_before (by omega)
  have back : covering start stop
      (byteLength (text.take first) + byteLength (text.extract first (last + 1)))
      (text.drop (last + 1)) = [] := covering_of_behind stopsFrom
  have cut : covering start stop 0 (text.take (last + 1) ++ text.drop (last + 1)) =
      covering start stop (byteLength (text.take first)) (text.extract first (last + 1)) := by
    rw [take_eq_append_extract ordered, covering_append, covering_append, byteLength_append,
      Nat.zero_add, Nat.zero_add, front, back, List.nil_append, List.append_nil]
  rw [List.take_append_drop] at cut
  rw [cut]
  apply covering_eq_self
  intro count bound
  have upTo {width : Nat} (h : width ≤ last + 1 - first) :
      byteLength (text.take first) + byteLength ((text.extract first (last + 1)).take width) =
        byteLength (text.take (first + width)) := by
    rw [List.extract_eq_take_drop, List.take_take, Nat.min_eq_left h,
      byteLength_take (Nat.le_add_right first width), List.extract_eq_take_drop,
      Nat.add_sub_cancel_left]
  have inside : count < last + 1 - first := by
    rw [List.extract_eq_take_drop, List.length_take] at bound
    omega
  rw [upTo inside, upTo (Nat.le_of_lt inside)]
  constructor
  · exact Nat.lt_of_lt_of_le stopsAfter (byteLength_take_le (by omega))
  · exact Nat.lt_of_le_of_lt (byteLength_take_le (by omega)) startsBefore

theorem isGreatest_boundary {count : Nat} (startsUpTo : byteLength (text.take count) ≤ start)
    (stopsAfter : start < byteLength (text.take (count + 1))) :
    IsGreatest {offset | IsBoundary text offset ∧ offset ≤ start} (byteLength (text.take count)) := by
  refine ⟨⟨⟨count, rfl⟩, startsUpTo⟩, ?_⟩
  rintro offset ⟨⟨other, rfl⟩, upTo⟩
  apply byteLength_take_le
  by_contra beyond
  have later : byteLength (text.take (count + 1)) ≤ byteLength (text.take other) :=
    byteLength_take_le (by omega)
  omega

theorem isLeast_boundary {count : Nat} (startsBefore : byteLength (text.take count) < stop)
    (stopsFrom : stop ≤ byteLength (text.take (count + 1))) :
    IsLeast {offset | IsBoundary text offset ∧ stop ≤ offset}
      (byteLength (text.take (count + 1))) := by
  refine ⟨⟨⟨count + 1, rfl⟩, stopsFrom⟩, ?_⟩
  rintro offset ⟨⟨other, rfl⟩, behind⟩
  apply byteLength_take_le
  by_contra short
  have earlier : byteLength (text.take other) ≤ byteLength (text.take count) :=
    byteLength_take_le (by omega)
  omega

/-- A slice that is not empty holds the characters between the boundaries around it. -/
theorem exists_boundaries (nonempty : start < min stop (byteLength text)) :
    ∃ first last, first ≤ last ∧
      IsGreatest {offset | IsBoundary text offset ∧ offset ≤ start}
        (byteLength (text.take first)) ∧
      IsLeast {offset | IsBoundary text offset ∧ min stop (byteLength text) ≤ offset}
        (byteLength (text.take last)) ∧
      slice text start stop = text.extract first last := by
  rw [slice_eq_covering nonempty]
  have within : min stop (byteLength text) ≤ byteLength text := Nat.min_le_right _ _
  generalize min stop (byteLength text) = stop at nonempty within ⊢
  have ownsFirst : start < byteLength text := Nat.lt_of_lt_of_le nonempty within
  have ownsLast : stop - 1 < byteLength text := by omega
  obtain ⟨first, startsUpTo, stopsAfter⟩ := exists_owner ownsFirst
  obtain ⟨last, startsBefore, stopsFrom⟩ := exists_owner ownsLast
  have order : first ≤ last := by
    by_contra crossed
    have reversed : byteLength (text.take (last + 1)) ≤ byteLength (text.take first) :=
      byteLength_take_le (by omega)
    omega
  have before : byteLength (text.take last) < stop := by omega
  have upTo : stop ≤ byteLength (text.take (last + 1)) := by omega
  exact ⟨first, last + 1, Nat.le_succ_of_le order, isGreatest_boundary startsUpTo stopsAfter,
    isLeast_boundary before upTo, covering_eq_extract order startsUpTo stopsAfter before upTo⟩

/-- What stands between two offsets of a text: nothing where they cross or the text ends, else the
characters from the last boundary up to the first offset to the first boundary from the second on. -/
inductive StandsBetween (text : List Char) (start stop : Nat) : List Char → Prop where
  | nothing (crossed : min stop (byteLength text) ≤ start) : StandsBetween text start stop []
  | characters {front gap back : List Char} (order : start < min stop (byteLength text))
      (split : text = front ++ gap ++ back)
      (greatest : IsGreatest {offset | IsBoundary text offset ∧ offset ≤ start} (byteLength front))
      (least : IsLeast {offset | IsBoundary text offset ∧ min stop (byteLength text) ≤ offset}
        (byteLength (front ++ gap))) : StandsBetween text start stop gap

theorem standsBetween_slice (text : List Char) (start stop : Nat) :
    StandsBetween text start stop (slice text start stop) := by
  rcases Nat.lt_or_ge start (min stop (byteLength text)) with order | crossed
  · obtain ⟨first, last, upTo, greatest, least, held⟩ := exists_boundaries order
    have split : text = text.take first ++ text.extract first last ++ text.drop last := by
      rw [← take_eq_append_extract upTo, List.take_append_drop]
    rw [take_eq_append_extract upTo] at least
    rw [held]
    exact .characters order split greatest least
  · rw [slice_eq_nil crossed]
    exact .nothing crossed

theorem IsBoundary.le {offset : Nat} (h : IsBoundary text offset) : offset ≤ byteLength text := by
  obtain ⟨count, rfl⟩ := h
  have whole := byteLength_append (text.take count) (text.drop count)
  rw [List.take_append_drop] at whole
  omega

section Tightest

variable {first last : Nat}
  (greatest : IsGreatest {offset | IsBoundary text offset ∧ offset ≤ start} first)
  (least : IsLeast {offset | IsBoundary text offset ∧ stop ≤ offset} last)

include greatest least

theorem covers_boundaries {characters : List Char}
    (bytes : characters.utf8Encode = text.utf8Encode.extract first last) :
    Covers text start stop first last where
  first_le := greatest.1.2
  le_last := least.1.2
  last_le := least.1.1.le
  wellFormed := by
    rw [← bytes]
    exact ByteArray.isValidUTF8_utf8Encode

theorem Covers.encloses {left right : Nat} (nonempty : start < stop)
    (covers : Covers text start stop left right) : left ≤ first ∧ last ≤ right := by
  have startsUpTo := covers.first_le
  have stopsFrom := covers.le_last
  have ends := isBoundary_of_isValidUTF8 (by omega) covers.last_le covers.wellFormed
  exact ⟨greatest.2 ⟨ends.1, startsUpTo⟩, least.2 ⟨ends.2, stopsFrom⟩⟩

end Tightest

theorem utf8Encode_slice (starts : IsBoundary text start)
    (stops : IsBoundary text (min stop (byteLength text))) :
    (slice text start stop).utf8Encode =
      text.utf8Encode.extract start (min stop (byteLength text)) := by
  rcases Nat.lt_or_ge start (min stop (byteLength text)) with order | crossed
  · obtain ⟨first, last, upTo, greatest, least, held⟩ := exists_boundaries order
    have atStart : byteLength (text.take first) = start :=
      Nat.le_antisymm greatest.1.2 (greatest.2 ⟨starts, Nat.le_refl _⟩)
    have atStop : byteLength (text.take last) = min stop (byteLength text) :=
      Nat.le_antisymm (least.2 ⟨stops, Nat.le_refl _⟩) least.1.2
    rw [held, utf8Encode_extract upTo, atStart, atStop]
  · rw [slice_eq_nil crossed, ByteArray.extract_eq_empty_iff.2]
    · rfl
    · exact Nat.le_trans (Nat.min_le_left _ _) crossed

theorem slice_min_stop {limit : Nat} (fits : byteLength text ≤ limit) :
    slice text start (min limit stop) = slice text start stop := by
  have clamped : min (min limit stop) (byteLength text) = min stop (byteLength text) := by omega
  rw [slice, clamped, slice]

end Text

/-- The text around a span is empty when the padded span, cut at the ends of the text, is.
Otherwise it is the run of bytes from the last boundary up to the start to the first boundary from
the stop on, which is the shortest one that covers the padded span and is UTF-8 by itself.  Between
two boundaries it is just the bytes between them, and a sum that saturates does not change it. -/
theorem Source.textAround_covers (source : Source) (span : Span) (before after : Nat) :
    let start := span.start - before
    let stop := min (span.stop + after) (Text.byteLength source.text)
    let around := source.textAround span before after
    (stop ≤ start → around = []) ∧
    (start < stop → ∃ first last,
      IsGreatest {offset | Text.IsBoundary source.text offset ∧ offset ≤ start} first ∧
      IsLeast {offset | Text.IsBoundary source.text offset ∧ stop ≤ offset} last ∧
      around.utf8Encode = source.text.utf8Encode.extract first last ∧
      Text.Covers source.text start stop first last ∧
      ∀ left right, Text.Covers source.text start stop left right → left ≤ first ∧ last ≤ right) ∧
    (Text.IsBoundary source.text start → Text.IsBoundary source.text stop →
      around.utf8Encode = source.text.utf8Encode.extract start stop) ∧
    ∀ limit, Text.byteLength source.text ≤ limit →
      around = Text.slice source.text start (min limit (span.stop + after)) := by
  intro start stop around
  refine ⟨Text.slice_eq_nil, ?tightest, Text.utf8Encode_slice, ?saturated⟩
  case tightest =>
    intro nonempty
    obtain ⟨first, last, upTo, greatest, least, held⟩ := Text.exists_boundaries nonempty
    have bytes : around.utf8Encode = _ :=
      (congrArg List.utf8Encode held).trans (Text.utf8Encode_extract upTo)
    refine ⟨_, _, greatest, least, bytes, Text.covers_boundaries greatest least bytes, ?_⟩
    intro left right covers
    exact covers.encloses greatest least nonempty
  case saturated =>
    intro limit fits
    exact (Text.slice_min_stop fits).symm

/-- A script of characters of one, two and three bytes. -/
def mixedWidths : Source where
  text := "añ€b".toList
  marked := false
  tree := Shape.toTree (.node .program (.ofWidth 0 7) .zero 0 [])
  tokens := ⟨#[]⟩
  comments := []
  stream := ⟨#[]⟩

theorem Source.textAround_covers_mixedWidths :
    mixedWidths.textAround (.ofWidth 7 3) 0 0 = [] ∧
      (mixedWidths.textAround (.ofWidth 4 1) 2 0).utf8Encode =
        mixedWidths.text.utf8Encode.extract 1 6 ∧
      Text.Covers mixedWidths.text 2 5 1 6 ∧
      (mixedWidths.textAround (.ofWidth 3 3) 2 0xffffffffffffffff).utf8Encode =
        mixedWidths.text.utf8Encode.extract 1 7 ∧
      mixedWidths.textAround (.ofWidth 3 3) 2 0xffffffffffffffff =
        Text.slice mixedWidths.text 1
          (min 0xffffffffffffffff ((Span.ofWidth 3 3).stop + 0xffffffffffffffff)) := by
  obtain ⟨empty, -⟩ := textAround_covers mixedWidths (.ofWidth 7 3) 0 0
  obtain ⟨-, tightest, -⟩ := textAround_covers mixedWidths (.ofWidth 4 1) 2 0
  obtain ⟨-, -, exactly, saturated⟩ :=
    textAround_covers mixedWidths (.ofWidth 3 3) 2 0xffffffffffffffff
  obtain ⟨first, last, greatest, least, bytes, covers, -⟩ := tightest (by decide)
  have one : 1 = Text.byteLength (mixedWidths.text.take 1) := by decide
  have six : 6 = Text.byteLength (mixedWidths.text.take 3) := by decide
  obtain rfl : first = 1 := by
    rw [one]
    exact greatest.unique (Text.isGreatest_boundary (by decide) (by decide))
  obtain rfl : last = 6 := by
    rw [six]
    exact least.unique (Text.isLeast_boundary (by decide) (by decide))
  have atEnd : min ((Span.ofWidth 3 3).stop + 0xffffffffffffffff)
      (Text.byteLength mixedWidths.text) = 7 := by decide
  rw [atEnd] at exactly
  exact ⟨empty (by decide), bytes, covers, exactly ⟨1, by decide⟩ ⟨4, by decide⟩,
    saturated 0xffffffffffffffff (by decide)⟩

end AnnotatedSource
