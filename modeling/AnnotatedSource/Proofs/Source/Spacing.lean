import AnnotatedSource.Proofs.Span
import AnnotatedSource.Proofs.Text.Gap
import AnnotatedSource.Proofs.Text.Slice
import AnnotatedSource.Source
import AnnotatedSource.Tree.Shape

/-!
Spacing of a gap between tokens.  A gap made of white space and comments counts as no space exactly
when it is nothing but block comments that each stay on one line; white space outside of comments, a
line comment and a block comment over several lines all leave white space behind.
-/

set_option autoImplicit false
set_option relaxedAutoImplicit false

namespace AnnotatedSource

namespace Text

/-- What may stand between two tokens: a run of white space, a block comment up to its first end,
or a line comment with the terminator of its line. -/
inductive Segment where
  | blanks (run : List Char) (nonempty : run ≠ []) (blank : ∀ c ∈ run, isBlank c = true)
  | blockComment (body : List Char) (unclosed : Unclosed body)
  | lineComment (payload : List Char) (terminator : Terminator)
      (inLine : ∀ c ∈ payload, endsLine c = false)

namespace Segment

def chars : Segment → List Char
  | .blanks run _ _ => run
  | .blockComment body _ => commented body
  | .lineComment payload terminator _ => '/' :: '/' :: (payload ++ terminator.chars)

def IsOneLineComment : Segment → Prop
  | .blockComment body _ => ∀ c ∈ body, endsLine c = false
  | _ => False

/-- A line comment, or a block comment over several lines. -/
def BreaksLine : Segment → Prop
  | .blanks _ _ _ => False
  | .blockComment body _ => ∃ c ∈ body, endsLine c = true
  | .lineComment _ _ _ => True

instance : DecidablePred IsOneLineComment
  | .blanks _ _ _ => .isFalse id
  | .blockComment body _ => List.decidableBAll (fun c => endsLine c = false) body
  | .lineComment _ _ _ => .isFalse id

instance : DecidablePred BreaksLine
  | .blanks _ _ _ => .isFalse id
  | .blockComment body _ => List.decidableBEx (fun c => endsLine c = true) body
  | .lineComment _ _ _ => .isTrue trivial

theorem not_isOneLineComment_of_breaksLine {segment : Segment} (h : segment.BreaksLine) :
    ¬segment.IsOneLineComment := by
  intro oneLine
  cases segment with
  | blanks run nonempty blank => exact h
  | blockComment body unclosed =>
    obtain ⟨c, member, ends⟩ := h
    rw [oneLine c member] at ends
    contradiction
  | lineComment payload terminator inLine => exact oneLine

theorem isSpaced_append_of_isOneLineComment {segment : Segment} (h : segment.IsOneLineComment)
    (rest : List Char) : isSpaced (segment.chars ++ rest) = isSpaced rest := by
  cases segment with
  | blanks run nonempty blank => exact h.elim
  | blockComment body unclosed => exact isSpaced_commented ⟨unclosed, h⟩ rest
  | lineComment payload terminator inLine => exact h.elim

theorem isSpaced_append_of_not_isOneLineComment {segment : Segment}
    (h : ¬segment.IsOneLineComment) (rest : List Char) :
    isSpaced (segment.chars ++ rest) = true := by
  cases segment with
  | blanks run nonempty blank =>
    obtain ⟨c, tail, rfl⟩ := List.exists_cons_of_ne_nil nonempty
    exact isSpaced_cons_of_isBlank (blank c List.mem_cons_self) (tail ++ rest)
  | blockComment body unclosed =>
    have broken : ∃ c ∈ body, endsLine c = true := by
      by_contra none
      apply h
      intro c member
      exact Bool.eq_false_iff.2 fun ends => none ⟨c, member, ends⟩
    obtain ⟨c, member, ends⟩ := broken
    refine isSpaced_of_endsLine ?_ ends
    simp [chars, commented, member]
  | lineComment payload terminator inLine =>
    obtain ⟨c, member⟩ : ∃ c, c ∈ terminator.chars := by
      cases terminator <;> exact ⟨_, List.mem_cons_self⟩
    refine isSpaced_of_endsLine ?_ (endsLine_of_mem_chars member)
    simp [chars, member]

theorem isSpaced_flatMap_chars_eq_false_iff (segments : List Segment) :
    isSpaced (segments.flatMap chars) = false ↔
      ∀ segment ∈ segments, segment.IsOneLineComment := by
  induction segments with
  | nil => simp [isSpaced, withoutComments]
  | cons first rest ih =>
    rw [List.flatMap_cons, List.forall_mem_cons]
    by_cases oneLine : first.IsOneLineComment
    · rw [isSpaced_append_of_isOneLineComment oneLine, ih, and_iff_right oneLine]
    · rw [isSpaced_append_of_not_isOneLineComment oneLine]
      simp [oneLine]

end Segment

end Text

namespace Source

open Text (Segment byteLength)

theorem isSpaceBetween_eq_isSpaced {source : Source} {first second : Span} {gapStart gapStop : Nat}
    (hfirst : first.stop = byteLength (source.text.take gapStart))
    (hsecond : second.start = byteLength (source.text.take gapStop)) :
    source.isSpaceBetween first second = Text.isSpaced (source.text.extract gapStart gapStop) := by
  rw [isSpaceBetween, hfirst, hsecond, Text.slice_eq_extract]

/-- No space separates two spans exactly when the segments between them can be read as block
comments on one line and nothing else, and each line comment and each block comment over several
lines among them makes a space.  The gap goes from where the first span stops, behind `gapStart`
characters of the text, to where the second one starts, behind `gapStop` of them. -/
theorem isSpaceBetween_eq_false_iff (source : Source) (first second : Span)
    (gapStart gapStop : Nat)
    (hfirst : first.stop = byteLength (source.text.take gapStart))
    (hsecond : second.start = byteLength (source.text.take gapStop)) (segments : List Segment)
    (lexed : source.text.extract gapStart gapStop = segments.flatMap Segment.chars) :
    (source.isSpaceBetween first second = false ↔
      ∃ comments : List Segment, (∀ comment ∈ comments, comment.IsOneLineComment) ∧
        source.text.extract gapStart gapStop = comments.flatMap Segment.chars) ∧
    ((∃ segment ∈ segments, segment.BreaksLine) →
      source.isSpaceBetween first second = true) := by
  rw [isSpaceBetween_eq_isSpaced hfirst hsecond]
  refine ⟨⟨?_, ?_⟩, ?_⟩
  · intro tight
    rw [lexed, Segment.isSpaced_flatMap_chars_eq_false_iff] at tight
    exact ⟨segments, tight, lexed⟩
  · rintro ⟨comments, oneLine, read⟩
    rw [read, Segment.isSpaced_flatMap_chars_eq_false_iff]
    exact oneLine
  · rintro ⟨segment, member, breaks⟩
    by_contra tight
    rw [Bool.not_eq_true, lexed, Segment.isSpaced_flatMap_chars_eq_false_iff] at tight
    exact Segment.not_isOneLineComment_of_breaksLine breaks (tight segment member)

/-- A script in which the comments between names look like other comments. -/
def trickyGaps : Source where
  text := "a/*/*//***/b/*\n*/c".toList
  marked := false
  tree := Shape.toTree (.node .program (.ofWidth 0 18) .zero 0 [])
  tokens := ⟨#[]⟩
  comments := []
  stream := ⟨#[]⟩

theorem isSpaceBetween_eq_false_iff_tricky :
    trickyGaps.isSpaceBetween (.ofWidth 0 1) (.ofWidth 11 1) = false ∧
      trickyGaps.isSpaceBetween (.ofWidth 11 1) (.ofWidth 17 1) = true := by
  let tight : List Segment := [.blockComment ['/'] (by decide), .blockComment ['*'] (by decide)]
  let spaced : List Segment := [.blockComment ['\n'] (by decide)]
  have readTight : trickyGaps.text.extract 1 11 = tight.flatMap Segment.chars := by decide
  have readSpaced : trickyGaps.text.extract 12 17 = spaced.flatMap Segment.chars := by decide
  constructor
  · rw [(isSpaceBetween_eq_false_iff trickyGaps _ _ 1 11 (by decide) (by decide) tight
      readTight).1]
    refine ⟨tight, ?_, readTight⟩
    intro comment member
    rcases List.mem_pair.1 member with rfl | rfl <;> decide
  · apply (isSpaceBetween_eq_false_iff trickyGaps _ _ 12 17 (by decide) (by decide) spaced
      readSpaced).2
    exact ⟨_, List.mem_singleton_self _, by decide⟩

end Source

end AnnotatedSource
