import AnnotatedSource.Text.Lines

/-!
Lines as the one cut of a text.  A text has one cut into lines with terminators between them in
which no line holds a character that ends lines and no carriage return is cut off from a line feed
behind it, and splitting the text finds that cut.
-/

set_option autoImplicit false
set_option relaxedAutoImplicit false

namespace AnnotatedSource.Text

theorem endsLine_eq_false_iff {c : Char} : endsLine c = false ↔ Terminator.ofChar? c = none := by
  rw [endsLine, Option.isSome_eq_false_iff, Option.isNone_iff_eq_none]

namespace Lines

/-- Lines segment a text when the text is the lines with their terminators one after another, no
line holds a character that ends lines, and no line feed follows a terminator that is a carriage
return alone. -/
structure Segments (lines : Lines) (text : List Char) : Prop where
  toText_eq : lines.toText = text
  inLine : ∀ content ∈ lines.contents, ∀ c ∈ content, endsLine c = false
  whole : ∀ front line back, lines.closed = front ++ line :: back →
    line.terminator = .carriageReturn → (Lines.mk back lines.last).toText.head? ≠ some '\n'

theorem segments_last_iff (last text : List Char) :
    (Lines.mk [] last).Segments text ↔ last = text ∧ ∀ c ∈ last, endsLine c = false := by
  constructor
  · rintro ⟨toText_eq, inLine, -⟩
    exact ⟨toText_eq, inLine last (by simp [contents])⟩
  · rintro ⟨rfl, inLine⟩
    refine ⟨rfl, ?_, ?_⟩
    · intro content member
      obtain rfl : content = last := by simpa [contents] using member
      exact inLine
    · intro front line back split
      simp at split

theorem segments_close_iff (lines : Lines) (content text : List Char) (terminator : Terminator) :
    (lines.close content terminator).Segments (content ++ terminator.chars ++ text) ↔
      (∀ c ∈ content, endsLine c = false) ∧
      (terminator = .carriageReturn → text.head? ≠ some '\n') ∧ lines.Segments text := by
  constructor
  · rintro ⟨toText_eq, inLine, whole⟩
    rw [toText_close, List.append_cancel_left_eq] at toText_eq
    refine ⟨?_, ?_, toText_eq, ?_, ?_⟩
    · exact inLine content (by simp [close, contents])
    · intro alone
      rw [← toText_eq]
      exact whole [] ⟨content, terminator⟩ lines.closed rfl alone
    · intro other member
      exact inLine other (List.mem_cons_of_mem content member)
    · intro front line back split
      apply whole (⟨content, terminator⟩ :: front)
      simp [close, split]
  · rintro ⟨inContent, alone, toText_eq, inLine, whole⟩
    refine ⟨?_, ?_, ?_⟩
    · rw [toText_close, toText_eq]
    · intro other member
      rcases List.mem_cons.1 member with rfl | behind
      · exact inContent
      · exact inLine other behind
    · intro front line back split
      cases front with
      | nil =>
        obtain ⟨rfl, rfl⟩ := List.cons.inj split
        intro isReturn
        change lines.toText.head? ≠ some '\n'
        rw [toText_eq]
        exact alone isReturn
      | cons first front => exact whole front line back (List.cons.inj split).2

theorem Segments.extend {lines : Lines} {text : List Char} (h : lines.Segments text) {c : Char}
    (stays : endsLine c = false) : (lines.extend c).Segments (c :: text) := by
  obtain rfl := h.toText_eq
  obtain ⟨closed, last⟩ := lines
  cases closed with
  | nil =>
    obtain ⟨-, inLine⟩ := (segments_last_iff last _).1 h
    refine (segments_last_iff (c :: last) _).2 ⟨rfl, ?_⟩
    rw [List.forall_mem_cons]
    exact ⟨stays, inLine⟩
  | cons line rest =>
    have split := toText_close ⟨rest, last⟩ line.content line.terminator
    change (Lines.mk (line :: rest) last).toText = _ at split
    rw [split] at h ⊢
    obtain ⟨inContent, alone, behind⟩ := (segments_close_iff ⟨rest, last⟩ _ _ _).1 h
    refine (segments_close_iff ⟨rest, last⟩ (c :: line.content) _ _).2 ⟨?_, alone, behind⟩
    rw [List.forall_mem_cons]
    exact ⟨stays, inContent⟩

theorem ofText_cons {c : Char} (stays : endsLine c = false) (text : List Char) :
    ofText (c :: text) = (ofText text).extend c := by
  rw [endsLine_eq_false_iff] at stays
  rw [ofText, stays]
  rintro rest rfl -
  contradiction

theorem ofText_of_inLine {text : List Char} (inLine : ∀ c ∈ text, endsLine c = false) :
    ofText text = ⟨[], text⟩ := by
  induction text with
  | nil => rfl
  | cons c rest ih =>
    rw [List.forall_mem_cons] at inLine
    rw [ofText_cons inLine.1, ih inLine.2]
    rfl

theorem ofText_terminator {terminator : Terminator} {text : List Char}
    (alone : terminator = .carriageReturn → text.head? ≠ some '\n') :
    ofText (terminator.chars ++ text) = (ofText text).close [] terminator := by
  cases terminator with
  | returnFeed => rw [Terminator.chars, List.cons_append, List.singleton_append, ofText]
  | carriageReturn =>
    have follows : text.head? ≠ some '\n' := alone rfl
    rw [Terminator.chars, List.singleton_append, ofText]
    · rfl
    · rintro rest - rfl
      exact follows rfl
  | lineFeed => rw [Terminator.chars, List.singleton_append, ofText] <;> simp [Terminator.ofChar?]
  | lineSeparator =>
    rw [Terminator.chars, List.singleton_append, ofText] <;> simp [Terminator.ofChar?]
  | paragraphSeparator =>
    rw [Terminator.chars, List.singleton_append, ofText] <;> simp [Terminator.ofChar?]

theorem ofText_line {content text : List Char} {terminator : Terminator}
    (inLine : ∀ c ∈ content, endsLine c = false)
    (alone : terminator = .carriageReturn → text.head? ≠ some '\n') :
    ofText (content ++ terminator.chars ++ text) = (ofText text).close content terminator := by
  induction content with
  | nil => exact ofText_terminator alone
  | cons c rest ih =>
    rw [List.forall_mem_cons] at inLine
    rw [List.cons_append, List.cons_append, ofText_cons inLine.1, ih inLine.2]
    rfl

theorem segments_ofText (text : List Char) : (ofText text).Segments text := by
  fun_induction ofText text with
  | case1 => exact (segments_last_iff [] []).2 ⟨rfl, by simp⟩
  | case2 rest ih =>
    apply (segments_close_iff (ofText rest) [] rest .returnFeed).2
    refine ⟨by simp, ?_, ih⟩
    intro isReturn
    contradiction
  | case3 c rest notFeed terminator found ih =>
    have chars := chars_of_ofChar? found
    have closed := (segments_close_iff (ofText rest) [] rest terminator).2 ⟨by simp, ?_, ih⟩
    · rw [chars] at closed
      exact closed
    · intro isReturn
      rw [isReturn] at chars
      obtain rfl : '\r' = c := (List.cons.inj chars).1
      intro feed
      obtain ⟨tail, rfl⟩ := List.head?_eq_some_iff.1 feed
      exact notFeed tail rfl rfl
  | case4 c rest _ stays ih => exact ih.extend (endsLine_eq_false_iff.2 stays)

theorem Segments.eq_ofText {lines : Lines} {text : List Char} (h : lines.Segments text) :
    lines = ofText text := by
  obtain ⟨closed, last⟩ := lines
  induction closed generalizing text with
  | nil =>
    obtain ⟨rfl, inLine⟩ := (segments_last_iff last text).1 h
    exact (ofText_of_inLine inLine).symm
  | cons line rest ih =>
    have split := toText_close ⟨rest, last⟩ line.content line.terminator
    obtain rfl := split.symm.trans h.toText_eq
    obtain ⟨inContent, alone, behind⟩ := (segments_close_iff ⟨rest, last⟩ _ _ _).1 h
    rw [ofText_line inContent alone, ← ih behind]
    rfl

/-- A text has one segmentation into lines, the one that splitting finds.  So the lines of a text
are the only ones that give it back with terminators put between them. -/
theorem segments_iff_eq_ofText (text : List Char) :
    (∀ lines : Lines, lines.Segments text ↔ lines = ofText text) ∧
    ∀ contents, (∃ lines : Lines, lines.Segments text ∧ lines.contents = contents) ↔
      contents = (ofText text).contents := by
  have unique : ∀ lines : Lines, lines.Segments text ↔ lines = ofText text := by
    intro lines
    constructor
    · exact Segments.eq_ofText
    · rintro rfl
      exact segments_ofText text
  refine ⟨unique, ?_⟩
  intro contents
  constructor
  · rintro ⟨lines, segments, rfl⟩
    rw [(unique lines).1 segments]
  · rintro rfl
    exact ⟨ofText text, segments_ofText text, rfl⟩

/-- A line feed joins the carriage return in front of it, and no other. -/
example : (ofText ['\n', '\r', '\r', '\n', 'a']).contents = [[], [], [], ['a']] := by decide

end Lines

end AnnotatedSource.Text
