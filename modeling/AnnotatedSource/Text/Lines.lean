import AnnotatedSource.Text.Slice

/-!
Lines of a text.  A text is cut after every line terminator into closed lines, each with the
terminator that ends it, and one last line that nothing ends.  The cut loses nothing:
`Lines.toText_ofText` puts the text back together.
-/

set_option autoImplicit false
set_option relaxedAutoImplicit false

namespace AnnotatedSource.Text

inductive Terminator where
  | returnFeed
  | carriageReturn
  | lineFeed
  | lineSeparator
  | paragraphSeparator
deriving DecidableEq

namespace Terminator

def chars : Terminator → List Char
  | .returnFeed => ['\r', '\n']
  | .carriageReturn => ['\r']
  | .lineFeed => ['\n']
  | .lineSeparator => ['\u2028']
  | .paragraphSeparator => ['\u2029']

def ofChar? (c : Char) : Option Terminator :=
  if c = '\r' then some .carriageReturn
  else if c = '\n' then some .lineFeed
  else if c = '\u2028' then some .lineSeparator
  else if c = '\u2029' then some .paragraphSeparator
  else none

end Terminator

def endsLine (c : Char) : Bool := (Terminator.ofChar? c).isSome

/-- A line and the terminator that ends it. -/
structure ClosedLine where
  content : List Char
  terminator : Terminator
deriving DecidableEq

def ClosedLine.chars (line : ClosedLine) : List Char :=
  line.content ++ line.terminator.chars

/-- A text cut into lines. -/
structure Lines where
  closed : List ClosedLine
  last : List Char
deriving DecidableEq

namespace Lines

def close (lines : Lines) (content : List Char) (terminator : Terminator) : Lines :=
  { lines with closed := ⟨content, terminator⟩ :: lines.closed }

def extend (lines : Lines) (c : Char) : Lines :=
  match lines.closed with
  | [] => { lines with last := c :: lines.last }
  | line :: rest => { lines with closed := { line with content := c :: line.content } :: rest }

/-- The lines of a text.  A carriage return and the line feed after it end one line together. -/
def ofText : List Char → Lines
  | [] => ⟨[], []⟩
  | '\r' :: '\n' :: rest => (ofText rest).close [] .returnFeed
  | c :: rest =>
    match Terminator.ofChar? c with
    | some terminator => (ofText rest).close [] terminator
    | none => (ofText rest).extend c

/-- The text that lines were cut from. -/
def toText (lines : Lines) : List Char :=
  lines.closed.flatMap ClosedLine.chars ++ lines.last

def contents (lines : Lines) : List (List Char) :=
  lines.closed.map ClosedLine.content ++ [lines.last]

/-- The number of lines: a text has one even when it is empty. -/
def count (lines : Lines) : Nat := lines.closed.length + 1

/-- The offsets at which lines start, the first of them at `offset`. -/
def startsFrom (offset : Nat) : List ClosedLine → List Nat
  | [] => [offset]
  | line :: rest => offset :: startsFrom (offset + byteLength line.chars) rest

def starts (lines : Lines) : List Nat := startsFrom 0 lines.closed

theorem toText_close (lines : Lines) (content : List Char) (terminator : Terminator) :
    (lines.close content terminator).toText = content ++ terminator.chars ++ lines.toText := by
  simp [close, toText, ClosedLine.chars]

private theorem toText_extend (lines : Lines) (c : Char) :
    (lines.extend c).toText = c :: lines.toText := by
  unfold extend
  split <;> rename_i h <;> simp [toText, h, ClosedLine.chars]

theorem chars_of_ofChar? {c : Char} {terminator : Terminator}
    (h : Terminator.ofChar? c = some terminator) : terminator.chars = [c] := by
  unfold Terminator.ofChar? at h
  by_cases carriageReturn : c = '\r'
  · simp only [carriageReturn, ↓reduceIte, Option.some.injEq] at h
    simp [← h, carriageReturn, Terminator.chars]
  · by_cases lineFeed : c = '\n'
    · simp only [lineFeed, Char.reduceEq, ↓reduceIte, Option.some.injEq] at h
      simp [← h, lineFeed, Terminator.chars]
    · by_cases lineSeparator : c = '\u2028'
      · simp only [lineSeparator, Char.reduceEq, ↓reduceIte, Option.some.injEq] at h
        simp [← h, lineSeparator, Terminator.chars]
      · by_cases paragraphSeparator : c = '\u2029'
        · simp only [paragraphSeparator, Char.reduceEq, ↓reduceIte, Option.some.injEq] at h
          simp [← h, paragraphSeparator, Terminator.chars]
        · simp [carriageReturn, lineFeed, lineSeparator, paragraphSeparator] at h

/-- Cutting a text into lines loses nothing. -/
theorem toText_ofText (text : List Char) : (ofText text).toText = text := by
  fun_induction ofText text with
  | case1 => rfl
  | case2 rest ih => simp [toText_close, ih, Terminator.chars]
  | case3 c rest _ terminator h ih => simp [toText_close, ih, chars_of_ofChar? h]
  | case4 c rest _ h ih => simp [toText_extend, ih]

theorem length_startsFrom (offset : Nat) (closed : List ClosedLine) :
    (startsFrom offset closed).length = closed.length + 1 := by
  induction closed generalizing offset with
  | nil => rfl
  | cons line rest ih => simp [startsFrom, ih]

theorem length_starts (lines : Lines) : lines.starts.length = lines.count :=
  length_startsFrom 0 lines.closed

end Lines

end AnnotatedSource.Text
