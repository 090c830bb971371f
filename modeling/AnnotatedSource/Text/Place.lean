import AnnotatedSource.Boundary
import AnnotatedSource.Span
import AnnotatedSource.Text.Lines

/-!
Byte offsets and positions name the same places of a text.  Every offset up to the length of the
text has a position; a position has an offset when its column stays on its line, where the
terminator belongs to the line it ends.
-/

set_option autoImplicit false
set_option relaxedAutoImplicit false

namespace AnnotatedSource.Text

/-- Why an offset or a position names no place. -/
inductive PlaceError where
  | offset (requested length : Nat)
  | line (requested count : Nat)
  | column (onLine requested length : Nat)
deriving DecidableEq

def PlaceError.message : PlaceError → String
  | .offset requested length =>
    "index out of range (requested index " ++ toString requested ++
      ", but source text has length " ++ toString length ++ ")"
  | .line requested count =>
    "line number out of range (line " ++ toString requested ++ " requested, but only " ++
      toString count ++ " lines present)"
  | .column onLine requested length =>
    "column number out of range (column " ++ toString requested ++
      " requested, but the length of line " ++ toString onLine ++ " is " ++ toString length ++ ")"

namespace Lines

/-- The offset at which a line starts, the lines counted from one. -/
def startOf (lines : Lines) (line : Nat) : Nat := lines.starts.getD (line - 1) 0

def length (lines : Lines) : Nat := byteLength lines.toText

/-- The offset at which a line, counted from one, is over: where the next line starts, or the end
of the text. -/
def stopOf (lines : Lines) (line : Nat) : Nat :=
  if line = lines.count then lines.length else lines.startOf (line + 1)

/-- The number of lines that start at or before an offset. -/
def lineAt (lines : Lines) (offset : Nat) : Nat :=
  boundary lines.starts.toArray fun start => start ≤ offset

end Lines

def positionAt (text : List Char) (offset : Nat) : Except PlaceError Position :=
  let lines := Lines.ofText text
  let length := byteLength text
  if length < offset then .error (.offset offset length)
  else if offset = length then .ok (.ofCounts lines.count (byteLength lines.last))
  else
    let line := lines.lineAt offset
    .ok (.ofCounts line (offset - lines.startOf line))

/-- The byte offset of a position.  A column may stand on the line's terminator but not behind it;
on the last line it may stand at the end of the text. -/
def offsetAt (text : List Char) (position : Position) : Except PlaceError Nat :=
  let lines := Lines.ofText text
  let line := position.line
  if line = 0 ∨ lines.count < line then .error (.line line lines.count)
  else
    let start := lines.startOf line
    let stop := lines.stopOf line
    let offset := start + position.column
    let beyond := if line = lines.count then stop < offset else stop ≤ offset
    if beyond then .error (.column line position.column (stop - start)) else .ok offset

end AnnotatedSource.Text
