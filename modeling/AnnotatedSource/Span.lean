/-!
Offsets into a text count its UTF-8 bytes.  A span is a half-open interval of offsets; a position
names a place by line and column, and a location is the pair of positions a parser reports.
-/

set_option autoImplicit false
set_option relaxedAutoImplicit false

namespace AnnotatedSource

/-- The number of values an offset, a line or a column may take. -/
abbrev offsetBound : Nat := 0x100000000

/-- A half-open interval of byte offsets. -/
structure Span where
  start : Nat
  stop : Nat
  start_le_stop : start ≤ stop := by omega
  stop_lt : stop < offsetBound := by omega
deriving DecidableEq

namespace Span

/-- The span with the given ends, when they are in order and within bounds. -/
def ofEnds? (start stop : Nat) : Option Span :=
  if order : start ≤ stop then
    if bound : stop < offsetBound then some ⟨start, stop, order, bound⟩ else none
  else none

/-- A span contains its start but not its end. -/
def contains (span : Span) (offset : Nat) : Bool :=
  decide (span.start ≤ offset) && decide (offset < span.stop)

/-- The written form of a span is its two ends around two dots. -/
def render (span : Span) : List Char :=
  Nat.toDigits 10 span.start ++ ['.', '.'] ++ Nat.toDigits 10 span.stop

end Span

/-- A line counted from one and a column counted in bytes from zero. -/
structure Position where
  line : Nat
  column : Nat
  line_lt : line < offsetBound := by omega
  column_lt : column < offsetBound := by omega
deriving DecidableEq

namespace Position

/-- The origin that stands for a position nobody reported. -/
def zero : Position := ⟨0, 0, by decide, by decide⟩

/-- The position with the given line and column, when both are within bounds. -/
def ofCounts? (line column : Nat) : Option Position :=
  if lineBound : line < offsetBound then
    if columnBound : column < offsetBound then
      some ⟨line, column, lineBound, columnBound⟩
    else none
  else none

/-- The position with the given line and column, each counted modulo the bound. -/
def ofCounts (line column : Nat) : Position :=
  ⟨line % offsetBound, column % offsetBound, Nat.mod_lt _ (by decide), Nat.mod_lt _ (by decide)⟩

end Position

/-- The positions of the first byte and of the byte after the last one, as a parser reports them. -/
structure Location where
  start : Position
  stop : Position
deriving DecidableEq

def Location.zero : Location := ⟨Position.zero, Position.zero⟩

end AnnotatedSource
