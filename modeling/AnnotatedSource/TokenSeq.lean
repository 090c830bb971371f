import AnnotatedSource.Token
import AnnotatedSource.Boundary

/-!
Tokens in the order of the text.  Neighbours and contents of a span are found by binary search on
where tokens start and end, which is sound for tokens that do not overlap.
-/

set_option autoImplicit false
set_option relaxedAutoImplicit false

namespace AnnotatedSource

/-- Tokens in the order of the text. -/
structure TokenSeq where
  tokens : Array Token
deriving DecidableEq

namespace TokenSeq

def size (sequence : TokenSeq) : Nat := sequence.tokens.size

def get? (sequence : TokenSeq) (index : Nat) : Option Token := sequence.tokens[index]?

/-- The number of tokens that end at or before an offset. -/
def endingBy (sequence : TokenSeq) (offset : Nat) : Nat :=
  boundary sequence.tokens fun token => token.span.stop ≤ offset

/-- The number of tokens that start before an offset. -/
def startingBefore (sequence : TokenSeq) (offset : Nat) : Nat :=
  boundary sequence.tokens fun token => token.span.start < offset

/-- The index of the last token that ends at or before the start of a span. -/
def indexBefore? (sequence : TokenSeq) (target : Span) : Option Nat :=
  match sequence.endingBy target.start with
  | 0 => none
  | index + 1 => some index

/-- The index of the first token that starts at or after the end of a span. -/
def indexAfter? (sequence : TokenSeq) (target : Span) : Option Nat :=
  let index := sequence.startingBefore target.stop
  if index < sequence.size then some index else none

def before? (sequence : TokenSeq) (target : Span) : Option Token :=
  (sequence.indexBefore? target).bind sequence.get?

def after? (sequence : TokenSeq) (target : Span) : Option Token :=
  (sequence.indexAfter? target).bind sequence.get?

/-- The indices `[first, last)` of the tokens that start at or after an offset and end at or before
another one. -/
def boundsWithin (sequence : TokenSeq) (start stop : Nat) : Nat × Nat :=
  let first := sequence.startingBefore start
  (first, max (sequence.endingBy stop) first)

def within (sequence : TokenSeq) (start stop : Nat) : List Token :=
  let (first, last) := sequence.boundsWithin start stop
  (sequence.tokens.extract first last).toList

/-- The indices `[first, last)` of the tokens that lie inside a span. -/
def enclosedBounds (sequence : TokenSeq) (target : Span) : Nat × Nat :=
  sequence.boundsWithin target.start target.stop

def enclosed (sequence : TokenSeq) (target : Span) : List Token :=
  sequence.within target.start target.stop

def first? (sequence : TokenSeq) (target : Span) : Option Token :=
  (sequence.enclosed target).head?

def last? (sequence : TokenSeq) (target : Span) : Option Token :=
  (sequence.enclosed target).getLast?

/-- The tokens between the end of one span and the start of another. -/
def between (sequence : TokenSeq) (left right : Span) : List Token :=
  sequence.within left.stop right.start

/-- Code tokens and comments in one sequence ordered by start.  Where starts agree, code tokens
come before comments and each kind keeps its order. -/
def merge (tokens comments : List Token) : TokenSeq :=
  ⟨((tokens ++ comments).mergeSort fun left right => left.span.start ≤ right.span.start).toArray⟩

end TokenSeq

end AnnotatedSource
