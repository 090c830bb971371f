/-!
Texts are lists of characters measured in UTF-8 bytes.  A slice between two byte offsets is the
shortest run of whole characters that covers every byte between them.
-/

set_option autoImplicit false
set_option relaxedAutoImplicit false

namespace AnnotatedSource.Text

/-- The number of bytes that the characters of a text take. -/
def byteLength : List Char → Nat
  | [] => 0
  | c :: rest => c.utf8Size + byteLength rest

/-- The characters that own a byte in `[start, stop)`, the first one starting at `offset`. -/
def covering (start stop offset : Nat) : List Char → List Char
  | [] => []
  | c :: rest =>
    let next := offset + c.utf8Size
    if start < next ∧ offset < stop then c :: covering start stop next rest
    else covering start stop next rest

/-- The text between two byte offsets, cut at the end of the text and widened to whole characters;
nothing when no byte lies between them. -/
def slice (text : List Char) (start stop : Nat) : List Char :=
  let stop := min stop (byteLength text)
  if start < stop then covering start stop 0 text else []

theorem byteLength_append (left right : List Char) :
    byteLength (left ++ right) = byteLength left + byteLength right := by
  induction left with
  | nil => simp [byteLength]
  | cons c rest ih => simp only [List.cons_append, byteLength, ih]; omega

end AnnotatedSource.Text
